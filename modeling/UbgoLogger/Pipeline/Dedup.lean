import UbgoLogger.Core.Metrics
import UbgoLogger.Core.Slog
import UbgoLogger.Foundation.Lines
import UbgoLogger.Foundation.Scan

namespace UbgoLogger
open Foundation Foundation.Text

variable {χ υ : Type}

structure DedupState where
  last : Time
  suppressed : UInt64

structure DedupProcessor where
  window : Int64
  seen : Bytes → Option DedupState

def newDedupProcessor (window : Int64) : DedupProcessor where
  window := if window ≤ 0 then 5000000000 else window
  seen := fun _ => none

namespace DedupProcessor

def key (r : Rec χ υ) : Bytes := r.level.string ++ 0 :: r.message

-- Process, which holds the mutex over its use of seen; none is ErrDrop.
def process (d : DedupProcessor) (now : Time) (r : Rec χ υ) : DedupProcessor × Option (Rec χ υ) :=
  let st := (d.seen (key r)).getD ⟨Time.zero, 0⟩
  if st.last.isZero = false ∧ Duration.sub now.instant st.last.instant < d.window.toInt then
    ({ d with seen := Function.update d.seen (key r) (some { st with suppressed := st.suppressed + 1 }) },
      none)
  else
    ({ d with seen := Function.update d.seen (key r) (some ⟨now, 0⟩) },
      some
        { r with
          fields :=
            if 0 < st.suppressed then
              r.fields ++ [uintField (ascii "deduped_count") st.suppressed]
            else r.fields })

-- The processor after a sequence of records, each with the clock as it was read for it.
def after (d : DedupProcessor) (xs : List (Rec χ υ × Time)) : DedupProcessor :=
  xs.foldl (fun d x => (d.process x.2 x.1).1) d

def outcome (d : DedupProcessor) (xs : List (Rec χ υ × Time)) (x : Rec χ υ × Time) :
    Option (Rec χ υ) :=
  ((d.after xs).process x.2 x.1).2

def SameRecord (r r' : Rec χ υ) : Prop :=
  r.level = r'.level ∧ r.message = r'.message ∧ r.eventName = r'.eventName

-- Whatever is dropped repeats a record that passed less than the window before.
def DropsRepeats (d : DedupProcessor) (xs : List (Rec χ υ × Time)) : Prop :=
  ∀ before x later, xs = before ++ x :: later → d.outcome before x = none →
    ∃ earlier y between, before = earlier ++ y :: between ∧ d.outcome earlier y ≠ none ∧
      SameRecord y.1 x.1 ∧ x.2.instant - y.2.instant < d.window.toInt

theorem after_concat (d : DedupProcessor) (xs : List (Rec χ υ × Time)) (x : Rec χ υ × Time) :
    d.after (xs ++ [x]) = ((d.after xs).process x.2 x.1).1 := by
  simp [after]

theorem window_process (d : DedupProcessor) (now : Time) (r : Rec χ υ) :
    (d.process now r).1.window = d.window := by
  simp only [process]
  split <;> rfl

theorem window_after (d : DedupProcessor) (xs : List (Rec χ υ × Time)) :
    (d.after xs).window = d.window := by
  induction xs using List.reverseRecOn with
  | nil => rfl
  | append_singleton xs x ih => rw [after_concat, window_process, ih]

theorem zero_notMem_string (l : Level) : (0 : Byte) ∉ l.string := by
  unfold Level.string
  repeat' split
  all_goals decide

theorem key_eq_iff (r r' : Rec χ υ) :
    key r = key r' ↔ r.level.string = r'.level.string ∧ r.message = r'.message := by
  refine ⟨fun h => ⟨?_, ?_⟩, fun h => by rw [key, key, h.1, h.2]⟩
  · have hband := congrArg (List.takeWhile (· ≠ 0)) h
    rwa [key, key, Lines.takeWhile_sep (zero_notMem_string _),
      Lines.takeWhile_sep (zero_notMem_string _)] at hband
  · have hmessage := congrArg (List.dropWhile (· ≠ 0)) h
    rw [key, key, Lines.dropWhile_sep (zero_notMem_string _),
      Lines.dropWhile_sep (zero_notMem_string _)] at hmessage
    exact (List.cons.inj hmessage).2

theorem SameRecord.key_eq {r r' : Rec χ υ} (h : SameRecord r r') : key r = key r' := by
  rw [key, key, h.1, h.2.1]

-- The two ways through Process.
theorem process_cases (d : DedupProcessor) (now : Time) (r : Rec χ υ) :
    (∃ st, d.seen (key r) = some st ∧ st.last.isZero = false ∧
      Duration.sub now.instant st.last.instant < d.window.toInt ∧ (d.process now r).2 = none ∧
      (d.process now r).1.seen =
        Function.update d.seen (key r) (some { st with suppressed := st.suppressed + 1 })) ∨
    (∀ st, d.seen (key r) = some st → st.last.isZero = false →
      d.window.toInt ≤ Duration.sub now.instant st.last.instant) ∧ (d.process now r).2 ≠ none ∧
      (d.process now r).1.seen = Function.update d.seen (key r) (some ⟨now, 0⟩) := by
  simp only [process]
  split
  next h =>
    cases hseen : d.seen (key r) with
    | none =>
      rw [hseen] at h
      exact absurd h.1 (by decide)
    | some st =>
      rw [hseen] at h
      exact .inl ⟨st, rfl, h.1, h.2, rfl, rfl⟩
  next h =>
    refine .inr ⟨fun st hst hlast => ?_, Option.some_ne_none _, rfl⟩
    rw [hst] at h
    exact not_lt.mp fun hlt => h ⟨hlast, hlt⟩

theorem seen_process_of_ne (d : DedupProcessor) (now : Time) (r : Rec χ υ) {k : Bytes}
    (h : key r ≠ k) : (d.process now r).1.seen k = d.seen k := by
  rcases process_cases d now r with ⟨st, -, -, -, -, hseen⟩ | ⟨-, -, hseen⟩
  · rw [hseen, Function.update_of_ne h.symm]
  · rw [hseen, Function.update_of_ne h.symm]

theorem seen_process_self (d : DedupProcessor) (now : Time) (r : Rec χ υ) :
    (d.process now r).1.seen (key r) ≠ none := by
  rcases process_cases d now r with ⟨st, -, -, -, -, hseen⟩ | ⟨-, -, hseen⟩
  · rw [hseen, Function.update_self]
    exact Option.some_ne_none _
  · rw [hseen, Function.update_self]
    exact Option.some_ne_none _

-- y is the last record to pass under the key k: it opened the window that is on.
def Opens (d : DedupProcessor) (xs : List (Rec χ υ × Time)) (k : Bytes) (y : Rec χ υ × Time) :
    Prop :=
  ∃ earlier between, xs = earlier ++ y :: between ∧ d.outcome earlier y ≠ none ∧ key y.1 = k ∧
    ∀ mid z rest, between = mid ++ z :: rest → key z.1 = k → d.outcome (earlier ++ y :: mid) z = none

section Opens

variable {d : DedupProcessor} {xs : List (Rec χ υ × Time)} {k : Bytes} {x y : Rec χ υ × Time}

theorem opens_concat (h : d.outcome xs x ≠ none) : d.Opens (xs ++ [x]) (key x.1) x :=
  ⟨xs, [], rfl, h, rfl, fun _ _ _ hsplit _ => absurd hsplit (by simp)⟩

theorem Opens.concat (h : d.Opens xs k y) (hx : key x.1 = k → d.outcome xs x = none) :
    d.Opens (xs ++ [x]) k y := by
  obtain ⟨earlier, between, rfl, hpass, hkey, hlast⟩ := h
  refine ⟨earlier, between ++ [x], by simp, hpass, hkey, fun mid z rest hsplit hz => ?_⟩
  rcases split_concat hsplit with ⟨rfl, rfl⟩ | ⟨rest', hold⟩
  · exact hx hz
  · exact hlast mid z rest' hold hz

-- No other record of the key passed after y.
theorem Opens.latest (h : d.Opens xs k y) {earlier between : List (Rec χ υ × Time)}
    (hxs : xs = earlier ++ x :: between) (hpass : d.outcome earlier x ≠ none) (hkey : key x.1 = k) :
    x = y ∨ ∃ mid rest, between = mid ++ y :: rest ∧ d.outcome (earlier ++ x :: mid) y ≠ none := by
  obtain ⟨earlier', between', rfl, hpass', -, hlast⟩ := h
  rcases List.append_eq_append_iff.mp hxs with ⟨as, rfl, hsplit⟩ | ⟨as, rfl, hsplit⟩
  · cases as with
    | nil =>
      obtain ⟨rfl, -⟩ := List.cons.inj hsplit
      exact .inl rfl
    | cons z mid =>
      obtain ⟨rfl, hbetween⟩ := List.cons.inj hsplit
      exact absurd (hlast mid x between hbetween hkey) hpass
  · cases as with
    | nil =>
      obtain ⟨rfl, -⟩ := List.cons.inj hsplit
      exact .inl rfl
    | cons z mid =>
      obtain ⟨rfl, rfl⟩ := List.cons.inj hsplit
      exact .inr ⟨mid, between', rfl, hpass'⟩

end Opens

-- A time that is remembered for a key is the clock reading of the last record that passed under it.
theorem last_after (window : Int64) (xs : List (Rec χ υ × Time)) {k : Bytes} {st : DedupState}
    (h : ((newDedupProcessor window).after xs).seen k = some st) :
    ∃ y, (newDedupProcessor window).Opens xs k y ∧ y.2 = st.last := by
  induction xs using List.reverseRecOn generalizing st with
  | nil => cases h
  | append_singleton xs x ih =>
    rw [after_concat] at h
    by_cases hk : key x.1 = k
    · subst hk
      rcases process_cases ((newDedupProcessor window).after xs) x.2 x.1 with
        ⟨st', hseen, -, -, hdrop, hupdate⟩ | ⟨-, hpass, hupdate⟩
      · rw [hupdate, Function.update_self] at h
        cases h
        obtain ⟨y, hopens, hlast⟩ := ih hseen
        exact ⟨y, hopens.concat fun _ => hdrop, hlast⟩
      · rw [hupdate, Function.update_self] at h
        cases h
        exact ⟨x, opens_concat hpass, rfl⟩
    · rw [seen_process_of_ne _ _ _ hk] at h
      obtain ⟨y, hopens, hlast⟩ := ih h
      exact ⟨y, hopens.concat fun hx => absurd hx hk, hlast⟩

theorem window_pos (window : Int64) : 0 < (newDedupProcessor window).window.toInt := by
  unfold newDedupProcessor
  dsimp only
  split
  next => decide
  next h => exact Int64.lt_iff_toInt_lt.mp (Int64.not_le.mp h)

theorem sub_lt_iff {w : Int64} (hw : 0 < w.toInt) (t u : Int) :
    Duration.sub t u < w.toInt ↔ t - u < w.toInt := by
  have hlt := w.toInt_lt
  unfold Duration.sub
  omega

theorem seen_after (window : Int64) (xs : List (Rec χ υ × Time)) (k : Bytes) :
    ((newDedupProcessor window).after xs).seen k = none ↔ ∀ y ∈ xs, key y.1 ≠ k := by
  induction xs using List.reverseRecOn with
  | nil => exact ⟨fun _ _ hy => absurd hy List.not_mem_nil, fun _ => rfl⟩
  | append_singleton xs x ih =>
    rw [after_concat, List.forall_mem_append, List.forall_mem_singleton]
    by_cases hk : key x.1 = k
    · subst hk
      exact iff_of_false (seen_process_self _ _ _) fun h => h.2 rfl
    · rw [seen_process_of_ne _ _ _ hk, ih]
      exact (and_iff_left hk).symm

-- With the clock standing still the first record of a key passes, and no other.
theorem outcome_frozen (window : Int64) {t : Time} (ht : t.isZero = false)
    {xs : List (Rec χ υ × Time)} (hxs : ∀ x ∈ xs, x.2 = t) (r : Rec χ υ) :
    (newDedupProcessor window).outcome xs (r, t) = none ↔ ∃ y ∈ xs, key y.1 = key r := by
  have hseen : ((newDedupProcessor window).after xs).seen (key r) ≠ none ↔
      ∃ y ∈ xs, key y.1 = key r := by
    rw [ne_eq, seen_after]
    push Not
    rfl
  rcases process_cases ((newDedupProcessor window).after xs) t r with
    ⟨st, hst, -, -, hnone, -⟩ | ⟨hold, hpass, -⟩
  · exact iff_of_true hnone (hseen.mp (hst ▸ Option.some_ne_none st))
  · refine iff_of_false hpass fun hex => ?_
    obtain ⟨st, hst⟩ := Option.ne_none_iff_exists'.mp (hseen.mpr hex)
    obtain ⟨y, ⟨earlier, between, rfl, -⟩, hlast⟩ := last_after window xs hst
    obtain rfl : st.last = t := hlast ▸ hxs y (by simp)
    have hle := hold st hst ht
    rw [window_after] at hle
    have hpos := window_pos window
    rw [Duration.sub] at hle
    omega

section Sequences

variable {window : Int64} {rs : List (Rec χ υ)}

theorem dropsRepeats_of_opens {xs : List (Rec χ υ × Time)}
    (h : ∀ before x later, xs = before ++ x :: later →
      (newDedupProcessor window).outcome before x = none →
      ∀ y, (newDedupProcessor window).Opens before (key x.1) y →
        y.1.level = x.1.level ∧ y.1.eventName = x.1.eventName) :
    (newDedupProcessor window).DropsRepeats xs := by
  intro before x later hxs hdrop
  rcases process_cases ((newDedupProcessor window).after before) x.2 x.1 with
    ⟨st, hst, -, hlt, -, -⟩ | ⟨-, hpass, -⟩
  · obtain ⟨y, hopens, hlast⟩ := last_after window before hst
    obtain ⟨hlevel, hevent⟩ := h before x later hxs hdrop y hopens
    obtain ⟨earlier, between, rfl, hpass, hkey, -⟩ := hopens
    rw [window_after, ← hlast, sub_lt_iff (window_pos window)] at hlt
    exact ⟨earlier, y, between, rfl, hpass, ⟨hlevel, ((key_eq_iff y.1 x.1).mp hkey).2, hevent⟩, hlt⟩
  · exact absurd hdrop hpass

theorem dropsRepeats_of_distinct
    (h : ∀ r ∈ rs, ∀ r' ∈ rs, r.level.string = r'.level.string → r.message = r'.message →
      r.level = r'.level ∧ r.eventName = r'.eventName)
    {xs : List (Rec χ υ × Time)} (hxs : xs.map Prod.fst = rs) :
    (newDedupProcessor window).DropsRepeats xs := by
  subst hxs
  refine dropsRepeats_of_opens fun before x later hxs _ y hopens => ?_
  obtain ⟨earlier, between, rfl, -, hkey, -⟩ := hopens
  obtain ⟨hband, hmessage⟩ := (key_eq_iff y.1 x.1).mp hkey
  exact h y.1 (by simp [hxs]) x.1 (by simp [hxs]) hband hmessage

-- Two records of one key that pass are a window apart.
theorem passed_apart {zs earlier between : List (Rec χ υ × Time)} {x y : Rec χ υ × Time}
    (hzs : zs = earlier ++ x :: between) (hzero : ∀ z ∈ zs, z.2.isZero = false)
    (hclock : zs.Pairwise fun a b => a.2.instant ≤ b.2.instant)
    (hx : (newDedupProcessor window).outcome earlier x ≠ none) (hkey : key x.1 = key y.1)
    (hy : (newDedupProcessor window).outcome zs y ≠ none) :
    (newDedupProcessor window).window.toInt ≤ y.2.instant - x.2.instant := by
  have hseen : ((newDedupProcessor window).after zs).seen (key y.1) ≠ none := fun hnone =>
    (seen_after window zs _).mp hnone x (by simp [hzs]) hkey
  obtain ⟨st, hst⟩ := Option.ne_none_iff_exists'.mp hseen
  obtain ⟨z, hopens, hlast⟩ := last_after window zs hst
  have hz : z ∈ zs := by
    obtain ⟨front, back, rfl, -⟩ := hopens
    simp
  have horder : x.2.instant ≤ z.2.instant := by
    rcases hopens.latest hzs hx hkey with rfl | ⟨mid, rest, rfl, -⟩
    · exact le_rfl
    · rw [hzs, List.pairwise_append] at hclock
      exact (List.pairwise_cons.mp hclock.2.1).1 z (by simp)
  rcases process_cases ((newDedupProcessor window).after zs) y.2 y.1 with
    ⟨-, -, -, -, hdrop, -⟩ | ⟨hold, -, -⟩
  · exact absurd hdrop hy
  · have hwindow := hold st hst (hlast ▸ hzero z hz)
    rw [window_after, ← hlast, ← not_lt, sub_lt_iff (window_pos window), not_lt] at hwindow
    omega

-- On a clock that does not go back, a drop is a repeat exactly if it repeats the record that
-- opened its window.
theorem dropsRepeats_at_iff (window : Int64) {xs : List (Rec χ υ × Time)}
    (hclock : xs.Pairwise fun a b => a.2.instant ≤ b.2.instant)
    (hzero : ∀ x ∈ xs, x.2.isZero = false) :
    (newDedupProcessor window).DropsRepeats xs ↔ ∀ before x later, xs = before ++ x :: later →
      (newDedupProcessor window).outcome before x = none →
      ∀ y, (newDedupProcessor window).Opens before (key x.1) y →
        y.1.level = x.1.level ∧ y.1.eventName = x.1.eventName := by
  refine ⟨fun h before x later hxs hdrop y hopens => ?_, dropsRepeats_of_opens⟩
  obtain ⟨earlier, z, between, hbefore, hpass, hsame, hlt⟩ := h before x later hxs hdrop
  rcases hopens.latest hbefore hpass hsame.key_eq with rfl | ⟨mid, rest, rfl, hy⟩
  · exact ⟨hsame.1, hsame.2.2⟩
  · have hkey : key y.1 = key x.1 := by
      obtain ⟨-, -, -, -, hkey, -⟩ := hopens
      exact hkey
    have hall : xs = (earlier ++ z :: mid) ++ y :: (rest ++ x :: later) := by
      rw [hxs, hbefore]
      simp
    rw [hall] at hclock hzero
    have hapart := passed_apart rfl (fun w hw => hzero w (List.mem_append_left _ hw))
      (List.pairwise_append.mp hclock).1 hpass (hsame.key_eq.trans hkey.symm) hy
    have hlater : y.2.instant ≤ x.2.instant :=
      (List.pairwise_cons.mp (List.pairwise_append.mp hclock).2.1).1 x (by simp)
    omega

-- Under a standing clock a record that is dropped only for a repeat is its key's first record.
theorem sameRecord_find (t : Time) (ht : t.isZero = false)
    (h : (newDedupProcessor window).DropsRepeats (rs.map fun r => (r, t))) {r : Rec χ υ}
    (hr : r ∈ rs) : ∃ f, rs.find? (fun q => key q = key r) = some f ∧ SameRecord f r := by
  obtain ⟨before, later, rfl⟩ := List.append_of_mem hr
  have hfrozen : ∀ (qs : List (Rec χ υ)) (r : Rec χ υ),
      (newDedupProcessor window).outcome (qs.map fun r => (r, t)) (r, t) = none ↔
        ∃ q ∈ qs, key q = key r := by
    intro qs r
    rw [outcome_frozen window ht (by simp)]
    simp
  by_cases hfirst : ∃ q ∈ before, key q = key r
  · obtain ⟨earlier, y, between, hbefore, hpass, hsame, -⟩ :=
      h (before.map fun r => (r, t)) (r, t) (later.map fun r => (r, t)) (by simp)
        ((hfrozen before r).mpr hfirst)
    obtain ⟨ps, qs, rfl, rfl, hqs⟩ := List.map_eq_append_iff.mp hbefore
    obtain ⟨f, qs, rfl, rfl, -⟩ := List.map_eq_cons_iff.mp hqs
    have hnew : ∀ q ∈ ps, key q ≠ key r := by
      simpa [hfrozen, hsame.key_eq] using hpass
    refine ⟨f, ?_, hsame⟩
    rw [List.append_assoc, List.find?_append, List.find?_eq_none.mpr (by simpa using hnew)]
    simp [hsame.key_eq]
  · push Not at hfirst
    refine ⟨r, ?_, rfl, rfl, rfl⟩
    rw [List.find?_append, List.find?_eq_none.mpr (by simpa using hfirst)]
    simp

theorem dropsRepeats_iff (window : Int64) (rs : List (Rec χ υ)) :
    (∀ xs, xs.map Prod.fst = rs → (newDedupProcessor window).DropsRepeats xs) ↔
    ∀ r ∈ rs, ∀ r' ∈ rs, r.level.string = r'.level.string → r.message = r'.message →
      r.level = r'.level ∧ r.eventName = r'.eventName := by
  refine ⟨fun h r hr r' hr' hband hmessage => ?_, fun h xs hxs => dropsRepeats_of_distinct h hxs⟩
  have hrepeats := h (rs.map fun r => (r, Time.epoch)) (by simp [Function.comp_def])
  obtain ⟨f, hf, hsame⟩ := sameRecord_find _ (by decide) hrepeats hr
  obtain ⟨f', hf', hsame'⟩ := sameRecord_find _ (by decide) hrepeats hr'
  rw [(key_eq_iff r r').mpr ⟨hband, hmessage⟩] at hf
  obtain rfl := Option.some.inj (hf.symm.trans hf')
  exact ⟨hsame.1.symm.trans hsame'.1, hsame.2.2.symm.trans hsame'.2.2⟩

def dedupRecord (level : Level) (eventName : Bytes) : Rec Unit Unit where
  time := Time.epoch
  level := level
  message := []
  pc := 0
  eventName := eventName
  fields := []
  ctx := none

theorem dropsRepeats_iff_repeated :
    (newDedupProcessor 0).DropsRepeats
      [(dedupRecord Level.info (ascii "login"), Time.epoch),
        (dedupRecord Level.info (ascii "login"), Time.epoch)] :=
  (dropsRepeats_iff 0 [dedupRecord Level.info (ascii "login"),
    dedupRecord Level.info (ascii "login")]).mpr (by decide) _ rfl

theorem dedup_drops_other_event :
    (newDedupProcessor 0).outcome [] (dedupRecord Level.info (ascii "login"), Time.epoch) ≠ none ∧
    (newDedupProcessor 0).outcome [(dedupRecord Level.info (ascii "login"), Time.epoch)]
      (dedupRecord Level.info (ascii "logout"), Time.epoch) = none ∧
    (newDedupProcessor 0).outcome [(dedupRecord Level.info (ascii "login"), Time.epoch)]
      (dedupRecord (Level.info + 1) (ascii "login"), Time.epoch) = none ∧
    ¬ (newDedupProcessor 0).DropsRepeats
      [(dedupRecord Level.info (ascii "login"), Time.epoch),
        (dedupRecord Level.info (ascii "logout"), Time.epoch)] := by
  refine ⟨by decide, by decide, by decide, fun h => ?_⟩
  obtain ⟨earlier, y, between, hbefore, -, ⟨-, -, hevent⟩, -⟩ :=
    h [(dedupRecord Level.info (ascii "login"), Time.epoch)]
      (dedupRecord Level.info (ascii "logout"), Time.epoch) [] rfl (by decide)
  have hy : y ∈ [(dedupRecord Level.info (ascii "login"), Time.epoch)] := by simp [hbefore]
  obtain rfl := List.mem_singleton.mp hy
  exact absurd hevent (by decide)

end Sequences

end DedupProcessor

end UbgoLogger
