import UbgoLogger.Pipeline.Dedup

namespace UbgoLogger.DedupProcessor
open Foundation.Text

variable {χ υ : Type}

-- A call of Process: its record, the clock reading, and the record it let through.
structure Processed (χ υ : Type) where
  record : Rec χ υ
  now : Time
  out : Option (Rec χ υ)

def trace (d : DedupProcessor) : List (Rec χ υ × Time) → List (Processed χ υ)
  | [] => []
  | x :: xs => ⟨x.1, x.2, (d.process x.2 x.1).2⟩ :: trace (d.process x.2 x.1).1 xs

def ofKey (k : Bytes) (es : List (Processed χ υ)) : List (Processed χ υ) :=
  es.filter fun e => key e.record = k

def drops (es : List (Processed χ υ)) : Nat := es.countP fun e => e.out.isNone

def passTimes (es : List (Processed χ υ)) : List Time :=
  es.filterMap fun e => e.out.map fun _ => e.now

-- The deduped_count that Process added to the fields of r.
def dedupedCount (r out : Rec χ υ) : UInt64 :=
  match out.fields.drop r.fields.length with
  | [f] => if f.key = ascii "deduped_count" ∧ f.knd = .uint64 then f.num else 0
  | _ => 0

def counts (es : List (Processed χ υ)) : List UInt64 :=
  es.filterMap fun e => e.out.map (dedupedCount e.record)

-- The suppressed counter kept for a key.
def stored (d : DedupProcessor) (k : Bytes) : UInt64 := ((d.seen k).map DedupState.suppressed).getD 0

section Calls

variable (d : DedupProcessor) (now : Time) (r : Rec χ υ)

theorem after_cons (x : Rec χ υ × Time) (xs : List (Rec χ υ × Time)) :
    d.after (x :: xs) = (d.process x.2 x.1).1.after xs :=
  rfl

theorem stored_process_of_ne {k : Bytes} (h : key r ≠ k) :
    (d.process now r).1.stored k = d.stored k := by
  rw [stored, seen_process_of_ne d now r h, stored]

theorem dedupedCount_append (f : Field χ) :
    dedupedCount r { r with fields := r.fields ++ [f] } =
      if f.key = ascii "deduped_count" ∧ f.knd = .uint64 then f.num else 0 := by
  simp [dedupedCount]

theorem dedupedCount_process {out : Rec χ υ} (h : (d.process now r).2 = some out) :
    dedupedCount r out = d.stored (key r) := by
  have hstored : ((d.seen (key r)).getD ⟨Time.zero, 0⟩).suppressed = d.stored (key r) := by
    unfold stored
    cases d.seen (key r) <;> rfl
  simp only [process] at h
  split at h
  next => cases h
  next =>
    cases h
    rw [hstored]
    split
    next => simp [dedupedCount_append, uintField]
    next hn =>
      have hzero : d.stored (key r) = 0 := by simpa using hn
      simp [dedupedCount, hzero]

-- What a call does under the key of its record.
theorem process_key :
    (∃ st, d.seen (key r) = some st ∧ st.last.isZero = false ∧
      Duration.sub now.instant st.last.instant < d.window.toInt ∧ (d.process now r).2 = none ∧
      (d.process now r).1.seen (key r) = some { st with suppressed := st.suppressed + 1 }) ∨
    (∀ st, d.seen (key r) = some st → st.last.isZero = false →
      d.window.toInt ≤ Duration.sub now.instant st.last.instant) ∧
    ∃ out, (d.process now r).2 = some out ∧ dedupedCount r out = d.stored (key r) ∧
      (d.process now r).1.seen (key r) = some ⟨now, 0⟩ := by
  rcases process_cases d now r with ⟨st, hst, hlast, hlt, hnone, hseen⟩ | ⟨hold, hpass, hseen⟩
  · exact .inl ⟨st, hst, hlast, hlt, hnone, by rw [hseen, Function.update_self]⟩
  · obtain ⟨out, hout⟩ := Option.ne_none_iff_exists'.mp hpass
    exact .inr ⟨hold, out, hout, dedupedCount_process d now r hout,
      by rw [hseen, Function.update_self]⟩

end Calls

section Sequences

variable {k : Bytes}

theorem counts_dropped (r : Rec χ υ) (now : Time) (es : List (Processed χ υ)) :
    counts (⟨r, now, none⟩ :: es) = counts es :=
  rfl

theorem counts_passed (r out : Rec χ υ) (now : Time) (es : List (Processed χ υ)) :
    counts (⟨r, now, some out⟩ :: es) = dedupedCount r out :: counts es :=
  rfl

theorem drops_dropped (r : Rec χ υ) (now : Time) (es : List (Processed χ υ)) :
    drops (⟨r, now, none⟩ :: es) = drops es + 1 := by
  simp [drops]

theorem drops_passed (r out : Rec χ υ) (now : Time) (es : List (Processed χ υ)) :
    drops (⟨r, now, some out⟩ :: es) = drops es := by
  simp [drops]

theorem passTimes_dropped (r : Rec χ υ) (now : Time) (es : List (Processed χ υ)) :
    passTimes (⟨r, now, none⟩ :: es) = passTimes es :=
  rfl

theorem passTimes_passed (r out : Rec χ υ) (now : Time) (es : List (Processed χ υ)) :
    passTimes (⟨r, now, some out⟩ :: es) = now :: passTimes es :=
  rfl

theorem ofKey_cons_self {x : Rec χ υ × Time} (h : key x.1 = k) (d : DedupProcessor)
    (xs : List (Rec χ υ × Time)) : ofKey k (d.trace (x :: xs)) =
      ⟨x.1, x.2, (d.process x.2 x.1).2⟩ :: ofKey k ((d.process x.2 x.1).1.trace xs) := by
  simp [ofKey, trace, h]

theorem ofKey_cons_ne {x : Rec χ υ × Time} (h : key x.1 ≠ k) (d : DedupProcessor)
    (xs : List (Rec χ υ × Time)) :
    ofKey k (d.trace (x :: xs)) = ofKey k ((d.process x.2 x.1).1.trace xs) := by
  simp [ofKey, trace, h]

-- Records of other keys could as well not be there.
theorem trace_filter (xs : List (Rec χ υ × Time)) {d d' : DedupProcessor}
    (hwindow : d'.window = d.window) (hseen : d'.seen k = d.seen k) :
    d'.trace (xs.filter fun x => key x.1 = k) = ofKey k (d.trace xs) ∧
      (d'.after (xs.filter fun x => key x.1 = k)).seen k = (d.after xs).seen k := by
  induction xs generalizing d d' with
  | nil => exact ⟨rfl, hseen⟩
  | cons x xs ih =>
    have hwindows : (d'.process x.2 x.1).1.window = (d.process x.2 x.1).1.window := by
      rw [window_process, window_process, hwindow]
    by_cases hk : key x.1 = k
    · subst hk
      have hsame : (d'.process x.2 x.1).2 = (d.process x.2 x.1).2 ∧
          (d'.process x.2 x.1).1.seen (key x.1) = (d.process x.2 x.1).1.seen (key x.1) := by
        simp only [process, hseen, hwindow]
        split <;> simp
      obtain ⟨htrace, hafter⟩ := ih hwindows hsame.2
      rw [ofKey_cons_self rfl, List.filter_cons_of_pos (by simp), trace, after_cons, after_cons,
        htrace, hafter, hsame.1]
      exact ⟨rfl, rfl⟩
    · rw [ofKey_cons_ne hk, List.filter_cons_of_neg (by simpa using hk), after_cons]
      exact ih (hwindow.trans (window_process d x.2 x.1).symm)
        (hseen.trans (seen_process_of_ne d x.2 x.1 hk).symm)

theorem stored_of_seen {d : DedupProcessor} {st : DedupState} (h : d.seen k = some st) :
    d.stored k = st.suppressed := by
  simp [stored, h]

-- Every suppression is reported, still stored, or lost with 2^64 others when the counter wraps.
theorem counts_sum (d : DedupProcessor) (xs : List (Rec χ υ × Time)) (k : Bytes) :
    ∃ wraps, ((counts (ofKey k (d.trace xs))).map UInt64.toNat).sum + ((d.after xs).stored k).toNat +
      2 ^ 64 * wraps = (d.stored k).toNat + drops (ofKey k (d.trace xs)) := by
  induction xs generalizing d with
  | nil => exact ⟨0, by simp [trace, ofKey, counts, drops, after]⟩
  | cons x xs ih =>
    obtain ⟨wraps, hrest⟩ := ih (d.process x.2 x.1).1
    rw [after_cons]
    by_cases hk : key x.1 = k
    · subst hk
      rw [ofKey_cons_self rfl]
      rcases process_key d x.2 x.1 with ⟨st, hst, -, -, hnone, hseen⟩ | ⟨-, out, hout, hcount, hseen⟩
      · have hadd := UInt64.toNat_add st.suppressed 1
        rw [stored_of_seen hseen] at hrest
        rw [hnone, counts_dropped, drops_dropped, stored_of_seen hst]
        dsimp only [UInt64.reduceToNat] at hadd hrest
        by_cases hwrap : st.suppressed.toNat + 1 < 2 ^ 64
        · exact ⟨wraps, by omega⟩
        · exact ⟨wraps + 1, by have := st.suppressed.toNat_lt; omega⟩
      · rw [stored_of_seen hseen] at hrest
        rw [hout, counts_passed, drops_passed, hcount]
        refine ⟨wraps, ?_⟩
        simp only [List.map_cons, List.sum_cons, UInt64.toNat_zero] at hrest ⊢
        omega
    · rw [ofKey_cons_ne hk]
      rw [stored_process_of_ne d x.2 x.1 hk] at hrest
      exact ⟨wraps, hrest⟩

theorem drops_le (d : DedupProcessor) (xs : List (Rec χ υ × Time)) (k : Bytes) :
    drops (ofKey k (d.trace xs)) ≤ xs.countP fun x => key x.1 = k := by
  induction xs generalizing d with
  | nil => exact le_rfl
  | cons x xs ih =>
    have hrest := ih (d.process x.2 x.1).1
    by_cases hk : key x.1 = k
    · rw [ofKey_cons_self hk, drops, List.countP_cons, List.countP_cons_of_pos (by simpa using hk)]
      refine Nat.add_le_add hrest ?_
      split <;> simp
    · rw [ofKey_cons_ne hk, List.countP_cons_of_neg (by simpa using hk)]
      exact hrest

def Apart (window : Int) (t u : Time) : Prop := window ≤ u.instant - t.instant

-- A pass comes a window after the one that is remembered, and each later one after its own.
theorem passTimes_chain (d : DedupProcessor) (hpos : 0 < d.window.toInt)
    {xs : List (Rec χ υ × Time)} (hclock : ∀ x ∈ xs, x.2.isZero = false) (k : Bytes) :
    (passTimes (ofKey k (d.trace xs))).IsChain (Apart d.window.toInt) ∧
    ∀ st, d.seen k = some st → st.last.isZero = false →
      (st.last :: passTimes (ofKey k (d.trace xs))).IsChain (Apart d.window.toInt) := by
  induction xs generalizing d with
  | nil => exact ⟨.nil, fun st _ _ => .singleton _⟩
  | cons x xs ih =>
    obtain ⟨hnow, hxs⟩ := List.forall_mem_cons.mp hclock
    have hrest := ih (d.process x.2 x.1).1 (window_process d x.2 x.1 ▸ hpos) hxs
    rw [window_process] at hrest
    by_cases hk : key x.1 = k
    · subst hk
      rw [ofKey_cons_self rfl]
      rcases process_key d x.2 x.1 with ⟨st, hst, hlast, -, hnone, hseen⟩ | ⟨hold, out, hout, -, hseen⟩
      · rw [hnone, passTimes_dropped]
        refine ⟨hrest.1, fun st' hst' _ => ?_⟩
        cases hst.symm.trans hst'
        exact hrest.2 ⟨st.last, st.suppressed + 1⟩ hseen hlast
      · rw [hout, passTimes_passed]
        have hchain := hrest.2 _ hseen hnow
        refine ⟨hchain, fun st hst hlast => .cons_cons ?_ hchain⟩
        exact not_lt.mp fun hlt => absurd (hold st hst hlast) (not_le.mpr ((sub_lt_iff hpos _ _).mpr hlt))
    · rw [ofKey_cons_ne hk]
      rwa [seen_process_of_ne d x.2 x.1 hk] at hrest

theorem first_passes (d : DedupProcessor) (xs : List (Rec χ υ × Time)) {k : Bytes}
    (hnew : d.seen k = none) : ∀ e ∈ (ofKey k (d.trace xs)).head?, e.out ≠ none := by
  induction xs generalizing d with
  | nil => simp [trace, ofKey]
  | cons x xs ih =>
    by_cases hk : key x.1 = k
    · subst hk
      rw [ofKey_cons_self rfl, List.head?_cons]
      rintro e ⟨⟩
      rcases process_key d x.2 x.1 with ⟨st, hst, -⟩ | ⟨-, out, hout, -⟩
      · cases hnew.symm.trans hst
      · exact hout ▸ Option.some_ne_none out
    · rw [ofKey_cons_ne hk]
      exact ih _ ((seen_process_of_ne d x.2 x.1 hk).trans hnew)

end Sequences

theorem dedup_counts_suppressions (window : Int64) (xs : List (Rec χ υ × Time))
    (hclock : ∀ x ∈ xs, x.2.isZero = false) (k : Bytes) :
    let d := newDedupProcessor window
    let es := ofKey k (d.trace xs)
    (((counts es).map UInt64.toNat).sum + ((d.after xs).stored k).toNat ≡ drops es [MOD 2 ^ 64]) ∧
    (xs.countP (fun x => key x.1 = k) < 2 ^ 64 →
      ((counts es).map UInt64.toNat).sum + ((d.after xs).stored k).toNat = drops es) ∧
    (passTimes es).IsChain (fun t u => d.window.toInt ≤ u.instant - t.instant) ∧
    (∀ e ∈ es.head?, e.out ≠ none) ∧
    d.trace (xs.filter fun x => key x.1 = k) = es ∧
    (d.after (xs.filter fun x => key x.1 = k)).stored k = (d.after xs).stored k := by
  intro d es
  obtain ⟨wraps, hsum⟩ : ∃ wraps, ((counts es).map UInt64.toNat).sum +
      ((d.after xs).stored k).toNat + 2 ^ 64 * wraps = (d.stored k).toNat + drops es :=
    counts_sum d xs k
  have hzero : (d.stored k).toNat = 0 := rfl
  obtain ⟨htrace, hseen⟩ := trace_filter (k := k) xs (rfl : d.window = d.window) rfl
  refine ⟨?_, fun hfew => ?_, (passTimes_chain d (window_pos window) hclock k).1,
    first_passes d xs rfl, htrace, by rw [stored, hseen]; rfl⟩
  · rw [Nat.ModEq, ← Nat.add_mul_mod_self_left _ (2 ^ 64) wraps, hsum, hzero, Nat.zero_add]
  · have hle : drops es ≤ _ := drops_le d xs k
    omega

def burst : List (Rec Unit Unit × Time) :=
  [(dedupRecord Level.info [], Time.epoch), (dedupRecord Level.info [], Time.epoch),
    (dedupRecord Level.warn [], Time.epoch), (dedupRecord Level.info [], ⟨10, 0, 0, Time.zero_nsec_lt⟩)]

theorem dedup_counts_suppressions_burst :
    (∀ x ∈ burst, x.2.isZero = false) ∧
    drops (ofKey (ascii "INFO" ++ [0]) ((newDedupProcessor 0).trace burst)) = 1 ∧
    ((counts (ofKey (ascii "INFO" ++ [0]) ((newDedupProcessor 0).trace burst))).map
      UInt64.toNat).sum + (((newDedupProcessor 0).after burst).stored (ascii "INFO" ++ [0])).toNat =
        drops (ofKey (ascii "INFO" ++ [0]) ((newDedupProcessor 0).trace burst)) :=
  ⟨by decide, by decide,
    (dedup_counts_suppressions 0 burst (by decide) (ascii "INFO" ++ [0])).2.1 (by decide)⟩

end UbgoLogger.DedupProcessor
