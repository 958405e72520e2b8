import Mathlib.Data.List.Count
import Mathlib.Data.Nat.ModEq
import UbgoLogger.Core.Logger
import UbgoLogger.Foundation.History
import UbgoLogger.Foundation.Machine

namespace UbgoLogger
open Foundation

variable {χ υ : Type}

structure SampleProcessor where
  first : UInt64
  thereafter : UInt64
  neverBelow : Level

def newSampleProcessor (first thereafter : UInt64) : SampleProcessor :=
  ⟨first, thereafter, Level.error⟩

namespace SampleProcessor

structure Counters where
  n : UInt64
  dropped : UInt64

def exempt (p : SampleProcessor) (r : Rec χ υ) : Bool :=
  decide (p.neverBelow ≤ r.level) || decide (p.thereafter = 0)

-- What is decided by the number a record has drawn.
def keeps (p : SampleProcessor) (n : UInt64) : Bool :=
  decide (n ≤ p.first) || decide ((n - p.first) % p.thereafter = 0)

def process (p : SampleProcessor) : Processor Counters χ υ := fun st _ r =>
  if p.exempt r then (st, some r)
  else if p.keeps (st.n + 1) then ({ st with n := st.n + 1 }, some r)
  else (⟨st.n + 1, st.dropped + 1⟩, none)

-- Where a call of Process stands, with the number it has drawn.
inductive Phase where
  | entered
  | drawn (n : UInt64)
  | dropping (n : UInt64)
  | returned (slot : Option UInt64) (kept : Bool)
  deriving DecidableEq

structure State (χ υ : Type) where
  counters : Counters
  calls : List (Rec χ υ × Phase)

inductive Act (χ υ : Type) where
  | call (r : Rec χ υ)
  | advance (i : Nat)

-- One access to a counter a step.
def advance (p : SampleProcessor) (st : Counters) (r : Rec χ υ) : Phase → Option (Counters × Phase)
  | .entered =>
      if p.exempt r then some (st, .returned none true)
      else some ({ st with n := st.n + 1 }, .drawn (st.n + 1))
  | .drawn n => if p.keeps n then some (st, .returned (some n) true) else some (st, .dropping n)
  | .dropping n => some ({ st with dropped := st.dropped + 1 }, .returned (some n) false)
  | .returned _ _ => none

def step (p : SampleProcessor) (s : State χ υ) : Act χ υ → Option (State χ υ × List Empty)
  | .call r => some ({ s with calls := s.calls ++ [(r, .entered)] }, [])
  | .advance i =>
      match s.calls[i]? with
      | none => none
      | some (r, ph) =>
          (p.advance s.counters r ph).map fun q => (⟨q.1, s.calls.set i (r, q.2)⟩, [])

def machine (p : SampleProcessor) : Machine (State χ υ) (Act χ υ) Empty where
  init := ⟨⟨0, 0⟩, []⟩
  step := step p

-- The steps of one call in a row are a call of Process.
theorem perform_alone (p : SampleProcessor) {s : State χ υ} {i : Nat} {r : Rec χ υ}
    (hi : s.calls[i]? = some (r, .entered)) (ctx : Context χ υ) :
    ∃ n slot, (machine p).perform [] s (List.replicate n (Act.advance i)) =
      some ([], ⟨(p.process s.counters ctx r).1,
        s.calls.set i (r, .returned slot (p.process s.counters ctx r).2.isSome)⟩) := by
  have hself (c : Rec χ υ × Phase) : (s.calls.set i c)[i]? = some c :=
    List.getElem?_set_self (List.getElem?_eq_some_iff.mp hi).1
  by_cases hexempt : p.exempt r = true
  · refine ⟨1, none, ?_⟩
    simp [Machine.performIf, machine, step, advance, process, hi, hexempt]
  · by_cases hkeeps : p.keeps (s.counters.n + 1) = true
    · refine ⟨2, some (s.counters.n + 1), ?_⟩
      simp [Machine.performIf, machine, step, advance, process, hi, hself, hexempt, hkeeps,
        List.replicate_succ]
    · refine ⟨3, some (s.counters.n + 1), ?_⟩
      simp [Machine.performIf, machine, step, advance, process, hi, hself, hexempt, hkeeps,
        List.replicate_succ]

namespace Phase

def slot : Phase → Option UInt64
  | .entered => none
  | .drawn n => some n
  | .dropping n => some n
  | .returned slot _ => slot

def kept : Phase → Bool
  | .returned _ kept => kept
  | _ => false

def dropped : Phase → Bool
  | .returned _ kept => !kept
  | _ => false

def isReturned : Phase → Bool
  | .returned _ _ => true
  | _ => false

-- What is known of the record and the number of a call that stands here.
def Fits (p : SampleProcessor) (r : Rec χ υ) : Phase → Prop
  | .entered => True
  | .drawn _ => p.exempt r = false
  | .dropping n => p.exempt r = false ∧ p.keeps n = false
  | .returned none kept => p.exempt r = true ∧ kept = true
  | .returned (some n) kept => p.exempt r = false ∧ kept = p.keeps n

end Phase

section Counting

-- Of the numbers up to k, the first ones and then every t-th.
theorem countP_share (first t k : Nat) :
    (List.range' 1 k).countP (fun v => decide (v ≤ first) || decide ((v - first) % t = 0)) =
      min k first + (k - first) / t := by
  induction k with
  | zero => simp
  | succ k ih =>
    rw [List.range'_concat, List.countP_append, ih, List.countP_singleton]
    by_cases hk : k + 1 ≤ first
    · have hsub : k + 1 - first = 0 := by omega
      have hsub' : k - first = 0 := by omega
      simp [show 1 + k ≤ first by omega, hsub, hsub']
      omega
    · have hsub : k + 1 - first = k - first + 1 := by omega
      rw [hsub, Nat.succ_div]
      simp [show ¬ 1 + k ≤ first by omega, Nat.dvd_iff_mod_eq_zero,
        show 1 + k - first = k - first + 1 by omega]
      split <;> omega

theorem keeps_toNat (p : SampleProcessor) (n : UInt64) :
    p.keeps n = (decide (n.toNat ≤ p.first.toNat) ||
      decide ((n.toNat - p.first.toNat) % p.thereafter.toNat = 0)) := by
  by_cases hn : n ≤ p.first
  · simp [keeps, hn, UInt64.le_iff_toNat_le.mp hn]
  · have hle : p.first ≤ n := by
      rw [UInt64.le_iff_toNat_le] at hn ⊢
      omega
    have hsub := UInt64.toNat_sub_of_le _ _ hle
    have hmod : (n - p.first) % p.thereafter = 0 ↔
        (n.toNat - p.first.toNat) % p.thereafter.toNat = 0 := by
      rw [← UInt64.toNat_inj, UInt64.toNat_mod, hsub]
      rfl
    simp [keeps, hmod, UInt64.le_iff_toNat_le]

end Counting

-- The records below NeverBelow.
def eligible (p : SampleProcessor) (s : State χ υ) : Nat :=
  s.calls.countP fun c => c.1.level < p.neverBelow

structure Tally (p : SampleProcessor) (s : State χ υ) : Prop where
  fits : ∀ c ∈ s.calls, c.2.Fits p c.1
  slots (q : Nat → Bool) : (s.calls.countP fun c => c.2.slot.any (q ·.toNat)) =
    (List.range' 1 s.counters.n.toNat).countP q
  dropped : s.counters.dropped.toNat = s.calls.countP fun c => c.2.dropped

section Steps

variable {p : SampleProcessor} {s s' : State χ υ} {i : Nat} {r : Rec χ υ} {ph : Phase}

theorem exempt_eq_false {r : Rec χ υ} (h : p.exempt r = false) :
    r.level < p.neverBelow ∧ p.thereafter ≠ 0 := by
  simpa [exempt] using h

theorem Phase.Fits.exempt_of_slot (h : ph.Fits p r) (hslot : ph.slot.isSome = true) :
    p.exempt r = false := by
  cases ph with
  | entered => cases hslot
  | drawn n => exact h
  | dropping n => exact h.1
  | returned slot kept =>
    cases slot with
    | none => cases hslot
    | some n => exact h.1

theorem Phase.Fits.exempt_of_dropped (h : ph.Fits p r) (hdropped : ph.dropped = true) :
    p.exempt r = false := by
  cases ph with
  | returned slot kept =>
    cases slot with
    | none => simp [Phase.dropped, h.2] at hdropped
    | some n => exact h.1
  | _ => cases hdropped

-- A property that only calls of eligible records have is counted by them.
theorem countP_le_eligible {q : Phase → Bool}
    (h : ∀ c ∈ s.calls, q c.2 = true → p.exempt c.1 = false) :
    (s.calls.countP fun c => q c.2) ≤ eligible p s :=
  List.countP_mono_left fun c hc hq => by simpa using (exempt_eq_false (h c hc hq)).1

theorem Tally.call (T : Tally p s) (r : Rec χ υ) :
    Tally p { s with calls := s.calls ++ [(r, .entered)] } where
  fits := by
    intro c hc
    rcases List.mem_append.mp hc with hc | hc
    · exact T.fits c hc
    · obtain rfl := List.mem_singleton.mp hc
      exact trivial
  slots q := by
    rw [List.countP_append, T.slots q]
    rfl
  dropped := by
    rw [List.countP_append]
    exact T.dropped

theorem fits_set (T : Tally p s) (hfits : ph.Fits p r) : ∀ c ∈ s.calls.set i (r, ph), c.2.Fits p c.1 := by
  intro c hc
  rcases List.mem_or_eq_of_mem_set hc with hc | rfl
  · exact T.fits c hc
  · exact hfits

-- A step that draws no number and counts no drop.
theorem Tally.move (T : Tally p s) {ph' : Phase} (hi : s.calls[i]? = some (r, ph))
    (hfits : ph'.Fits p r) (hslot : ph'.slot = ph.slot) (hdropped : ph'.dropped = ph.dropped) :
    Tally p { s with calls := s.calls.set i (r, ph') } where
  fits := fits_set T hfits
  slots q := by
    have hcount := countP_set (fun c : Rec χ υ × Phase => c.2.slot.any (q ·.toNat)) (r, ph') hi
    simp only [hslot, Nat.add_right_cancel_iff] at hcount
    exact hcount.trans (T.slots q)
  dropped := by
    have hcount := countP_set (fun c : Rec χ υ × Phase => c.2.dropped) (r, ph') hi
    simp only [hdropped, Nat.add_right_cancel_iff] at hcount
    exact T.dropped.trans hcount.symm

theorem eligible_set {ph' : Phase} (st : Counters) (hi : s.calls[i]? = some (r, ph)) :
    eligible p ⟨st, s.calls.set i (r, ph')⟩ = eligible p s := by
  have hcount := countP_set (fun c : Rec χ υ × Phase => decide (c.1.level < p.neverBelow)) (r, ph') hi
  exact Nat.add_right_cancel hcount

theorem Tally.drawn_eq (T : Tally p s) :
    (s.calls.countP fun c => c.2.slot.isSome) = s.counters.n.toNat := by
  have hall := T.slots fun _ => true
  rw [List.countP_true, List.length_range'] at hall
  rw [← hall]
  exact List.countP_congr fun c _ => by cases c.2.slot <;> simp

theorem Tally.draw (T : Tally p s) (hi : s.calls[i]? = some (r, .entered))
    (hexempt : p.exempt r = false) (hfew : eligible p s < 2 ^ 64) :
    Tally p ⟨{ s.counters with n := s.counters.n + 1 },
      s.calls.set i (r, .drawn (s.counters.n + 1))⟩ := by
  have hfits := fits_set (i := i) T (show (Phase.drawn (s.counters.n + 1)).Fits p r from hexempt)
  -- the number is not above the count of eligible records, so the counter does not wrap
  have hn : (s.counters.n + 1).toNat = s.counters.n.toNat + 1 := by
    have hle := countP_le_eligible (s := ⟨{ s.counters with n := s.counters.n + 1 },
      s.calls.set i (r, .drawn (s.counters.n + 1))⟩) (q := fun ph => ph.slot.isSome)
      fun c hc => (hfits c hc).exempt_of_slot
    have hcount : ((s.calls.set i (r, .drawn (s.counters.n + 1))).countP fun c => c.2.slot.isSome) =
        (s.calls.countP fun c => c.2.slot.isSome) + 1 :=
      countP_set (fun c : Rec χ υ × Phase => c.2.slot.isSome) (r, .drawn (s.counters.n + 1)) hi
    rw [eligible_set _ hi] at hle
    dsimp only at hle
    rw [hcount, T.drawn_eq] at hle
    rw [UInt64.toNat_add]
    exact Nat.mod_eq_of_lt (hle.trans_lt hfew)
  refine ⟨hfits, fun q => ?_, ?_⟩
  · have hcount : ((s.calls.set i (r, .drawn (s.counters.n + 1))).countP
        fun c => c.2.slot.any (q ·.toNat)) = (s.calls.countP fun c => c.2.slot.any (q ·.toNat)) +
          (q (s.counters.n + 1).toNat).toNat :=
      countP_set (fun c : Rec χ υ × Phase => c.2.slot.any (q ·.toNat))
        (r, .drawn (s.counters.n + 1)) hi
    dsimp only
    rw [hcount, T.slots q, hn, List.range'_concat, List.countP_append, List.countP_singleton, Nat.one_mul,
      Nat.add_comm 1]
    cases q (s.counters.n.toNat + 1) <;> rfl
  · have hcount := countP_set (fun c : Rec χ υ × Phase => c.2.dropped)
      (r, .drawn (s.counters.n + 1)) hi
    exact T.dropped.trans hcount.symm

theorem Tally.drop (T : Tally p s) {n : UInt64} (hi : s.calls[i]? = some (r, .dropping n))
    (hfew : eligible p s < 2 ^ 64) :
    Tally p ⟨{ s.counters with dropped := s.counters.dropped + 1 },
      s.calls.set i (r, .returned (some n) false)⟩ := by
  obtain ⟨hexempt, hkeeps⟩ : (Phase.dropping n).Fits p r := T.fits _ (List.mem_of_getElem? hi)
  have hfits := fits_set (i := i) T
    (show (Phase.returned (some n) false).Fits p r from ⟨hexempt, hkeeps.symm⟩)
  have hcount : ((s.calls.set i (r, .returned (some n) false)).countP fun c => c.2.dropped) =
      (s.calls.countP fun c => c.2.dropped) + 1 :=
    countP_set (fun c : Rec χ υ × Phase => c.2.dropped) (r, .returned (some n) false) hi
  refine ⟨hfits, fun q => ?_, ?_⟩
  · have hslot := countP_set (fun c : Rec χ υ × Phase => c.2.slot.any (q ·.toNat))
      (r, .returned (some n) false) hi
    exact (Nat.add_right_cancel hslot).trans (T.slots q)
  · have hle := countP_le_eligible (s := ⟨{ s.counters with dropped := s.counters.dropped + 1 },
      s.calls.set i (r, .returned (some n) false)⟩) (q := Phase.dropped)
      fun c hc => (hfits c hc).exempt_of_dropped
    rw [eligible_set _ hi] at hle
    dsimp only at hle ⊢
    rw [hcount] at hle ⊢
    rw [UInt64.toNat_add, T.dropped]
    exact Nat.mod_eq_of_lt (hle.trans_lt hfew)

theorem Tally.step {a : Act χ υ} {evs : List Empty} (T : Tally p s)
    (hfew : eligible p s < 2 ^ 64) (hs : SampleProcessor.step p s a = some (s', evs)) :
    Tally p s' := by
  cases a with
  | call r =>
    cases hs
    exact T.call r
  | advance i =>
    simp only [SampleProcessor.step] at hs
    split at hs
    next => cases hs
    next r ph hi =>
      obtain ⟨⟨st, ph'⟩, hadvance, hq⟩ := Option.map_eq_some_iff.mp hs
      cases hq
      cases ph with
      | entered =>
        simp only [SampleProcessor.advance] at hadvance
        split at hadvance
        next hexempt =>
          cases hadvance
          exact T.move hi ⟨hexempt, rfl⟩ rfl rfl
        next hexempt =>
          cases hadvance
          exact T.draw hi (by simpa using hexempt) hfew
      | drawn n =>
        have hexempt : p.exempt r = false := T.fits _ (List.mem_of_getElem? hi)
        simp only [SampleProcessor.advance] at hadvance
        split at hadvance
        next hkeeps =>
          cases hadvance
          exact T.move hi ⟨hexempt, hkeeps.symm⟩ rfl rfl
        next hkeeps =>
          cases hadvance
          exact T.move hi ⟨hexempt, by simpa using hkeeps⟩ rfl rfl
      | dropping n =>
        cases hadvance
        exact T.drop hi hfew
      | returned slot kept => cases hadvance

-- The calls only grow, so a bound at the end was a bound all along.
theorem eligible_step {a : Act χ υ} {evs : List Empty}
    (hs : SampleProcessor.step p s a = some (s', evs)) : eligible p s ≤ eligible p s' := by
  cases a with
  | call r =>
    cases hs
    exact (List.sublist_append_left _ _).countP_le
  | advance i =>
    simp only [SampleProcessor.step] at hs
    split at hs
    next => cases hs
    next r ph hi =>
      obtain ⟨⟨st, ph'⟩, -, hq⟩ := Option.map_eq_some_iff.mp hs
      cases hq
      exact (eligible_set st hi).ge

theorem tally {log : List Empty} (h : (machine p).Run log s) (hfew : eligible p s < 2 ^ 64) :
    Tally p s := by
  refine h.invariant (P := fun _ s => eligible p s < 2 ^ 64 → Tally p s) (fun _ => ?_) ?_ hfew
  · exact ⟨nofun, fun _ => rfl, rfl⟩
  · intro log s a s' evs _ ih _ hs hfew
    have hbefore := (eligible_step hs).trans_lt hfew
    exact (ih hbefore).step hbefore hs

end Steps

section Returned

variable {p : SampleProcessor} {s : State χ υ}

-- The records below NeverBelow that were let through.
def kept (p : SampleProcessor) (s : State χ υ) : Nat :=
  s.calls.countP fun c => decide (c.1.level < p.neverBelow) && c.2.kept

theorem Phase.Fits.returned_cases {r : Rec χ υ} {ph : Phase} (h : ph.Fits p r)
    (hreturned : ph.isReturned = true) :
    p.exempt r = true ∧ ph = .returned none true ∨
      ∃ n, p.exempt r = false ∧ ph = .returned (some n) (p.keeps n) := by
  cases ph with
  | returned slot kept =>
    cases slot with
    | none => exact .inl ⟨h.1, by rw [h.2]⟩
    | some n => exact .inr ⟨n, h.1, by rw [h.2]⟩
  | _ => cases hreturned

theorem Tally.exempt_call (T : Tally p s) (hdone : ∀ c ∈ s.calls, c.2.isReturned = true)
    {c : Rec χ υ × Phase} (hc : c ∈ s.calls) (hexempt : p.exempt c.1 = true) :
    c.2 = .returned none true := by
  rcases (T.fits c hc).returned_cases (hdone c hc) with ⟨-, heq⟩ | ⟨n, hfalse, -⟩
  · exact heq
  · cases hexempt.symm.trans hfalse

theorem level_lt_iff (ht : p.thereafter ≠ 0) (r : Rec χ υ) :
    r.level < p.neverBelow ↔ p.exempt r = false := by
  simp [exempt, ht]

theorem Tally.eligible_eq (T : Tally p s) (ht : p.thereafter ≠ 0)
    (hdone : ∀ c ∈ s.calls, c.2.isReturned = true) : eligible p s = s.counters.n.toNat := by
  rw [← T.drawn_eq, eligible]
  refine List.countP_congr fun c hc => ?_
  rw [decide_eq_true_iff, level_lt_iff ht]
  rcases (T.fits c hc).returned_cases (hdone c hc) with ⟨hexempt, heq⟩ | ⟨n, hexempt, heq⟩
  · simp [hexempt, heq, Phase.slot]
  · simp [hexempt, heq, Phase.slot]

theorem Tally.kept_eq (T : Tally p s) (ht : p.thereafter ≠ 0)
    (hdone : ∀ c ∈ s.calls, c.2.isReturned = true) :
    kept p s = min (eligible p s) p.first.toNat +
      (eligible p s - p.first.toNat) / p.thereafter.toNat := by
  rw [T.eligible_eq ht hdone, ← countP_share, ← T.slots, kept]
  refine List.countP_congr fun c hc => ?_
  rw [Bool.and_eq_true, decide_eq_true_iff, level_lt_iff ht]
  rcases (T.fits c hc).returned_cases (hdone c hc) with ⟨hexempt, heq⟩ | ⟨n, hexempt, heq⟩
  · simp [hexempt, heq, Phase.slot]
  · rw [heq, Phase.slot, Option.any_some, ← keeps_toNat]
    simp [hexempt, Phase.kept]

theorem Tally.dropped_eq (T : Tally p s) (ht : p.thereafter ≠ 0)
    (hdone : ∀ c ∈ s.calls, c.2.isReturned = true) :
    s.counters.dropped.toNat = eligible p s - kept p s := by
  have hsplit := List.countP_eq_countP_filter_add s.calls
    (fun c => decide (c.1.level < p.neverBelow)) (fun c => c.2.kept)
  rw [List.countP_filter, List.countP_filter] at hsplit
  have hdropped : (s.calls.countP fun c => c.2.dropped) = s.calls.countP fun c =>
      decide (c.1.level < p.neverBelow) && !c.2.kept := by
    refine List.countP_congr fun c hc => ?_
    rw [Bool.and_eq_true, decide_eq_true_iff, level_lt_iff ht]
    rcases (T.fits c hc).returned_cases (hdone c hc) with ⟨hexempt, heq⟩ | ⟨n, hexempt, heq⟩
    · simp [hexempt, heq, Phase.dropped]
    · simp [hexempt, heq, Phase.dropped, Phase.kept]
  rw [T.dropped, hdropped, eligible, hsplit, kept]
  exact (Nat.add_sub_cancel_left _ _).symm

end Returned

theorem sampling_share (p : SampleProcessor) (log : List Empty) (s : State χ υ)
    (h : (machine p).Run log s) (hdone : ∀ c ∈ s.calls, c.2.isReturned = true)
    (hfew : eligible p s < 2 ^ 64) :
    (p.thereafter ≠ 0 →
      kept p s = min (eligible p s) p.first.toNat +
        (eligible p s - p.first.toNat) / p.thereafter.toNat ∧
      s.counters.dropped.toNat = eligible p s - kept p s ∧
      s.counters.n.toNat = eligible p s) ∧
    (∀ c ∈ s.calls, p.neverBelow ≤ c.1.level → c.2 = .returned none true) ∧
    (p.thereafter = 0 → s.counters.dropped = 0 ∧ ∀ c ∈ s.calls, c.2 = .returned none true) := by
  have T := tally h hfew
  refine ⟨fun ht => ⟨T.kept_eq ht hdone, T.dropped_eq ht hdone, (T.eligible_eq ht hdone).symm⟩,
    fun c hc hlevel => T.exempt_call hdone hc (by simp [exempt, hlevel]), fun ht => ?_⟩
  have hall : ∀ c ∈ s.calls, c.2 = .returned none true := fun c hc =>
    T.exempt_call hdone hc (by simp [exempt, ht])
  refine ⟨UInt64.toNat_inj.mp (T.dropped.trans ?_), hall⟩
  refine List.countP_eq_zero.mpr fun c hc => ?_
  rw [hall c hc]
  exact Bool.false_ne_true

def line (level : Level) : Rec Unit Unit where
  time := Time.epoch
  level := level
  message := []
  pc := 0
  eventName := []
  fields := []
  ctx := none

theorem sampling_share_interleaved :
    ∃ log, ∃ s : State Unit Unit, (machine (newSampleProcessor 1 2)).Run log s ∧
      s.calls.length = 5 ∧ eligible (newSampleProcessor 1 2) s = 4 ∧
      kept (newSampleProcessor 1 2) s = 2 ∧ s.counters.dropped = 2 := by
  obtain ⟨log, s, h, hgood⟩ := Machine.exists_exec
    (M := (machine (newSampleProcessor 1 2) : Machine (State Unit Unit) _ _)) (C := fun _ _ => True)
    [.call (line Level.info), .call (line Level.info), .call (line Level.error), .advance 0,
      .advance 1, .advance 2, .call (line Level.info), .advance 3, .advance 3, .advance 1,
      .advance 1, .advance 0, .call (line Level.debug), .advance 4, .advance 4, .advance 4]
    (fun _ s => decide (s.calls.length = 5 ∧ eligible (newSampleProcessor 1 2) s = 4 ∧
      s.counters.dropped = 2) && s.calls.all fun c => c.2.isReturned) (by decide +kernel)
  rw [Bool.and_eq_true, decide_eq_true_iff, List.all_eq_true] at hgood
  obtain ⟨⟨hlength, heligible, hdropped⟩, hdone⟩ := hgood
  have hshare := (sampling_share _ log s h hdone (by rw [heligible]; decide)).1 (by decide)
  refine ⟨log, s, h, hlength, heligible, ?_, hdropped⟩
  rw [hshare.1, heligible]
  rfl

end SampleProcessor

end UbgoLogger
