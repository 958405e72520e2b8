import UbgoLogger.Foundation.Machine
import Mathlib.Data.Int.ModEq
import Mathlib.Data.Nat.Bitwise
import Mathlib.Logic.Function.Basic

namespace UbgoLogger.Mpmc
open Foundation

variable {α τ : Type}

structure Cell (α : Type) where
  seq : Nat
  val : Option α

-- Cursors and sequence numbers are uint64 in the source and do not wrap here: fewer than 2^63
-- positions are ever claimed. Only the cells below mask + 1 are in use.
structure Queue (α : Type) where
  buf : Nat → Cell α
  mask : Nat
  enq : Nat
  deq : Nat
  pow : ∃ k, 0 < k ∧ mask + 1 = 2 ^ k

namespace Queue

def size (q : Queue α) : Nat := q.mask + 1

def slot (q : Queue α) (pos : Nat) : Nat := pos &&& q.mask

def cell (q : Queue α) (pos : Nat) : Cell α := q.buf (q.slot pos)

def setVal (q : Queue α) (pos : Nat) (v : Option α) : Queue α :=
  { q with buf := Function.update q.buf (q.slot pos) { q.cell pos with val := v } }

def setSeq (q : Queue α) (pos : Nat) (seq : Nat) : Queue α :=
  { q with buf := Function.update q.buf (q.slot pos) { q.cell pos with seq := seq } }

end Queue

def grow (size : Nat) : Nat → Nat → Nat
  | 0, n => n
  | fuel + 1, n => if n < size then grow size fuel (2 * n) else n

theorem grow_pow (size fuel k : Nat) : ∃ j, k ≤ j ∧ grow size fuel (2 ^ k) = 2 ^ j := by
  induction fuel generalizing k with
  | zero => exact ⟨k, le_refl k, rfl⟩
  | succ fuel ih =>
    rw [grow]
    split
    · obtain ⟨j, hj, he⟩ := ih (k + 1)
      exact ⟨j, by omega, by rw [← he, pow_succ, mul_comm]⟩
    · exact ⟨k, le_refl k, rfl⟩

-- Doubling size times takes any start above size, so the loop of newMPMC ends on its own.
def capacity (size : Nat) : Nat := grow size size 2

theorem capacity_pow (size : Nat) : ∃ k, 0 < k ∧ capacity size = 2 ^ k :=
  grow_pow size size 1

theorem capacity_pos (size : Nat) : 0 < capacity size := by
  obtain ⟨k, -, hk⟩ := capacity_pow size
  rw [hk]
  exact Nat.two_pow_pos k

def newMPMC (size : Nat) : Queue α where
  buf := fun i => { seq := i, val := none }
  mask := capacity size - 1
  enq := 0
  deq := 0
  pow := by
    rw [Nat.sub_add_cancel (capacity_pos size)]
    exact capacity_pow size

theorem size_newMPMC (size : Nat) : (newMPMC size : Queue α).size = capacity size :=
  Nat.sub_add_cancel (capacity_pos size)

inductive Pc (α : Type) where
  | idle
  | enqLoad (v : α)
  | enqSeq (v : α) (pos : Nat)
  | enqCas (v : α) (pos : Nat)
  | enqWrite (v : α) (pos : Nat)
  | enqStore (v : α) (pos : Nat)
  | enqRet (ok : Bool)
  | deqLoad
  | deqSeq (pos : Nat)
  | deqCas (pos : Nat)
  | deqRead (pos : Nat)
  | deqClear (pos : Nat) (v : Option α)
  | deqStore (pos : Nat) (v : Option α)
  | deqRet (v : Option α) (ok : Bool)
  deriving DecidableEq

inductive Event (α : Type) where
  | claimEnq (pos : Nat) (v : α)
  | wrote (pos : Nat)
  | claimDeq (pos : Nat) (v : Option α)
  | read (pos : Nat)
  | cleared (pos : Nat)
  | dequeued (pos : Nat) (v : Option α)
  deriving DecidableEq

-- One atomic step of a thread inside enqueue or dequeue. A load of seq and the switch on it are
-- one step; a failed CompareAndSwap goes back to the load of seq with the old pos.
def opStep (q : Queue α) : Pc α → Option (Queue α × Pc α × List (Event α))
  | .enqLoad v => some (q, .enqSeq v q.enq, [])
  | .enqSeq v pos =>
      let dif : Int := (q.cell pos).seq - pos
      some (q, if dif = 0 then .enqCas v pos else if dif < 0 then .enqRet false else .enqLoad v, [])
  | .enqCas v pos =>
      if q.enq = pos then some ({ q with enq := pos + 1 }, .enqWrite v pos, [.claimEnq pos v])
      else some (q, .enqSeq v pos, [])
  | .enqWrite v pos => some (q.setVal pos (some v), .enqStore v pos, [.wrote pos])
  | .enqStore _ pos => some (q.setSeq pos (pos + 1), .enqRet true, [])
  | .deqLoad => some (q, .deqSeq q.deq, [])
  | .deqSeq pos =>
      let dif : Int := (q.cell pos).seq - (pos + 1)
      some (q, if dif = 0 then .deqCas pos else if dif < 0 then .deqRet none false else .deqLoad, [])
  | .deqCas pos =>
      if q.deq = pos then
        some ({ q with deq := pos + 1 }, .deqRead pos, [.claimDeq pos (q.cell pos).val])
      else some (q, .deqSeq pos, [])
  | .deqRead pos => some (q, .deqClear pos (q.cell pos).val, [.read pos])
  | .deqClear pos v => some (q.setVal pos none, .deqStore pos v, [.cleared pos])
  | .deqStore pos v => some (q.setSeq pos (pos + q.mask + 1), .deqRet v true, [.dequeued pos v])
  | .idle => none
  | .enqRet _ => none
  | .deqRet _ _ => none

inductive OpStep (q : Queue α) : Pc α → Queue α → Pc α → List (Event α) → Prop
  | enqLoad (v : α) : OpStep q (.enqLoad v) q (.enqSeq v q.enq) []
  | enqFree (v : α) (pos : Nat) (h : (q.cell pos).seq = pos) :
      OpStep q (.enqSeq v pos) q (.enqCas v pos) []
  | enqFull (v : α) (pos : Nat) (h : (q.cell pos).seq < pos) :
      OpStep q (.enqSeq v pos) q (.enqRet false) []
  | enqLate (v : α) (pos : Nat) (h : pos < (q.cell pos).seq) :
      OpStep q (.enqSeq v pos) q (.enqLoad v) []
  | enqClaim (v : α) :
      OpStep q (.enqCas v q.enq) { q with enq := q.enq + 1 } (.enqWrite v q.enq) [.claimEnq q.enq v]
  | enqLost (v : α) (pos : Nat) (h : q.enq ≠ pos) : OpStep q (.enqCas v pos) q (.enqSeq v pos) []
  | enqWrite (v : α) (pos : Nat) :
      OpStep q (.enqWrite v pos) (q.setVal pos (some v)) (.enqStore v pos) [.wrote pos]
  | enqStore (v : α) (pos : Nat) :
      OpStep q (.enqStore v pos) (q.setSeq pos (pos + 1)) (.enqRet true) []
  | deqLoad : OpStep q .deqLoad q (.deqSeq q.deq) []
  | deqReady (pos : Nat) (h : (q.cell pos).seq = pos + 1) : OpStep q (.deqSeq pos) q (.deqCas pos) []
  | deqEmpty (pos : Nat) (h : (q.cell pos).seq < pos + 1) :
      OpStep q (.deqSeq pos) q (.deqRet none false) []
  | deqLate (pos : Nat) (h : pos + 1 < (q.cell pos).seq) : OpStep q (.deqSeq pos) q .deqLoad []
  | deqClaim :
      OpStep q (.deqCas q.deq) { q with deq := q.deq + 1 } (.deqRead q.deq)
        [.claimDeq q.deq (q.cell q.deq).val]
  | deqLost (pos : Nat) (h : q.deq ≠ pos) : OpStep q (.deqCas pos) q (.deqSeq pos) []
  | deqRead (pos : Nat) : OpStep q (.deqRead pos) q (.deqClear pos (q.cell pos).val) [.read pos]
  | deqClear (pos : Nat) (v : Option α) :
      OpStep q (.deqClear pos v) (q.setVal pos none) (.deqStore pos v) [.cleared pos]
  | deqStore (pos : Nat) (v : Option α) :
      OpStep q (.deqStore pos v) (q.setSeq pos (pos + q.mask + 1)) (.deqRet v true)
        [.dequeued pos v]

theorem opStep_cases {q q' : Queue α} {pc pc' : Pc α} {evs : List (Event α)}
    (h : opStep q pc = some (q', pc', evs)) : OpStep q pc q' pc' evs := by
  cases pc with
  | idle => cases h
  | enqRet ok => cases h
  | deqRet v ok => cases h
  | enqLoad v =>
    cases h
    exact .enqLoad v
  | enqSeq v pos =>
    cases h
    split
    · exact .enqFree v pos (by omega)
    · split
      · exact .enqFull v pos (by omega)
      · exact .enqLate v pos (by omega)
  | enqCas v pos =>
    rw [opStep] at h
    split at h
    next he =>
      cases h
      subst he
      exact .enqClaim v
    next hne =>
      cases h
      exact .enqLost v pos hne
  | enqWrite v pos =>
    cases h
    exact .enqWrite v pos
  | enqStore v pos =>
    cases h
    exact .enqStore v pos
  | deqLoad =>
    cases h
    exact .deqLoad
  | deqSeq pos =>
    cases h
    split
    · exact .deqReady pos (by omega)
    · split
      · exact .deqEmpty pos (by omega)
      · exact .deqLate pos (by omega)
  | deqCas pos =>
    rw [opStep] at h
    split at h
    next he =>
      cases h
      subst he
      exact .deqClaim
    next hne =>
      cases h
      exact .deqLost pos hne
  | deqRead pos =>
    cases h
    exact .deqRead pos
  | deqClear pos v =>
    cases h
    exact .deqClear pos v
  | deqStore pos v =>
    cases h
    exact .deqStore pos v

section Slots

variable (q : Queue α)

theorem size_ge_two : 2 ≤ q.size := by
  obtain ⟨k, hk, he⟩ := q.pow
  rw [Queue.size, he]
  calc 2 = 2 ^ 1 := rfl
    _ ≤ 2 ^ k := Nat.pow_le_pow_right (by omega) hk

theorem slot_eq_mod (pos : Nat) : q.slot pos = pos % q.size := by
  obtain ⟨k, -, he⟩ := q.pow
  have hmask : q.mask = 2 ^ k - 1 := by omega
  rw [Queue.slot, Queue.size, he, hmask, Nat.and_two_pow_sub_one_eq_mod]

theorem slot_add_size (pos : Nat) : q.slot (pos + q.size) = q.slot pos := by
  rw [slot_eq_mod, slot_eq_mod, Nat.add_mod_right]

theorem slot_inj {p r : Nat} (hp : p ≤ r) (hr : r < p + q.size) (h : q.slot p = q.slot r) :
    p = r := by
  rw [slot_eq_mod, slot_eq_mod] at h
  have hdvd : q.size ∣ r - p := (Nat.modEq_iff_dvd' hp).mp h
  have hzero := Nat.eq_zero_of_dvd_of_lt hdvd (by omega)
  omega

theorem cell_setVal_self (pos : Nat) (v : Option α) :
    (q.setVal pos v).cell pos = { q.cell pos with val := v } := by
  simp [Queue.setVal, Queue.cell, Queue.slot]

theorem cell_setSeq_self (pos seq : Nat) :
    (q.setSeq pos seq).cell pos = { q.cell pos with seq := seq } := by
  simp [Queue.setSeq, Queue.cell, Queue.slot]

theorem cell_setVal_of_ne {p pos : Nat} (h : q.slot p ≠ q.slot pos) (v : Option α) :
    (q.setVal pos v).cell p = q.cell p := by
  rw [Queue.cell, Queue.cell]
  exact Function.update_of_ne h _ _

theorem cell_setSeq_of_ne {p pos : Nat} (h : q.slot p ≠ q.slot pos) (seq : Nat) :
    (q.setSeq pos seq).cell p = q.cell p := by
  rw [Queue.cell, Queue.cell]
  exact Function.update_of_ne h _ _

theorem cell_add_size (pos : Nat) : q.cell (pos + q.size) = q.cell pos := by
  rw [Queue.cell, Queue.cell, slot_add_size]

end Slots

end UbgoLogger.Mpmc
