import Mathlib.Data.List.Nodup
import Mathlib.Logic.Function.Basic

namespace Foundation

-- Objects named by numbers below next, each lying in the pool, held by one client or lost.
structure Lease {ι : Type} (held : ι → Option Nat) (pool : List Nat) (next : Nat) : Prop where
  nodup : pool.Nodup
  pooled_lt : ∀ a ∈ pool, a < next
  held_lt : ∀ i a, held i = some a → a < next
  apart : ∀ i a, held i = some a → a ∉ pool
  alone : ∀ i j a, held i = some a → held j = some a → i = j

namespace Lease

variable {ι : Type} {held : ι → Option Nat} {pool : List Nat} {next a b : Nat} {i j : ι}

theorem fresh : Lease (fun _ : ι => none) [] 0 where
  nodup := List.nodup_nil
  pooled_lt := by simp
  held_lt := by simp
  apart := by simp
  alone := by simp

theorem ne_held (h : Lease held pool next) (hi : held i = some a) (hj : held j = some b)
    (hne : j ≠ i) : b ≠ a := by
  rintro rfl
  exact hne (h.alone j i b hj hi)

theorem ne_pooled (h : Lease held pool next) (hi : held i = some a) (hb : b ∈ pool) : b ≠ a := by
  rintro rfl
  exact h.apart i b hi hb

theorem discard (h : Lease held pool next) (a : Nat) : Lease held (pool.erase a) next where
  nodup := h.nodup.erase a
  pooled_lt := fun b hb => h.pooled_lt b (List.mem_of_mem_erase hb)
  held_lt := h.held_lt
  apart := fun i b hi hb => h.apart i b hi (List.mem_of_mem_erase hb)
  alone := h.alone

variable [DecidableEq ι]

theorem lose (h : Lease held pool next) (i : ι) : Lease (Function.update held i none) pool next := by
  have hold : ∀ j b, Function.update held i none j = some b → held j = some b := by
    intro j b hj
    rw [Function.update_apply] at hj
    split at hj
    · cases hj
    · exact hj
  exact ⟨h.nodup, h.pooled_lt, fun j b hj => h.held_lt j b (hold j b hj),
    fun j b hj => h.apart j b (hold j b hj),
    fun j k b hj hk => h.alone j k b (hold j b hj) (hold k b hk)⟩

theorem give (h : Lease held pool next) (hi : held i = some a) :
    Lease (Function.update held i none) (a :: pool) next := by
  have hlost := h.lose i
  refine ⟨List.nodup_cons.mpr ⟨h.apart i a hi, h.nodup⟩, ?_, hlost.held_lt, ?_, hlost.alone⟩
  · rw [List.forall_mem_cons]
    exact ⟨h.held_lt i a hi, h.pooled_lt⟩
  · intro j b hj
    rw [List.mem_cons, not_or]
    refine ⟨?_, hlost.apart j b hj⟩
    rw [Function.update_apply] at hj
    split at hj
    next => cases hj
    next hne => exact h.ne_held hi hj hne

-- What i holds after it was handed something nobody else has.
theorem hand {pool' : List Nat} {next' : Nat} (h : Lease held pool next) (hnodup : pool'.Nodup)
    (hpool : ∀ b ∈ pool', b ∈ pool) (hnext : next ≤ next') (ha : a < next') (hout : a ∉ pool')
    (hnew : ∀ j, held j ≠ some a) : Lease (Function.update held i (some a)) pool' next' := by
  have hcases : ∀ j b, Function.update held i (some a) j = some b →
      j = i ∧ b = a ∨ j ≠ i ∧ held j = some b := by
    intro j b hj
    rw [Function.update_apply] at hj
    split at hj
    next he => exact .inl ⟨he, (Option.some.inj hj).symm⟩
    next hne => exact .inr ⟨hne, hj⟩
  refine ⟨hnodup, fun b hb => Nat.lt_of_lt_of_le (h.pooled_lt b (hpool b hb)) hnext,
    fun j b hj => ?_,
    fun j b hj => ?_, fun j k b hj hk => ?_⟩
  · rcases hcases j b hj with ⟨-, rfl⟩ | ⟨-, hheld⟩
    · exact ha
    · exact Nat.lt_of_lt_of_le (h.held_lt j b hheld) hnext
  · rcases hcases j b hj with ⟨-, rfl⟩ | ⟨-, hheld⟩
    · exact hout
    · exact fun hb => h.apart j b hheld (hpool b hb)
  · rcases hcases j b hj with ⟨hji, rfl⟩ | ⟨-, hheld⟩
    · rcases hcases k b hk with ⟨hki, -⟩ | ⟨-, hheld'⟩
      · exact hji.trans hki.symm
      · exact absurd hheld' (hnew k)
    · rcases hcases k b hk with ⟨-, rfl⟩ | ⟨-, hheld'⟩
      · exact absurd hheld (hnew j)
      · exact h.alone j k b hheld hheld'

theorem create (h : Lease held pool next) (i : ι) :
    Lease (Function.update held i (some next)) pool (next + 1) :=
  h.hand h.nodup (fun _ hb => hb) (Nat.le_succ next) (Nat.lt_succ_self next)
    (fun hb => Nat.lt_irrefl next (h.pooled_lt next hb))
    fun j hj => Nat.lt_irrefl next (h.held_lt j next hj)

theorem take (h : Lease held pool next) (ha : a ∈ pool) (i : ι) :
    Lease (Function.update held i (some a)) (pool.erase a) next :=
  h.hand (h.nodup.erase a) (fun _ hb => List.mem_of_mem_erase hb) (Nat.le_refl next)
    (h.pooled_lt a ha) h.nodup.not_mem_erase fun j hj => h.apart j a hj ha

end Lease

-- The locks and their holders: each side says the same.
def Locked {ι κ : Type} (lock : κ → Option ι) (locks : ι → Option κ) : Prop :=
  ∀ k i, lock k = some i ↔ locks i = some k

namespace Locked

variable {ι κ : Type} {lock : κ → Option ι} {locks : ι → Option κ} {i j : ι} {k : κ}

theorem fresh : Locked (fun _ : κ => none) (fun _ : ι => none) := by
  intro k i
  simp

theorem alone (h : Locked lock locks) (hi : locks i = some k) (hj : locks j = some k) : j = i := by
  have hlock := (h k i).mpr hi
  rw [(h k j).mpr hj] at hlock
  exact Option.some.inj hlock

variable [DecidableEq ι] [DecidableEq κ]

theorem acquire (h : Locked lock locks) (hk : lock k = none) (hi : locks i = none) :
    Locked (Function.update lock k (some i)) (Function.update locks i (some k)) := by
  intro l j
  rw [Function.update_apply, Function.update_apply]
  by_cases hl : l = k <;> by_cases hj : j = i
  · simp [hl, hj]
  · simp only [hl, hj, if_true, if_false, Option.some.injEq]
    refine iff_of_false (fun he => hj he.symm) fun he => ?_
    rw [(h k j).mpr he] at hk
    cases hk
  · simp only [hl, hj, if_true, if_false, Option.some.injEq]
    refine iff_of_false (fun he => ?_) fun he => hl he.symm
    rw [(h l i).mp he] at hi
    cases hi
  · simp only [hl, hj, if_false]
    exact h l j

theorem release (h : Locked lock locks) (hi : locks i = some k) :
    Locked (Function.update lock k none) (Function.update locks i none) := by
  intro l j
  rw [Function.update_apply, Function.update_apply]
  by_cases hl : l = k <;> by_cases hj : j = i
  · simp [hl, hj]
  · simp only [hl, hj, if_true, if_false]
    exact iff_of_false (by simp) fun he => hj (h.alone hi he)
  · simp only [hl, hj, if_true, if_false]
    refine iff_of_false (fun he => ?_) (by simp)
    rw [(h l i).mp he] at hi
    exact hl (Option.some.inj hi)
  · simp only [hl, hj, if_false]
    exact h l j

end Locked

end Foundation
