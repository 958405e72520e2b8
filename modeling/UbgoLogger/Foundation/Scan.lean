import Mathlib.Data.List.Forall2

namespace Foundation

variable {α : Type}

-- A reader has loaded the first few of some counters, one by one, while all of them only grew.
def Scan (before now : α → Nat) (cells : List α) (got : List Nat) : Prop :=
  List.Forall₂ (fun c v => before c ≤ v ∧ v ≤ now c) (cells.take got.length) got

namespace Scan

variable {before now now' : α → Nat} {cells : List α} {got : List Nat} {c : α}

theorem start : Scan before now cells [] := .nil

theorem mono (h : Scan before now cells got) (hle : ∀ c, now c ≤ now' c) :
    Scan before now' cells got :=
  h.imp fun c _ hv => ⟨hv.1, Nat.le_trans hv.2 (hle c)⟩

theorem read (h : Scan before now cells got) (hc : cells[got.length]? = some c)
    (hle : before c ≤ now c) : Scan before now cells (got ++ [now c]) := by
  rw [Scan, List.length_append, List.length_singleton, List.take_add_one, hc]
  exact List.rel_append h (.cons ⟨hle, Nat.le_refl _⟩ .nil)

theorem full (h : Scan before now cells got) (hlen : got.length = cells.length) :
    List.Forall₂ (fun c v => before c ≤ v ∧ v ≤ now c) cells got := by
  rw [Scan, hlen, List.take_length] at h
  exact h

end Scan

-- One entry of a log that grew by one is the new one, or was there before.
theorem split_concat {xs front back : List α} {x y : α} (h : xs ++ [y] = front ++ x :: back) :
    front = xs ∧ x = y ∨ ∃ rest, xs = front ++ x :: rest := by
  rcases List.eq_nil_or_concat back with rfl | ⟨rest, z, rfl⟩
  · obtain ⟨hxs, hy⟩ := List.append_inj' h rfl
    exact .inl ⟨hxs.symm, (List.singleton_inj.mp hy).symm⟩
  · rw [List.concat_eq_append, ← List.cons_append, ← List.append_assoc] at h
    exact .inr ⟨rest, (List.append_inj' h rfl).1⟩

end Foundation
