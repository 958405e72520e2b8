import Mathlib.Data.List.Forall2
import UbgoLogger.Foundation.Forest

namespace Foundation.Forest

variable {ps : Forest} {p i n : Nat} {c : List Nat} {a : List Nat}

-- The nodes from the root of i down to i.
inductive Lineage (ps : Forest) : Nat → List Nat → Prop
  | root {i : Nat} (h : ps.Root i) : Lineage ps i [i]
  | child {p i : Nat} {c : List Nat} (h : ps.Child p i) (hp : Lineage ps p c) :
      Lineage ps i (c ++ [i])

theorem Lineage.ne_nil (h : ps.Lineage i c) : c ≠ [] := by
  cases h <;> simp

theorem Lineage.lt (h : ps.Lineage i c) (hn : n ∈ c) : n < ps.length := by
  induction h with
  | root h =>
    rw [List.mem_singleton] at hn
    exact hn ▸ lt_of_root h
  | child h _ ih =>
    rcases List.mem_append.mp hn with hold | hnew
    · exact ih hold
    · exact List.mem_singleton.mp hnew ▸ lt_of_child h

theorem Lineage.grow (h : ps.Lineage i c) (x : Option Nat) : Lineage (ps ++ [x]) i c := by
  induction h with
  | root h => exact .root ((getElem?_grow x (lt_of_root h)).trans h)
  | child h _ ih => exact .child ((getElem?_grow x (lt_of_child h)).trans h) ih

theorem Address.lt (h : ps.Address i a) : i < ps.length := by
  cases h with
  | root h => exact lt_of_root h
  | child h _ => exact lt_of_child h

-- Along a lineage the addresses are the initial parts of the last one.
theorem Lineage.addresses (h : ps.Lineage i c) (ha : ps.Address i a) :
    List.Forall₂ ps.Address c ((List.range a.length).map fun j => a.take (j + 1)) := by
  induction h generalizing a with
  | root h =>
    obtain rfl := ha.unique (.root h)
    exact .cons ha .nil
  | @child p i c h _ ih =>
    cases ha with
    | root hroot => exact absurd h (hroot.not_child ·)
    | @child q _ b hq hb =>
      obtain rfl := h.parent_unique hq
      have hinit : (List.range b.length).map (fun j => (b ++ [ps.rank p i]).take (j + 1)) =
          (List.range b.length).map fun j => b.take (j + 1) := by
        refine List.map_congr_left fun j hj => ?_
        rw [List.take_append_of_le_length (List.mem_range.mp hj)]
      rw [List.length_append, List.length_singleton, List.range_succ, List.map_append, hinit]
      have hlast : ps.Address i ((b ++ [ps.rank p i]).take (b.length + 1)) := by
        rw [List.take_of_length_le (by simp)]
        exact .child hq hb
      exact List.rel_append (ih hb) (.cons hlast .nil)

theorem Lineage.last (h : ps.Lineage i c) : ∃ b, c = b ++ [i] := by
  cases h with
  | root h => exact ⟨[], rfl⟩
  | child h hp => exact ⟨_, rfl⟩

-- What a node says of its parent is what the parents say of themselves, one place on.
theorem Lineage.shift {β : Type} {f g : Nat → β} (h : ps.Lineage i c)
    (hfg : ∀ {p i}, ps.Child p i → f i = g p) : c.tail.map f = c.dropLast.map g := by
  induction h with
  | root h => rfl
  | @child p i c h hp ih =>
    rw [List.tail_append_of_ne_nil hp.ne_nil, List.map_append, ih, List.dropLast_concat]
    obtain ⟨b, rfl⟩ := hp.last
    rw [List.dropLast_concat, List.map_append, List.map_singleton, List.map_singleton, hfg h]

end Foundation.Forest
