import Mathlib.Logic.Function.Basic
import UbgoLogger.Foundation.History

namespace Foundation

variable {α ι : Type} [DecidableEq ι]

-- What each i has between two stages: what reached the first and not yet the second, in order.
def Between (f : α → ι) (before after : List α) (mid : ι → List α) : Prop :=
  ∀ i, fibre f i before = fibre f i after ++ mid i

namespace Between

variable {f : α → ι} {before after : List α} {mid : ι → List α} {x : α} {i : ι}

theorem fresh : Between f [] [] fun _ => [] := fun _ => rfl

theorem enterAll (h : Between f before after mid) {xs : List α} (hxs : ∀ x ∈ xs, f x = i) :
    Between f (before ++ xs) after (Function.update mid i (mid i ++ xs)) := by
  intro j
  rw [fibre_append, h j, Function.update_apply]
  by_cases hj : j = i
  · rw [hj, if_pos rfl, fibre_eq_self f hxs, List.append_assoc]
  · rw [if_neg hj, fibre_eq_nil f fun x hx he => hj (he.symm.trans (hxs x hx)), List.append_nil]

theorem enter (h : Between f before after mid) (hx : f x = i) :
    Between f (before ++ [x]) after (Function.update mid i (mid i ++ [x])) :=
  h.enterAll (List.forall_mem_singleton.mpr hx)

theorem leave (h : Between f before after mid) (hx : f x = i) {rest : List α}
    (hmid : mid i = x :: rest) : Between f before (after ++ [x]) (Function.update mid i rest) := by
  intro j
  rw [fibre_append, fibre_singleton, h j, Function.update_apply]
  by_cases hj : j = i
  · simp [hj, hx, hmid]
  · simp [hj, hx, Ne.symm hj]

theorem fibre_starts (h : Between f before after mid) (i : ι) : fibre f i after <+: fibre f i before :=
  ⟨mid i, (h i).symm⟩

theorem fibre_eq (h : Between f before after mid) (hmid : mid i = []) :
    fibre f i before = fibre f i after := by
  rw [h i, hmid, List.append_nil]

theorem perm (h : Between f before after mid) (hmid : ∀ i, mid i = []) : before.Perm after :=
  perm_of_fibre f fun i => h.fibre_eq (hmid i)

end Between

section Views

variable {β γ : Type} {f : α → ι} {g : β → ι} {xs : List α} {ys : List β}

theorem fibre_map (h : α → β) (hf : ∀ x, g (h x) = f x) (i : ι) :
    fibre g i (xs.map h) = (fibre f i xs).map h := by
  rw [fibre, fibre, List.filter_map]
  simp only [Function.comp_def, hf]

theorem fibre_filterMap {h : α → Option β} (hf : ∀ x y, h x = some y → g y = f x) (i : ι) :
    fibre g i (xs.filterMap h) = (fibre f i xs).filterMap h := by
  rw [fibre, fibre, List.filter_filterMap, List.filterMap_filter]
  refine List.filterMap_congr fun x _ => ?_
  cases hx : h x with
  | none => simp
  | some y => simp [hf x y hx, Option.filter]

theorem fibre_tagged (f : α → ι) (p : α → γ) (i : ι) :
    fibre Prod.fst i (xs.map fun x => (f x, p x)) = ((fibre f i xs).map p).map (Prod.mk i) := by
  rw [fibre_map (f := f) (fun x => (f x, p x)) fun _ => rfl, List.map_map]
  refine List.map_congr_left fun x hx => ?_
  rw [((mem_fibre f).mp hx).2]
  rfl

-- Two lists that show the same of every i show the same in some order.
theorem map_perm_of_fibre (p : α → γ) (q : β → γ)
    (h : ∀ i, (fibre f i xs).map p = (fibre g i ys).map q) : (xs.map p).Perm (ys.map q) := by
  have htag : (xs.map fun x => (f x, p x)).Perm (ys.map fun y => (g y, q y)) :=
    perm_of_fibre Prod.fst fun i => by rw [fibre_tagged, fibre_tagged, h i]
  have hsnd := htag.map Prod.snd
  rwa [List.map_map, List.map_map] at hsnd

theorem map_eq_of_fibre [Subsingleton ι] (p : α → γ) (q : β → γ)
    (h : ∀ i, (fibre f i xs).map p = (fibre g i ys).map q) : xs.map p = ys.map q := by
  cases xs with
  | nil => exact (map_perm_of_fibre p q h).nil_eq
  | cons x xs =>
    have hfibre := h (f x)
    rwa [fibre_eq_self f fun _ _ => Subsingleton.elim _ _,
      fibre_eq_self g fun _ _ => Subsingleton.elim _ _] at hfibre

end Views

end Foundation
