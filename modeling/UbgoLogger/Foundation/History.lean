import Mathlib.Data.List.Count
import Mathlib.Data.List.Nodup
import Mathlib.Data.List.Perm.Basic

namespace Foundation

def Preceded {ε : Type} (log : List ε) (y x : ε) : Prop :=
  ∀ before after, log = before ++ x :: after → y ∈ before

theorem preceded_nil {ε : Type} (y x : ε) : Preceded [] y x := by
  intro before after h
  simp at h

theorem preceded_of_not_mem {ε : Type} {log : List ε} {x : ε} (y : ε) (h : x ∉ log) :
    Preceded log y x := by
  rintro before after rfl
  exact absurd (by simp) h

theorem Preceded.append {ε : Type} {log evs : List ε} {y x : ε} (h : Preceded log y x)
    (hx : x ∈ evs → y ∈ log) : Preceded (log ++ evs) y x := by
  intro before after he
  rcases List.append_eq_append_iff.mp he with ⟨mid, hb, hm⟩ | ⟨mid, hl, hm⟩
  · rw [hb]
    exact List.mem_append_left mid (hx (by rw [hm]; simp))
  · cases mid with
    | nil =>
      rw [List.append_nil] at hl
      exact hl ▸ hx (by rw [← List.nil_append evs, ← hm]; simp)
    | cons z mid =>
      obtain ⟨rfl, -⟩ := List.cons.inj hm
      exact h before mid hl

section Fibre

variable {α ι : Type} [DecidableEq ι] (f : α → ι)

def fibre (i : ι) (xs : List α) : List α := xs.filter fun x => f x = i

theorem fibre_append (i : ι) (xs ys : List α) : fibre f i (xs ++ ys) = fibre f i xs ++ fibre f i ys :=
  List.filter_append xs ys

theorem fibre_nil (i : ι) : fibre f i [] = [] := rfl

theorem fibre_singleton (i : ι) (x : α) : fibre f i [x] = if f x = i then [x] else [] := by
  simp [fibre, List.filter_cons]

theorem fibre_sublist (i : ι) (xs : List α) : (fibre f i xs).Sublist xs := List.filter_sublist

theorem mem_fibre {i : ι} {xs : List α} {x : α} : x ∈ fibre f i xs ↔ x ∈ xs ∧ f x = i := by
  simp [fibre]

theorem fibre_eq_self {i : ι} {xs : List α} (h : ∀ x ∈ xs, f x = i) : fibre f i xs = xs :=
  List.filter_eq_self.mpr fun x hx => decide_eq_true (h x hx)

theorem fibre_eq_nil {i : ι} {xs : List α} (h : ∀ x ∈ xs, f x ≠ i) : fibre f i xs = [] :=
  List.filter_eq_nil_iff.mpr fun x hx => by simpa using h x hx

theorem nodup_of_fibre {xs : List α} (h : ∀ i, (fibre f i xs).Nodup) : xs.Nodup := by
  induction xs with
  | nil => exact List.nodup_nil
  | cons x xs ih =>
    have hcons : fibre f (f x) (x :: xs) = x :: fibre f (f x) xs := by simp [fibre]
    have hx := h (f x)
    rw [hcons, List.nodup_cons] at hx
    refine List.nodup_cons.mpr ⟨fun hmem => hx.1 ((mem_fibre f).mpr ⟨hmem, rfl⟩), ih fun i => ?_⟩
    exact (h i).sublist ((List.sublist_cons_self x xs).filter _)

theorem count_fibre [DecidableEq α] (a : α) (xs : List α) : (fibre f (f a) xs).count a = xs.count a :=
  List.count_filter (by simp)

theorem perm_of_fibre {xs ys : List α} (h : ∀ i, fibre f i xs = fibre f i ys) : xs.Perm ys := by
  classical
  refine List.perm_iff_count.mpr fun a => ?_
  rw [← count_fibre f a xs, ← count_fibre f a ys, h]

theorem subperm_of_fibre {xs ys : List α} (h : ∀ i, (fibre f i xs).Subperm (fibre f i ys)) :
    xs.Subperm ys := by
  classical
  refine List.subperm_ext_iff.mpr fun a _ => ?_
  rw [← count_fibre f a xs, ← count_fibre f a ys]
  exact (h (f a)).count_le a

end Fibre

theorem getElem?_concat_cases {α : Type} {xs : List α} {x y : α} {i : Nat}
    (h : (xs ++ [x])[i]? = some y) : xs[i]? = some y ∨ i = xs.length ∧ y = x := by
  rw [List.getElem?_append] at h
  split at h
  · exact .inl h
  · obtain ⟨hlt, hy⟩ := List.getElem?_eq_some_iff.mp h
    rw [List.length_singleton] at hlt
    refine .inr ⟨by omega, ?_⟩
    simpa [Nat.lt_one_iff.mp hlt] using hy.symm

theorem countP_flatMap_set {α β : Type} (p : β → Bool) (f : α → List β) {xs : List α} {n : Nat}
    {x : α} (y : α) (h : xs[n]? = some x) :
    ((xs.set n y).flatMap f).countP p + (f x).countP p =
      (xs.flatMap f).countP p + (f y).countP p := by
  induction xs generalizing n with
  | nil => simp at h
  | cons z xs ih =>
    cases n with
    | zero =>
      obtain rfl : z = x := by simpa using h
      simp only [List.set_cons_zero, List.flatMap_cons, List.countP_append]
      omega
    | succ n =>
      have := ih (by simpa using h)
      simp only [List.set_cons_succ, List.flatMap_cons, List.countP_append]
      omega

theorem countP_set {α : Type} (p : α → Bool) {xs : List α} {n : Nat} {x : α} (y : α)
    (h : xs[n]? = some x) :
    (xs.set n y).countP p + (p x).toNat = xs.countP p + (p y).toNat := by
  have hone (z : α) : [z].countP p = (p z).toNat := by cases hz : p z <;> simp [hz]
  have hcount := countP_flatMap_set p (fun z => [z]) y h
  rwa [List.flatMap_singleton', List.flatMap_singleton', hone, hone] at hcount

theorem filterMap_concat {ε α : Type} (f : ε → Option α) (log : List ε) (e : ε) :
    (log ++ [e]).filterMap f = log.filterMap f ++ (f e).toList := by
  cases h : f e <;> simp [h]

theorem filterMap_sublist {ε α : Type} {f g : ε → Option α} (h : ∀ e y, f e = some y → g e = some y)
    (log : List ε) : (log.filterMap f).Sublist (log.filterMap g) := by
  induction log with
  | nil => exact List.Sublist.refl []
  | cons e log ih =>
    cases hf : f e with
    | none =>
      rw [List.filterMap_cons_none hf]
      cases hg : g e with
      | none => rwa [List.filterMap_cons_none hg]
      | some y => rw [List.filterMap_cons_some hg]; exact ih.cons y
    | some y =>
      rw [List.filterMap_cons_some hf, List.filterMap_cons_some (h e y hf)]
      exact ih.cons_cons y

end Foundation
