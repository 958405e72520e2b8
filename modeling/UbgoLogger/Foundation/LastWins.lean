import Mathlib.Data.List.Perm.Basic

namespace Foundation.LastWins

variable {κ β γ : Type} [BEq κ]

def put (k : κ) (v : β) (ms : List (κ × β)) : List (κ × β) := (k, v) :: ms.filter fun m => m.1 != k

-- What a list of pairs says of k when a later pair for k replaces an earlier one.
def latest (xs : List (κ × β)) (k : κ) : Option β := xs.reverse.lookup k

theorem lookup_cons_eq (k k' : κ) (v : β) (xs : List (κ × β)) :
    ((k', v) :: xs).lookup k = if k == k' then some v else xs.lookup k := by
  rw [List.lookup_cons]
  cases k == k' <;> rfl

theorem latest_append (xs ys : List (κ × β)) (k : κ) :
    latest (xs ++ ys) k = (latest ys k).or (latest xs k) := by
  rw [latest, List.reverse_append, List.lookup_append]
  rfl

section Lawful

variable [LawfulBEq κ] {xs ys : List (κ × β)} {k : κ} {v : β}

theorem lookup_map (f : κ → β → γ) (xs : List (κ × β)) (k : κ) :
    (xs.map fun x => (x.1, f x.1 x.2)).lookup k = (xs.lookup k).map (f k) := by
  induction xs with
  | nil => rfl
  | cons x xs ih =>
    obtain ⟨k', v⟩ := x
    rw [List.map_cons, lookup_cons_eq, lookup_cons_eq, ih]
    split
    next h => rw [eq_of_beq h, Option.map_some]
    next => rfl

theorem lookup_filter_ne {k' : κ} (h : k ≠ k') (xs : List (κ × β)) :
    (xs.filter fun x => x.1 != k').lookup k = xs.lookup k := by
  induction xs with
  | nil => rfl
  | cons x xs ih =>
    obtain ⟨a, v⟩ := x
    by_cases ha : a = k'
    · have hne : (k == a) = false := beq_eq_false_iff_ne.mpr (ha ▸ h)
      rw [List.filter_cons_of_neg (by simpa using ha), ih, lookup_cons_eq, hne]
      rfl
    · rw [List.filter_cons_of_pos (by simpa using ha), lookup_cons_eq, lookup_cons_eq, ih]

theorem lookup_put_self (k : κ) (v : β) (ms : List (κ × β)) : (put k v ms).lookup k = some v :=
  List.lookup_cons_self

theorem lookup_put_of_ne {k' : κ} (h : k ≠ k') (v : β) (ms : List (κ × β)) :
    (put k' v ms).lookup k = ms.lookup k := by
  rw [put, lookup_cons_eq, beq_eq_false_iff_ne.mpr h, lookup_filter_ne h]
  rfl

theorem lookup_put_or (k k' : κ) (v : β) (ms : List (κ × β)) :
    (put k' v ms).lookup k = ((put k' v []).lookup k).or (ms.lookup k) := by
  by_cases h : k = k'
  · subst h
    rw [lookup_put_self, lookup_put_self, Option.some_or]
  · rw [lookup_put_of_ne h, lookup_put_of_ne h]
    rfl

theorem lookup_eq_some_iff (h : (xs.map Prod.fst).Nodup) : xs.lookup k = some v ↔ (k, v) ∈ xs := by
  induction xs with
  | nil => simp
  | cons x xs ih =>
    obtain ⟨k', w⟩ := x
    obtain ⟨hnew, hrest⟩ := List.nodup_cons.mp h
    rw [lookup_cons_eq, List.mem_cons, Prod.mk.injEq]
    split
    next h =>
      obtain rfl := eq_of_beq h
      have hnone : (k, v) ∉ xs := fun hmem => hnew (List.mem_map.mpr ⟨_, hmem, rfl⟩)
      simp [hnone, eq_comm]
    next h =>
      have hne : k ≠ k' := fun he => h (beq_iff_eq.mpr he)
      rw [ih hrest, or_iff_right fun he => hne he.1]

theorem lookup_perm (hperm : xs.Perm ys) (h : (ys.map Prod.fst).Nodup) (k : κ) :
    xs.lookup k = ys.lookup k := by
  have hxs : (xs.map Prod.fst).Nodup := (hperm.map Prod.fst).nodup_iff.mpr h
  apply Option.ext
  intro v
  rw [lookup_eq_some_iff hxs, lookup_eq_some_iff h, hperm.mem_iff]

theorem nodup_put (h : (xs.map Prod.fst).Nodup) (k : κ) (v : β) :
    ((put k v xs).map Prod.fst).Nodup := by
  rw [put, List.map_cons, List.nodup_cons]
  refine ⟨fun hmem => ?_, h.sublist (List.filter_sublist.map Prod.fst)⟩
  obtain ⟨x, hx, rfl⟩ := List.mem_map.mp hmem
  simpa using (List.mem_filter.mp hx).2

theorem latest_of_perm (hperm : xs.Perm ys) (h : (ys.map Prod.fst).Nodup) (k : κ) :
    latest xs k = ys.lookup k :=
  lookup_perm ((List.reverse_perm xs).trans hperm) h k

end Lawful

end Foundation.LastWins
