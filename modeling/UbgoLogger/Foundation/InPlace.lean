import UbgoLogger.Foundation.Slices

namespace Foundation.Slices.Store

variable {α : Type}

-- s[i] at the time it is read
def read (st : Store α) (s : Slice) (i : Nat) : Option α := (st.array s.arr)[i]?

-- s[i] = x
def assign (st : Store α) (s : Slice) (i : Nat) (x : α) : Store α :=
  st.write s.arr ((st.array s.arr).set i x)

-- The array a with out written over its front, and the slice of what was written.
def overwrite (st : Store α) (a : Nat) (out : List α) : Store α × Slice :=
  (st.write a (out ++ (st.array a).drop out.length), ⟨a, out.length⟩)

@[simp]
theorem write_write (st : Store α) (a : Nat) (xs ys : List α) :
    (st.write a xs).write a ys = st.write a ys := by
  simp [write]

theorem write_array (st : Store α) (a : Nat) : st.write a (st.array a) = st := by
  unfold write array
  rcases Nat.lt_or_ge a st.arrays.length with h | h
  · rw [List.getD_eq_getElem _ _ h, List.set_getElem_self]
  · rw [List.set_eq_of_length_le h]

section Overwrite

variable {st : Store α} {a : Nat} {out : List α}

theorem array_overwrite (ha : a < st.arrays.length) :
    (st.overwrite a out).1.array a = out ++ (st.array a).drop out.length :=
  st.array_write_self _ ha

theorem view_overwrite (ha : a < st.arrays.length) :
    (st.overwrite a out).1.view (st.overwrite a out).2 = out :=
  view_of_array (array_overwrite ha) rfl

theorem valid_overwrite (ha : a < st.arrays.length) :
    (st.overwrite a out).1.Valid (st.overwrite a out).2 :=
  valid_of_array (by simpa [overwrite] using ha) (array_overwrite ha) rfl

theorem overwrite_nil (st : Store α) (a : Nat) : st.overwrite a [] = (st, ⟨a, 0⟩) := by
  rw [overwrite, List.nil_append, List.length_nil, List.drop_zero, write_array]

theorem overwrite_overwrite (ha : a < st.arrays.length) :
    (st.overwrite a out).1.overwrite a out = st.overwrite a out := by
  have harr : (st.overwrite a out).1.array a = out ++ (st.array a).drop out.length :=
    array_overwrite ha
  rw [overwrite, harr, List.drop_left]
  simp [overwrite]

theorem read_overwrite (ha : a < st.arrays.length) {len i : Nat} (hi : out.length ≤ i) :
    (st.overwrite a out).1.read ⟨a, len⟩ i = (st.array a)[i]? := by
  rw [read, array_overwrite ha, List.getElem?_append_right hi, List.getElem?_drop,
    Nat.add_sub_cancel' hi]

theorem push_overwrite [Inhabited α] (grow : Nat → Nat → Nat) (ha : a < st.arrays.length)
    (hroom : out.length < (st.array a).length) (x : α) :
    push grow (st.overwrite a out) x = st.overwrite a (out ++ [x]) := by
  have harr : (st.overwrite a out).1.array a = out ++ (st.array a).drop out.length :=
    array_overwrite ha
  have hlen : out.length + 1 ≤ ((st.overwrite a out).1.array a).length := by
    rw [harr, List.length_append, List.length_drop]
    omega
  have hpush : push grow (st.overwrite a out) x =
      ((st.overwrite a out).1.write a
        ((st.overwrite a out).1.view (st.overwrite a out).2 ++ [x] ++
          ((st.overwrite a out).1.array a).drop (out.length + 1)), ⟨a, out.length + 1⟩) := if_pos hlen
  rw [hpush, view_overwrite ha, harr]
  simp [overwrite]

theorem assign_overwrite (ha : a < st.arrays.length) (hroom : out.length < (st.array a).length)
    (len : Nat) (x : α) :
    (st.overwrite a out).1.assign ⟨a, len⟩ out.length x = (st.overwrite a (out ++ [x])).1 := by
  rw [assign, array_overwrite ha, List.drop_eq_getElem_cons hroom, List.set_append_right _ _ le_rfl,
    Nat.sub_self, List.set_cons_zero]
  simp [overwrite]

theorem overwrite_concat_getElem (hroom : out.length < (st.array a).length) :
    (st.overwrite a (out ++ [(st.array a)[out.length]])).1 = (st.overwrite a out).1 := by
  simp only [overwrite, List.append_assoc, List.length_append, List.length_singleton,
    List.singleton_append, ← List.drop_eq_getElem_cons hroom]

end Overwrite

-- The loop over s that appends what g leaves of each element to s[:0].
def compactStep [Inhabited α] (grow : Nat → Nat → Nat) (g : α → Option α) (s : Slice)
    (p : Store α × Slice) (i : Nat) : Store α × Slice :=
  match (p.1.read s i).bind g with
  | none => p
  | some y => push grow p y

def compact [Inhabited α] (grow : Nat → Nat → Nat) (g : α → Option α) (st : Store α) (s : Slice) :
    Store α × Slice :=
  (List.range s.len).foldl (compactStep grow g s) (st, ⟨s.arr, 0⟩)

-- The loop over s that assigns the elements g has a replacement for.
def replaceStep (g : α → Option α) (s : Slice) (st : Store α) (i : Nat) : Store α :=
  match (st.read s i).bind g with
  | none => st
  | some y => st.assign s i y

def replace (g : α → Option α) (st : Store α) (s : Slice) : Store α :=
  (List.range s.len).foldl (replaceStep g s) st

section Loops

variable {st : Store α} {s : Slice}

theorem compact_run [Inhabited α] (grow : Nat → Nat → Nat) (g : α → Option α) (h : st.Valid s)
    {n : Nat} (hn : n ≤ s.len) :
    (List.range n).foldl (compactStep grow g s) (st, ⟨s.arr, 0⟩) =
      st.overwrite s.arr (((st.array s.arr).take n).filterMap g) := by
  induction n with
  | zero => exact (overwrite_nil st s.arr).symm
  | succ n ih =>
    have hlt : n < (st.array s.arr).length := hn.trans h.len_le
    -- the write index has not passed the read index
    have hle : (((st.array s.arr).take n).filterMap g).length ≤ n :=
      (List.length_filterMap_le _ _).trans (List.length_take_le _ _)
    rw [List.range_succ, List.foldl_append, ih (Nat.le_of_succ_le hn), List.foldl_cons,
      List.foldl_nil, compactStep, read_overwrite h.arr_lt hle, List.getElem?_eq_getElem hlt,
      List.take_succ_eq_append_getElem hlt, List.filterMap_append]
    cases hg : g (st.array s.arr)[n] with
    | none => simp [hg]
    | some y => simpa [hg] using push_overwrite grow h.arr_lt (hle.trans_lt hlt) y

theorem compact_eq [Inhabited α] (grow : Nat → Nat → Nat) (g : α → Option α) (h : st.Valid s) :
    st.compact grow g s = st.overwrite s.arr ((st.view s).filterMap g) :=
  compact_run grow g h le_rfl

theorem replace_run (g : α → Option α) (h : st.Valid s) {n : Nat} (hn : n ≤ s.len) :
    (List.range n).foldl (replaceStep g s) st =
      (st.overwrite s.arr (((st.array s.arr).take n).map fun x => (g x).getD x)).1 := by
  induction n with
  | zero => rw [List.take_zero, List.map_nil, overwrite_nil]; rfl
  | succ n ih =>
    have hlt : n < (st.array s.arr).length := hn.trans h.len_le
    have hlen : (((st.array s.arr).take n).map fun x => (g x).getD x).length = n := by
      rw [List.length_map, List.length_take_of_le hlt.le]
    rw [List.range_succ, List.foldl_append, ih (Nat.le_of_succ_le hn), List.foldl_cons,
      List.foldl_nil, replaceStep, read_overwrite h.arr_lt hlen.le, List.getElem?_eq_getElem hlt,
      List.take_succ_eq_append_getElem hlt, List.map_append, Option.bind_some]
    generalize ((st.array s.arr).take n).map (fun x => (g x).getD x) = out at hlen ⊢
    subst hlen
    cases hg : g (st.array s.arr)[out.length] with
    | none => simpa [hg] using (overwrite_concat_getElem hlt).symm
    | some y => simpa [hg] using assign_overwrite h.arr_lt hlt s.len y

theorem replace_eq (g : α → Option α) (h : st.Valid s) :
    st.replace g s = (st.overwrite s.arr ((st.view s).map fun x => (g x).getD x)).1 :=
  replace_run g h le_rfl

end Loops

end Foundation.Slices.Store
