import Mathlib.Data.List.GetD
import Mathlib.Order.Nat

namespace Foundation.Slices

-- A slice names its backing array and its length; its capacity is the length of the array.
structure Slice where
  arr : Nat
  len : Nat

def Slice.nil : Slice := ⟨0, 0⟩

structure Store (α : Type) where
  arrays : List (List α)

variable {α : Type}

namespace Store

-- Array 0 has no room: it stands behind the nil slice.
def empty : Store α := ⟨[[]]⟩

def array (st : Store α) (a : Nat) : List α := st.arrays.getD a []

def view (st : Store α) (s : Slice) : List α := (st.array s.arr).take s.len

def alloc (st : Store α) (xs : List α) : Store α := ⟨st.arrays ++ [xs]⟩

def write (st : Store α) (a : Nat) (xs : List α) : Store α := ⟨st.arrays.set a xs⟩

-- append(s, xs...): in place when there is room, and else in a new array. grow answers how much
-- room is left behind the elements, given the old capacity and the new length.
def append [Inhabited α] (grow : Nat → Nat → Nat) (st : Store α) (s : Slice) (xs : List α) :
    Store α × Slice :=
  if s.len + xs.length ≤ (st.array s.arr).length then
    (st.write s.arr (st.view s ++ xs ++ (st.array s.arr).drop (s.len + xs.length)),
      ⟨s.arr, s.len + xs.length⟩)
  else
    (st.alloc (st.view s ++ xs ++ List.replicate
        (grow (st.array s.arr).length (s.len + xs.length)) default),
      ⟨st.arrays.length, s.len + xs.length⟩)

-- make([]T, 0, room)
def make [Inhabited α] (st : Store α) (room : Nat) : Store α × Slice :=
  (st.alloc (List.replicate room default), ⟨st.arrays.length, 0⟩)

structure Sound (st : Store α) : Prop where
  nil_lt : 0 < st.arrays.length
  nil_eq : st.array 0 = []

structure Valid (st : Store α) (s : Slice) : Prop where
  arr_lt : s.arr < st.arrays.length
  len_le : s.len ≤ (st.array s.arr).length

-- Writing through s cannot reach an array below n.
def Private (st : Store α) (n : Nat) (s : Slice) : Prop := n ≤ s.arr ∨ st.array s.arr = []

-- The arrays below n are there and as they were.
structure Keeps (n : Nat) (st st' : Store α) : Prop where
  length_le : n ≤ st'.arrays.length
  array_eq : ∀ a < n, st'.array a = st.array a

theorem sound_empty : (empty : Store α).Sound := ⟨Nat.zero_lt_one, rfl⟩

theorem Keeps.refl {n : Nat} {st : Store α} (h : n ≤ st.arrays.length) : Keeps n st st :=
  ⟨h, fun _ _ => rfl⟩

theorem Keeps.trans {n : Nat} {st₁ st₂ st₃ : Store α} (h : Keeps n st₁ st₂) (h' : Keeps n st₂ st₃) :
    Keeps n st₁ st₃ :=
  ⟨h'.length_le, fun a ha => (h'.array_eq a ha).trans (h.array_eq a ha)⟩

theorem Keeps.view {st st' : Store α} {s : Slice} (h : Keeps st.arrays.length st st')
    (hs : st.Valid s) : st'.view s = st.view s := by
  rw [Store.view, Store.view, h.array_eq s.arr hs.arr_lt]

theorem Keeps.valid {st st' : Store α} {s : Slice} (h : Keeps st.arrays.length st st')
    (hs : st.Valid s) : st'.Valid s := by
  refine ⟨hs.arr_lt.trans_le h.length_le, ?_⟩
  rw [h.array_eq s.arr hs.arr_lt]
  exact hs.len_le

theorem Keeps.sound {st st' : Store α} (h : Keeps st.arrays.length st st') (hst : st.Sound) :
    st'.Sound :=
  ⟨Nat.lt_of_lt_of_le hst.nil_lt h.length_le, (h.array_eq 0 hst.nil_lt).trans hst.nil_eq⟩

section Arrays

variable (st : Store α) (n : Nat) (xs : List α)

theorem array_alloc_of_lt {a : Nat} (h : a < st.arrays.length) :
    (st.alloc xs).array a = st.array a := by
  rw [array, array, alloc, List.getD_append _ _ _ _ h]

@[simp]
theorem array_alloc_length : (st.alloc xs).array st.arrays.length = xs := by
  rw [array, alloc, List.getD_append_right _ _ _ _ le_rfl, Nat.sub_self]
  rfl

@[simp]
theorem length_alloc : (st.alloc xs).arrays.length = st.arrays.length + 1 := by
  simp [alloc]

@[simp]
theorem length_write (a : Nat) : (st.write a xs).arrays.length = st.arrays.length := by
  simp [write]

theorem array_write_self {a : Nat} (h : a < st.arrays.length) : (st.write a xs).array a = xs := by
  rw [array, write, List.getD_eq_getElem?_getD, List.getElem?_set_self h]
  rfl

theorem array_write_of_ne {a b : Nat} (h : b ≠ a) : (st.write a xs).array b = st.array b := by
  rw [array, array, write, List.getD_eq_getElem?_getD, List.getD_eq_getElem?_getD,
    List.getElem?_set_ne (Ne.symm h)]

theorem keeps_alloc (h : n ≤ st.arrays.length) : Keeps n st (st.alloc xs) :=
  ⟨h.trans (by simp), fun _ ha => st.array_alloc_of_lt xs (ha.trans_le h)⟩

end Arrays

theorem Valid.length_view {st : Store α} {s : Slice} (h : st.Valid s) : (st.view s).length = s.len :=
  List.length_take_of_le h.len_le

theorem view_of_array {st : Store α} {a : Nat} {xs ys : List α} (h : st.array a = xs ++ ys) {k : Nat}
    (hk : xs.length = k) : st.view ⟨a, k⟩ = xs := by
  rw [view, h, ← hk, List.take_left]

theorem valid_of_array {st : Store α} {a : Nat} {xs ys : List α} (ha : a < st.arrays.length)
    (h : st.array a = xs ++ ys) {k : Nat} (hk : xs.length = k) : st.Valid ⟨a, k⟩ := by
  refine ⟨ha, ?_⟩
  rw [h, List.length_append]
  exact hk ▸ Nat.le_add_right _ _

-- Whoever holds s may append to it without disturbing the arrays below n.
structure Owned (n : Nat) (st : Store α) (s : Slice) : Prop where
  valid : st.Valid s
  isPrivate : st.Private n s
  le_length : n ≤ st.arrays.length

-- From the slice s in st to s' in st', xs was appended; the arrays below n were left alone.
structure Extends (n : Nat) (xs : List α) (p q : Store α × Slice) : Prop where
  owned : Owned n q.1 q.2
  view_eq : q.1.view q.2 = p.1.view p.2 ++ xs
  keeps : Keeps n p.1 q.1

theorem Extends.refl {n : Nat} {st : Store α} {s : Slice} (h : Owned n st s) :
    Extends n [] (st, s) (st, s) :=
  ⟨h, (List.append_nil _).symm, Keeps.refl h.le_length⟩

theorem Extends.trans {n : Nat} {xs ys : List α} {p q r : Store α × Slice} (h : Extends n xs p q)
    (h' : Extends n ys q r) : Extends n (xs ++ ys) p r := by
  refine ⟨h'.owned, ?_, h.keeps.trans h'.keeps⟩
  rw [h'.view_eq, h.view_eq, List.append_assoc]

section Append

variable {st : Store α} {s : Slice} {n : Nat}

theorem Sound.valid_nil (h : st.Sound) : st.Valid Slice.nil := ⟨h.nil_lt, Nat.zero_le _⟩

theorem Sound.owned_nil (h : st.Sound) : Owned st.arrays.length st Slice.nil :=
  ⟨h.valid_nil, .inr h.nil_eq, le_rfl⟩

theorem extends_write (h : Owned n st s) {xs tail : List α}
    (hlen : (st.array s.arr).length = s.len + xs.length + tail.length) :
    Extends n xs (st, s) (st.write s.arr (st.view s ++ xs ++ tail), ⟨s.arr, s.len + xs.length⟩) := by
  have hself := st.array_write_self (st.view s ++ xs ++ tail) h.valid.arr_lt
  have hview : (st.view s ++ xs).length = s.len + xs.length := by
    rw [List.length_append, h.valid.length_view]
  have hempty (hnil : st.array s.arr = []) : st.view s ++ xs ++ tail = [] := by
    apply List.eq_nil_of_length_eq_zero
    rw [List.length_append, hview, ← hlen, hnil, List.length_nil]
  refine ⟨⟨valid_of_array (by simpa using h.valid.arr_lt) hself hview, ?_, by simpa using h.le_length⟩,
    view_of_array hself hview, by simpa using h.le_length, fun a ha => ?_⟩
  · exact h.isPrivate.imp id fun hnil => hself.trans (hempty hnil)
  · by_cases hne : a = s.arr
    · subst hne
      have hnil := h.isPrivate.resolve_left (by omega)
      exact (hself.trans (hempty hnil)).trans hnil.symm
    · exact st.array_write_of_ne _ hne

variable [Inhabited α] (grow : Nat → Nat → Nat)

theorem extends_append (h : Owned n st s) (xs : List α) :
    Extends n xs (st, s) (st.append grow s xs) := by
  unfold append
  split
  next hroom =>
    refine extends_write h ?_
    rw [List.length_drop]
    omega
  next =>
    have harr := st.array_alloc_length (st.view s ++ xs ++ List.replicate
      (grow (st.array s.arr).length (s.len + xs.length)) default)
    have hlen : (st.view s ++ xs).length = s.len + xs.length := by
      rw [List.length_append, h.valid.length_view]
    exact ⟨⟨valid_of_array (by simp) harr hlen, .inl h.le_length, h.le_length.trans (by simp)⟩,
      view_of_array harr hlen, st.keeps_alloc n _ h.le_length⟩

-- append(nil, s...) is a copy.
theorem extends_copy (h : st.Sound) (s : Slice) :
    Extends st.arrays.length (st.view s) (st, Slice.nil) (st.append grow Slice.nil (st.view s)) :=
  extends_append grow h.owned_nil _

omit grow in
theorem extends_make (st : Store α) (room : Nat) : Extends st.arrays.length [] (st, Slice.nil) (st.make room) := by
  refine ⟨⟨⟨by simp [make], Nat.zero_le _⟩, .inl le_rfl, by simp [make]⟩, ?_,
    st.keeps_alloc _ _ le_rfl⟩
  simp [make, view, Slice.nil]

def push (grow : Nat → Nat → Nat) (p : Store α × Slice) (x : α) : Store α × Slice :=
  p.1.append grow p.2 [x]

theorem extends_foldl_push {p : Store α × Slice} (h : Owned n p.1 p.2) (xs : List α) :
    Extends n xs p (xs.foldl (push grow) p) := by
  induction xs generalizing p with
  | nil => exact Extends.refl h
  | cons x xs ih =>
    have hx : Extends n [x] p (push grow p x) := extends_append grow h [x]
    exact hx.trans (ih hx.owned)

end Append

end Store

end Foundation.Slices
