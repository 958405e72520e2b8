import Mathlib.Data.Int.ModEq
import Mathlib.Data.List.Basic

namespace Foundation.Circular

variable {α : Type}

-- Counting from head, slot k holds the k-th element and the slots past the last one are empty.
structure Holds (buf : List (Option α)) (head tail count : Nat) (xs : List α) : Prop where
  length : xs.length = count
  fits : count ≤ buf.length
  head_lt : head < buf.length
  tail_eq : tail = (head + count) % buf.length
  slots : ∀ k, k < buf.length → buf[(head + k) % buf.length]? = some xs[k]?

def contents (buf : List (Option α)) (head count : Nat) : List α :=
  (List.range count).filterMap fun k => (buf[(head + k) % buf.length]?).join

theorem add_mod_inj {n head i j : Nat} (hi : i < n) (hj : j < n)
    (h : (head + i) % n = (head + j) % n) : i = j := by
  have hmod : i ≡ j [MOD n] := Nat.ModEq.add_left_cancel' head h
  exact Nat.ModEq.eq_of_lt_of_lt hmod hi hj

theorem ne_add_succ_mod {n head k : Nat} (hhead : head < n) (hk : k + 1 < n) :
    head ≠ (head + (k + 1)) % n := by
  intro he
  have hzero : (head + 0) % n = (head + (k + 1)) % n := by
    rwa [Nat.add_zero, Nat.mod_eq_of_lt hhead]
  have := add_mod_inj (by omega) hk hzero
  omega

variable {buf : List (Option α)} {head tail count : Nat} {xs : List α}

theorem holds_empty {n : Nat} (hn : 0 < n) : Holds (List.replicate n (none : Option α)) 0 0 0 [] where
  length := rfl
  fits := Nat.zero_le _
  head_lt := by simpa using hn
  tail_eq := by simp
  slots := fun k hk => by
    have hlt : (0 + k) % (List.replicate n (none : Option α)).length < n := by
      simpa using Nat.mod_lt _ hn
    rw [List.getElem?_replicate_of_lt hlt]
    simp

theorem Holds.front (h : Holds buf head tail count xs) : buf[head]? = some xs.head? := by
  have hn := h.head_lt
  have hslot := h.slots 0 (by omega)
  rwa [Nat.add_zero, Nat.mod_eq_of_lt hn, ← List.head?_eq_getElem?] at hslot

theorem Holds.push (h : Holds buf head tail count xs) (x : α) (hroom : count < buf.length) :
    Holds (buf.set tail (some x)) head ((tail + 1) % buf.length) (count + 1) (xs ++ [x]) := by
  have hlen := h.length
  refine ⟨by simp [hlen], by rwa [List.length_set], by simpa using h.head_lt, ?_, fun k hk => ?_⟩
  · rw [List.length_set, h.tail_eq, Nat.mod_add_mod, Nat.add_assoc]
  · rw [List.length_set] at hk ⊢
    rcases eq_or_ne k count with rfl | hne
    · have hlt : tail < buf.length := h.tail_eq ▸ Nat.mod_lt _ (by omega)
      rw [← h.tail_eq, List.getElem?_set_self hlt, ← hlen]
      simp
    · have hslot : tail ≠ (head + k) % buf.length := by
        rw [h.tail_eq]
        exact fun he => hne (add_mod_inj hroom hk he).symm
      rw [List.getElem?_set_ne hslot, h.slots k hk]
      rcases Nat.lt_or_ge k count with hlt | hge
      · rw [List.getElem?_append_left (by omega)]
      · rw [List.getElem?_eq_none (by omega), List.getElem?_eq_none (by simp; omega)]

theorem Holds.pop {x : α} (h : Holds buf head tail count (x :: xs)) :
    Holds (buf.set head none) ((head + 1) % buf.length) tail (count - 1) xs := by
  have hlen := h.length
  have hfits := h.fits
  have hhead := h.head_lt
  rw [List.length_cons] at hlen
  refine ⟨by omega, by rw [List.length_set]; omega, by rw [List.length_set]; exact Nat.mod_lt _ (by omega),
    ?_, fun k hk => ?_⟩
  · rw [List.length_set, h.tail_eq, Nat.mod_add_mod]
    congr 1
    omega
  · rw [List.length_set] at hk ⊢
    rw [Nat.mod_add_mod, Nat.add_assoc, Nat.add_comm 1 k]
    rcases Nat.lt_or_ge (k + 1) buf.length with hlt | hge
    · rw [List.getElem?_set_ne (ne_add_succ_mod hhead hlt), h.slots (k + 1) hlt,
        List.getElem?_cons_succ]
    · have hk' : k + 1 = buf.length := by omega
      rw [hk', Nat.add_mod_right, Nat.mod_eq_of_lt hhead, List.getElem?_set_self hhead,
        List.getElem?_eq_none (by omega)]

theorem filterMap_range_getElem? (xs : List α) :
    (List.range xs.length).filterMap (fun k => xs[k]?) = xs := by
  induction xs with
  | nil => rfl
  | cons x xs ih =>
    rw [List.length_cons, List.range_succ_eq_map, List.filterMap_cons_some (List.getElem?_cons_zero),
      List.filterMap_map]
    exact congrArg (x :: ·) ih

-- As Holds, with nothing said about the slots past the last element.
structure Stores (buf : List (Option α)) (head count : Nat) (xs : List α) : Prop where
  length : xs.length = count
  fits : count ≤ buf.length
  head_lt : head < buf.length
  slots : ∀ k, k < count → buf[(head + k) % buf.length]? = some xs[k]?

theorem Holds.stores (h : Holds buf head tail count xs) : Stores buf head count xs :=
  ⟨h.length, h.fits, h.head_lt, fun k hk => h.slots k (lt_of_lt_of_le hk h.fits)⟩

theorem Stores.push (h : Stores buf head count xs) (x : α) (hroom : count < buf.length) :
    Stores (buf.set ((head + count) % buf.length) (some x)) head (count + 1) (xs ++ [x]) := by
  have hlen := h.length
  refine ⟨by simp [hlen], by rwa [List.length_set], by simpa using h.head_lt, fun k hk => ?_⟩
  rw [List.length_set]
  rcases eq_or_ne k count with rfl | hne
  · rw [List.getElem?_set_self (Nat.mod_lt _ (by omega)), ← hlen]
    simp
  · have hslot : (head + count) % buf.length ≠ (head + k) % buf.length :=
      fun he => hne (add_mod_inj hroom (by omega) he).symm
    rw [List.getElem?_set_ne hslot, h.slots k (by omega), List.getElem?_append_left (by omega)]

theorem Stores.overwrite {y : α} (h : Stores buf head buf.length (y :: xs)) (x : α) :
    Stores (buf.set head (some x)) ((head + 1) % buf.length) buf.length (xs ++ [x]) := by
  have hlen := h.length
  have hhead := h.head_lt
  rw [List.length_cons] at hlen
  refine ⟨by simp [hlen], by rw [List.length_set], by rw [List.length_set]; exact Nat.mod_lt _ (by omega),
    fun k hk => ?_⟩
  rw [List.length_set, Nat.mod_add_mod, Nat.add_assoc, Nat.add_comm 1 k]
  rcases Nat.lt_or_ge (k + 1) buf.length with hlt | hge
  · rw [List.getElem?_set_ne (ne_add_succ_mod hhead hlt), h.slots (k + 1) hlt,
      List.getElem?_cons_succ, List.getElem?_append_left (by omega)]
  · have hk' : k + 1 = buf.length := by omega
    rw [hk', Nat.add_mod_right, Nat.mod_eq_of_lt hhead, List.getElem?_set_self hhead]
    simp [show k = xs.length by omega]

theorem Stores.contents_eq (h : Stores buf head count xs) : contents buf head count = xs := by
  have hslots : ∀ k ∈ List.range xs.length, (buf[(head + k) % buf.length]?).join = xs[k]? := by
    intro k hk
    have hlen := h.length
    have hlt := List.mem_range.mp hk
    rw [h.slots k (by omega)]
    rfl
  calc contents buf head count
      = (List.range xs.length).filterMap fun k => (buf[(head + k) % buf.length]?).join := by
        rw [contents, h.length]
    _ = (List.range xs.length).filterMap fun k => xs[k]? := List.filterMap_congr hslots
    _ = xs := filterMap_range_getElem? xs

end Foundation.Circular
