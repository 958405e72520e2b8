import Mathlib.Data.List.Basic
import Mathlib.Logic.Relation
import Mathlib.Order.Nat

namespace Foundation

-- Nodes are numbered in the order they were added; each names its parent, if it has one.
abbrev Forest := List (Option Nat)

namespace Forest

def Root (ps : Forest) (i : Nat) : Prop := ps[i]? = some none

def Child (ps : Forest) (p i : Nat) : Prop := ps[i]? = some (some p)

def Ancestor (ps : Forest) : Nat → Nat → Prop := Relation.TransGen ps.Child

def SameTree (ps : Forest) (i j : Nat) : Prop :=
  ∃ r, ps.Root r ∧ Relation.ReflTransGen ps.Child r i ∧ Relation.ReflTransGen ps.Child r j

-- A child's place among the children of p, counted from one in the order they were added.
def rank (ps : Forest) (p i : Nat) : Nat := (ps.take i).count (some p) + 1

inductive Address (ps : Forest) : Nat → List Nat → Prop
  | root {i : Nat} (h : ps.Root i) : Address ps i [1]
  | child {p i : Nat} {a : List Nat} (h : ps.Child p i) (hp : Address ps p a) :
      Address ps i (a ++ [ps.rank p i])

variable {ps : Forest} {p q i j : Nat} {a b : List Nat}

theorem Child.parent_unique (hp : ps.Child p i) (hq : ps.Child q i) : p = q :=
  Option.some.inj (Option.some.inj (hp.symm.trans hq))

theorem Root.not_child (h : ps.Root i) (hp : ps.Child p i) : False :=
  nomatch Option.some.inj (h.symm.trans hp)

theorem rank_lt (hi : ps.Child p i) (hlt : i < j) : ps.rank p i < ps.rank p j := by
  have htake : ps.take (i + 1) = ps.take i ++ [some p] := by
    rw [List.take_add_one, hi]
    rfl
  have hcount := (List.take_prefix_take_left (l := ps) hlt).sublist.count_le (some p)
  rw [htake, List.count_append, List.count_singleton_self] at hcount
  exact Nat.succ_lt_succ hcount

theorem rank_lt_iff (hi : ps.Child p i) (hj : ps.Child p j) : ps.rank p i < ps.rank p j ↔ i < j := by
  constructor
  · intro hrank
    rcases lt_trichotomy i j with hlt | rfl | hgt
    · exact hlt
    · exact absurd hrank (lt_irrefl _)
    · exact absurd hrank (rank_lt hj hgt).asymm
  · exact rank_lt hi

theorem rank_injective (hi : ps.Child p i) (hj : ps.Child p j) (h : ps.rank p i = ps.rank p j) :
    i = j := by
  rcases lt_trichotomy i j with hlt | rfl | hgt
  · exact absurd h (rank_lt hi hlt).ne
  · rfl
  · exact absurd h (rank_lt hj hgt).ne'

theorem Address.ne_nil (h : ps.Address i a) : a ≠ [] := by
  cases h with
  | root => exact List.cons_ne_nil _ _
  | child => exact List.append_ne_nil_of_right_ne_nil _ (List.cons_ne_nil _ _)

theorem Address.unique (ha : ps.Address i a) (hb : ps.Address i b) : a = b := by
  induction ha generalizing b with
  | root h =>
    cases hb with
    | root => rfl
    | child hc => exact (h.not_child hc).elim
  | child h _ ih =>
    cases hb with
    | root hr => exact (hr.not_child h).elim
    | child hc hq =>
      obtain rfl := h.parent_unique hc
      rw [ih hq]

theorem SameTree.symm (h : ps.SameTree i j) : ps.SameTree j i :=
  let ⟨r, hr, hi, hj⟩ := h
  ⟨r, hr, hj, hi⟩

theorem SameTree.parent_right (h : ps.SameTree i j) (hq : ps.Child q j) : ps.SameTree i q := by
  obtain ⟨r, hr, hi, hj⟩ := h
  cases hj with
  | refl => exact (hr.not_child hq).elim
  | tail hup hlast =>
    obtain rfl := hlast.parent_unique hq
    exact ⟨r, hr, hi, hup⟩

theorem SameTree.parent_left (h : ps.SameTree i j) (hp : ps.Child p i) : ps.SameTree p j :=
  (h.symm.parent_right hp).symm

theorem SameTree.root_eq (h : ps.SameTree i j) (hi : ps.Root i) (hj : ps.Root j) : i = j := by
  obtain ⟨r, -, hri, hrj⟩ := h
  have heq : ∀ {k}, ps.Root k → Relation.ReflTransGen ps.Child r k → r = k := by
    intro k hk hup
    cases hup with
    | refl => rfl
    | tail _ hlast => exact (hk.not_child hlast).elim
  exact (heq hi hri).symm.trans (heq hj hrj)

theorem Address.injective (ha : ps.Address i a) (hb : ps.Address j b) (ht : ps.SameTree i j)
    (h : a = b) : i = j := by
  induction ha generalizing j b with
  | root hi =>
    cases hb with
    | root hj => exact ht.root_eq hi hj
    | child _ hq => exact absurd (List.append_eq_singleton_iff.mp h.symm) (by simp [hq.ne_nil])
  | child hp hpa ih =>
    cases hb with
    | root => exact absurd (List.append_eq_singleton_iff.mp h) (by simp [hpa.ne_nil])
    | child hq hqb =>
      obtain ⟨hab, hrank⟩ := List.append_inj' h rfl
      obtain rfl := ih hqb ((ht.parent_left hp).parent_right hq) hab
      exact rank_injective hp hq (List.singleton_inj.mp hrank)

theorem Address.extends_of_ancestor (h : ps.Ancestor i j) (ha : ps.Address i a)
    (hb : ps.Address j b) : a <+: b ∧ a ≠ b := by
  have hconcat : ∀ {c k}, a <+: c → a <+: c ++ [k] ∧ a ≠ c ++ [k] := by
    intro c k hpre
    refine ⟨hpre.trans (List.prefix_append c [k]), fun he => ?_⟩
    have hlen := hpre.length_le
    rw [he, List.length_append, List.length_singleton] at hlen
    omega
  induction h generalizing b with
  | single hc =>
    cases hb with
    | root hr => exact (hr.not_child hc).elim
    | child hp hpa =>
      obtain rfl := hp.parent_unique hc
      exact hconcat (ha.unique hpa ▸ List.prefix_refl a)
  | tail _ hc ih =>
    cases hb with
    | root hr => exact (hr.not_child hc).elim
    | child hp hpa =>
      obtain rfl := hp.parent_unique hc
      exact hconcat (ih hpa).1

theorem Address.ancestor_of_extends (ha : ps.Address i a) (hb : ps.Address j b)
    (ht : ps.SameTree i j) (hpre : a <+: b) (hne : a ≠ b) : ps.Ancestor i j := by
  induction hb with
  | root =>
    rcases List.prefix_cons_iff.mp hpre with hnil | ⟨t, rfl, htail⟩
    · exact absurd hnil ha.ne_nil
    · exact absurd (by rw [List.prefix_nil.mp htail]) hne
  | child hp hpb ih =>
    have hparent := ht.parent_right hp
    rcases List.prefix_concat_iff.mp hpre with heq | hpre
    · exact absurd heq hne
    · rcases eq_or_ne a _ with heq | hne'
      · obtain rfl := ha.injective hpb hparent heq
        exact .single hp
      · exact .tail (ih hparent hpre hne') hp

theorem Address.extends_iff (ha : ps.Address i a) (hb : ps.Address j b) (ht : ps.SameTree i j) :
    (a <+: b ∧ a ≠ b) ↔ ps.Ancestor i j :=
  ⟨fun ⟨hpre, hne⟩ => ha.ancestor_of_extends hb ht hpre hne, fun h => ha.extends_of_ancestor h hb⟩

section Growth

variable (x : Option Nat)

theorem getElem?_grow {n : Nat} (h : n < ps.length) : (ps ++ [x])[n]? = ps[n]? :=
  List.getElem?_append_left h

theorem lt_of_root (h : ps.Root i) : i < ps.length := (List.getElem?_eq_some_iff.mp h).1

theorem lt_of_child (h : ps.Child p i) : i < ps.length := (List.getElem?_eq_some_iff.mp h).1

theorem rank_grow (h : i ≤ ps.length) : rank (ps ++ [x]) p i = ps.rank p i := by
  rw [rank, rank, List.take_append_of_le_length h]

theorem Address.grow (h : ps.Address i a) : Address (ps ++ [x]) i a := by
  induction h with
  | root h => exact .root ((getElem?_grow x (lt_of_root h)).trans h)
  | @child p i a h _ ih =>
    rw [← rank_grow x (lt_of_child h).le]
    exact .child ((getElem?_grow x (lt_of_child h)).trans h) ih

theorem address_new_root : Address (ps ++ [none]) ps.length [1] :=
  .root (by simp [Root])

theorem address_new_child (hp : ps.Address p a) :
    Address (ps ++ [some p]) ps.length (a ++ [ps.count (some p) + 1]) := by
  have h : Child (ps ++ [some p]) p ps.length := by simp [Child]
  have haddress := Address.child h (hp.grow (some p))
  rwa [rank_grow (some p) le_rfl, rank, List.take_length] at haddress

end Growth

end Forest

end Foundation
