import Mathlib.Algebra.Order.Field.Power
import Mathlib.Algebra.Ring.Parity
import Mathlib.Data.Rat.Cast.Order
import Mathlib.Tactic.Linarith
import Mathlib.Tactic.Ring

namespace Foundation.Binary

-- A binary number of precision p + 1 and largest exponent e, in units of the smallest one.
structure Legal (p e m s : ℕ) : Prop where
  lt : m < 2 ^ (p + 1)
  le : s ≤ e
  normal : s = 0 ∨ 2 ^ p ≤ m

variable {p e m s m' s' : ℕ}

def value (m s : ℕ) : ℚ := m * 2 ^ s

-- The distance to the next smaller number.
def below (p m s : ℕ) : ℚ := if m = 2 ^ p ∧ 0 < s then 2 ^ s / 2 else 2 ^ s

structure Within (p m s : ℕ) (q : ℚ) : Prop where
  lower : value m s - below p m s / 2 ≤ q
  upper : q ≤ value m s + 2 ^ s / 2
  lower_even : value m s - below p m s / 2 = q → m % 2 = 0
  upper_even : q = value m s + 2 ^ s / 2 → m % 2 = 0

-- The number that rounding to nearest, ties to even, gives for q.
structure Nearest (p e : ℕ) (q : ℚ) (m s : ℕ) : Prop where
  legal : Legal p e m s
  bounded : q < (2 ^ (p + 1) - 1 / 2) * 2 ^ e
  le : ∀ m' s', Legal p e m' s' → |q - value m s| ≤ |q - value m' s'|
  even : ∀ m' s', Legal p e m' s' → value m' s' ≠ value m s →
    |q - value m s| = |q - value m' s'| → m % 2 = 0

theorem pow_split {a b : ℕ} (h : a ≤ b) : 2 ^ b = 2 ^ (b - a) * 2 ^ a := by
  rw [← pow_add, Nat.sub_add_cancel h]

theorem mul_pow_lt (h' : Legal p e m' s') (hlt : s' < s) :
    2 * (m' * 2 ^ s') + 2 ^ s ≤ 2 * (2 ^ p * 2 ^ s) := by
  have hm : m' + 1 ≤ 2 ^ (p + 1) := h'.lt
  have hs : 2 ^ s' * 2 ≤ 2 ^ s := by
    rw [← pow_succ]
    exact Nat.pow_le_pow_right (by omega) hlt
  calc 2 * (m' * 2 ^ s') + 2 ^ s = m' * (2 ^ s' * 2) + 2 ^ s := by ring
    _ ≤ m' * 2 ^ s + 2 ^ s := by gcongr
    _ = (m' + 1) * 2 ^ s := by ring
    _ ≤ 2 ^ (p + 1) * 2 ^ s := by gcongr
    _ = 2 * (2 ^ p * 2 ^ s) := by ring

theorem Legal.normal_of_lt (h : Legal p e m s) (hlt : s' < s) : 2 ^ p * 2 ^ s ≤ m * 2 ^ s :=
  Nat.mul_le_mul_right _ (h.normal.resolve_left (by omega))

theorem gap_above (h : Legal p e m s) (h' : Legal p e m' s') (hlt : m * 2 ^ s < m' * 2 ^ s') :
    m * 2 ^ s + 2 ^ s ≤ m' * 2 ^ s' := by
  rcases Nat.lt_or_ge s' s with hs | hs
  · have := mul_pow_lt h' hs
    have := h.normal_of_lt hs
    have : 0 < 2 ^ s := by positivity
    omega
  · rw [pow_split hs, ← mul_assoc] at hlt ⊢
    have hm : m < m' * 2 ^ (s' - s) := Nat.lt_of_mul_lt_mul_right hlt
    calc m * 2 ^ s + 2 ^ s = (m + 1) * 2 ^ s := by ring
      _ ≤ m' * 2 ^ (s' - s) * 2 ^ s := by gcongr; omega

theorem gap_below (h : Legal p e m s) (h' : Legal p e m' s') (hlt : m' * 2 ^ s' < m * 2 ^ s) :
    m' * 2 ^ s' + 2 ^ s ≤ m * 2 ^ s ∨
      (m = 2 ^ p ∧ 0 < s ∧ 2 * (m' * 2 ^ s') + 2 ^ s ≤ 2 * (m * 2 ^ s)) := by
  rcases Nat.lt_or_ge s' s with hs | hs
  · have hdouble := mul_pow_lt h' hs
    rcases eq_or_ne m (2 ^ p) with rfl | hne
    · exact .inr ⟨rfl, by omega, hdouble⟩
    · left
      have hm : 2 ^ p + 1 ≤ m := by
        have := h.normal.resolve_left (by omega)
        omega
      have : (2 ^ p + 1) * 2 ^ s ≤ m * 2 ^ s := Nat.mul_le_mul_right _ hm
      have : (2 ^ p + 1) * 2 ^ s = 2 ^ p * 2 ^ s + 2 ^ s := by ring
      omega
  · left
    rw [pow_split hs, ← mul_assoc] at hlt ⊢
    have hm : m' * 2 ^ (s' - s) < m := Nat.lt_of_mul_lt_mul_right hlt
    calc m' * 2 ^ (s' - s) * 2 ^ s + 2 ^ s = (m' * 2 ^ (s' - s) + 1) * 2 ^ s := by ring
      _ ≤ m * 2 ^ s := by gcongr; omega

theorem odd_of_mul_pow {k t : ℕ} (h' : Legal p e m' s') (hk : Odd k) (ht : t = 0 ∨ 2 ^ p ≤ k)
    (heq : m' * 2 ^ s' = k * 2 ^ t) : m' % 2 = 1 := by
  have hle : s' ≤ t := by
    by_contra hlt
    rw [pow_split (by omega : t ≤ s'), ← mul_assoc] at heq
    have hkm : m' * 2 ^ (s' - t) = k := Nat.eq_of_mul_eq_mul_right (by positivity) heq
    have heven : Even k := by
      rw [← hkm]
      exact (Nat.even_pow.mpr ⟨even_two, by omega⟩).mul_left m'
    exact (Nat.not_even_iff_odd.mpr hk) heven
  rcases Nat.eq_or_lt_of_le hle with rfl | hlt
  · rw [Nat.eq_of_mul_eq_mul_right (by positivity) heq]
    exact Nat.odd_iff.mp hk
  · rw [pow_split hle, ← mul_assoc] at heq
    have hkm : m' = k * 2 ^ (t - s') := Nat.eq_of_mul_eq_mul_right (by positivity) heq
    have hbig : 2 ^ p * 2 ≤ k * 2 ^ (t - s') := by
      refine Nat.mul_le_mul (ht.resolve_left (by omega)) ?_
      calc 2 = 2 ^ 1 := rfl
        _ ≤ 2 ^ (t - s') := Nat.pow_le_pow_right (by omega) (by omega)
    have := h'.lt
    rw [pow_succ] at this
    omega

theorem value_injective (h : Legal p e m s) (h' : Legal p e m' s') (heq : m * 2 ^ s = m' * 2 ^ s') :
    m = m' ∧ s = s' := by
  have hlt : ∀ {m s m' s' : ℕ}, Legal p e m s → Legal p e m' s' → m * 2 ^ s = m' * 2 ^ s' →
      ¬ s < s' := by
    intro m s m' s' h h' heq hs
    have := mul_pow_lt h hs
    have := h'.normal_of_lt hs
    have : 0 < 2 ^ s' := by positivity
    omega
  obtain rfl : s = s' := by
    have := hlt h h' heq
    have := hlt h' h heq.symm
    omega
  exact ⟨Nat.eq_of_mul_eq_mul_right (by positivity) heq, rfl⟩

theorem value_cast (m s : ℕ) : value m s = ((m * 2 ^ s : ℕ) : ℚ) := by
  rw [value]
  push_cast
  rfl

theorem value_lt_iff : value m s < value m' s' ↔ m * 2 ^ s < m' * 2 ^ s' := by
  rw [value_cast, value_cast, Nat.cast_lt]

theorem value_above (h : Legal p e m s) (h' : Legal p e m' s') (hlt : value m s < value m' s') :
    value m s + 2 ^ s ≤ value m' s' := by
  rw [value_cast, value_cast]
  exact_mod_cast gap_above h h' (value_lt_iff.mp hlt)

theorem value_below (h : Legal p e m s) (h' : Legal p e m' s') (hlt : value m' s' < value m s) :
    value m' s' ≤ value m s - below p m s := by
  have hpos : (0 : ℚ) < 2 ^ s := by positivity
  rcases gap_below h h' (value_lt_iff.mp hlt) with hgap | ⟨hm, hs, hgap⟩
  · have hgap : value m' s' + 2 ^ s ≤ value m s := by
      rw [value_cast, value_cast]
      exact_mod_cast hgap
    unfold below
    split <;> linarith
  · have hgap : 2 * value m' s' + 2 ^ s ≤ 2 * value m s := by
      rw [value_cast, value_cast]
      exact_mod_cast hgap
    rw [below, if_pos ⟨hm, hs⟩]
    linarith

theorem odd_above (h : Legal p e m s) (h' : Legal p e m' s') (heven : m % 2 = 0)
    (heq : value m' s' = value m s + 2 ^ s) : m' % 2 = 1 := by
  have hnat : m' * 2 ^ s' = (m + 1) * 2 ^ s := by
    rw [value_cast, value_cast] at heq
    have : m' * 2 ^ s' = m * 2 ^ s + 2 ^ s := by exact_mod_cast heq
    rw [this]
    ring
  refine odd_of_mul_pow h' (Nat.odd_iff.mpr (by omega)) ?_ hnat
  exact h.normal.imp_right (by omega)

theorem odd_below (h : Legal p e m s) (h' : Legal p e m' s') (heven : m % 2 = 0) (hm : 0 < m)
    (heq : value m' s' = value m s - below p m s) : m' % 2 = 1 := by
  unfold below at heq
  split at heq
  · -- below a power of two the numbers are twice as dense
    rename_i hpow
    obtain ⟨rfl, hs⟩ := hpow
    obtain ⟨t, rfl⟩ : ∃ t, s = t + 1 := ⟨s - 1, by omega⟩
    have hnat : m' * 2 ^ s' + 2 ^ t = 2 ^ (p + 1) * 2 ^ t := by
      have : (m' : ℚ) * 2 ^ s' + 2 ^ t = 2 ^ (p + 1) * 2 ^ t := by
        simp only [value, Nat.cast_pow, Nat.cast_ofNat] at heq
        rw [heq]
        ring
      exact_mod_cast this
    have hone : 1 ≤ 2 ^ (p + 1) := Nat.one_le_two_pow
    refine odd_of_mul_pow h' (k := 2 ^ (p + 1) - 1) (t := t) ?_ (.inr ?_) ?_
    · rw [Nat.odd_iff, pow_succ] at *
      omega
    · rw [pow_succ]
      have : 1 ≤ 2 ^ p := Nat.one_le_two_pow
      omega
    · rw [Nat.sub_mul, one_mul]
      omega
  · rename_i hpow
    have hnat : m' * 2 ^ s' = (m - 1) * 2 ^ s := by
      rw [value_cast, value_cast] at heq
      have : ((m' * 2 ^ s' : ℕ) : ℚ) + 2 ^ s = (m * 2 ^ s : ℕ) := by linarith
      have : m' * 2 ^ s' + 2 ^ s = m * 2 ^ s := by exact_mod_cast this
      rw [Nat.sub_mul, one_mul]
      omega
    refine odd_of_mul_pow h' (Nat.odd_iff.mpr (by omega)) ?_ hnat
    rcases Nat.eq_zero_or_pos s with hs | hs
    · exact .inl hs
    · right
      have := h.normal.resolve_left (by omega)
      have : m ≠ 2 ^ p := fun hm => hpow ⟨hm, hs⟩
      omega

theorem below_pos (p m s : ℕ) : 0 < below p m s := by
  have hpos : (0 : ℚ) < 2 ^ s := by positivity
  unfold below
  split <;> linarith

-- Every other number is farther from q, or as far with an odd significand.
theorem Within.farther {q : ℚ} (hq : Within p m s q) (h : Legal p e m s) (h' : Legal p e m' s')
    (hne : value m' s' ≠ value m s) :
    |q - value m s| < |q - value m' s'| ∨
      (|q - value m s| = |q - value m' s'| ∧ m % 2 = 0 ∧ m' % 2 = 1) := by
  have hpos : (0 : ℚ) < 2 ^ s := by positivity
  have hbelow := below_pos p m s
  have hlower := hq.lower
  have hupper := hq.upper
  rcases lt_or_gt_of_ne hne with hlt | hgt
  · have hgap := value_below h h' hlt
    have hfar : |q - value m' s'| = q - value m' s' := abs_of_nonneg (by linarith)
    rcases le_or_gt (value m s) q with hle | hgt
    · left
      rw [hfar, abs_of_nonneg (by linarith)]
      linarith
    · rw [hfar, abs_of_neg (by linarith)]
      rcases lt_or_eq_of_le (by linarith : -(q - value m s) ≤ q - value m' s') with hd | hd
      · exact .inl hd
      · have heven := hq.lower_even (by linarith)
        have hm : 0 < m := by
          rcases Nat.eq_zero_or_pos m with rfl | hm
          · have hzero : value 0 s = 0 := by simp [value]
            have : 0 ≤ value m' s' := by
              unfold value
              positivity
            linarith
          · exact hm
        exact .inr ⟨hd, heven, odd_below h h' heven hm (by linarith)⟩
  · have hgap := value_above h h' hgt
    have hfar : |q - value m' s'| = -(q - value m' s') := abs_of_nonpos (by linarith)
    rcases le_or_gt q (value m s) with hle | hgt
    · left
      rw [hfar, abs_of_nonpos (by linarith)]
      linarith
    · rw [hfar, abs_of_pos (by linarith)]
      rcases lt_or_eq_of_le (by linarith : q - value m s ≤ -(q - value m' s')) with hd | hd
      · exact .inl hd
      · have heven := hq.upper_even (by linarith)
        exact .inr ⟨hd, heven, odd_above h h' heven (by linarith)⟩

theorem Within.bounded {q : ℚ} (hq : Within p m s q) (h : Legal p e m s) :
    q < (2 ^ (p + 1) - 1 / 2) * 2 ^ e := by
  have hs : (2 : ℚ) ^ s ≤ 2 ^ e := pow_le_pow_right₀ (by norm_num) h.le
  have hpos : (0 : ℚ) < 2 ^ s := by positivity
  have hm : (m : ℚ) + 1 ≤ 2 ^ (p + 1) := by exact_mod_cast h.lt
  have hcoeff : (0 : ℚ) ≤ 2 ^ (p + 1) - 1 / 2 := by
    have : (0 : ℚ) ≤ m := by positivity
    linarith
  have htop : (2 ^ (p + 1) - 1 / 2) * 2 ^ s ≤ (2 ^ (p + 1) - 1 / 2 : ℚ) * 2 ^ e := by gcongr
  have hvalue : value m s + 2 ^ s / 2 = (m + 1 / 2) * 2 ^ s := by
    unfold value
    ring
  have hupper := hq.upper
  rw [hvalue] at hupper
  rcases lt_or_eq_of_le hm with hlt | heq
  · have : ((m : ℚ) + 1 / 2) * 2 ^ s < (2 ^ (p + 1) - 1 / 2) * 2 ^ s := by
      gcongr
      linarith
    linarith
  · -- the largest significand is odd, so its upper bound is not attained
    have hodd : m % 2 = 1 := by
      have : m + 1 = 2 ^ (p + 1) := by exact_mod_cast heq
      rw [pow_succ] at this
      omega
    have hne : q ≠ value m s + 2 ^ s / 2 := by
      intro hq'
      have := hq.upper_even hq'
      omega
    rw [hvalue] at hne
    have hlt : q < (m + 1 / 2) * 2 ^ s := lt_of_le_of_ne hupper hne
    have hcoeff' : (m : ℚ) + 1 / 2 = 2 ^ (p + 1) - 1 / 2 := by linarith
    rw [hcoeff'] at hlt
    linarith

theorem Within.nearest {q : ℚ} (hq : Within p m s q) (h : Legal p e m s) : Nearest p e q m s where
  legal := h
  bounded := hq.bounded h
  le m' s' h' := by
    by_cases hne : value m' s' = value m s
    · rw [hne]
    · rcases hq.farther h h' hne with hlt | ⟨heq, -⟩
      · exact hlt.le
      · exact heq.le
  even m' s' h' hne hdist := by
    rcases hq.farther h h' hne with hlt | ⟨-, heven, -⟩
    · exact absurd hdist hlt.ne
    · exact heven

theorem Within.unique {q : ℚ} (hq : Within p m s q) (h : Legal p e m s)
    (hn : Nearest p e q m' s') : m' = m ∧ s' = s := by
  have heq : value m' s' = value m s := by
    by_contra hne
    have hle := hn.le m s h
    rcases hq.farther h hn.legal hne with hlt | ⟨hdist, -, hodd⟩
    · linarith
    · have heven := hn.even m s h (Ne.symm hne) hdist.symm
      omega
  rw [value_cast, value_cast] at heq
  exact value_injective hn.legal h (by exact_mod_cast heq)

end Foundation.Binary
