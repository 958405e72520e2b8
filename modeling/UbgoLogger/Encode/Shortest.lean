import Mathlib.Tactic.FieldSimp
import Mathlib.Tactic.LinearCombination
import UbgoLogger.Encode.Float
import UbgoLogger.Foundation.Binary
import UbgoLogger.Foundation.Numeral

namespace UbgoLogger.Float
open Foundation Foundation.Text

def Finite (bits : UInt64) : Prop := exponent bits ≠ 2047

instance (bits : UInt64) : Decidable (Finite bits) := inferInstanceAs (Decidable (_ ≠ _))

def mantissa (bits : UInt64) : Nat :=
  if exponent bits = 0 then fraction bits else 2 ^ 52 + fraction bits

def shift (bits : UInt64) : Nat := exponent bits - 1

theorem fraction_lt (bits : UInt64) : fraction bits < 2 ^ 52 := Nat.mod_lt _ (by norm_num)

theorem exponent_lt (bits : UInt64) : exponent bits < 2 ^ 11 := Nat.mod_lt _ (by norm_num)

theorem legal {bits : UInt64} (h : Finite bits) :
    Binary.Legal 52 2045 (mantissa bits) (shift bits) := by
  have hfraction := fraction_lt bits
  have hexponent := exponent_lt bits
  unfold Finite at h
  constructor
  · unfold mantissa
    split <;> omega
  · unfold shift
    omega
  · unfold mantissa shift
    split <;> omega

theorem eq_of_fields {a b : UInt64} (hsign : signBit a = signBit b)
    (hm : mantissa a = mantissa b) (hs : shift a = shift b) : a = b := by
  have ha := fraction_lt a
  have hb := fraction_lt b
  have hfields : exponent a = exponent b ∧ fraction a = fraction b := by
    unfold mantissa shift at *
    split at hm <;> split at hm <;> omega
  have hbit : a.toNat / 2 ^ 63 = b.toNat / 2 ^ 63 := by
    have := a.toNat_lt
    have := b.toNat_lt
    simp only [signBit, decide_eq_decide] at hsign
    omega
  obtain ⟨hexponent, hfraction⟩ := hfields
  unfold exponent fraction at *
  apply UInt64.toNat_inj.mp
  omega

def unit : ℚ := 2 ^ 1074

def Interval.Holds (iv : Interval) (q : ℚ) : Prop :=
  if iv.inclusive then (iv.lower : ℚ) / iv.den ≤ q ∧ q ≤ iv.upper / iv.den
  else (iv.lower : ℚ) / iv.den < q ∧ q < iv.upper / iv.den

theorem pow_sub_mul (a b : Nat) : 2 ^ (a - b) * 2 ^ b = 2 ^ a * 2 ^ (b - a) := by
  rcases Nat.le_total a b with h | h
  · rw [Nat.sub_eq_zero_of_le h, pow_zero, one_mul, ← pow_add, Nat.add_sub_cancel' h]
  · rw [Nat.sub_eq_zero_of_le h, pow_zero, mul_one, ← pow_add, Nat.sub_add_cancel h]

theorem quarter_mul_pow (s u c : Nat) :
    ((c * 2 ^ (s + 1 - (u + 3)) : Nat) : ℚ) / (2 ^ (u + 3 - (s + 1)) : Nat) * 2 ^ u =
      c / 4 * 2 ^ s := by
  have h : (2 : ℚ) ^ (s + 1 - (u + 3)) * 2 ^ (u + 3) = 2 ^ (s + 1) * 2 ^ (u + 3 - (s + 1)) := by
    exact_mod_cast pow_sub_mul (s + 1) (u + 3)
  have hpos : (2 : ℚ) ^ (u + 3 - (s + 1)) ≠ 0 := by positivity
  rw [pow_add 2 u, pow_succ 2 s] at h
  rw [Nat.cast_mul, Nat.cast_pow, Nat.cast_pow, Nat.cast_ofNat]
  rw [div_mul_eq_mul_div, div_eq_iff hpos]
  linear_combination (c : ℚ) / 8 * h

def gap (bits : UInt64) : Nat := if fraction bits = 0 ∧ 1 < exponent bits then 1 else 2

theorem interval_eq (bits : UInt64) :
    interval bits =
      { lower := (4 * mantissa bits - gap bits) * 2 ^ (shift bits + 1 - 1077)
        value := 4 * mantissa bits * 2 ^ (shift bits + 1 - 1077)
        upper := (4 * mantissa bits + 2) * 2 ^ (shift bits + 1 - 1077)
        den := 2 ^ (1077 - (shift bits + 1))
        inclusive := mantissa bits % 2 = 0 } := by
  have hscale : (if exponent bits = 0 then 1 else exponent bits) = shift bits + 1 := by
    unfold shift
    split <;> omega
  simp only [interval, hscale]
  rfl

theorem scaled (bits : UInt64) (c : Nat) :
    ((c * 2 ^ (shift bits + 1 - 1077) : Nat) : ℚ) / (2 ^ (1077 - (shift bits + 1)) : Nat) * unit =
      c / 4 * 2 ^ shift bits :=
  quarter_mul_pow (shift bits) 1074 c

theorem below_eq_gap (bits : UInt64) :
    Binary.below 52 (mantissa bits) (shift bits) / 2 = gap bits / 4 * 2 ^ shift bits := by
  have hiff : (mantissa bits = 2 ^ 52 ∧ 0 < shift bits) ↔ fraction bits = 0 ∧ 1 < exponent bits := by
    unfold mantissa shift
    split <;> omega
  unfold Binary.below gap
  simp only [hiff]
  split
  · push_cast
    ring
  · push_cast
    ring

theorem gap_le (bits : UInt64) : gap bits ≤ 2 := by
  unfold gap
  split <;> omega

theorem within_of_holds {bits : UInt64} (hm : 0 < mantissa bits) {q : ℚ}
    (h : (interval bits).Holds q) :
    Binary.Within 52 (mantissa bits) (shift bits) (q * unit) := by
  have hunit : 0 < unit := by
    unfold unit
    positivity
  have hgap : gap bits ≤ 4 * mantissa bits := by
    have := gap_le bits
    omega
  have hlow : Binary.value (mantissa bits) (shift bits) -
      Binary.below 52 (mantissa bits) (shift bits) / 2 =
        (interval bits).lower / (interval bits).den * unit := by
    rw [below_eq_gap, Binary.value, interval_eq, scaled, Nat.cast_sub hgap]
    push_cast
    ring
  have hup : Binary.value (mantissa bits) (shift bits) + 2 ^ shift bits / 2 =
      (interval bits).upper / (interval bits).den * unit := by
    rw [Binary.value, interval_eq, scaled]
    push_cast
    ring
  have hincl : (interval bits).inclusive = true ↔ mantissa bits % 2 = 0 := by
    rw [interval_eq]
    exact decide_eq_true_iff
  unfold Interval.Holds at h
  split at h
  next heven =>
    have heven := hincl.mp heven
    refine ⟨?_, ?_, fun _ => heven, fun _ => heven⟩
    · rw [hlow]
      exact mul_le_mul_of_nonneg_right h.1 hunit.le
    · rw [hup]
      exact mul_le_mul_of_nonneg_right h.2 hunit.le
  next =>
    have hlt := mul_lt_mul_of_pos_right h.1 hunit
    have hgt := mul_lt_mul_of_pos_right h.2 hunit
    rw [← hlow] at hlt
    rw [← hup] at hgt
    exact ⟨hlt.le, hgt.le, fun he => absurd he hlt.ne, fun he => absurd he hgt.ne⟩

section Scaling

variable {k : Int} {a den c : Nat}

theorem scalePow_snd (k : Int) (a b den : Nat) : (scalePow k a den).2 = (scalePow k b den).2 := by
  unfold scalePow
  split <;> rfl

theorem scalePow_pos (hden : 0 < den) : 0 < (scalePow k a den).2 := by
  unfold scalePow
  split
  · exact Nat.mul_pos hden (by positivity)
  · exact hden

theorem scalePow_ratio (hden : 0 < den) :
    ((scalePow k a den).1 : ℚ) * 10 ^ k = a / den * (scalePow k a den).2 := by
  have hden' : (den : ℚ) ≠ 0 := by positivity
  unfold scalePow
  split
  next hk =>
    obtain ⟨n, rfl⟩ := Int.eq_ofNat_of_zero_le hk
    push_cast
    rw [Int.toNat_natCast, zpow_natCast]
    field_simp
  next hk =>
    obtain ⟨n, hn⟩ := Int.eq_ofNat_of_zero_le (by omega : 0 ≤ -k)
    obtain rfl : k = -n := by omega
    push_cast
    rw [neg_neg, Int.toNat_natCast, zpow_neg, zpow_natCast]
    field_simp

theorem scalePow_le (hden : 0 < den) :
    (scalePow k a den).1 ≤ c * (scalePow k a den).2 ↔ (a : ℚ) / den ≤ c * 10 ^ k := by
  have hpos : (0 : ℚ) < (scalePow k a den).2 := by exact_mod_cast scalePow_pos hden
  have hten : (0 : ℚ) < 10 ^ k := by positivity
  rw [← Nat.cast_le (α := ℚ), ← mul_le_mul_iff_left₀ hten, scalePow_ratio hden, Nat.cast_mul,
    mul_right_comm, mul_le_mul_iff_left₀ hpos]

theorem le_scalePow (hden : 0 < den) :
    c * (scalePow k a den).2 ≤ (scalePow k a den).1 ↔ c * 10 ^ k ≤ (a : ℚ) / den := by
  have hpos : (0 : ℚ) < (scalePow k a den).2 := by exact_mod_cast scalePow_pos hden
  have hten : (0 : ℚ) < 10 ^ k := by positivity
  rw [← Nat.cast_le (α := ℚ), ← mul_le_mul_iff_left₀ hten, scalePow_ratio hden, Nat.cast_mul,
    mul_right_comm, mul_le_mul_iff_left₀ hpos]

end Scaling

theorem quotient_bounds {a b : Nat} (hb : 0 < b) (hle : b ≤ a) :
    ∃ d, (decimal (a / b)).length = d + 1 ∧ 10 ^ d * b ≤ a ∧ a < 10 ^ (d + 1) * b := by
  obtain ⟨hlow, hhigh⟩ := decimal_length (Nat.div_pos hle hb)
  obtain ⟨d, hd⟩ := Nat.exists_eq_succ_of_ne_zero
    (List.length_pos_iff.mpr (decimal_ne_nil (a / b))).ne'
  rw [hd] at hlow hhigh
  exact ⟨d, hd, (Nat.le_div_iff_mul_le hb).mp hlow, (Nat.div_lt_iff_lt_mul hb).mp hhigh⟩

theorem decimalPoint_spec {num den : Nat} (hnum : 0 < num) (hden : 0 < den) :
    (10 : ℚ) ^ (decimalPoint num den - 1) ≤ num / den ∧
      (num : ℚ) / den < 10 ^ decimalPoint num den := by
  have hden' : (0 : ℚ) < den := by exact_mod_cast hden
  have hnum' : (0 : ℚ) < num := by exact_mod_cast hnum
  unfold decimalPoint
  split
  next hle =>
    obtain ⟨d, hd, hfloor, hceil⟩ := quotient_bounds hden hle
    rw [hd, le_div_iff₀ hden', div_lt_iff₀ hden', Nat.cast_succ, add_sub_cancel_right, zpow_natCast,
      ← Nat.cast_succ, zpow_natCast]
    exact ⟨by exact_mod_cast hfloor, by exact_mod_cast hceil⟩
  next hlt =>
    obtain ⟨d, hd, hfloor, hceil⟩ := quotient_bounds hnum (not_le.mp hlt).le
    dsimp only
    rw [hd]
    have hfloor' : (10 : ℚ) ^ d * num ≤ den := by exact_mod_cast hfloor
    have hceil' : (den : ℚ) < 10 ^ (d + 1) * num := by exact_mod_cast hceil
    have hten : (0 : ℚ) < 10 ^ d := by positivity
    rw [le_div_iff₀ hden', div_lt_iff₀ hden']
    split
    next heq =>
      have heq' : (num : ℚ) * 10 ^ d = den := by exact_mod_cast heq
      have hexp : (2 : Int) - (d.succ : Nat) = 1 - d := by push_cast; ring
      rw [hexp, sub_sub_cancel_left, zpow_neg, zpow_natCast, zpow_sub₀ (by norm_num), zpow_one,
        zpow_natCast, ← heq']
      constructor
      · field_simp
        rfl
      · field_simp
        linarith
    next hne =>
      have hstrict : (10 : ℚ) ^ d * num < den := by
        refine lt_of_le_of_ne hfloor' fun heq => hne ?_
        have : 10 ^ d * num = den := by exact_mod_cast heq
        rw [← this, mul_comm]
        rfl
      have hexp : (1 : Int) - (d.succ : Nat) = -d := by push_cast; ring
      have hexp' : -(d : Int) - 1 = -((d + 1 : Nat) : Int) := by push_cast; ring
      rw [hexp, hexp', zpow_neg, zpow_neg, zpow_natCast, zpow_natCast, inv_mul_le_iff₀ (by positivity),
        lt_inv_mul_iff₀ hten]
      exact ⟨hceil'.le, hstrict⟩

structure Interval.Proper (iv : Interval) : Prop where
  den_pos : 0 < iv.den
  lower_lt : iv.lower < iv.value
  lt_upper : iv.value < iv.upper

namespace Interval

variable {iv : Interval}

def ratio (iv : Interval) : ℚ := iv.value / iv.den

theorem Proper.lower_ratio (hiv : iv.Proper) : (iv.lower : ℚ) / iv.den < iv.ratio := by
  have hden : (0 : ℚ) < iv.den := by exact_mod_cast hiv.den_pos
  have hlt : (iv.lower : ℚ) < iv.value := by exact_mod_cast hiv.lower_lt
  exact div_lt_div_of_pos_right hlt hden

theorem Proper.ratio_upper (hiv : iv.Proper) : iv.ratio < (iv.upper : ℚ) / iv.den := by
  have hden : (0 : ℚ) < iv.den := by exact_mod_cast hiv.den_pos
  have hlt : (iv.value : ℚ) < iv.upper := by exact_mod_cast hiv.lt_upper
  exact div_lt_div_of_pos_right hlt hden

def Reaches (iv : Interval) (q : ℚ) : Prop :=
  if iv.inclusive then (iv.lower : ℚ) / iv.den ≤ q else (iv.lower : ℚ) / iv.den < q

def Stays (iv : Interval) (q : ℚ) : Prop :=
  if iv.inclusive then q ≤ (iv.upper : ℚ) / iv.den else q < (iv.upper : ℚ) / iv.den

theorem holds_iff {q : ℚ} : iv.Holds q ↔ iv.Reaches q ∧ iv.Stays q := by
  unfold Holds Reaches Stays
  split <;> rfl

theorem Proper.reaches (hiv : iv.Proper) {q : ℚ} (hq : iv.ratio ≤ q) : iv.Reaches q := by
  have := hiv.lower_ratio
  unfold Reaches
  split <;> linarith

theorem Proper.stays (hiv : iv.Proper) {q : ℚ} (hq : q ≤ iv.ratio) : iv.Stays q := by
  have := hiv.ratio_upper
  unfold Stays
  split <;> linarith

end Interval

section Round

variable {iv : Interval} {dp : Int} {n : Nat}

def floorDigits (iv : Interval) (dp : Int) (n : Nat) : Nat :=
  (scalePow (dp - n) iv.value iv.den).1 / (scalePow (dp - n) iv.value iv.den).2

theorem floorDigits_le (hden : 0 < iv.den) (dp : Int) (n : Nat) :
    (floorDigits iv dp n : ℚ) * 10 ^ (dp - n) ≤ iv.ratio :=
  (le_scalePow hden).mp (Nat.div_mul_le_self ..)

theorem lt_floorDigits (hden : 0 < iv.den) (dp : Int) (n : Nat) :
    iv.ratio < ((floorDigits iv dp n + 1 : Nat) : ℚ) * 10 ^ (dp - n) := by
  rw [← not_le]
  intro hle
  have h := (le_scalePow hden).mpr hle
  have hdiv := Nat.lt_div_mul_add (a := (scalePow (dp - n) iv.value iv.den).1)
    (scalePow_pos (k := dp - n) (a := iv.value) hden)
  rw [Nat.succ_mul] at h
  exact absurd h (not_le.mpr hdiv)

theorem down_iff (hden : 0 < iv.den) (k : Int) (c : Nat) :
    (if iv.inclusive then (scalePow k iv.lower iv.den).1 ≤ c * (scalePow k iv.value iv.den).2
      else (scalePow k iv.lower iv.den).1 < c * (scalePow k iv.value iv.den).2) ↔
      iv.Reaches (c * 10 ^ k) := by
  rw [scalePow_snd k iv.value iv.lower]
  unfold Interval.Reaches
  split
  · exact scalePow_le hden
  · rw [← not_le, ← not_le, le_scalePow hden]

theorem up_iff (hden : 0 < iv.den) (k : Int) (c : Nat) :
    (if iv.inclusive then c * (scalePow k iv.value iv.den).2 ≤ (scalePow k iv.upper iv.den).1
      else c * (scalePow k iv.value iv.den).2 < (scalePow k iv.upper iv.den).1) ↔
      iv.Stays (c * 10 ^ k) := by
  rw [scalePow_snd k iv.value iv.upper]
  unfold Interval.Stays
  split
  · exact le_scalePow hden
  · rw [← not_le, ← not_le, scalePow_le hden]

theorem choice_cases (exact down up near : Prop) [Decidable exact] [Decidable down] [Decidable up]
    [Decidable near] (f : Nat) {r : Option Nat}
    (hr : r = if exact then some f
      else if down ∧ up then some (if near then f else f + 1)
      else if down then some f
      else if up then some (f + 1)
      else none) :
    (r = some f ∧ (exact ∨ down)) ∨ (r = some (f + 1) ∧ up) ∨ (r = none ∧ ¬ down ∧ ¬ up) := by
  subst hr
  split
  next he => exact .inl ⟨rfl, .inl he⟩
  next =>
    split
    next hboth =>
      split
      next => exact .inl ⟨rfl, .inr hboth.1⟩
      next => exact .inr (.inl ⟨rfl, hboth.2⟩)
    next =>
      split
      next hd => exact .inl ⟨rfl, .inr hd⟩
      next hd =>
        split
        next hu => exact .inr (.inl ⟨rfl, hu⟩)
        next hu => exact .inr (.inr ⟨rfl, hd, hu⟩)

theorem round_cases (hden : 0 < iv.den) (dp : Int) (n : Nat) :
    (round iv dp n = some (floorDigits iv dp n) ∧
      (iv.ratio ≤ floorDigits iv dp n * 10 ^ (dp - n) ∨
        iv.Reaches (floorDigits iv dp n * 10 ^ (dp - n)))) ∨
    (round iv dp n = some (floorDigits iv dp n + 1) ∧
      iv.Stays ((floorDigits iv dp n + 1 : Nat) * 10 ^ (dp - n))) ∨
    (round iv dp n = none ∧ ¬ iv.Reaches (floorDigits iv dp n * 10 ^ (dp - n)) ∧
      ¬ iv.Stays ((floorDigits iv dp n + 1 : Nat) * 10 ^ (dp - n))) := by
  have hexact := scalePow_le (k := dp - n) (a := iv.value) (c := floorDigits iv dp n) hden
  have hdown := down_iff hden (dp - n) (floorDigits iv dp n)
  have hup := up_iff hden (dp - n) (floorDigits iv dp n + 1)
  have hfloor : floorDigits iv dp n =
    (scalePow (dp - n) iv.value iv.den).1 / (scalePow (dp - n) iv.value iv.den).2 := rfl
  unfold round
  generalize scalePow (dp - n) iv.value iv.den = v at hexact hdown hup hfloor ⊢
  generalize scalePow (dp - n) iv.lower iv.den = lo at hdown ⊢
  generalize scalePow (dp - n) iv.upper iv.den = hi at hup ⊢
  dsimp only
  rw [← hfloor]
  refine Or.imp (And.imp_right (Or.imp (fun he => hexact.mp (Eq.ge he)) hdown.mp)) (Or.imp
    (And.imp_right hup.mp) (And.imp_right (And.imp (mt hdown.mpr) (mt hup.mpr))))
    (choice_cases _ _ _ _ (floorDigits iv dp n) rfl)

theorem round_some (hiv : iv.Proper) {r : Nat} (h : round iv dp n = some r) :
    iv.Holds (r * 10 ^ (dp - n)) ∧ floorDigits iv dp n ≤ r := by
  have hden := hiv.den_pos
  have hfloor := floorDigits_le hden dp n
  have hceil := lt_floorDigits hden dp n
  rcases round_cases hden dp n with ⟨hr', hin⟩ | ⟨hr', hin⟩ | ⟨hnone, -⟩
  · obtain rfl := Option.some.inj (h.symm.trans hr')
    exact ⟨Interval.holds_iff.mpr ⟨hin.elim hiv.reaches id, hiv.stays hfloor⟩, le_refl _⟩
  · obtain rfl := Option.some.inj (h.symm.trans hr')
    exact ⟨Interval.holds_iff.mpr ⟨hiv.reaches hceil.le, hin⟩, Nat.le_succ _⟩
  · cases h.symm.trans hnone

theorem round_ne_none (hden : 0 < iv.den)
    (hwide : (10 : ℚ) ^ (dp - n) < iv.upper / iv.den - iv.lower / iv.den) :
    round iv dp n ≠ none := by
  rcases round_cases hden dp n with ⟨hr, -⟩ | ⟨hr, -⟩ | ⟨-, hdown, hup⟩
  · simp [hr]
  · simp [hr]
  · intro
    have hlow : floorDigits iv dp n * 10 ^ (dp - n) ≤ (iv.lower : ℚ) / iv.den := by
      unfold Interval.Reaches at hdown
      split at hdown <;> linarith
    have hhigh : (iv.upper : ℚ) / iv.den ≤ (floorDigits iv dp n + 1 : Nat) * 10 ^ (dp - n) := by
      unfold Interval.Stays at hup
      split at hup <;> linarith
    push_cast at hhigh
    linarith

theorem floorDigits_pos (hden : 0 < iv.den) (hn : 1 ≤ n)
    (hpoint : (10 : ℚ) ^ (dp - 1) ≤ iv.ratio) : 0 < floorDigits iv dp n := by
  have hceil := lt_floorDigits hden dp n
  by_contra hzero
  have hone : floorDigits iv dp n + 1 = 1 := by omega
  rw [hone, Nat.cast_one, one_mul] at hceil
  have hmono : (10 : ℚ) ^ (dp - n) ≤ 10 ^ (dp - 1) :=
    zpow_le_zpow_right₀ (by norm_num) (by omega)
  linarith

theorem search_spec (iv : Interval) (dp : Int) (fuel n : Nat)
    (h : ∃ j, n ≤ j ∧ j < n + fuel ∧ round iv dp j ≠ none) :
    ∃ j r, n ≤ j ∧ round iv dp j = some r ∧ search iv dp fuel n =
      { digits := trimZeros (decimal r), point := dp + ((decimal r).length - j) } := by
  induction fuel generalizing n with
  | zero =>
    obtain ⟨j, hle, hlt, -⟩ := h
    omega
  | succ fuel ih =>
    simp only [search]
    cases hr : round iv dp n with
    | some r => exact ⟨n, r, le_refl _, hr, rfl⟩
    | none =>
      obtain ⟨j, hle, hlt, hj⟩ := h
      have hne : n ≠ j := by
        rintro rfl
        exact hj hr
      obtain ⟨i, r, hi, hround, hsearch⟩ := ih (n + 1) ⟨j, by omega, by omega, hj⟩
      exact ⟨i, r, by omega, hround, hsearch⟩

end Round

theorem interval_proper {bits : UInt64} (hm : 0 < mantissa bits) : (interval bits).Proper := by
  have hgap : 1 ≤ gap bits := by
    unfold gap
    split <;> omega
  have hpow : 0 < 2 ^ (shift bits + 1 - 1077) := by positivity
  rw [interval_eq]
  exact ⟨by positivity, Nat.mul_lt_mul_of_pos_right (by omega) hpow,
    Nat.mul_lt_mul_of_pos_right (by omega) hpow⟩

-- Seventeen digits are enough: 10 ^ 16 exceeds 2 ^ 53.
theorem interval_wide {bits : UInt64} (h : Finite bits) (hm : 0 < mantissa bits) :
    (interval bits).ratio <
      ((interval bits).upper / (interval bits).den - (interval bits).lower / (interval bits).den) *
        10 ^ 16 := by
  have hlt : 4 * mantissa bits < (2 + gap bits) * 10 ^ 16 := by
    have := (legal h).lt
    have := fraction_lt bits
    unfold mantissa gap at *
    split <;> split <;> omega
  have hgap : gap bits ≤ 4 * mantissa bits := by
    have := gap_le bits
    omega
  have hden := (interval_proper hm).den_pos
  have hden' : (0 : ℚ) < (interval bits).den := by exact_mod_cast hden
  have hpow : (0 : ℚ) < 2 ^ (shift bits + 1 - 1077) := by positivity
  have hwidth : (interval bits).value <
      ((interval bits).upper - (interval bits).lower : ℚ) * 10 ^ 16 := by
    rw [interval_eq]
    simp only [Nat.cast_mul, Nat.cast_pow, Nat.cast_ofNat, Nat.cast_add, Nat.cast_sub hgap]
    have hlt' : (4 : ℚ) * mantissa bits < (2 + gap bits) * 10 ^ 16 := by exact_mod_cast hlt
    calc (4 : ℚ) * mantissa bits * 2 ^ (shift bits + 1 - 1077)
        < (2 + gap bits) * 10 ^ 16 * 2 ^ (shift bits + 1 - 1077) := by gcongr
      _ = _ := by ring
  unfold Interval.ratio
  rw [← sub_div, div_mul_eq_mul_div]
  exact div_lt_div_of_pos_right hwidth hden'

theorem shortest_spec {bits : UInt64} (h : Finite bits) (hm : 0 < mantissa bits) :
    ∃ (dp : Int) (j r : Nat), 0 < r ∧ (interval bits).Holds (r * 10 ^ (dp - j)) ∧
      shortest bits = { digits := trimZeros (decimal r), point := dp + ((decimal r).length - j) } := by
  have hiv := interval_proper hm
  have hvalue : 0 < (interval bits).value := Nat.zero_lt_of_lt hiv.lower_lt
  obtain ⟨hpoint, -⟩ := decimalPoint_spec hvalue hiv.den_pos
  have hwide := interval_wide h hm
  set dp := decimalPoint (interval bits).value (interval bits).den
  have hround : round (interval bits) dp 17 ≠ none := by
    refine round_ne_none hiv.den_pos ?_
    have hsplit : (10 : ℚ) ^ (dp - 1) = 10 ^ (dp - (17 : Nat)) * 10 ^ 16 := by
      rw [← zpow_natCast, ← zpow_add₀ (by norm_num)]
      congr 1
      push_cast
      ring
    have hlt : (10 : ℚ) ^ (dp - (17 : Nat)) * 10 ^ 16 <
        ((interval bits).upper / (interval bits).den - (interval bits).lower / (interval bits).den) *
          10 ^ 16 := by
      rw [← hsplit]
      exact lt_of_le_of_lt hpoint hwide
    exact lt_of_mul_lt_mul_right hlt (by positivity)
  obtain ⟨j, r, hj, hr, hsearch⟩ :=
    search_spec (interval bits) dp 17 1 ⟨17, by omega, by omega, hround⟩
  obtain ⟨hholds, hle⟩ := round_some hiv hr
  have hpos := floorDigits_pos hiv.den_pos hj hpoint
  exact ⟨dp, j, r, by omega, hholds, hsearch⟩

end UbgoLogger.Float
