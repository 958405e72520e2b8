import Mathlib.Data.Bool.AllAny
import Mathlib.Data.List.Basic
import Mathlib.Data.Nat.Digits.Lemmas

namespace Foundation.Text

abbrev Byte := UInt8

abbrev Bytes := List Byte

instance : LawfulBEq Bytes := List.instLawfulBEq

def ascii (s : String) : Bytes := s.toList.map fun c => c.toNat.toUInt8

def isDigit (b : Byte) : Bool := decide (48 ≤ b) && decide (b ≤ 57)

def digit (d : Nat) : Byte := UInt8.ofNat (48 + d)

def digitVal (b : Byte) : Nat := b.toNat - 48

theorem digit_toNat {d : Nat} (h : d < 10) : (digit d).toNat = 48 + d := by
  simp only [digit, UInt8.toNat_ofNat']
  omega

theorem digitVal_digit {d : Nat} (h : d < 10) : digitVal (digit d) = d := by
  rw [digitVal, digit_toNat h]
  omega

theorem isDigit_iff {b : Byte} : isDigit b = true ↔ 48 ≤ b.toNat ∧ b.toNat ≤ 57 := by
  simp [isDigit, UInt8.le_iff_toNat_le]

theorem isDigit_digit {d : Nat} (h : d < 10) : isDigit (digit d) = true := by
  rw [isDigit_iff, digit_toNat h]
  omega

theorem digit_digitVal {b : Byte} (h : isDigit b = true) : digit (digitVal b) = b := by
  have hb := isDigit_iff.mp h
  apply UInt8.toNat_inj.mp
  rw [digit_toNat (by simp only [digitVal]; omega), digitVal]
  omega

theorem digitVal_lt {b : Byte} (h : isDigit b = true) : digitVal b < 10 := by
  have hb := isDigit_iff.mp h
  simp only [digitVal]
  omega

theorem digitVal_eq_zero {b : Byte} (h : isDigit b = true) : digitVal b = 0 ↔ b = 48 := by
  have hb := isDigit_iff.mp h
  rw [← UInt8.toNat_inj]
  simp only [digitVal, UInt8.reduceToNat]
  omega

def decimal (n : Nat) : Bytes :=
  if n = 0 then [48] else (Nat.digits 10 n).reverse.map digit

def parseDecimal (s : Bytes) : Option Nat :=
  if s ≠ [] ∧ s.all isDigit = true then some (Nat.ofDigits 10 (s.map digitVal).reverse) else none

theorem decimal_ne_nil (n : Nat) : decimal n ≠ [] := by
  unfold decimal
  split
  · simp
  · rename_i h
    simpa [Nat.digits_eq_nil_iff_eq_zero] using h

theorem decimal_isDigit {n : Nat} {b : Byte} (h : b ∈ decimal n) : isDigit b = true := by
  unfold decimal at h
  split at h
  · simp only [List.mem_singleton] at h
    subst h
    decide
  · simp only [List.mem_map, List.mem_reverse] at h
    obtain ⟨d, hd, rfl⟩ := h
    exact isDigit_digit (Nat.digits_lt_base (by norm_num) hd)

theorem map_digitVal_digit {ds : List Nat} (h : ∀ d ∈ ds, d < 10) :
    (ds.map digit).map digitVal = ds := by
  rw [List.map_map]
  conv_rhs => rw [← List.map_id ds]
  apply List.map_congr_left
  intro d hd
  exact digitVal_digit (h d hd)

theorem map_digit_digitVal {s : Bytes} (h : s.all isDigit = true) :
    (s.map digitVal).map digit = s := by
  rw [List.map_map]
  conv_rhs => rw [← List.map_id s]
  apply List.map_congr_left
  intro b hb
  exact digit_digitVal (List.all_eq_true.mp h b hb)

theorem parse_decimal (n : Nat) : parseDecimal (decimal n) = some n := by
  have hall : (decimal n).all isDigit = true :=
    List.all_eq_true.mpr fun _ hb => decimal_isDigit hb
  rw [parseDecimal, if_pos ⟨decimal_ne_nil n, hall⟩]
  congr 1
  unfold decimal
  split
  · rename_i h
    subst h
    decide
  · rw [map_digitVal_digit (fun d hd => Nat.digits_lt_base (by norm_num) (List.mem_reverse.mp hd)),
      List.reverse_reverse, Nat.ofDigits_digits]

theorem parse_isDigit {s : Bytes} {n : Nat} (h : parseDecimal s = some n) :
    s ≠ [] ∧ s.all isDigit = true := by
  unfold parseDecimal at h
  split at h
  · assumption
  · exact absurd h (by simp)

theorem parse_value {s : Bytes} {n : Nat} (h : parseDecimal s = some n) :
    Nat.ofDigits 10 (s.map digitVal).reverse = n := by
  rw [parseDecimal, if_pos (parse_isDigit h)] at h
  exact Option.some.inj h

def padded (s : Bytes) : Prop := 1 < s.length ∧ s.head? = some 48

instance (s : Bytes) : Decidable (padded s) := inferInstanceAs (Decidable (_ ∧ _))

theorem decimal_not_padded (n : Nat) : ¬ padded (decimal n) := by
  unfold decimal padded
  split
  · simp
  · rename_i h
    rintro ⟨-, hh⟩
    have hl := Nat.getLast_digit_ne_zero 10 h
    rw [List.head?_map, List.head?_reverse] at hh
    rw [List.getLast?_eq_some_getLast (Nat.digits_ne_nil_iff_ne_zero.mpr h)] at hh
    have hlt := Nat.digits_lt_base (b := 10) (by norm_num)
      (List.getLast_mem (Nat.digits_ne_nil_iff_ne_zero.mpr h))
    have := (digitVal_eq_zero (isDigit_digit hlt)).mpr (by simpa using hh)
    rw [digitVal_digit hlt] at this
    exact hl this

theorem eq_decimal_iff {s : Bytes} {n : Nat} (h : parseDecimal s = some n) :
    s = decimal n ↔ ¬ padded s := by
  constructor
  · rintro rfl
    exact decimal_not_padded n
  · intro hp
    obtain ⟨hne, hall⟩ := parse_isDigit h
    have hv := parse_value h
    obtain ⟨b, t, rfl⟩ := List.exists_cons_of_ne_nil hne
    have hb : isDigit b = true := List.all_eq_true.mp hall b (by simp)
    by_cases h0 : b = 48
    · have ht : t = [] := by
        by_contra hne'
        apply hp
        exact ⟨by simpa using List.length_pos_of_ne_nil hne', by simp [h0]⟩
      subst ht h0
      have : n = 0 := by simpa [digitVal] using hv.symm
      subst this
      rfl
    · have hlast : ∀ hn : ((b :: t).map digitVal).reverse ≠ [],
          (((b :: t).map digitVal).reverse).getLast hn ≠ 0 := by
        intro hn
        simpa [digitVal_eq_zero hb] using h0
      have hlt : ∀ d ∈ ((b :: t).map digitVal).reverse, d < 10 := by
        intro d hd
        simp only [List.mem_reverse, List.mem_map] at hd
        obtain ⟨c, hc, rfl⟩ := hd
        exact digitVal_lt (List.all_eq_true.mp hall c hc)
      have hd := Nat.digits_ofDigits 10 (by norm_num) _ hlt hlast
      rw [hv] at hd
      have hn0 : n ≠ 0 := by
        rintro rfl
        simp at hd
      rw [decimal, if_neg hn0, hd, List.reverse_reverse, map_digit_digitVal hall]

def hexNibble (n : Nat) : Byte := if n < 10 then UInt8.ofNat (48 + n) else UInt8.ofNat (87 + n)

def encodeHex (s : Bytes) : Bytes :=
  s.flatMap fun b => [hexNibble (b.toNat / 16), hexNibble (b.toNat % 16)]

theorem hexNibble_toNat {n : Nat} (h : n < 16) :
    (hexNibble n).toNat = if n < 10 then 48 + n else 87 + n := by
  unfold hexNibble
  split <;> simp only [UInt8.toNat_ofNat'] <;> omega

theorem hexNibble_injective {m n : Nat} (hm : m < 16) (hn : n < 16)
    (h : hexNibble m = hexNibble n) : m = n := by
  have := congrArg UInt8.toNat h
  rw [hexNibble_toNat hm, hexNibble_toNat hn] at this
  split at this <;> split at this <;> omega

@[simp] theorem encodeHex_nil : encodeHex [] = [] := rfl

@[simp] theorem encodeHex_cons (b : Byte) (s : Bytes) :
    encodeHex (b :: s) = hexNibble (b.toNat / 16) :: hexNibble (b.toNat % 16) :: encodeHex s := by
  simp [encodeHex]

theorem encodeHex_length (s : Bytes) : (encodeHex s).length = 2 * s.length := by
  induction s with
  | nil => rfl
  | cons b s ih =>
    simp only [encodeHex_cons, List.length_cons, ih]
    omega

theorem encodeHex_graphic {s : Bytes} {b : Byte} (h : b ∈ encodeHex s) : 48 ≤ b.toNat := by
  simp only [encodeHex, List.mem_flatMap, List.mem_cons, List.not_mem_nil, or_false] at h
  obtain ⟨c, -, hb⟩ := h
  have hc := c.toNat_lt
  rcases hb with rfl | rfl
  · rw [hexNibble_toNat (by omega)]
    split <;> omega
  · rw [hexNibble_toNat (by omega)]
    split <;> omega

theorem encodeHex_injective : Function.Injective encodeHex := by
  intro s t h
  induction s generalizing t with
  | nil =>
    cases t with
    | nil => rfl
    | cons c t => simp at h
  | cons b s ih =>
    cases t with
    | nil => simp at h
    | cons c t =>
      simp only [encodeHex_cons, List.cons.injEq] at h
      obtain ⟨hhi, hlo, ht⟩ := h
      have hb := b.toNat_lt
      have hc := c.toNat_lt
      have hdiv := hexNibble_injective (by omega) (by omega) hhi
      have hmod := hexNibble_injective (by omega) (by omega) hlo
      have hbc : b = c := UInt8.toNat_inj.mp (by omega)
      rw [hbc, ih ht]

def NoControl (s : Bytes) : Prop := ∀ b ∈ s, 32 ≤ b

instance (s : Bytes) : Decidable (NoControl s) :=
  decidable_of_iff (s.all fun b => decide (32 ≤ b)) (by simp [NoControl])

theorem noControl_nil : NoControl [] := by simp [NoControl]

@[simp] theorem noControl_cons {b : Byte} {s : Bytes} :
    NoControl (b :: s) ↔ 32 ≤ b ∧ NoControl s := by
  simp [NoControl]

@[simp] theorem noControl_append {s t : Bytes} :
    NoControl (s ++ t) ↔ NoControl s ∧ NoControl t := by
  simp [NoControl, or_imp, forall_and]

theorem NoControl.sublist {s t : Bytes} (h : NoControl t) (hs : ∀ b ∈ s, b ∈ t) : NoControl s :=
  fun b hb => h b (hs b hb)

theorem isDigit_noControl {b : Byte} (h : isDigit b = true) : 32 ≤ b := by
  have hb := isDigit_iff.mp h
  rw [UInt8.le_iff_toNat_le]
  simp only [UInt8.reduceToNat]
  omega

theorem decimal_noControl (n : Nat) : NoControl (decimal n) :=
  fun _ hb => isDigit_noControl (decimal_isDigit hb)

end Foundation.Text
