import UbgoLogger.Sink.LokiBody

namespace UbgoLogger.Sink.Http
open Foundation Foundation.Text

-- The loop of itoa64 on its array d: i is the index, and none is a write outside the array.
def itoa64Fill : Nat → Int64 → Bytes → Option (Bytes × Nat)
  | 0, n, d => if 0 < n then none else some (d, 0)
  | i + 1, n, d =>
    if 0 < n then itoa64Fill i (n / 10) (d.set i (48 + n % 10).toUInt64.toUInt8) else some (d, i + 1)

def itoa64Array (n : Int64) : Option Bytes :=
  if n = 0 then some (ascii "0")
  else
    let neg := decide (n < 0)
    let n := if neg then -n else n
    match itoa64Fill 20 n (List.replicate 20 0) with
    | none => none
    | some (d, i) =>
      if neg then
        match i with
        | 0 => none
        | i + 1 => some ((d.set i 0x2d).drop i)
      else some (d.drop i)

section Array

variable {i j c : Nat} {n : Int64} {d d' : Bytes}

theorem drop_set_self (x : Byte) (h : i < d.length) : (d.set i x).drop i = x :: d.drop (i + 1) := by
  rw [List.drop_eq_getElem_cons (by rwa [List.length_set]), List.getElem_set_self,
    List.drop_set_of_lt (Nat.lt_succ_self i)]

-- What the array holds from the index on is what the loop over the filled part makes.
theorem itoa64Fill_drop (h : itoa64Fill i n d = some (d', j)) (hi : i ≤ d.length) :
    d'.drop j = itoa64Loop i n (d.drop i) ∧ d'.length = d.length ∧ j ≤ i := by
  induction i generalizing n d with
  | zero =>
    rw [itoa64Fill] at h
    split at h
    · cases h
    · cases h
      exact ⟨rfl, rfl, Nat.le_refl _⟩
  | succ i ih =>
    rw [itoa64Fill] at h
    rw [itoa64Loop]
    split at h
    next hpos =>
      obtain ⟨hdrop, hlength, hle⟩ := ih h (by rw [List.length_set]; omega)
      rw [drop_set_self _ (by omega)] at hdrop
      rw [List.length_set] at hlength
      rw [if_pos hpos]
      exact ⟨hdrop, hlength, by omega⟩
    next hpos =>
      cases h
      rw [if_neg hpos]
      exact ⟨rfl, rfl, Nat.le_refl _⟩

theorem itoa64Fill_stop (h : ¬ 0 < n) (i : Nat) (d : Bytes) : itoa64Fill i n d = some (d, i) := by
  cases i <;> rw [itoa64Fill, if_neg h]

-- c digits take at most c cells.
theorem itoa64Fill_room (hn : n.toInt < 10 ^ c) (hc : c ≤ i) (d : Bytes) :
    ∃ d' j, itoa64Fill i n d = some (d', j) ∧ i ≤ j + c := by
  induction c generalizing i n d with
  | zero =>
    have hle : ¬ 0 < n := by
      rw [Int64.lt_iff_toInt_lt, Int64.toInt_zero]
      omega
    exact ⟨d, i, itoa64Fill_stop hle i d, by omega⟩
  | succ c ih =>
    by_cases hpos : 0 < n
    · obtain ⟨i, rfl⟩ := Nat.exists_eq_succ_of_ne_zero (by omega : i ≠ 0)
      have hnat := (Int64.lt_iff_toInt_lt).mp hpos
      rw [Int64.toInt_zero] at hnat
      have hdiv : (n / 10).toInt < 10 ^ c := by
        rw [Int64.toInt_div_of_ne_right _ _ (by decide)]
        change n.toInt.tdiv 10 < _
        rw [Int.tdiv_eq_ediv_of_nonneg hnat.le]
        rw [pow_succ] at hn
        omega
      obtain ⟨d', j, hfill, hle⟩ :=
        ih hdiv (Nat.le_of_succ_le_succ hc) (d.set i (48 + n % 10).toUInt64.toUInt8)
      refine ⟨d', j, ?_, by omega⟩
      rw [itoa64Fill, if_pos hpos, hfill]
    · exact ⟨d, i, itoa64Fill_stop hpos i d, by omega⟩

theorem itoa64Array_eq (n : Int64) : itoa64Array n = some (itoa64 n) := by
  rw [itoa64Array, itoa64]
  split
  · rfl
  · dsimp only
    generalize (if decide (n < 0) = true then -n else n) = m
    have hm : m.toInt < 10 ^ 19 := lt_trans m.toInt_lt (by decide)
    obtain ⟨d, j, hfill, hroom⟩ := itoa64Fill_room hm (by decide : 19 ≤ 20) (List.replicate 20 0)
    obtain ⟨hdrop, hlength, hle⟩ := itoa64Fill_drop hfill (by simp)
    rw [List.length_replicate] at hlength
    have hempty : (List.replicate 20 (0 : Byte)).drop 20 = [] := by decide
    rw [hempty] at hdrop
    rw [hfill]
    obtain ⟨j, rfl⟩ := Nat.exists_eq_succ_of_ne_zero (by omega : j ≠ 0)
    dsimp only
    split
    · rw [drop_set_self _ (by omega), hdrop]
    · rw [hdrop]

end Array

def unsigned (s : Bytes) : Bytes := if s.head? = some 0x2d then s.tail else s

def parseSigned (s : Bytes) : Option Int :=
  (parseDecimal (unsigned s)).map fun m : Nat =>
    if s.head? = some 0x2d then -(m : Int) else (m : Int)

structure Canonical (s : Bytes) (x : Int) : Prop where
  reads : parseSigned s = some x
  unpadded : ¬ padded (unsigned s)
  signed : s ≠ ascii "-0"

theorem head?_decimal (m : Nat) : (decimal m).head? ≠ some 0x2d := by
  intro h
  have hdigit := decimal_isDigit (List.mem_of_mem_head? h)
  exact absurd hdigit (by decide)

theorem canonical_formatInt (x : Int) : Canonical (formatInt x) x := by
  by_cases hneg : x < 0
  · have htext : formatInt x = 0x2d :: decimal x.natAbs := by
      rw [formatInt, if_pos hneg]
      rfl
    have hdigits : unsigned (formatInt x) = decimal x.natAbs := by
      rw [htext]
      rfl
    refine ⟨?_, ?_, ?_⟩
    · have hvalue : -(x.natAbs : Int) = x := by omega
      rw [parseSigned, hdigits, parse_decimal, htext]
      exact congrArg some hvalue
    · rw [hdigits]
      exact decimal_not_padded _
    · intro hzero
      rw [htext] at hzero
      have hparse := parse_decimal x.natAbs
      rw [(List.cons.inj hzero).2] at hparse
      have hnat : x.natAbs = 0 := (Option.some.inj hparse).symm
      omega
  · have htext : formatInt x = decimal x.natAbs := by
      rw [formatInt, if_neg hneg]
      rfl
    have hdigits : unsigned (formatInt x) = decimal x.natAbs := by
      rw [htext, unsigned, if_neg (head?_decimal _)]
    refine ⟨?_, ?_, ?_⟩
    · have hvalue : (x.natAbs : Int) = x := by omega
      rw [parseSigned, hdigits, parse_decimal, htext]
      simp only [if_neg (head?_decimal _), Option.map_some, hvalue]
    · rw [hdigits]
      exact decimal_not_padded _
    · intro hzero
      exact head?_decimal x.natAbs (by rw [← htext, hzero]; rfl)

theorem itoa64_canonical_iff (n : Int64) :
    ∃ s, itoa64Array n = some s ∧ (Canonical s n.toInt ↔ n ≠ Int64.minValue) := by
  refine ⟨itoa64 n, itoa64Array_eq n, ?_, fun hn => itoa64_eq hn ▸ canonical_formatInt _⟩
  rintro hcanonical rfl
  have hreads := hcanonical.reads
  rw [itoa64_minValue] at hreads
  exact absurd hreads (by decide)

theorem itoa64_minValue_no_digit :
    itoa64Array Int64.minValue = some (ascii "-") ∧ parseSigned (ascii "-") = none := by
  decide

end UbgoLogger.Sink.Http
