import UbgoLogger.Core.Clock

namespace UbgoLogger.Float
open Foundation.Text

def signBit (bits : UInt64) : Bool := bits.toNat / 2 ^ 63 = 1

def exponent (bits : UInt64) : Nat := bits.toNat / 2 ^ 52 % 2 ^ 11

def fraction (bits : UInt64) : Nat := bits.toNat % 2 ^ 52

-- A positive number num / den with the bounds of the interval that rounds to it, all over den.
structure Interval where
  lower : Nat
  value : Nat
  upper : Nat
  den : Nat
  inclusive : Bool

def interval (bits : UInt64) : Interval :=
  let e := exponent bits
  let m := if e = 0 then fraction bits else 2 ^ 52 + fraction bits
  let scale := if e = 0 then 1 else e
  -- the value is m * 2 ^ (scale - 1075); two more bits hold the midpoints to both neighbours
  let up := 2 ^ (scale - 1077)
  let gap := if fraction bits = 0 ∧ 1 < e then 1 else 2
  { lower := (4 * m - gap) * up
    value := 4 * m * up
    upper := (4 * m + 2) * up
    den := 2 ^ (1077 - scale)
    inclusive := m % 2 = 0 }

def scalePow (k : Int) (num den : Nat) : Nat × Nat :=
  if 0 ≤ k then (num, den * 10 ^ k.toNat) else (num * 10 ^ (-k).toNat, den)

def decimalPoint (num den : Nat) : Int :=
  if den ≤ num then (decimal (num / den)).length
  else
    let d := (decimal (den / num)).length
    if num * 10 ^ (d - 1) = den then 2 - d else 1 - d

structure Digits where
  digits : Bytes
  point : Int

-- The decimals of n digits next to the value; the nearer one inside the interval, if any is.
def round (iv : Interval) (dp : Int) (n : Nat) : Option Nat :=
  let (v, den) := scalePow (dp - n) iv.value iv.den
  let (lo, _) := scalePow (dp - n) iv.lower iv.den
  let (hi, _) := scalePow (dp - n) iv.upper iv.den
  let f := v / den
  let down := if iv.inclusive then lo ≤ f * den else lo < f * den
  let up := if iv.inclusive then (f + 1) * den ≤ hi else (f + 1) * den < hi
  if f * den = v then some f
  else if down ∧ up then
    some (if 2 * (v - f * den) < den ∨ (2 * (v - f * den) = den ∧ f % 2 = 0) then f else f + 1)
  else if down then some f
  else if up then some (f + 1)
  else none

def search (iv : Interval) (dp : Int) : Nat → Nat → Digits
  | 0, n => { digits := decimal ((round iv dp n).getD 0), point := dp }
  | fuel + 1, n =>
      match round iv dp n with
      | some f =>
          let ds := decimal f
          { digits := trimZeros ds, point := dp + (ds.length - n) }
      | none => search iv dp fuel (n + 1)

def shortest (bits : UInt64) : Digits :=
  let iv := interval bits
  search iv (decimalPoint iv.value iv.den) 17 1

def formatE (d : Digits) : Bytes :=
  let e := d.point - 1
  d.digits.take 1 ++ (if d.digits.length ≤ 1 then [] else 46 :: d.digits.drop 1) ++ [101] ++
    (if e < 0 then [45] else [43]) ++ formatIntWidth e.natAbs 2

def formatF (d : Digits) : Bytes :=
  if 0 < d.point then
    let p := d.point.toNat
    d.digits.take p ++ List.replicate (p - d.digits.length) 48 ++
      (if d.digits.length ≤ p then [] else 46 :: d.digits.drop p)
  else [48] ++ (if d.digits = [] then []
    else 46 :: List.replicate (-d.point).toNat 48 ++ d.digits)

-- strconv.AppendFloat(nil, f, 'g', -1, 64)
def format (bits : UInt64) : Bytes :=
  if exponent bits = 2047 then
    if fraction bits ≠ 0 then ascii "NaN"
    else if signBit bits then ascii "-Inf" else ascii "+Inf"
  else
    (if signBit bits then [45] else []) ++
      if exponent bits = 0 ∧ fraction bits = 0 then [48]
      else
        let d := shortest bits
        if d.point - 1 < -4 ∨ 6 ≤ d.point - 1 then formatE d else formatF d

theorem search_noControl (iv : Interval) (dp : Int) (fuel n : Nat) :
    NoControl (search iv dp fuel n).digits := by
  induction fuel generalizing n with
  | zero => exact decimal_noControl _
  | succ fuel ih =>
    simp only [search]
    split
    · exact trimZeros_noControl (decimal_noControl _)
    · exact ih (n + 1)

theorem noControl_take {s : Bytes} (h : NoControl s) (n : Nat) : NoControl (s.take n) :=
  h.sublist fun _ => List.mem_of_mem_take

theorem noControl_drop {s : Bytes} (h : NoControl s) (n : Nat) : NoControl (s.drop n) :=
  h.sublist fun _ => List.mem_of_mem_drop

theorem noControl_zeros (n : Nat) : NoControl (List.replicate n 48) := by
  intro b hb
  rw [List.eq_of_mem_replicate hb]
  decide

theorem formatE_noControl {d : Digits} (h : NoControl d.digits) : NoControl (formatE d) := by
  simp only [formatE, noControl_append]
  refine ⟨⟨⟨⟨noControl_take h 1, ?_⟩, by decide⟩, by split <;> decide⟩, formatIntWidth_noControl _ _⟩
  split
  · exact noControl_nil
  · exact noControl_cons.mpr ⟨by decide, noControl_drop h 1⟩

theorem formatF_noControl {d : Digits} (h : NoControl d.digits) : NoControl (formatF d) := by
  unfold formatF
  split
  · simp only [noControl_append]
    refine ⟨⟨noControl_take h _, noControl_zeros _⟩, ?_⟩
    split
    · exact noControl_nil
    · exact noControl_cons.mpr ⟨by decide, noControl_drop h _⟩
  · rw [noControl_append]
    refine ⟨by decide, ?_⟩
    split
    · exact noControl_nil
    · rw [List.cons_append, noControl_cons, noControl_append]
      exact ⟨by decide, noControl_zeros _, h⟩

theorem format_noControl (bits : UInt64) : NoControl (format bits) := by
  unfold format
  split
  · split
    · decide
    · split <;> decide
  · rw [noControl_append]
    refine ⟨by split <;> decide, ?_⟩
    split
    · decide
    · have hd := search_noControl (interval bits)
        (decimalPoint (interval bits).value (interval bits).den) 17 1
      dsimp only
      split
      · exact formatE_noControl hd
      · exact formatF_noControl hd

end UbgoLogger.Float
