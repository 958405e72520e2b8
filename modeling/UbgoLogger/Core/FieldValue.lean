import UbgoLogger.Core.Slog

namespace UbgoLogger

open Foundation.Text

-- The machine's word, which is the size of int, uint and uintptr.
inductive Word where
  | w32
  | w64

-- The types of the constraint integer.
inductive IntType where
  | int
  | int8
  | int16
  | int32
  | int64
  | uint
  | uint8
  | uint16
  | uint32
  | uint64
  | uintptr

def Word.bits : Word → Nat
  | .w32 => 32
  | .w64 => 64

namespace IntType

def signed : IntType → Bool
  | .int | .int8 | .int16 | .int32 | .int64 => true
  | .uint | .uint8 | .uint16 | .uint32 | .uint64 | .uintptr => false

def bits (word : Word) : IntType → Nat
  | .int | .uint | .uintptr => word.bits
  | .int8 | .uint8 => 8
  | .int16 | .uint16 => 16
  | .int32 | .uint32 => 32
  | .int64 | .uint64 => 64

def less {w : Nat} (T : IntType) (x y : BitVec w) : Bool :=
  if T.signed then x.slt y else x.ult y

-- A conversion to a 64-bit integer type extends the sign of a signed operand, else with zeros.
def convert {w : Nat} (T : IntType) (v : BitVec w) : BitVec 64 :=
  if T.signed then v.signExtend 64 else v.setWidth 64

def toInt {w : Nat} (T : IntType) (v : BitVec w) : Int := if T.signed then v.toInt else v.toNat

variable {word : Word} {T : IntType}

theorem bits_le : T.bits word ≤ 64 := by
  cases T <;> cases word <;> decide

theorem less_underflow : T.less (0#(T.bits word) - 1#(T.bits word)) 0#(T.bits word) = T.signed := by
  cases T <;> cases word <;> rfl

end IntType

section Constructors

variable {χ : Type}

-- Int at any integer type
def intFieldOf (word : Word) (T : IntType) (key : Bytes) (v : BitVec (T.bits word)) : Field χ :=
  if T.less (0#(T.bits word) - 1#(T.bits word)) 0#(T.bits word) then
    ⟨key, .int64, .ofBitVec (T.convert v), [], .nil⟩
  else ⟨key, .uint64, .ofBitVec (T.convert v), [], .nil⟩

def err (e : Option Bytes) : Field χ := namedErr (ascii "error") e

end Constructors

theorem intFieldOf_eq {χ : Type} (word : Word) (T : IntType) (key : Bytes)
    (v : BitVec (T.bits word)) :
    (intFieldOf word T key v : Field χ) =
      ⟨key, if T.signed then .int64 else .uint64, .ofBitVec (T.convert v), [], .nil⟩ := by
  rw [intFieldOf, IntType.less_underflow]
  split <;> rfl

def Boxed.integer {χ : Type} : Boxed χ → Option Int
  | .int64 v => some v.toInt
  | .uint64 v => some v.toNat
  | _ => none

theorem integer_intFieldOf {χ : Type} (localOffset : Int → Int) (word : Word) (T : IntType)
    (key : Bytes) (v : BitVec (T.bits word)) :
    ((intFieldOf word T key v : Field χ).value localOffset).integer = some (T.toInt v) := by
  rw [intFieldOf_eq, IntType.convert, IntType.toInt]
  cases T.signed with
  | true => exact congrArg some (BitVec.toInt_signExtend_of_le IntType.bits_le)
  | false =>
    have hext : (v.setWidth 64).toNat = v.toNat := BitVec.toNat_setWidth_of_le IntType.bits_le
    exact congrArg (fun n : Nat => some (n : Int)) hext

-- A call of a field constructor. A float32 is given by its bits, as a float64 is.
inductive Given (χ : Type) (word : Word) where
  | string (key val : Bytes)
  | int (T : IntType) (key : Bytes) (v : BitVec (T.bits word))
  | float64 (key : Bytes) (bits : UInt64)
  | float32 (key : Bytes) (bits : UInt32)
  | bool (key : Bytes) (v : Bool)
  | dur (key : Bytes) (d : Int64)
  | time (key : Bytes) (t : Time)
  | err (e : Option Bytes)
  | namedErr (key : Bytes) (e : Option Bytes)
  | any (key : Bytes) (v : AnyVal χ)

namespace Given

variable {χ : Type} {word : Word}

-- The conversion of a float32 to float64 is the language's.
def field (widen : UInt32 → UInt64) : Given χ word → Field χ
  | .string key val => stringField key val
  | .int T key v => intFieldOf word T key v
  | .float64 key bits => floatField key bits
  | .float32 key bits => floatField key (widen bits)
  | .bool key v => boolField key v
  | .dur key d => durField key d
  | .time key t => timeField key t
  | .err e => UbgoLogger.err e
  | .namedErr key e => UbgoLogger.namedErr key e
  | .any key v => anyField key v

def Returns (widen : UInt32 → UInt64) : Given χ word → Boxed χ → Prop
  | .string _ val, b => b = .string val
  | .int T _ v, b => b.integer = some (T.toInt v)
  | .float64 _ bits, b => b = .float64 bits
  | .float32 _ bits, b => b = .float64 (widen bits)
  | .bool _ v, b => b = .bool v
  | .dur _ d, b => b = .duration d
  | .time _ t, b => ∃ u : Time, b = .time u ∧ u.instant = t.instant
  | .err e, b => b = .any (e.elim .nil .error)
  | .namedErr _ e, b => b = .any (e.elim .nil .error)
  | .any _ v, b => b = .any v

-- The instant of a time is within the range of UnixNano.
def InRange : Given χ word → Prop
  | .time _ t => -2 ^ 63 ≤ t.instant ∧ t.instant < 2 ^ 63
  | _ => True

end Given

theorem instant_unix (localOffset : Int → Int) (n : Int) :
    (Time.unix localOffset n).instant = n := by
  simp only [Time.instant, Time.unix]
  omega

theorem instant_time_iff {χ : Type} (localOffset : Int → Int) (key : Bytes) (t : Time) :
    ((timeField key t : Field χ).time localOffset).instant = t.instant ↔
      -2 ^ 63 ≤ t.instant ∧ t.instant < 2 ^ 63 := by
  have hnano : (timeField key t : Field χ).int64 = t.unixNano := by simp [timeField, Field.int64]
  rw [Field.time, instant_unix, hnano]
  constructor
  · intro heq
    exact heq ▸ ⟨t.unixNano.le_toInt, t.unixNano.toInt_lt⟩
  · rintro ⟨hmin, hmax⟩
    exact Int64.toInt_ofInt_of_le hmin hmax

theorem field_value_returned_iff {χ : Type} {word : Word} (widen : UInt32 → UInt64)
    (localOffset : Int → Int) (g : Given χ word) :
    g.Returns widen ((g.field widen).value localOffset) ↔ g.InRange := by
  cases g with
  | string key val => exact iff_of_true rfl trivial
  | int T key v => exact iff_of_true (integer_intFieldOf localOffset word T key v) trivial
  | float64 key bits => exact iff_of_true rfl trivial
  | float32 key bits => exact iff_of_true rfl trivial
  | bool key v => cases v <;> exact iff_of_true rfl trivial
  | dur key d => exact iff_of_true (congrArg Boxed.duration d.toInt64_toUInt64) trivial
  | time key t =>
    rw [Given.InRange, ← instant_time_iff (χ := χ) localOffset key]
    exact ⟨fun ⟨u, hu, he⟩ => by cases hu; exact he, fun h => ⟨_, rfl, h⟩⟩
  | err e => cases e <;> exact iff_of_true rfl trivial
  | namedErr key e => cases e <;> exact iff_of_true rfl trivial
  | any key v => exact iff_of_true rfl trivial

theorem zero_time_comes_back_in_1754 :
    (timeField (ascii "at") Time.zero : Field Unit).value (fun _ => 0) =
        .time ⟨-6795364579, 128654848, 0, by decide⟩ ∧
      ¬ (Given.time (ascii "at") Time.zero : Given Unit .w64).Returns (fun _ => 0)
        ((timeField (ascii "at") Time.zero : Field Unit).value fun _ => 0) := by
  have hvalue : (timeField (ascii "at") Time.zero : Field Unit).value (fun _ => 0) =
      .time ⟨-6795364579, 128654848, 0, by decide⟩ := by decide +kernel
  refine ⟨hvalue, ?_⟩
  rw [hvalue]
  rintro ⟨u, hu, hinstant⟩
  cases hu
  exact absurd hinstant (by decide)

end UbgoLogger
