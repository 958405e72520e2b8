import UbgoLogger.Encode.FloatText
import UbgoLogger.Encode.Json
import UbgoLogger.Foundation.JsonOutside

namespace UbgoLogger
open Foundation Foundation.Text Buffer

def quoted (s : Bytes) : Bytes := 0x22 :: (s.flatMap escapeByte ++ [0x22])

theorem writeJSONString_quoted (b s : Bytes) : writeJSONString b s = b ++ quoted s := by
  rw [writeJSONString_eq]
  simp [quoted]

theorem quoted_of_plain {s : Bytes} (h : ∀ b ∈ s, plain b = true) :
    quoted s = 0x22 :: (s ++ [0x22]) := by
  have hflat : s.flatMap escapeByte = s := by
    induction s with
    | nil => rfl
    | cons b s ih =>
      obtain ⟨hb, hs⟩ := List.forall_mem_cons.mp h
      rw [List.flatMap_cons, ih hs, escapeByte, if_pos hb]
      rfl
  rw [quoted, hflat]

theorem hex4_escape {n : Nat} (hn : n < 32) :
    Json.hex4 0x30 0x30 (hexDigit (UInt8.ofNat n >>> 4)) (hexDigit (UInt8.ofNat n &&& 0xf)) = some n :=
  (by decide : ∀ n < 32, Json.hex4 0x30 0x30 (hexDigit (UInt8.ofNat n >>> 4))
    (hexDigit (UInt8.ofNat n &&& 0xf)) = some n) n hn

theorem chars_escapeByte (c : Byte) {s r : Bytes} {cs : List Json.Symbol} (h : Json.Chars s cs r) :
    ∃ x, Json.Chars (escapeByte c ++ s) (x :: cs) r ∧
      ∀ cs, Json.decode (x :: cs) = c :: Json.decode cs := by
  unfold escapeByte
  split
  next hc =>
    simp only [plain, Bool.and_eq_true, decide_eq_true_eq] at hc
    exact ⟨.byte c, .plain hc.1.1 hc.1.2 hc.2 h, fun _ => rfl⟩
  next hc =>
    unfold escape
    split
    next hquote => exact ⟨.byte c, .escape (by rw [hquote]; rfl) h, fun _ => rfl⟩
    next hquote =>
      split
      next hslash => exact ⟨.byte c, .escape (by rw [hslash]; rfl) h, fun _ => rfl⟩
      next hslash =>
        split
        next hn => exact ⟨.byte c, .escape (by rw [hn]; rfl) h, fun _ => rfl⟩
        next =>
          split
          next hr => exact ⟨.byte c, .escape (by rw [hr]; rfl) h, fun _ => rfl⟩
          next =>
            split
            next ht => exact ⟨.byte c, .escape (by rw [ht]; rfl) h, fun _ => rfl⟩
            next =>
              have hlow : c.toNat < 32 := by
                simp only [plain, Bool.and_eq_true, decide_eq_true_eq, not_and] at hc
                by_contra hge
                have hle : 0x20 ≤ c := UInt8.le_iff_toNat_le.mpr (by simpa using hge)
                exact hc ⟨hle, hquote⟩ hslash
              have hhex := hex4_escape hlow
              rw [UInt8.ofNat_toNat] at hhex
              refine ⟨.unit c.toNat, .unicode hhex h, fun cs => ?_⟩
              rw [Json.decode_unit (by omega), UInt8.ofNat_toNat]

theorem chars_quoted (s : Bytes) (r : Bytes) :
    ∃ cs, Json.Chars (s.flatMap escapeByte ++ 0x22 :: r) cs r ∧ Json.decode cs = s := by
  induction s with
  | nil => exact ⟨[], .nil, rfl⟩
  | cons c s ih =>
    obtain ⟨cs, hcs, hdecode⟩ := ih
    obtain ⟨x, hx, hstep⟩ := chars_escapeByte c hcs
    refine ⟨x :: cs, ?_, by rw [hstep, hdecode]⟩
    rwa [List.flatMap_cons, List.append_assoc]

theorem quoted_value (s r : Bytes) : Json.Value (quoted s ++ r) (.string s) r := by
  obtain ⟨cs, hcs, hdecode⟩ := chars_quoted s r
  have h := Json.Value.string hcs
  rw [hdecode] at h
  simpa [quoted] using h

def intNumeral (x : Int) : Numeral := ⟨decide (x < 0), decimal x.natAbs, [], 0⟩

theorem intNumeral_toInt (x : Int) : (intNumeral x).toInt = some x := by
  simp only [Numeral.toInt, intNumeral, natural_decimal, and_self, if_true, decide_eq_true_eq]
  congr 1
  split <;> omega

theorem formatInt_spells (x : Int) : Numeral.Spells (formatInt x) (intNumeral x) := by
  have h : Numeral.Spells _ (intNumeral x) :=
    .mk (decimal_digits x.natAbs) (decimal_not_padded x.natAbs) .none .none
  simpa [formatInt, Numeral.sign] using h

theorem formatInt_value (x : Int) (r : Bytes) :
    Json.Value (formatInt x ++ r) (.number (intNumeral x)) r :=
  .number (formatInt_spells x)

theorem decimal_eq_formatInt (n : Nat) : decimal n = formatInt n := by
  simp [formatInt]

theorem isDigit_plain {b : Byte} (h : isDigit b = true) : plain b = true := by
  have hne : ∀ c : Byte, isDigit c = false → b ≠ c := by
    rintro c hc rfl
    simp [hc] at h
  simp [plain, isDigit_noControl h, hne 0x22 (by decide), hne 0x5c (by decide)]

theorem mem_formatInt {x : Int} {b : Byte} (hb : b ∈ formatInt x) : b = 0x2d ∨ isDigit b = true := by
  rcases List.mem_append.mp hb with hb | hb
  · split at hb
    · exact .inl (List.mem_singleton.mp hb)
    · exact absurd hb List.not_mem_nil
  · exact .inr (decimal_isDigit hb)

theorem isClock_plain {b : Byte} (h : isClock b = true) : plain b = true := by
  simp only [isClock, Bool.or_eq_true, decide_eq_true_eq] at h
  rcases h with h | h
  · exact isDigit_plain h
  · exact List.all_eq_true.mp (by decide : (ascii "+-.:TZ").all plain = true) b h

theorem clock_quoted (t : Time) :
    0x22 :: (t.formatRFC3339Nano ++ [0x22]) = quoted t.formatRFC3339Nano :=
  (quoted_of_plain fun _ hb => isClock_plain (isClock_formatRFC3339Nano hb)).symm

section Values

variable {χ κ : Type} (rt : Runtime χ)

def anyText (v : AnyVal χ) : Bytes := appendAny rt true [] v

def valueText (f : Field χ) : Bytes := appendFieldValue rt true [] f

theorem appendAny_eq (buf : Bytes) (v : AnyVal χ) : appendAny rt true buf v = buf ++ anyText rt v := by
  cases v with
  | other v =>
    simp only [anyText, appendAny, if_true]
    cases rt.marshal v with
    | error err => simp [writeJSONString_quoted]
    | ok raw => simp
  | nil | string | bool | int | int64 | uint64 | float64 | error | stringer =>
    simp [anyText, appendAny, writeText, writeJSONString_quoted, writeString, writeBool, writeInt,
      writeUint, writeFloat]

theorem appendFieldValue_eq (buf : Bytes) (f : Field χ) :
    appendFieldValue rt true buf f = buf ++ valueText rt f := by
  unfold valueText appendFieldValue
  cases f.knd with
  | any => exact appendAny_eq rt buf f.any
  | error =>
    cases f.errVal <;> simp [writeText, writeJSONString_quoted, writeString]
  | string | int64 | uint64 | float64 | bool | duration | time =>
    simp [writeText, writeJSONString_quoted, writeInt, writeUint, writeFloat, writeBool, writeByte,
      writeTimeRFC3339]

end Values

section Recovery

variable {χ κ : Type}

def AnyVal.floatBits : AnyVal χ → Option UInt64
  | .float64 bits => some bits
  | _ => none

def Field.floatBits (f : Field χ) : Option UInt64 :=
  match f.knd with
  | .float64 => some f.num
  | .any => f.any.floatBits
  | _ => none

def Field.Finite (f : Field χ) : Prop := ∀ bits, f.floatBits = some bits → Float.Finite bits

instance (f : Field χ) : Decidable f.Finite :=
  decidable_of_iff (f.floatBits.all fun bits => decide (Float.Finite bits)) (by
    simp [Field.Finite, Option.all_eq_true])

-- json.Marshal returns the text of one JSON value, with no white space around it.
def Runtime.Marshals (rt : Runtime χ) : Prop :=
  ∀ v raw, rt.marshal v = .ok raw → ∃ j, Json.Value raw j []

def IsFloat (bits : UInt64) (j : Json) : Prop :=
  ∃ n, j = .number n ∧ ∀ b, Float.Reads n b ↔ b = bits

def IsInt (x : Int) (j : Json) : Prop := ∃ n, j = .number n ∧ n.toInt = some x

def AnyVal.Recovered (rt : Runtime χ) (v : AnyVal χ) (j : Json) : Prop :=
  match v with
  | .nil => j = .null
  | .string s => j = .string s
  | .bool v => j = .bool v
  | .int v => IsInt v.toInt j
  | .int64 v => IsInt v.toInt j
  | .uint64 v => IsInt v.toNat j
  | .float64 bits => IsFloat bits j
  | .error text => j = .string text
  | .stringer text => j = .string text
  | .other v =>
      match rt.marshal v with
      | .error err => j = .string (ascii "!ERR:" ++ err)
      | .ok raw => Json.Value raw j []

def Field.Recovered (rt : Runtime χ) (f : Field χ) (j : Json) : Prop :=
  match f.knd with
  | .string => j = .string f.str
  | .int64 => IsInt f.int64.toInt j
  | .uint64 => IsInt f.num.toNat j
  | .float64 => IsFloat f.num j
  | .bool => j = .bool (f.num ≠ 0)
  | .duration => j = .string (Duration.string f.int64.toInt)
  | .time => j = .string (f.time rt.localOffset).formatRFC3339Nano
  | .error =>
      match f.errVal with
      | some text => j = .string text
      | none => j = .null
  | .any => f.any.Recovered rt j

variable {rt : Runtime χ}

theorem int_value (x : Int) :
    ∃ j, IsInt x j ∧ ∀ r, Json.Value (formatInt x ++ r) j r :=
  ⟨_, ⟨_, rfl, intNumeral_toInt x⟩, formatInt_value x⟩

theorem nat_value (n : Nat) : ∃ j, IsInt n j ∧ ∀ r, Json.Value (decimal n ++ r) j r := by
  rw [decimal_eq_formatInt]
  exact int_value n

theorem float_value {bits : UInt64} (h : Float.Finite bits) :
    ∃ j, IsFloat bits j ∧ ∀ r, Json.Value (Float.format bits ++ r) j r := by
  obtain ⟨n, hspells, hreads⟩ := Float.format_spells h
  exact ⟨.number n, ⟨n, rfl, hreads⟩, fun r => .number hspells⟩

theorem bool_value (v : Bool) (r : Bytes) :
    Json.Value ((if v then ascii "true" else ascii "false") ++ r) (.bool v) r := by
  cases v with
  | true => exact .literal (by simp [Json.literals])
  | false => exact .literal (by simp [Json.literals])

theorem null_value (r : Bytes) : Json.Value (ascii "null" ++ r) .null r :=
  .literal (by simp [Json.literals])

theorem text_value (s r : Bytes) : Json.Value (writeText true [] s ++ r) (.string s) r := by
  rw [writeText, if_pos rfl, writeJSONString_quoted]
  exact quoted_value s r

theorem anyText_value (hrt : rt.Marshals) {v : AnyVal χ}
    (hv : ∀ bits, v.floatBits = some bits → Float.Finite bits) :
    ∃ j, v.Recovered rt j ∧ ∀ r, Json.Value (anyText rt v ++ r) j r := by
  cases v with
  | nil => exact ⟨_, rfl, null_value⟩
  | string s => exact ⟨_, rfl, text_value s⟩
  | bool v => exact ⟨_, rfl, bool_value v⟩
  | int v => exact int_value v.toInt
  | int64 v => exact int_value v.toInt
  | uint64 v => exact nat_value v.toNat
  | float64 bits => exact float_value (hv bits rfl)
  | error text => exact ⟨_, rfl, text_value text⟩
  | stringer text => exact ⟨_, rfl, text_value text⟩
  | other v =>
    simp only [AnyVal.Recovered, anyText, appendAny, if_true]
    cases hm : rt.marshal v with
    | error err => exact ⟨_, rfl, text_value (ascii "!ERR:" ++ err)⟩
    | ok raw =>
      obtain ⟨j, hj⟩ := hrt v raw hm
      exact ⟨j, hj, fun r => hj.append r⟩

theorem valueText_value (hrt : rt.Marshals) {f : Field χ} (hf : f.Finite) :
    ∃ j, f.Recovered rt j ∧ ∀ r, Json.Value (valueText rt f ++ r) j r := by
  unfold Field.Finite Field.floatBits at hf
  unfold Field.Recovered valueText appendFieldValue
  cases hk : f.knd with
  | any => exact anyText_value hrt (by simpa [hk] using hf)
  | string => exact ⟨_, rfl, text_value f.str⟩
  | int64 => exact int_value f.int64.toInt
  | uint64 => exact nat_value f.num.toNat
  | float64 => exact float_value (hf f.num (by rw [hk]))
  | bool => exact ⟨_, rfl, bool_value _⟩
  | duration => exact ⟨_, rfl, text_value _⟩
  | time =>
    refine ⟨_, rfl, fun r => ?_⟩
    have h := quoted_value (f.time rt.localOffset).formatRFC3339Nano r
    rw [← clock_quoted] at h
    simpa [writeByte, writeTimeRFC3339] using h
  | error =>
    cases f.errVal with
    | some text => exact ⟨_, rfl, text_value text⟩
    | none => exact ⟨_, rfl, null_value⟩

theorem bareRuntime_marshals : bareRuntime.Marshals := by
  intro v raw h
  obtain rfl := Except.ok.inj h
  exact ⟨.null, null_value []⟩

end Recovery

end UbgoLogger
