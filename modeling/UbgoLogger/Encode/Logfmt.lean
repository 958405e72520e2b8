import UbgoLogger.Encode.JsonLine
import UbgoLogger.Foundation.Logfmt
import UbgoLogger.Foundation.Strconv

namespace UbgoLogger

open Foundation Foundation.Text Foundation.Lines Buffer

def logfmtNeedsQuote (s : Bytes) : Bool :=
  s.isEmpty || s.any fun b => decide (b ∈ ascii " =\"\n\t")

def writeLogfmtValue (buf s : Bytes) : Bytes :=
  if logfmtNeedsQuote s then writeJSONString buf s else writeString buf s

namespace LogfmtEncoder

variable {χ κ : Type} (rt : Runtime χ)

def encodeTime (buf : Bytes) (r : Record χ κ) : Bytes :=
  if r.time.isZero then buf
  else
    let buf := writeByte (writeString buf (ascii "time=")) 0x22
    writeByte (writeByte (writeTimeRFC3339 buf r.time) 0x22) 0x20

def encodeHead (buf : Bytes) (r : Record χ κ) : Bytes :=
  let buf := writeString (writeString (encodeTime buf r) (ascii "level=")) r.level.lower
  writeLogfmtValue (writeString buf (ascii " msg=")) r.message

def encodeCaller (buf : Bytes) (r : Record χ κ) : Bytes :=
  match r.source rt with
  | none => buf
  | some src =>
      let buf := writeByte (writeString buf (ascii " caller=")) 0x22
      let buf := writeByte (writeString buf src.file) 0x3a
      writeByte (writeInt buf (Int64.ofInt src.line)) 0x22

def encodeValue (buf : Bytes) (f : Field χ) : Bytes :=
  match f.knd with
  | .string => writeLogfmtValue buf f.str
  | .error =>
      match f.errVal with
      | some text => writeLogfmtValue buf text
      | none => writeString buf (ascii "null")
  | _ => appendFieldValue rt false buf f

def encodeField (buf : Bytes) (f : Field χ) : Bytes :=
  encodeValue rt (writeByte (writeString (writeByte buf 0x20) f.key) 0x3d) f

def encode (buf : Bytes) (r : Record χ κ) : Bytes :=
  writeByte (r.fields.foldl (encodeField rt) (encodeCaller rt (encodeHead buf r) r)) newline

end LogfmtEncoder

section Line

variable {χ κ : Type} (rt : Runtime χ) (r : Record χ κ)

def logfmtText (s : Bytes) : Bytes := if logfmtNeedsQuote s then quoted s else s

theorem writeLogfmtValue_eq (buf s : Bytes) : writeLogfmtValue buf s = buf ++ logfmtText s := by
  unfold writeLogfmtValue logfmtText
  split
  · exact writeJSONString_quoted buf s
  · rfl

theorem appendAny_text (buf : Bytes) (v : AnyVal χ) :
    appendAny rt false buf v = buf ++ appendAny rt false [] v := by
  cases v <;> simp [appendAny, writeText, writeString, writeBool, writeInt, writeUint, writeFloat]

theorem appendFieldValue_text (buf : Bytes) (f : Field χ) :
    appendFieldValue rt false buf f = buf ++ appendFieldValue rt false [] f := by
  unfold appendFieldValue
  cases f.knd with
  | any => exact appendAny_text rt buf f.any
  | error => cases f.errVal <;> simp [writeText, writeString]
  | string | int64 | uint64 | float64 | bool | duration | time =>
    simp [writeText, writeString, writeInt, writeUint, writeFloat, writeBool, writeTimeRFC3339]

namespace LogfmtEncoder

def fieldText (f : Field χ) : Bytes := encodeValue rt [] f

theorem encodeValue_eq (buf : Bytes) (f : Field χ) :
    encodeValue rt buf f = buf ++ fieldText rt f := by
  unfold fieldText encodeValue
  cases f.knd with
  | string => simp [writeLogfmtValue_eq]
  | error => cases f.errVal <;> simp [writeLogfmtValue_eq, writeString]
  | any | int64 | uint64 | float64 | bool | duration | time => exact appendFieldValue_text rt buf f

def timePair : List (Bytes × Bytes) :=
  if r.time.isZero then [] else [(ascii "time", quoted r.time.formatRFC3339Nano)]

def headPairs : List (Bytes × Bytes) :=
  timePair r ++ [(ascii "level", r.level.lower), (ascii "msg", logfmtText r.message)]

def callerPair : List (Bytes × Bytes) :=
  match r.source rt with
  | none => []
  | some src => [(ascii "caller", 0x22 :: (JSONEncoder.callerText src ++ [0x22]))]

def fieldPair (f : Field χ) : Bytes × Bytes := (f.key, fieldText rt f)

def pairs : List (Bytes × Bytes) :=
  headPairs r ++ callerPair rt r ++ r.fields.map (fieldPair rt)

theorem encodeFields_eq (fs : List (Field χ)) (buf : Bytes) :
    fs.foldl (encodeField rt) buf = buf ++ Logfmt.separated (fs.map (fieldPair rt)) := by
  induction fs generalizing buf with
  | nil => simp [Logfmt.separated]
  | cons f fs ih =>
    rw [List.foldl_cons, ih, encodeField, encodeValue_eq]
    simp [Logfmt.separated, Logfmt.pairText, fieldPair, writeByte, writeString]

theorem encodeHead_eq (buf : Bytes) :
    encodeHead buf r = buf ++ Logfmt.joined (headPairs r) := by
  have htime : ascii "time=" = ascii "time" ++ [0x3d] := rfl
  have hlevel : ascii "level=" = ascii "level" ++ [0x3d] := rfl
  have hmsg : ascii " msg=" = 0x20 :: (ascii "msg" ++ [0x3d]) := rfl
  unfold encodeHead encodeTime headPairs timePair
  rw [writeLogfmtValue_eq, htime, hlevel, hmsg, ← clock_quoted]
  cases r.time.isZero <;>
    simp [Logfmt.joined, Logfmt.separated, Logfmt.pairText, writeString, writeByte, writeTimeRFC3339]

theorem encodeCaller_eq (buf : Bytes) :
    encodeCaller rt buf r = buf ++ Logfmt.separated (callerPair rt r) := by
  have hcaller : ascii " caller=" = 0x20 :: (ascii "caller" ++ [0x3d]) := rfl
  unfold encodeCaller callerPair
  rw [hcaller]
  cases r.source rt with
  | none => simp [Logfmt.separated]
  | some src =>
    simp [Logfmt.separated, Logfmt.pairText, JSONEncoder.callerText, writeString, writeByte, writeInt]

theorem encode_line (buf : Bytes) :
    encode rt buf r = buf ++ (Logfmt.joined (pairs rt r) ++ [newline]) := by
  have hhead : headPairs r ≠ [] := by simp [headPairs]
  have hcaller := List.append_ne_nil_of_left_ne_nil hhead (callerPair rt r)
  rw [encode, encodeHead_eq, encodeCaller_eq, encodeFields_eq, pairs, Logfmt.joined_append hcaller,
    Logfmt.joined_append hhead]
  simp [writeByte]

end LogfmtEncoder

end Line

end UbgoLogger
