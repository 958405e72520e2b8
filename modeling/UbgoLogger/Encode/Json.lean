import UbgoLogger.Core.Field
import UbgoLogger.Encode.Buffer
import UbgoLogger.Foundation.Lines

namespace UbgoLogger
open Foundation.Text Foundation.Lines Buffer

variable {χ κ : Type} (rt : Runtime χ)

def writeText (jsonMode : Bool) (buf s : Bytes) : Bytes :=
  if jsonMode then writeJSONString buf s else writeString buf s

def appendAny (jsonMode : Bool) (buf : Bytes) : AnyVal χ → Bytes
  | .nil => writeString buf (ascii "null")
  | .string s => writeText jsonMode buf s
  | .bool v => writeBool buf v
  | .int v => writeInt buf v
  | .int64 v => writeInt buf v
  | .uint64 v => writeUint buf v
  | .float64 bits => writeFloat buf bits
  | .error text => writeText jsonMode buf text
  | .stringer text => writeText jsonMode buf text
  | .other v =>
      if jsonMode then
        match rt.marshal v with
        | .error err => writeJSONString buf (ascii "!ERR:" ++ err)
        | .ok raw => buf ++ raw
      else buf ++ rt.quote (rt.sprint v)

def appendFieldValue (jsonMode : Bool) (buf : Bytes) (f : Field χ) : Bytes :=
  match f.knd with
  | .string => writeText jsonMode buf f.str
  | .int64 => writeInt buf f.int64
  | .uint64 => writeUint buf f.num
  | .float64 => writeFloat buf f.num
  | .bool => writeBool buf (f.num ≠ 0)
  | .duration => writeText jsonMode buf (Duration.string f.int64.toInt)
  | .time =>
      if jsonMode then
        writeByte (writeTimeRFC3339 (writeByte buf 0x22) (f.time rt.localOffset)) 0x22
      else writeTimeRFC3339 buf (f.time rt.localOffset)
  | .error =>
      match f.errVal with
      | some s => writeText jsonMode buf s
      | none => writeString buf (ascii "null")
  | .any => appendAny rt jsonMode buf f.any

structure JSONEncoder where
  timeKey : Bytes
  levelKey : Bytes
  msgKey : Bytes
  numericLevel : Bool
  deriving DecidableEq

namespace JSONEncoder

def new : JSONEncoder :=
  { timeKey := ascii "time", levelKey := ascii "level", msgKey := ascii "msg", numericLevel := false }

def orDefault (key : Bytes) (default : String) : Bytes := if key = [] then ascii default else key

-- the returned flag is the source's first: no member was written yet
def encodeTime (e : JSONEncoder) (buf : Bytes) (r : Record χ κ) : Bytes × Bool :=
  if r.time.isZero then (buf, true)
  else
    let buf := writeByte (writeJSONString buf (orDefault e.timeKey "time")) 0x3a
    (writeByte (writeTimeRFC3339 (writeByte buf 0x22) r.time) 0x22, false)

def encodeLevel (e : JSONEncoder) (buf : Bytes) (first : Bool) (r : Record χ κ) : Bytes :=
  let buf := if first then buf else writeByte buf 0x2c
  let buf := writeByte (writeJSONString buf (orDefault e.levelKey "level")) 0x3a
  if e.numericLevel then writeInt buf (Int64.ofInt r.level) else writeJSONString buf r.level.lower

def encodeMessage (e : JSONEncoder) (buf : Bytes) (r : Record χ κ) : Bytes :=
  let buf := writeByte (writeJSONString (writeByte buf 0x2c) (orDefault e.msgKey "msg")) 0x3a
  writeJSONString buf r.message

def encodeHead (e : JSONEncoder) (buf : Bytes) (r : Record χ κ) : Bytes :=
  let (buf, first) := e.encodeTime (writeByte buf 0x7b) r
  e.encodeMessage (e.encodeLevel buf first r) r

def encodeEvent (buf : Bytes) (r : Record χ κ) : Bytes :=
  if r.eventName = [] then buf
  else writeJSONString (writeByte (writeJSONString (writeByte buf 0x2c) (ascii "event")) 0x3a)
    r.eventName

def encodeCaller (buf : Bytes) (r : Record χ κ) : Bytes :=
  match r.source rt with
  | none => buf
  | some src =>
      let buf := writeByte (writeJSONString (writeByte buf 0x2c) (ascii "caller")) 0x3a
      let buf := writeByte (writeString (writeByte buf 0x22) src.file) 0x3a
      writeByte (writeInt buf (Int64.ofInt src.line)) 0x22

def encodeField (buf : Bytes) (f : Field χ) : Bytes :=
  appendFieldValue rt true (writeByte (writeJSONString (writeByte buf 0x2c) f.key) 0x3a) f

def encodeBody (e : JSONEncoder) (buf : Bytes) (r : Record χ κ) : Bytes :=
  r.fields.foldl (encodeField rt) (encodeCaller rt (encodeEvent (e.encodeHead buf r) r) r)

def encode (e : JSONEncoder) (buf : Bytes) (r : Record χ κ) : Bytes :=
  writeByte (writeByte (encodeBody rt e buf r) 0x7d) newline

end JSONEncoder

-- json.Marshal prints compact text: no raw line break in what it returns.
def Runtime.Compact : Prop := ∀ v raw, rt.marshal v = .ok raw → newline ∉ raw

def Record.CallerClean (r : Record χ κ) : Prop := ∀ src, r.source rt = some src → NoControl src.file

section OneLine

variable {rt}

theorem newline_notMem {s : Bytes} (h : NoControl s) : newline ∉ s := by
  intro hm
  exact absurd (h newline hm) (by decide)

theorem notMem_append {s t : Bytes} (hs : newline ∉ s) (ht : newline ∉ t) : newline ∉ s ++ t := by
  simp [hs, ht]

theorem writeByte_clean {buf : Bytes} (h : newline ∉ buf) {c : Byte} (hc : newline ≠ c) :
    newline ∉ writeByte buf c :=
  notMem_append h (by simpa using hc)

theorem writeJSONString_clean {buf : Bytes} (h : newline ∉ buf) (s : Bytes) :
    newline ∉ writeJSONString buf s := by
  have hs := newline_notMem (writeJSONString_noControl noControl_nil s)
  rw [writeJSONString_eq] at hs ⊢
  rw [List.append_assoc, List.append_assoc]
  exact notMem_append h (by simpa using hs)

theorem writeInt_clean {buf : Bytes} (h : newline ∉ buf) (i : Int64) : newline ∉ writeInt buf i :=
  notMem_append h (newline_notMem (formatInt_noControl _))

theorem appendAny_clean (hrt : rt.Compact) {buf : Bytes} (h : newline ∉ buf) (v : AnyVal χ) :
    newline ∉ appendAny rt true buf v := by
  cases v with
  | nil => exact notMem_append h (by decide)
  | string s => exact writeJSONString_clean h s
  | bool v =>
    refine notMem_append h ?_
    cases v <;> decide
  | int v => exact writeInt_clean h v
  | int64 v => exact writeInt_clean h v
  | uint64 v => exact notMem_append h (newline_notMem (decimal_noControl _))
  | float64 bits => exact notMem_append h (newline_notMem (Float.format_noControl _))
  | error text => exact writeJSONString_clean h text
  | stringer text => exact writeJSONString_clean h text
  | other v =>
    simp only [appendAny, if_true]
    cases hm : rt.marshal v with
    | error err => exact writeJSONString_clean h _
    | ok raw => exact notMem_append h (hrt v raw hm)

theorem appendFieldValue_clean (hrt : rt.Compact) {buf : Bytes} (h : newline ∉ buf)
    (f : Field χ) : newline ∉ appendFieldValue rt true buf f := by
  unfold appendFieldValue
  cases f.knd with
  | string => exact writeJSONString_clean h _
  | int64 => exact writeInt_clean h _
  | uint64 => exact notMem_append h (newline_notMem (decimal_noControl _))
  | float64 => exact notMem_append h (newline_notMem (Float.format_noControl _))
  | bool =>
    refine notMem_append h ?_
    cases decide (f.num ≠ 0) <;> decide
  | duration => exact writeJSONString_clean h _
  | time =>
    have hq := writeByte_clean h (c := 0x22) (by decide)
    exact writeByte_clean
      (notMem_append hq (newline_notMem (formatRFC3339Nano_noControl _))) (by decide)
  | error =>
    cases f.errVal with
    | none => exact notMem_append h (by decide)
    | some s => exact writeJSONString_clean h s
  | any => exact appendAny_clean hrt h f.any

theorem writeKey_clean {buf : Bytes} (h : newline ∉ buf) (key : Bytes) :
    newline ∉ writeByte (writeJSONString (writeByte buf 0x2c) key) 0x3a :=
  writeByte_clean (writeJSONString_clean (writeByte_clean h (by decide)) key) (by decide)

theorem encodeTime_clean (e : JSONEncoder) {buf : Bytes} (h : newline ∉ buf) (r : Record χ κ) :
    newline ∉ (e.encodeTime buf r).1 := by
  unfold JSONEncoder.encodeTime
  split
  · exact h
  · have hkey := writeByte_clean (writeJSONString_clean h (JSONEncoder.orDefault e.timeKey "time"))
      (c := 0x3a) (by decide)
    have hquote := writeByte_clean hkey (c := 0x22) (by decide)
    exact writeByte_clean
      (notMem_append hquote (newline_notMem (formatRFC3339Nano_noControl r.time))) (by decide)

theorem encodeLevel_clean (e : JSONEncoder) {buf : Bytes} (h : newline ∉ buf) (first : Bool)
    (r : Record χ κ) : newline ∉ e.encodeLevel buf first r := by
  have hsep : newline ∉ if first then buf else writeByte buf 0x2c := by
    split
    · exact h
    · exact writeByte_clean h (by decide)
  have hkey := writeByte_clean
    (writeJSONString_clean hsep (JSONEncoder.orDefault e.levelKey "level")) (c := 0x3a) (by decide)
  unfold JSONEncoder.encodeLevel
  dsimp only
  split
  · exact writeInt_clean hkey _
  · exact writeJSONString_clean hkey _

theorem encodeHead_clean (e : JSONEncoder) {buf : Bytes} (h : newline ∉ buf) (r : Record χ κ) :
    newline ∉ e.encodeHead buf r := by
  have htime := encodeTime_clean e (writeByte_clean h (c := 0x7b) (by decide)) r
  exact writeJSONString_clean (writeKey_clean (encodeLevel_clean e htime _ r) _) _

theorem encodeEvent_clean {buf : Bytes} (h : newline ∉ buf) (r : Record χ κ) :
    newline ∉ JSONEncoder.encodeEvent buf r := by
  unfold JSONEncoder.encodeEvent
  split
  · exact h
  · exact writeJSONString_clean (writeKey_clean h _) _

theorem encodeCaller_clean {r : Record χ κ} (hr : r.CallerClean rt) {buf : Bytes}
    (h : newline ∉ buf) : newline ∉ JSONEncoder.encodeCaller rt buf r := by
  unfold JSONEncoder.encodeCaller
  cases hs : r.source rt with
  | none => exact h
  | some src =>
    have hquote := writeByte_clean (writeKey_clean h (ascii "caller")) (c := 0x22) (by decide)
    have hfile := notMem_append hquote (newline_notMem (hr src hs))
    exact writeByte_clean (writeInt_clean (writeByte_clean hfile (by decide)) _) (by decide)

theorem encodeField_clean (hrt : rt.Compact) {buf : Bytes} (h : newline ∉ buf) (f : Field χ) :
    newline ∉ JSONEncoder.encodeField rt buf f :=
  appendFieldValue_clean hrt (writeKey_clean h _) f

theorem encodeBody_clean (hrt : rt.Compact) (e : JSONEncoder) {r : Record χ κ}
    (hr : r.CallerClean rt) {buf : Bytes} (h : newline ∉ buf) :
    newline ∉ JSONEncoder.encodeBody rt e buf r := by
  have hfields : ∀ (fs : List (Field χ)) {b : Bytes}, newline ∉ b →
      newline ∉ fs.foldl (JSONEncoder.encodeField rt) b := by
    intro fs
    induction fs with
    | nil => exact fun hb => hb
    | cons f fs ih => exact fun hb => ih (encodeField_clean hrt hb f)
  exact hfields r.fields (encodeCaller_clean hr (encodeEvent_clean (encodeHead_clean e h r) r))

theorem encode_eq (e : JSONEncoder) (buf : Bytes) (r : Record χ κ) :
    e.encode rt buf r = JSONEncoder.encodeBody rt e buf r ++ [0x7d, newline] := by
  simp [JSONEncoder.encode, writeByte]

end OneLine

end UbgoLogger
