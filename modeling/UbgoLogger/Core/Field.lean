import UbgoLogger.Core.Clock

namespace UbgoLogger
open Foundation.Text

abbrev Level := Int

namespace Level

def trace : Level := 1

def debug : Level := 5

def info : Level := 9

def warn : Level := 13

def error : Level := 17

def fatal : Level := 21

def lower (l : Level) : Bytes :=
  if l ≤ 0 then ascii "unspecified"
  else if l < debug then ascii "trace"
  else if l < info then ascii "debug"
  else if l < warn then ascii "info"
  else if l < error then ascii "warn"
  else if l < fatal then ascii "error"
  else ascii "fatal"

end Level

inductive Kind where
  | any
  | string
  | int64
  | uint64
  | float64
  | bool
  | duration
  | time
  | error
  deriving DecidableEq, Repr

-- A dynamic value, sorted by the first case of the type switch in appendAny that matches it.
-- Errors and Stringers are kept as the text they print; χ holds everything else.
inductive AnyVal (χ : Type) where
  | nil
  | string (s : Bytes)
  | bool (v : Bool)
  | int (v : Int64)
  | int64 (v : Int64)
  | uint64 (v : UInt64)
  | float64 (bits : UInt64)
  | error (text : Bytes)
  | stringer (text : Bytes)
  | other (v : χ)
  deriving DecidableEq

structure Field (χ : Type) where
  key : Bytes
  knd : Kind
  num : UInt64
  str : Bytes
  any : AnyVal χ
  deriving DecidableEq

namespace Field

variable {χ : Type}

def errVal (f : Field χ) : Option Bytes :=
  match f.any with
  | .error text => some text
  | _ => none

def int64 (f : Field χ) : Int64 := f.num.toInt64

def time (localOffset : Int → Int) (f : Field χ) : Time := Time.unix localOffset f.int64.toInt

end Field

section Constructors

variable {χ : Type}

def stringField (key val : Bytes) : Field χ := ⟨key, .string, 0, val, .nil⟩

def boolField (key : Bytes) (v : Bool) : Field χ := ⟨key, .bool, if v then 1 else 0, [], .nil⟩

def durField (key : Bytes) (d : Int64) : Field χ := ⟨key, .duration, d.toUInt64, [], .nil⟩

def namedErr (key : Bytes) (err : Option Bytes) : Field χ :=
  ⟨key, .error, 0, [], err.elim .nil .error⟩

def anyField (key : Bytes) (v : AnyVal χ) : Field χ := ⟨key, .any, 0, [], v⟩

end Constructors

structure Record (χ κ : Type) where
  time : Time
  level : Level
  message : Bytes
  pc : UInt64
  eventName : Bytes
  fields : List (Field χ)
  ctx : κ
  deriving DecidableEq

structure Frame where
  file : Bytes
  line : Int
  function : Bytes
  deriving DecidableEq

-- What the encoders take from outside the module: json.Marshal, fmt.Sprint, strconv.Quote, the
-- symbol table behind runtime.CallersFrames and the local time zone.
structure Runtime (χ : Type) where
  marshal : χ → Except Bytes Bytes
  sprint : χ → Bytes
  quote : Bytes → Bytes
  frame : UInt64 → Frame
  localOffset : Int → Int

def bareRuntime : Runtime Unit where
  marshal := fun _ => .ok (ascii "null")
  sprint := fun _ => []
  quote := id
  frame := fun _ => { file := [], line := 0, function := [] }
  localOffset := fun _ => 0

structure Source where
  file : Bytes
  line : Int
  func : Bytes
  deriving DecidableEq

def lastIndexByte (s : Bytes) (c : Byte) : Option Nat :=
  (List.range s.length).reverse.find? fun i => s[i]? == some c

def trimPath (file : Bytes) : Bytes :=
  match lastIndexByte file 47 with
  | none => file
  | some i =>
      match lastIndexByte (file.take i) 47 with
      | some j => file.drop (j + 1)
      | none => file.drop (i + 1)

def Record.source {χ κ : Type} (rt : Runtime χ) (r : Record χ κ) : Option Source :=
  if r.pc = 0 then none
  else
    let f := rt.frame r.pc
    if f.file = [] then none
    else some { file := trimPath f.file, line := f.line, func := f.function }

end UbgoLogger
