import UbgoLogger.Core.Logger

namespace UbgoLogger
open Foundation.Text

structure SpanState where
  id : Bytes
  path : Bytes
  children : Nat

structure Span (χ : Type) where
  name : Bytes
  id : Bytes
  parentID : Bytes
  path : Bytes
  start : Time
  fields : List (Field χ)
  level : Level
  err : Option Bytes
  ended : Bool

-- The loop of itoa: acc is the part of the array filled so far.
def itoaLoop (n : Nat) (acc : Bytes) : Bytes :=
  if n = 0 then acc else itoaLoop (n / 10) (digit (n % 10) :: acc)
termination_by n
decreasing_by omega

def itoa (n : Nat) : Bytes := if n = 0 then ascii "0" else itoaLoop n []

theorem itoaLoop_eq (n : Nat) (acc : Bytes) :
    itoaLoop n acc = (Nat.digits 10 n).reverse.map digit ++ acc := by
  induction n using Nat.strongRecOn generalizing acc with
  | ind n ih =>
    rw [itoaLoop]
    split
    next h => simp [h]
    next h =>
      rw [ih (n / 10) (by omega), Nat.digits_def' (by norm_num) (Nat.pos_of_ne_zero h)]
      simp

theorem itoa_eq_decimal (n : Nat) : itoa n = decimal n := by
  unfold itoa decimal
  split
  · rfl
  · rw [itoaLoop_eq, List.append_nil]

-- The span states contexts point to, by name, and the spans handed out.
structure Spans (χ : Type) where
  states : List SpanState
  spans : List (Span χ)

namespace Spans

variable {χ υ : Type}

def empty : Spans χ := ⟨[], []⟩

def parent (s : Spans χ) (ctx : Context χ υ) : Option (Nat × SpanState) :=
  ctx.span.bind fun n => (s.states[n]?).map fun st => (n, st)

def boundFields (name id path parentID : Bytes) (fields : List (Field χ)) : List (Field χ) :=
  [stringField (ascii "span") name, stringField (ascii "span_id") id,
    stringField (ascii "span_path") path] ++ fields ++
    if parentID = [] then [] else [stringField (ascii "parent_span_id") parentID]

def startSpan (s : Spans χ) (ctx : Option (Context χ υ)) (id name : Bytes) (now : Time)
    (fields : List (Field χ)) : Context χ υ × Spans χ :=
  let ctx := ctx.getD Context.background
  let (states, parentID, path) :=
    match s.parent ctx with
    | some (n, p) =>
        (s.states.set n { p with children := p.children + 1 }, p.id,
          p.path ++ ascii "." ++ itoa (p.children + 1))
    | none => (s.states, [], ascii "1")
  let span : Span χ :=
    { name := name, id := id, parentID := parentID, path := path, start := now, fields := fields,
      level := Level.info, err := none, ended := false }
  let inner : Context χ υ := .span states.length :: ctx
  (inner.contextWith (boundFields name id path parentID fields),
    ⟨states ++ [⟨id, path, 0⟩], s.spans ++ [span]⟩)

def modify (s : Spans χ) (p : Nat) (g : Span χ → Span χ) : Spans χ :=
  { s with spans := s.spans.modify p g }

end Spans

-- hex.EncodeToString of the bytes drawn
def shortID (b : Bytes) : Bytes := encodeHex b

namespace Span

variable {π χ υ : Type}

def fail (err : Bytes) (s : Span χ) : Span χ := { s with err := some err, level := Level.error }

def setLevel (l : Level) (s : Span χ) : Span χ := { s with level := l }

def endFields (s : Span χ) (elapsed : Int64) : List (Field χ) :=
  [stringField (ascii "span") s.name, stringField (ascii "span_id") s.id,
    stringField (ascii "span_path") s.path, durField (ascii "duration") elapsed,
    boolField (ascii "ok") s.err.isNone] ++
    (if s.parentID = [] then [] else [stringField (ascii "parent_span_id") s.parentID]) ++
    (if s.err.isSome then [namedErr (ascii "error") s.err] else []) ++ s.fields

-- End logs with context.Background(), not with the context the span was started from.
def finish (l : Logger π χ υ) (st : π) (site : Logger.Site) (elapsed : Int64) (s : Span χ) :
    π × Option (Rec χ υ) :=
  l.log st site (some Context.background) s.level (ascii "span.end") (s.endFields elapsed)

end Span

end UbgoLogger
