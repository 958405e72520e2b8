import UbgoLogger.Core.Logger

namespace UbgoLogger
open Foundation.Text

inductive RedactStrategy where
  | mask
  | hash
  | drop
  deriving DecidableEq

structure PathRedactor where
  patterns : List (List Bytes)
  strategy : RedactStrategy
  censor : Bytes

def splitDots (s : Bytes) : List Bytes := s.splitOn 0x2e

def newPathRedactor (strategy : RedactStrategy) (censor : Bytes) (patterns : List Bytes) :
    PathRedactor where
  patterns := patterns.map splitDots
  strategy := strategy
  censor := if censor = [] then ascii "[REDACTED]" else censor

def segMatch : List Bytes → List Bytes → Bool
  | [], key => key.isEmpty
  | p :: pat, key =>
      if p = ascii "**" then true
      else
        match key with
        | [] => false
        | k :: key => (p = ascii "*" || p = k) && segMatch pat key

namespace PathRedactor

variable {π χ υ : Type}

def matchesKey (pr : PathRedactor) (key : Bytes) : Bool :=
  pr.patterns.any fun p => segMatch p (splitDots key)

def redactField (hashValue : Field χ → Bytes) (pr : PathRedactor) (f : Field χ) :
    Option (Field χ) :=
  if pr.matchesKey f.key then
    match pr.strategy with
    | .drop => none
    | .hash => some (stringField f.key (hashValue f))
    | .mask => some (stringField f.key pr.censor)
  else some f

def process (hashValue : Field χ → Bytes) (pr : PathRedactor) : Processor π χ υ :=
  fun st _ r => (st, some { r with fields := r.fields.filterMap (pr.redactField hashValue) })

theorem redactField_eq_of_key {hashValue : Field χ → Bytes} {pr : PathRedactor} {f g : Field χ}
    (hs : pr.strategy ≠ .hash) (hk : f.key = g.key) (hm : pr.matchesKey f.key = true) :
    pr.redactField hashValue f = pr.redactField hashValue g := by
  rw [redactField, redactField, if_pos hm, if_pos (hk ▸ hm)]
  cases hstrategy : pr.strategy with
  | mask => simp only [hk]
  | hash => exact absurd hstrategy hs
  | drop => rfl

end PathRedactor

end UbgoLogger
