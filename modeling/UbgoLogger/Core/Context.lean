import UbgoLogger.Core.Field

namespace UbgoLogger

-- One WithValue layer a constructor, by the type of its key. The pointers a context carries
-- are names: of an fcBuffer, of a spanState.
inductive Layer (χ υ : Type) where
  | fcScope (buffer : Nat)
  | span (state : Nat)
  | ctxFields (fields : List (Field χ))
  | other (v : υ)
  deriving DecidableEq

abbrev Context (χ υ : Type) := List (Layer χ υ)

namespace Context

variable {χ υ : Type}

def background : Context χ υ := []

def fcScope (ctx : Context χ υ) : Option Nat :=
  ctx.findSome? fun
    | .fcScope b => some b
    | _ => none

def span (ctx : Context χ υ) : Option Nat :=
  ctx.findSome? fun
    | .span st => some st
    | _ => none

def ctxFields (ctx : Context χ υ) : List (Field χ) :=
  (ctx.findSome? fun
    | .ctxFields fs => some fs
    | _ => none).getD []

def contextWith (ctx : Context χ υ) (fields : List (Field χ)) : Context χ υ :=
  .ctxFields (ctx.ctxFields ++ fields) :: ctx

end Context

abbrev Rec (χ υ : Type) := Record χ (Option (Context χ υ))

end UbgoLogger
