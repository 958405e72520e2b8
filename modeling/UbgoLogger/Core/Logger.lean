import UbgoLogger.Core.Context

namespace UbgoLogger
open Foundation.Text

variable {π χ υ : Type}

-- Process with the state the processors keep between calls; none is a returned error.
abbrev Processor (π χ υ : Type) := π → Context χ υ → Rec χ υ → π × Option (Rec χ υ)

def runPipeline : List (Processor π χ υ) → π → Context χ υ → Rec χ υ → π × Option (Rec χ υ)
  | [], st, _, r => (st, some r)
  | p :: ps, st, ctx, r =>
      match p st ctx r with
      | (st, none) => (st, none)
      | (st, some r) => runPipeline ps st ctx r

structure Logger (π χ υ : Type) where
  level : Level
  processors : List (Processor π χ υ)
  withFields : List (Field χ)
  addCaller : Bool

namespace Logger

-- What one call reads from its surroundings: the clock and the program counter of its caller.
structure Site where
  now : Time
  pc : UInt64

def record (l : Logger π χ υ) (site : Site) (ctx : Option (Context χ υ)) (level : Level)
    (msg : Bytes) (fields : List (Field χ)) : Rec χ υ where
  time := site.now
  level := level
  message := msg
  pc := if l.addCaller then site.pc else 0
  eventName := []
  fields := l.withFields ++ fields
  ctx := some (ctx.getD Context.background)

-- The record handed to the transport, if any.
def log (l : Logger π χ υ) (st : π) (site : Site) (ctx : Option (Context χ υ)) (level : Level)
    (msg : Bytes) (fields : List (Field χ)) : π × Option (Rec χ υ) :=
  if level < l.level then (st, none)
  else
    runPipeline l.processors st (ctx.getD Context.background) (l.record site ctx level msg fields)

def eventAt (l : Logger π χ υ) (st : π) (site : Site) (ctx : Option (Context χ υ)) (level : Level)
    (name : Bytes) (fields : List (Field χ)) : π × Option (Rec χ υ) :=
  if level < l.level then (st, none)
  else
    runPipeline l.processors st (ctx.getD Context.background)
      { l.record site ctx level [] fields with pc := 0, eventName := name }

def KeepsRouting (l : Logger π χ υ) : Prop :=
  ∀ p ∈ l.processors, ∀ st ctx r st' r', p st ctx r = (st', some r') →
    r'.level = r.level ∧ r'.ctx = r.ctx

end Logger

theorem runPipeline_keeps {ps : List (Processor π χ υ)}
    (h : ∀ p ∈ ps, ∀ st ctx r st' r', p st ctx r = (st', some r') →
      r'.level = r.level ∧ r'.ctx = r.ctx) {st st' : π} {ctx : Context χ υ} {r r' : Rec χ υ}
    (hr : runPipeline ps st ctx r = (st', some r')) : r'.level = r.level ∧ r'.ctx = r.ctx := by
  induction ps generalizing st r with
  | nil =>
    cases hr
    exact ⟨rfl, rfl⟩
  | cons p ps ih =>
    obtain ⟨hp, hps⟩ := List.forall_mem_cons.mp h
    simp only [runPipeline] at hr
    split at hr
    next => cases hr
    next st₁ r₁ hfirst =>
      obtain ⟨hlevel, hctx⟩ := ih hps hr
      obtain ⟨hlevel₁, hctx₁⟩ := hp st ctx r st₁ r₁ hfirst
      exact ⟨hlevel.trans hlevel₁, hctx.trans hctx₁⟩

end UbgoLogger
