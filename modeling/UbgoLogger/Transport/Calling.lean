import UbgoLogger.Core.Logger
import UbgoLogger.Core.Metrics
import UbgoLogger.Foundation.Counter
import UbgoLogger.Transport.Flow

namespace UbgoLogger.Calling
open Foundation Foundation.Text

variable {ι π χ υ : Type}

-- Where a goroutine stands inside Logger.log; level is the argument of the call.
inductive Caller (π χ υ : Type) where
  | idle
  | processing (ps : List (Processor π χ υ)) (ctx : Context χ υ) (r : Rec χ υ) (level : Level)
  | dropping
  | counting (r : Rec χ υ) (level : Level)
  | dispatching (r : Rec χ υ)
  | inside

namespace Caller

def leave : Caller π χ υ → Caller π χ υ
  | .inside => .idle
  | c => c

def isIdle : Caller π χ υ → Bool
  | .idle => true
  | _ => false

theorem eq_idle {c : Caller π χ υ} (h : c.isIdle = true) : c = .idle := by
  cases c <;> first | rfl | cases h

end Caller

structure Call (χ υ : Type) where
  site : Logger.Site
  ctx : Option (Context χ υ)
  level : Level
  msg : Bytes
  fields : List (Field χ)

-- pipeline is what the processors keep between records.
structure State (ι π χ υ : Type) where
  pipeline : π
  metrics : Metrics
  caller : ι → Caller π χ υ

inductive Act (ι χ υ : Type) where
  | log (i : ι) (c : Call χ υ)
  | process (i : ι)
  | count (i : ι)

inductive Mark (ι χ υ : Type) where
  | called (i : ι) (c : Call χ υ)
  | rejected (i : ι)
  | countedDrop (i : ι)
  | countedEmit (i : ι) (r : Rec χ υ)

namespace Mark

def call : Mark ι χ υ → Option (ι × Call χ υ)
  | .called i c => some (i, c)
  | .rejected _ | .countedDrop _ | .countedEmit _ _ => none

def rejector : Mark ι χ υ → Option ι
  | .rejected i => some i
  | .called _ _ | .countedDrop _ | .countedEmit _ _ => none

def dropCounter : Mark ι χ υ → Option ι
  | .countedDrop i => some i
  | .called _ _ | .rejected _ | .countedEmit _ _ => none

def pass : Mark ι χ υ → Option (ι × Rec χ υ)
  | .countedEmit i r => some (i, r)
  | .called _ _ | .rejected _ | .countedDrop _ => none

end Mark

section Logs

variable (marks : List (Mark ι χ υ))

def calls : List (ι × Call χ υ) := marks.filterMap Mark.call
def rejected : List ι := marks.filterMap Mark.rejector
def countedDrops : List ι := marks.filterMap Mark.dropCounter
def passes : List (ι × Rec χ υ) := marks.filterMap Mark.pass

variable (more : List (Mark ι χ υ))

theorem calls_append : calls (marks ++ more) = calls marks ++ calls more := List.filterMap_append

theorem rejected_append : rejected (marks ++ more) = rejected marks ++ rejected more :=
  List.filterMap_append

theorem countedDrops_append :
    countedDrops (marks ++ more) = countedDrops marks ++ countedDrops more :=
  List.filterMap_append

theorem passes_append : passes (marks ++ more) = passes marks ++ passes more := List.filterMap_append

end Logs

def begin (l : Logger π χ υ) (c : Call χ υ) : Caller π χ υ :=
  if c.level < l.level then .idle
  else
    .processing l.processors (c.ctx.getD Context.background)
      (l.record c.site c.ctx c.level c.msg c.fields) c.level

section Steps

variable [DecidableEq ι]

def State.setCaller (s : State ι π χ υ) (i : ι) (c : Caller π χ υ) : State ι π χ υ :=
  { s with caller := Function.update s.caller i c }

def process (s : State ι π χ υ) (i : ι) : Option (State ι π χ υ × List (Mark ι χ υ)) :=
  match s.caller i with
  | .processing [] _ r level => some (s.setCaller i (.counting r level), [])
  | .processing (p :: ps) ctx r level =>
      match p s.pipeline ctx r with
      | (st, none) => some ({ s.setCaller i .dropping with pipeline := st }, [.rejected i])
      | (st, some r) =>
          some ({ s.setCaller i (.processing ps ctx r level) with pipeline := st }, [])
  | _ => none

def count (s : State ι π χ υ) (i : ι) : Option (State ι π χ υ × List (Mark ι χ υ)) :=
  match s.caller i with
  | .dropping =>
      some ({ s.setCaller i .idle with metrics := s.metrics.incDropped }, [.countedDrop i])
  | .counting r level =>
      some ({ s.setCaller i (.dispatching r) with metrics := s.metrics.incEmitted level },
        [.countedEmit i r])
  | _ => none

def step (l : Logger π χ υ) (s : State ι π χ υ) :
    Act ι χ υ → Option (State ι π χ υ × List (Mark ι χ υ))
  | .log i c =>
      match s.caller i with
      | .idle => some (s.setCaller i (begin l c), [.called i c])
      | _ => none
  | .process i => process s i
  | .count i => count s i

-- The log calls by themselves, up to the Dispatch.
def machine (l : Logger π χ υ) (st : π) : Machine (State ι π χ υ) (Act ι χ υ) (Mark ι χ υ) where
  init := ⟨st, .new, fun _ => .idle⟩
  step := step l

inductive Step (l : Logger π χ υ) (s : State ι π χ υ) : State ι π χ υ → List (Mark ι χ υ) → Prop
  | enter (i : ι) (c : Call χ υ) (hi : s.caller i = .idle) :
      Step l s (s.setCaller i (begin l c)) [.called i c]
  | finish (i : ι) (ctx : Context χ υ) (r : Rec χ υ) (level : Level)
      (hi : s.caller i = .processing [] ctx r level) :
      Step l s (s.setCaller i (.counting r level)) []
  | refuse (i : ι) (p : Processor π χ υ) (ps : List (Processor π χ υ)) (ctx : Context χ υ)
      (r : Rec χ υ) (level : Level) (st : π) (hi : s.caller i = .processing (p :: ps) ctx r level)
      (hp : p s.pipeline ctx r = (st, none)) :
      Step l s { s.setCaller i .dropping with pipeline := st } [.rejected i]
  | advance (i : ι) (p : Processor π χ υ) (ps : List (Processor π χ υ)) (ctx : Context χ υ)
      (r r' : Rec χ υ) (level : Level) (st : π)
      (hi : s.caller i = .processing (p :: ps) ctx r level)
      (hp : p s.pipeline ctx r = (st, some r')) :
      Step l s { s.setCaller i (.processing ps ctx r' level) with pipeline := st } []
  | drop (i : ι) (hi : s.caller i = .dropping) :
      Step l s { s.setCaller i .idle with metrics := s.metrics.incDropped } [.countedDrop i]
  | pass (i : ι) (r : Rec χ υ) (level : Level) (hi : s.caller i = .counting r level) :
      Step l s { s.setCaller i (.dispatching r) with metrics := s.metrics.incEmitted level }
        [.countedEmit i r]

variable {l : Logger π χ υ} {s s' : State ι π χ υ} {marks : List (Mark ι χ υ)} {i : ι}

theorem process_cases (h : process s i = some (s', marks)) : Step l s s' marks := by
  unfold process at h
  split at h
  next ctx r level hi =>
    cases h
    exact .finish i ctx r level hi
  next p ps ctx r level hi =>
    split at h
    next st hp =>
      cases h
      exact .refuse i p ps ctx r level st hi hp
    next st r' hp =>
      cases h
      exact .advance i p ps ctx r r' level st hi hp
  next => cases h

theorem count_cases (h : count s i = some (s', marks)) : Step l s s' marks := by
  unfold count at h
  split at h
  next hi =>
    cases h
    exact .drop i hi
  next r level hi =>
    cases h
    exact .pass i r level hi
  next => cases h

theorem step_cases {a : Act ι χ υ} (h : step l s a = some (s', marks)) : Step l s s' marks := by
  cases a with
  | log i c =>
    simp only [step] at h
    split at h
    next hi =>
      cases h
      exact .enter i c hi
    next => cases h
  | process i => exact process_cases h
  | count i => exact count_cases h

-- A counter moves by the marks that name it.
theorem Step.counted (h : Step l s s' marks) :
    s'.metrics.dropped = s.metrics.dropped + .ofNat (countedDrops marks).length ∧
      s'.metrics.emitted = s.metrics.emitted + .ofNat (passes marks).length := by
  cases h with
  | drop i hi => exact ⟨rfl, (UInt64.add_zero _).symm⟩
  | pass i r level hi => exact ⟨(UInt64.add_zero _).symm, rfl⟩
  | _ => exact ⟨(UInt64.add_zero _).symm, (UInt64.add_zero _).symm⟩

-- Undisturbed, the steps of one goroutine through the pipeline are runPipeline.
theorem perform_process {ps : List (Processor π χ υ)} {ctx : Context χ υ} {r : Rec χ υ}
    {level : Level} {st : π} (log : List (Mark ι χ υ))
    (hi : s.caller i = .processing ps ctx r level) :
    ∃ n log' s', (machine l st).perform log s (List.replicate n (.process i)) = some (log', s') ∧
      s'.pipeline = (runPipeline ps s.pipeline ctx r).1 ∧
      s'.caller i = match (runPipeline ps s.pipeline ctx r).2 with
        | none => .dropping
        | some r' => .counting r' level := by
  induction ps generalizing s log r with
  | nil =>
    refine ⟨1, log ++ [], s.setCaller i (.counting r level), ?_, rfl, Function.update_self i _ _⟩
    simp [Machine.perform, Machine.performIf, machine, step, process, hi]
  | cons p ps ih =>
    cases hp : p s.pipeline ctx r with
    | mk next out =>
      cases out with
      | none =>
        refine ⟨1, log ++ [.rejected i], { s.setCaller i .dropping with pipeline := next }, ?_, ?_, ?_⟩
        · simp [Machine.perform, Machine.performIf, machine, step, process, hi, hp]
        · simp [runPipeline, hp]
        · simp [runPipeline, hp, State.setCaller]
      | some r' =>
        obtain ⟨n, log', s', hperform, hpipeline, hcaller⟩ :=
          ih (s := { s.setCaller i (.processing ps ctx r' level) with pipeline := next }) (r := r')
            (log ++ []) (Function.update_self i _ _)
        refine ⟨n + 1, log', s', ?_, ?_, ?_⟩
        · simpa [Machine.perform, Machine.performIf, machine, step, process, hi, hp,
            List.replicate_succ] using hperform
        · simpa [runPipeline, hp] using hpipeline
        · simpa [runPipeline, hp] using hcaller

-- A Dispatch that returns ends the log call it was made by.
def returnCallers {β κ : Type} (evs : List (Transport.Event ι β κ)) (f : ι → Caller π χ υ) (i : ι) :
    Caller π χ υ :=
  if i ∈ (Transport.returns evs).map Transport.Item.producer then (f i).leave else f i

theorem returnCallers_view {β κ δ : Type} (g : Caller π χ υ → δ) (hg : g .inside = g .idle)
    (evs : List (Transport.Event ι β κ)) (f : ι → Caller π χ υ) (j : ι) :
    g (returnCallers evs f j) = g (f j) := by
  rw [returnCallers]
  split
  · cases f j with
    | inside => exact hg.symm
    | _ => rfl
  · rfl

end Steps

end UbgoLogger.Calling
