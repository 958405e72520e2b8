import UbgoLogger.Core.Span
import UbgoLogger.Foundation.Machine
import UbgoLogger.Sink.FingersCrossed

namespace UbgoLogger.Sink.SpanScope
open Foundation Foundation.Text

variable {π χ υ ε : Type}

-- A program that logs through one logger over SyncTransport and FingersCrossed. Contexts and spans
-- are named by the order in which the program obtained them.
structure State (π χ υ : Type) where
  procs : π
  sinks : Sinks Unit (Rec χ υ)
  contexts : List (Context χ υ)
  scopes : Nat
  spans : Spans χ

inductive Act (χ υ : Type) where
  | fcScope (c : Nat)
  | withValue (c : Nat) (v : υ)
  | contextWith (c : Nat) (fields : List (Field χ))
  | log (c : Option Nat) (site : Logger.Site) (level : Level) (msg : Bytes) (fields : List (Field χ))
  | event (c : Option Nat) (site : Logger.Site) (level : Level) (name : Bytes)
      (fields : List (Field χ))
  | startSpan (c : Option Nat) (id name : Bytes) (now : Time) (fields : List (Field χ))
  | fail (p : Nat) (err : Bytes)
  | setLevel (p : Nat) (l : Level)
  | endSpan (p : Nat) (site : Logger.Site) (elapsed : Int64)

inductive Event (χ υ : Type) where
  | started (p : Nat) (ctx : Context χ υ)
  | dispatched (r : Rec χ υ)

def Event.record : Event χ υ → Option (Rec χ υ)
  | .dispatched r => some r
  | .started _ _ => none

def dispatched (log : List (Event χ υ)) : List (Rec χ υ) := log.filterMap Event.record

section Steps

variable (f : FingersCrossed) (inner : List (Rec χ υ) → Rec χ υ → Option ε) (l : Logger π χ υ)

def derive (s : State π χ υ) (c : Nat) (g : Context χ υ → Context χ υ) :
    Option (State π χ υ × List (Event χ υ)) :=
  (s.contexts[c]?).map fun ctx => ({ s with contexts := s.contexts ++ [g ctx] }, [])

def dispatch (s : State π χ υ) (p : π × Option (Rec χ υ)) :
    State π χ υ × List (Event χ υ) :=
  match p with
  | (procs, none) => ({ s with procs := procs }, [])
  | (procs, some r) =>
      ({ s with procs := procs, sinks := (f.emit inner () s.sinks r).1 }, [.dispatched r])

-- A missing name stands for the nil context.
def State.lookup (s : State π χ υ) : Option Nat → Option (Option (Context χ υ))
  | none => some none
  | some c => (s.contexts[c]?).map some

def step (s : State π χ υ) : Act χ υ → Option (State π χ υ × List (Event χ υ))
  | .fcScope c =>
      (derive s c fun ctx => .fcScope s.scopes :: ctx).map fun p =>
        ({ p.1 with scopes := s.scopes + 1 }, p.2)
  | .withValue c v => derive s c fun ctx => .other v :: ctx
  | .contextWith c fields => derive s c fun ctx => ctx.contextWith fields
  | .log c site level msg fields =>
      (s.lookup c).map fun ctx => dispatch f inner s (l.log s.procs site ctx level msg fields)
  | .event c site level name fields =>
      (s.lookup c).map fun ctx => dispatch f inner s (l.eventAt s.procs site ctx level name fields)
  | .startSpan c id name now fields =>
      (s.lookup c).map fun ctx =>
        let p := s.spans.startSpan ctx id name now fields
        ({ s with contexts := s.contexts ++ [p.1], spans := p.2 },
          [.started s.spans.spans.length (ctx.getD Context.background)])
  | .fail p err => some ({ s with spans := s.spans.modify p (Span.fail err) }, [])
  | .setLevel p level => some ({ s with spans := s.spans.modify p (Span.setLevel level) }, [])
  | .endSpan p site elapsed =>
      (s.spans.spans[p]?).map fun span =>
        if span.ended then (s, [])
        else
          dispatch f inner
            { s with spans := s.spans.modify p fun span => { span with ended := true } }
            (span.finish l s.procs site elapsed)

def machine (procs : π) : Machine (State π χ υ) (Act χ υ) (Event χ υ) where
  init := ⟨procs, Sinks.fresh fun _ => 256, [Context.background], 0, .empty⟩
  step := step f inner l

end Steps

variable {f : FingersCrossed} {inner : List (Rec χ υ) → Rec χ υ → Option ε} {l : Logger π χ υ}
  {procs : π} {s s' : State π χ υ} {a : Act χ υ} {evs log : List (Event χ υ)}

theorem dispatched_append (log evs : List (Event χ υ)) :
    dispatched (log ++ evs) = dispatched log ++ dispatched evs := List.filterMap_append

def Faithful (f : FingersCrossed) (s : State π χ υ) (log : List (Event χ υ)) : Prop :=
  Agrees f () (fun _ => 256) s.sinks (dispatched log)

theorem Faithful.quiet (h : Faithful f s log) (hs : s'.sinks = s.sinks) (he : dispatched evs = []) :
    Faithful f s' (log ++ evs) := by
  rw [Faithful, hs, dispatched_append, he, List.append_nil]
  exact h

theorem Faithful.dispatch {t : State π χ υ} (h : Faithful f s log) (ht : t.sinks = s.sinks)
    {p : π × Option (Rec χ υ)} (hs : dispatch f inner t p = (s', evs)) :
    Faithful f s' (log ++ evs) := by
  obtain ⟨procs, _ | r⟩ := p
  · cases hs
    exact h.quiet ht rfl
  · cases hs
    rw [Faithful, dispatched_append, ht]
    exact Agrees.emit h r

theorem derive_sinks {c : Nat} {g : Context χ υ → Context χ υ} (h : derive s c g = some (s', evs)) :
    s'.sinks = s.sinks ∧ dispatched evs = [] := by
  obtain ⟨ctx, -, he⟩ := Option.map_eq_some_iff.mp h
  cases he
  exact ⟨rfl, rfl⟩

theorem Faithful.step (h : Faithful f s log) (hs : step f inner l s a = some (s', evs)) :
    Faithful f s' (log ++ evs) := by
  cases a with
  | fcScope c =>
    obtain ⟨p, hp, he⟩ := Option.map_eq_some_iff.mp hs
    obtain ⟨hsinks, hquiet⟩ := derive_sinks hp
    cases he
    exact h.quiet hsinks hquiet
  | withValue c v => exact h.quiet (derive_sinks hs).1 (derive_sinks hs).2
  | contextWith c fields => exact h.quiet (derive_sinks hs).1 (derive_sinks hs).2
  | log c site level msg fields =>
    obtain ⟨ctx, -, he⟩ := Option.map_eq_some_iff.mp hs
    exact h.dispatch rfl he
  | event c site level name fields =>
    obtain ⟨ctx, -, he⟩ := Option.map_eq_some_iff.mp hs
    exact h.dispatch rfl he
  | startSpan c id name now fields =>
    obtain ⟨ctx, -, he⟩ := Option.map_eq_some_iff.mp hs
    cases he
    exact h.quiet rfl rfl
  | fail p err =>
    cases hs
    exact h.quiet rfl rfl
  | setLevel p level =>
    cases hs
    exact h.quiet rfl rfl
  | endSpan p site elapsed =>
    obtain ⟨span, -, he⟩ := Option.map_eq_some_iff.mp hs
    split at he
    · cases he
      exact h.quiet rfl rfl
    · exact h.dispatch (by rfl) he

theorem faithful_run (h : (machine f inner l procs).Run log s) : Faithful f s log :=
  h.invariant (P := fun log s => Faithful f s log) (show Agrees f () _ _ [] from agrees_fresh)
    fun _ hp _ hs => hp.step hs

-- A span that was started from a context of scope n, marked by Fail and not ended yet.
structure Failed (s : State π χ υ) (log : List (Event χ υ)) (p n : Nat) (span : Span χ) : Prop where
  started : ∃ ctx, .started p ctx ∈ log ∧ ctx.fcScope = some n
  found : s.spans.spans[p]? = some span
  err : span.err.isSome = true
  level : span.level = Level.error
  ended : span.ended = false

theorem finish_routed (hkeep : l.KeepsRouting) {span : Span χ} {st st' : π} {site : Logger.Site}
    {elapsed : Int64} {r : Rec χ υ} (h : span.finish l st site elapsed = (st', some r)) :
    r.level = span.level ∧ bufFor () r = .global () := by
  unfold Span.finish Logger.log at h
  split at h
  next => cases h
  next =>
    obtain ⟨hlevel, hctx⟩ := runPipeline_keeps hkeep h
    refine ⟨hlevel, ?_⟩
    rw [bufFor, hctx]
    rfl

theorem failed_span_scope (f : FingersCrossed) (hact : f.act = Level.error)
    (inner : List (Rec χ υ) → Rec χ υ → Option ε) (l : Logger π χ υ) (hkeep : l.KeepsRouting)
    (procs : π) (log : List (Event χ υ)) (s : State π χ υ)
    (h : (machine f inner l procs).Run log s) (p n : Nat) (span : Span χ)
    (hfailed : Failed s log p n span) (site : Logger.Site) (elapsed : Int64) :
    ∃ s' evs, (machine f inner l procs).step s (.endSpan p site elapsed) = some (s', evs) ∧
      ((∃ r, evs = [.dispatched r] ∧ (s'.sinks.buffer (.scope n)).activated = true ∧
        (f.trail Record.level 256 (fibre (bufFor ()) (.scope n) (dispatched log)) ++ [r]).Sublist
          (s'.sinks.received ())) ↔
      (span.finish l s.procs site elapsed).2.isSome = true ∧
        f.activates Record.level (fibre (bufFor ()) (.scope n) (dispatched log)) = true) := by
  have hagrees := faithful_run h
  have hactivated := (hagrees.tracks (.scope n)).activated
  have hstep : (machine f inner l procs).step s (.endSpan p site elapsed) =
      some (dispatch f inner
        { s with spans := s.spans.modify p fun span => { span with ended := true } }
        (span.finish l s.procs site elapsed)) := by
    simp [machine, step, hfailed.found, hfailed.ended]
  rw [hstep]
  refine ⟨_, _, rfl, ?_⟩
  rcases hfinish : span.finish l s.procs site elapsed with ⟨st, _ | r⟩
  · simp
  · obtain ⟨hlevel, hglobal⟩ := finish_routed hkeep hfinish
    have hloud : f.act ≤ r.level := by rw [hact, hlevel, hfailed.level]
    obtain ⟨front, hfront⟩ := FingersCrossed.locked_of_le hloud (s.sinks.buffer (.global ()))
    have hscope : ((f.emit inner () s.sinks r).1.buffer (.scope n)).activated =
        (s.sinks.buffer (.scope n)).activated := by
      have hne : (.scope n : Addr Unit) ≠ .global () := fun he => by cases he
      rw [FingersCrossed.emit_buffer, hglobal, Function.update_of_ne hne]
    have hreceived : (f.emit inner () s.sinks r).1.received () =
        s.sinks.received () ++ (front ++ [r]) := by
      rw [FingersCrossed.emit_received, hglobal, Function.update_self, hfront]
    constructor
    · rintro ⟨r', -, ha, -⟩
      exact ⟨rfl, hactivated.symm.trans (hscope.symm.trans ha)⟩
    · rintro ⟨-, ha⟩
      refine ⟨r, rfl, hscope.trans (hactivated.trans ha), ?_⟩
      have htrail := (FingersCrossed.trail_sublist_output ha).trans
        (hagrees.received_eq (.scope n) ▸ fibre_sublist (bufFor ()) (.scope n) _)
      have hall := htrail.append (List.sublist_append_right front [r])
      rwa [← hreceived] at hall

def plainLogger : Logger Unit Unit Unit where
  level := Level.trace
  processors := []
  withFields := []
  addCaller := false

def noon : Logger.Site where
  now := Time.epoch
  pc := 0

def spanMachine : Machine (State Unit Unit Unit) (Act Unit Unit) (Event Unit Unit) :=
  machine newFingersCrossed (fun _ _ => (none : Option Unit)) plainLogger ()

def Event.startedIn (p n : Nat) : Event Unit Unit → Bool
  | .started q ctx => q == p && ctx.fcScope == some n
  | .dispatched _ => false

def Span.failed (span : Span Unit) : Bool :=
  span.err.isSome && span.level == Level.error && !span.ended

theorem failed_span_scope_after_error :
    ∃ log s span, spanMachine.Run log s ∧ Failed s log 0 0 span ∧
      ∃ s' evs, spanMachine.step s (.endSpan 0 noon 5) = some (s', evs) ∧
        ∃ r, evs = [.dispatched r] ∧ (s'.sinks.buffer (.scope 0)).activated = true ∧
          (newFingersCrossed.trail Record.level 256
            (fibre (bufFor ()) (.scope 0) (dispatched log)) ++ [r]).Sublist
            (s'.sinks.received ()) := by
  obtain ⟨log, s, hrun, hgood⟩ := Machine.exists_exec (M := spanMachine) (C := fun _ _ => True)
    [.fcScope 0, .log (some 1) noon .debug [] [], .log (some 1) noon .error [] [],
      .startSpan (some 1) [] [] noon.now [], .fail 0 []]
    (fun log s => log.any (Event.startedIn 0 0) && (s.spans.spans[0]?).any Span.failed &&
      newFingersCrossed.activates Record.level (fibre (bufFor ()) (.scope 0) (dispatched log)))
    (by decide +kernel)
  simp only [Bool.and_eq_true, List.any_eq_true, Option.any_eq_true_iff_get] at hgood
  obtain ⟨⟨⟨e, he, hstarted⟩, hsome, hspan⟩, hactive⟩ := hgood
  have hfailed : Failed s log 0 0 ((s.spans.spans[0]?).get hsome) := by
    cases e with
    | dispatched r => cases hstarted
    | started q ctx =>
      simp only [Event.startedIn, Bool.and_eq_true, beq_iff_eq] at hstarted
      simp only [Span.failed, Bool.and_eq_true, beq_iff_eq, Bool.not_eq_true'] at hspan
      exact ⟨⟨ctx, hstarted.1 ▸ he, hstarted.2⟩, (Option.some_get hsome).symm, hspan.1.1, hspan.1.2,
        hspan.2⟩
  obtain ⟨s', evs, hstep, hiff⟩ := failed_span_scope newFingersCrossed rfl
    (fun _ _ => (none : Option Unit)) plainLogger nofun () log s hrun 0 0 _ hfailed noon 5
  refine ⟨log, s, _, hrun, hfailed, s', evs, hstep, hiff.mpr ⟨?_, hactive⟩⟩
  rw [Span.finish, Logger.log, if_neg (by rw [hfailed.level]; decide)]
  rfl

theorem failed_span_leaves_scope :
    ∃ log s, spanMachine.Run log s ∧ log.any (Event.startedIn 0 0) = true ∧
      (s.spans.spans[0]?).any (fun span => span.err.isSome && span.ended) = true ∧
      (dispatched log).map Record.level = [.debug, .error] ∧
      (s.sinks.received ()).map Record.level = [.error] ∧
      (s.sinks.buffer (.scope 0)).activated = false := by
  obtain ⟨log, s, hrun, hgood⟩ := Machine.exists_exec (M := spanMachine) (C := fun _ _ => True)
    [.fcScope 0, .log (some 1) noon .debug [] [], .startSpan (some 1) [] [] noon.now [],
      .fail 0 [], .endSpan 0 noon 5]
    (fun log s => decide (log.any (Event.startedIn 0 0) = true ∧
      (s.spans.spans[0]?).any (fun span => span.err.isSome && span.ended) = true ∧
      (dispatched log).map Record.level = [.debug, .error] ∧
      (s.sinks.received ()).map Record.level = [.error] ∧
      (s.sinks.buffer (.scope 0)).activated = false)) (by decide +kernel)
  exact ⟨log, s, hrun, of_decide_eq_true hgood⟩

end UbgoLogger.Sink.SpanScope
