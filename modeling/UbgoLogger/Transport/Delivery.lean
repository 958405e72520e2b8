import UbgoLogger.Foundation.Layer
import UbgoLogger.Sink.WriterLines
import UbgoLogger.Transport.Calling
import UbgoLogger.Transport.Engine

namespace UbgoLogger.Delivery
open Foundation Foundation.Text
open Sink (Writer.Config Writer.Phase)
open Transport (Item OverflowPolicy Engine Orderly)
open Calling (Caller Call Mark begin returnCallers)

variable {ι τ π χ υ ε : Type}

abbrev Transports (ι τ χ υ : Type) :=
  Machine τ (Transport.Act ι (Rec χ υ) Unit) (Transport.Event ι (Rec χ υ) Unit)

abbrev Sinks (χ υ ε : Type) := Sink.Writer.State Unit Unit (Rec χ υ) ε

-- The worker of the transport is the only caller of the sink.
structure State (ι τ π χ υ ε : Type) extends Calling.State ι π χ υ where
  transport : τ
  sink : Sinks χ υ ε

inductive Act (ι χ υ ε : Type) where
  | call (a : Calling.Act ι χ υ)
  | dispatch (i : ι)
  | transport (a : Transport.Act ι (Rec χ υ) Unit)
  | sink (a : Sink.Writer.Act Unit Unit (Rec χ υ) ε)

inductive Event (ι χ υ ε : Type) where
  | call (m : Mark ι χ υ)
  | transport (e : Transport.Event ι (Rec χ υ) Unit)
  | sink (e : Sink.Writer.Event Unit Unit (Rec χ υ) ε)

namespace Event

def mark : Event ι χ υ ε → Option (Mark ι χ υ)
  | .call m => some m
  | .transport _ | .sink _ => none

def carried : Event ι χ υ ε → Option (Transport.Event ι (Rec χ υ) Unit)
  | .transport e => some e
  | .call _ | .sink _ => none

def sunk : Event ι χ υ ε → Option (Sink.Writer.Event Unit Unit (Rec χ υ) ε)
  | .sink e => some e
  | .call _ | .transport _ => none

end Event

section Logs

variable (log : List (Event ι χ υ ε))

def marks : List (Mark ι χ υ) := log.filterMap Event.mark
def calls : List (ι × Call χ υ) := Calling.calls (marks log)
def passes : List (ι × Rec χ υ) := Calling.passes (marks log)
def carried : List (Transport.Event ι (Rec χ υ) Unit) := log.filterMap Event.carried
def sunk : List (Sink.Writer.Event Unit Unit (Rec χ υ) ε) := log.filterMap Event.sunk

-- What the worker has handed to the sink.
def handed : List (Item ι (Rec χ υ)) := Transport.emitted (carried log)

end Logs

section Parts

variable (log log' : List (Event ι χ υ ε)) (ms : List (Mark ι χ υ))
  (evs : List (Transport.Event ι (Rec χ υ) Unit))
  (kevs : List (Sink.Writer.Event Unit Unit (Rec χ υ) ε))

theorem marks_append : marks (log ++ log') = marks log ++ marks log' := List.filterMap_append

theorem calls_append : calls (log ++ log') = calls log ++ calls log' := by
  rw [calls, marks_append, Calling.calls_append]
  rfl

theorem passes_append : passes (log ++ log') = passes log ++ passes log' := by
  rw [passes, marks_append, Calling.passes_append]
  rfl

theorem carried_append : carried (log ++ log') = carried log ++ carried log' :=
  List.filterMap_append

theorem sunk_append : sunk (log ++ log') = sunk log ++ sunk log' := List.filterMap_append

@[simp] theorem marks_call : marks (ms.map (Event.call (ε := ε))) = ms := by
  simp [marks, List.filterMap_map, Function.comp_def, Event.mark]

@[simp] theorem marks_transport : marks (evs.map (Event.transport (ε := ε))) = [] := by
  simp [marks, Event.mark]

@[simp] theorem marks_sink : marks (kevs.map (Event.sink (ι := ι))) = [] := by
  simp [marks, Event.mark]

@[simp] theorem carried_call : carried (ms.map (Event.call (ε := ε))) = [] := by
  simp [carried, Event.carried]

@[simp] theorem carried_transport : carried (evs.map (Event.transport (ε := ε))) = evs := by
  simp [carried, List.filterMap_map, Function.comp_def, Event.carried]

@[simp] theorem carried_sink : carried (kevs.map (Event.sink (ι := ι))) = [] := by
  simp [carried, Event.carried]

@[simp] theorem sunk_call : sunk (ms.map (Event.call (ε := ε))) = [] := by
  simp [sunk, Event.sunk]

@[simp] theorem sunk_transport : sunk (evs.map (Event.transport (ε := ε))) = [] := by
  simp [sunk, Event.sunk]

@[simp] theorem sunk_sink : sunk (kevs.map (Event.sink (ι := ι))) = kevs := by
  simp [sunk, List.filterMap_map, Function.comp_def, Event.sunk]

theorem passes_call : passes (ms.map (Event.call (ε := ε))) = Calling.passes ms := by
  rw [passes, marks_call]

theorem passes_transport : passes (evs.map (Event.transport (ε := ε))) = [] := by
  rw [passes, marks_transport]
  rfl

theorem passes_sink : passes (kevs.map (Event.sink (ι := ι))) = [] := by
  rw [passes, marks_sink]
  rfl

end Parts

-- Neither the start of an Emit, which is the worker's, nor a change of the sink's level.
def inner : Sink.Writer.Act Unit Unit (Rec χ υ) ε → Bool
  | .emit _ _ _ | .setLevel _ _ => false
  | _ => true

def busy : Sink.Writer.Phase Unit Unit (Rec χ υ) ε → Bool
  | .idle => false
  | _ => true

-- A Dispatch is made by a log call, and the worker does nothing while it is inside Emit.
def barred (s : Sinks χ υ ε) : Transport.Act ι (Rec χ υ) Unit → Bool
  | .dispatch _ _ => true
  | .work _ => busy (s.client ())
  | .produce _ | .close _ | .closer _ => false

theorem barred_ne {s : Sinks χ υ ε} {a : Transport.Act ι (Rec χ υ) Unit} (h : barred s a = false)
    (i : ι) (r : Rec χ υ) : a ≠ .dispatch i r := by
  rintro rfl
  cases h

def hand (p : Writer.Config Unit (Rec χ υ)) (s : Sinks χ υ ε) : List (Item ι (Rec χ υ)) →
    Option (Sinks χ υ ε × List (Sink.Writer.Event Unit Unit (Rec χ υ) ε))
  | [] => some (s, [])
  | x :: _ => Sink.Writer.step p s (.emit () () x.record)

variable [DecidableEq ι]

section Steps

variable (l : Logger π χ υ) (M : Transports ι τ χ υ) (p : Writer.Config Unit (Rec χ υ))
  (s : State ι τ π χ υ ε)

def dispatch (i : ι) : Option (State ι τ π χ υ ε × List (Event ι χ υ ε)) :=
  match s.caller i with
  | .dispatching r =>
      (M.step s.transport (.dispatch i r)).map fun q =>
        ({ s with caller := Function.update s.caller i .inside, transport := q.1 },
          q.2.map .transport)
  | _ => none

def carry (a : Transport.Act ι (Rec χ υ) Unit) :
    Option (State ι τ π χ υ ε × List (Event ι χ υ ε)) :=
  if barred s.sink a then none
  else
    (M.step s.transport a).bind fun q =>
      (hand p s.sink (Transport.emitted q.2)).map fun k =>
        ({ s with caller := returnCallers q.2 s.caller, transport := q.1, sink := k.1 },
          q.2.map .transport ++ k.2.map .sink)

def step : Act ι χ υ ε → Option (State ι τ π χ υ ε × List (Event ι χ υ ε))
  | .call a =>
      (Calling.step l s.toState a).map fun q => ({ s with toState := q.1 }, q.2.map .call)
  | .dispatch i => dispatch M s i
  | .transport a => carry M p s a
  | .sink a =>
      if inner a then
        (Sink.Writer.step p s.sink a).map fun k =>
          ({ s with sink := k.1 }, k.2.map .sink)
      else none

def machine (st : π) (level : Level) :
    Machine (State ι τ π χ υ ε) (Act ι χ υ ε) (Event ι χ υ ε) where
  init := ⟨(Calling.machine l st).init, M.init, (Sink.Writer.machine p fun _ => level).init⟩
  step := step l M p

-- k and its events are the sink's part of a step of the transport.
inductive Step : State ι τ π χ υ ε → List (Event ι χ υ ε) → Prop
  | call (c : Calling.State ι π χ υ) (ms : List (Mark ι χ υ))
      (hc : Calling.Step l s.toState c ms) : Step { s with toState := c } (ms.map .call)
  | dispatch (i : ι) (r : Rec χ υ) (t : τ) (evs : List (Transport.Event ι (Rec χ υ) Unit))
      (hi : s.caller i = .dispatching r) (ht : M.step s.transport (.dispatch i r) = some (t, evs)) :
      Step { s with caller := Function.update s.caller i .inside, transport := t }
        (evs.map .transport)
  | carry (a : Transport.Act ι (Rec χ υ) Unit) (t : τ)
      (evs : List (Transport.Event ι (Rec χ υ) Unit)) (hfree : barred s.sink a = false)
      (ht : M.step s.transport a = some (t, evs)) (hnone : Transport.emitted evs = []) :
      Step { s with caller := returnCallers evs s.caller, transport := t } (evs.map .transport)
  | emit (a : Transport.Act ι (Rec χ υ) Unit) (t : τ)
      (evs : List (Transport.Event ι (Rec χ υ) Unit)) (x : Item ι (Rec χ υ))
      (xs : List (Item ι (Rec χ υ))) (k : Sinks χ υ ε)
      (sink : List (Sink.Writer.Event Unit Unit (Rec χ υ) ε)) (hfree : barred s.sink a = false)
      (ht : M.step s.transport a = some (t, evs)) (hx : Transport.emitted evs = x :: xs)
      (hk : Sink.Writer.step p s.sink (.emit () () x.record) = some (k, sink)) :
      Step { s with caller := returnCallers evs s.caller, transport := t, sink := k }
        (evs.map .transport ++ sink.map .sink)
  | sink (a : Sink.Writer.Act Unit Unit (Rec χ υ) ε) (k : Sinks χ υ ε)
      (sink : List (Sink.Writer.Event Unit Unit (Rec χ υ) ε)) (ha : inner a = true)
      (hk : Sink.Writer.step p s.sink a = some (k, sink)) :
      Step { s with sink := k } (sink.map .sink)

end Steps

section Inversion

variable {l : Logger π χ υ} {M : Transports ι τ χ υ} {p : Writer.Config Unit (Rec χ υ)}
  {s s' : State ι τ π χ υ ε} {evs : List (Event ι χ υ ε)} {i : ι}

theorem dispatch_cases (h : dispatch M s i = some (s', evs)) : Step l M p s s' evs := by
  unfold dispatch at h
  split at h
  next r hi =>
    obtain ⟨⟨t, tevs⟩, ht, he⟩ := Option.map_eq_some_iff.mp h
    cases he
    exact .dispatch i r t tevs hi ht
  next => cases h

theorem carry_cases {a : Transport.Act ι (Rec χ υ) Unit} (h : carry M p s a = some (s', evs)) :
    Step l M p s s' evs := by
  unfold carry at h
  split at h
  next => cases h
  next hfree =>
    obtain ⟨⟨t, tevs⟩, ht, hrest⟩ := Option.bind_eq_some_iff.mp h
    obtain ⟨⟨k, kevs⟩, hk, he⟩ := Option.map_eq_some_iff.mp hrest
    cases he
    rw [Bool.not_eq_true] at hfree
    cases hx : Transport.emitted tevs with
    | nil =>
      rw [hx] at hk
      cases hk
      rw [List.map_nil, List.append_nil]
      exact .carry a t tevs hfree ht hx
    | cons x xs =>
      rw [hx] at hk
      exact .emit a t tevs x xs k kevs hfree ht hx hk

theorem step_cases {a : Act ι χ υ ε} (h : step l M p s a = some (s', evs)) :
    Step l M p s s' evs := by
  cases a with
  | call a =>
    obtain ⟨⟨c, ms⟩, hc, he⟩ := Option.map_eq_some_iff.mp h
    cases he
    exact .call c ms (Calling.step_cases hc)
  | dispatch i => exact dispatch_cases h
  | transport a => exact carry_cases h
  | sink a =>
    simp only [step] at h
    split at h
    next ha =>
      obtain ⟨⟨k, kevs⟩, hk, he⟩ := Option.map_eq_some_iff.mp h
      cases he
      exact .sink a k kevs ha hk
    next => cases h

end Inversion

section Layers

variable {l : Logger π χ υ} {M : Transports ι τ χ υ} {p : Writer.Config Unit (Rec χ υ)} {st : π}
  {level : Level} {log : List (Event ι χ υ ε)} {s : State ι τ π χ υ ε}

theorem run_transport (h : (machine l M p st level).Run log s) :
    M.Run (carried log) s.transport := by
  refine h.project State.transport Event.carried rfl fun _ hs => ?_
  rw [← carried]
  cases step_cases hs with
  | dispatch i r t evs hi ht =>
    rw [carried_transport]
    exact .inl ⟨_, ht⟩
  | carry a t evs hfree ht hnone =>
    rw [carried_transport]
    exact .inl ⟨_, ht⟩
  | emit a t evs x xs k kevs hfree ht hx hk =>
    rw [carried_append, carried_transport, carried_sink, List.append_nil]
    exact .inl ⟨_, ht⟩
  | sink a k kevs ha hk => exact .inr ⟨rfl, carried_sink kevs⟩
  | call c ms hc => exact .inr ⟨rfl, carried_call ms⟩

theorem run_sink (h : (machine l M p st level).Run log s) :
    (Sink.Writer.machine p fun _ => level).Run (sunk log) s.sink := by
  refine h.project State.sink Event.sunk rfl fun _ hs => ?_
  rw [← sunk]
  cases step_cases hs with
  | dispatch i r t evs => exact .inr ⟨rfl, sunk_transport evs⟩
  | carry a t evs => exact .inr ⟨rfl, sunk_transport evs⟩
  | emit a t evs x xs k kevs hfree ht hx hk =>
    rw [sunk_append, sunk_transport, sunk_sink, List.nil_append]
    exact .inl ⟨.emit () () x.record, hk⟩
  | sink a k kevs ha hk =>
    rw [sunk_sink]
    exact .inl ⟨a, hk⟩
  | call c ms hc => exact .inr ⟨rfl, sunk_call ms⟩

end Layers

section Sinks

variable {p : Writer.Config Unit (Rec χ υ)} {k k' : Sinks χ υ ε}
  {kevs : List (Sink.Writer.Event Unit Unit (Rec χ υ) ε)}

theorem emit_calls {r : Rec χ υ} (h : Sink.Writer.step p k (.emit () () r) = some (k', kevs)) :
    kevs = [.call ⟨(), (), k.calls, r⟩] := by
  cases Sink.Writer.step_cases h with
  | call => rfl

theorem inner_calls {a : Sink.Writer.Act Unit Unit (Rec χ υ) ε} (ha : inner a = true)
    (h : Sink.Writer.step p k a = some (k', kevs)) : Sink.Writer.calls kevs = [] := by
  cases Sink.Writer.step_cases h with
  | call => cases ha
  | _ => rfl

theorem inner_busy {a : Sink.Writer.Act Unit Unit (Rec χ υ) ε} (ha : inner a = true)
    (h : Sink.Writer.step p k a = some (k', kevs)) (hb : busy (k'.client ()) = true) :
    busy (k.client ()) = true := by
  cases Sink.Writer.step_cases h with
  | call => cases ha
  | setLevel => cases ha
  | collect => exact hb
  | _ => simp_all [busy]

theorem inner_level {a : Sink.Writer.Act Unit Unit (Rec χ υ) ε} (ha : inner a = true)
    (h : Sink.Writer.step p k a = some (k', kevs)) :
    kevs.filterMap (Sink.Writer.Event.threshold ()) = [] := by
  cases Sink.Writer.step_cases h with
  | setLevel => cases ha
  | _ => rfl

end Sinks

-- What a goroutine has let through its pipeline and not yet dispatched.
def pending (i : ι) : Caller π χ υ → List (ι × Rec χ υ)
  | .dispatching r => [(i, r)]
  | .idle | .processing _ _ _ _ | .dropping | .counting _ _ | .inside => []

-- What the pipeline will let through of the call a goroutine is in.
def coming (st : π) (i : ι) : Caller π χ υ → List (ι × Rec χ υ)
  | .processing ps ctx r _ => ((runPipeline ps st ctx r).2.map (Prod.mk i)).toList
  | .counting r _ => [(i, r)]
  | .idle | .dropping | .dispatching _ | .inside => []

def rest : Caller π χ υ → List (Processor π χ υ)
  | .processing ps _ _ _ => ps
  | .idle | .dropping | .counting _ _ | .dispatching _ | .inside => []

def sent {β : Type} (x : Item ι β) : ι × β := (x.producer, x.record)

-- What Logger.log dispatches for each call, whatever the others do to the state of the processors.
def outcomes (l : Logger π χ υ) (st : π) (log : List (Event ι χ υ ε)) : List (ι × Rec χ υ) :=
  (calls log).filterMap fun q =>
    (l.log st q.2.site q.2.ctx q.2.level q.2.msg q.2.fields).2.map (Prod.mk q.1)

def Stateless (ps : List (Processor π χ υ)) : Prop :=
  ∀ q ∈ ps, ∀ st st' ctx r, (q st ctx r).2 = (q st' ctx r).2

section Pipeline

variable {ps : List (Processor π χ υ)} {q : Processor π χ υ} {st st' : π} {ctx : Context χ υ}
  {r : Rec χ υ}

theorem runPipeline_snd : (runPipeline (q :: ps) st ctx r).2 =
    (q st ctx r).2.bind fun r' => (runPipeline ps (q st ctx r).1 ctx r').2 := by
  rw [runPipeline]
  split <;> simp_all

theorem Stateless.outcome (h : Stateless ps) (st st' : π) (ctx : Context χ υ) (r : Rec χ υ) :
    (runPipeline ps st ctx r).2 = (runPipeline ps st' ctx r).2 := by
  induction ps generalizing st st' r with
  | nil => rfl
  | cons q ps ih =>
    obtain ⟨hq, hps⟩ := List.forall_mem_cons.mp h
    rw [runPipeline_snd, runPipeline_snd, hq st st']
    exact Option.bind_congr fun r' _ => ih hps _ _ r'

theorem Stateless.outcome_cons {o : Option (Rec χ υ)} (h : Stateless (q :: ps))
    (hq : (q st' ctx r).2 = o) :
    (runPipeline (q :: ps) st ctx r).2 = o.bind fun r' => (runPipeline ps st ctx r').2 := by
  obtain ⟨hhead, hps⟩ : _ ∧ Stateless ps := List.forall_mem_cons.mp h
  rw [runPipeline_snd, hhead st st', hq]
  exact Option.bind_congr fun r' _ => hps.outcome _ _ ctx r'

end Pipeline

section Stages

variable {f : ι → Caller π χ υ} {i : ι} {c : Caller π χ υ}

-- What the goroutines have between two points of the way, told from where they stand.
def Stage (mid : ι → Caller π χ υ → List (ι × Rec χ υ)) (before after : List (ι × Rec χ υ))
    (f : ι → Caller π χ υ) : Prop :=
  Between Prod.fst before after fun i => mid i (f i)

namespace Stage

variable {mid : ι → Caller π χ υ → List (ι × Rec χ υ)} {before after : List (ι × Rec χ υ)}

theorem update (mid : ι → Caller π χ υ → List (ι × Rec χ υ)) (f : ι → Caller π χ υ) (i : ι)
    (c : Caller π χ υ) : (fun j => mid j (Function.update f i c j)) =
      Function.update (fun j => mid j (f j)) i (mid i c) :=
  funext fun j => Function.apply_update mid f i c j

theorem keep (h : Stage mid before after f) (hc : mid i c = mid i (f i)) :
    Stage mid before after (Function.update f i c) := by
  rw [Stage, update, hc, Function.update_eq_self]
  exact h

theorem enter (h : Stage mid before after f) (hi : mid i (f i) = []) (hc : ∀ x ∈ mid i c, x.1 = i) :
    Stage mid (before ++ mid i c) after (Function.update f i c) := by
  have hnext := h.enterAll hc
  rw [hi] at hnext
  rw [Stage, update]
  exact hnext

theorem leave (h : Stage mid before after f) {r : Rec χ υ} (hi : mid i (f i) = [(i, r)])
    (hc : mid i c = []) : Stage mid before (after ++ [(i, r)]) (Function.update f i c) := by
  rw [Stage, update, hc]
  exact Between.leave h rfl hi

theorem back (h : Stage mid before after f) (hmid : ∀ i, mid i .inside = mid i .idle)
    (evs : List (Transport.Event ι (Rec χ υ) Unit)) :
    Stage mid before after (returnCallers evs f) := by
  have hsame : (fun j => mid j (returnCallers evs f j)) = fun j => mid j (f j) :=
    funext fun j => Calling.returnCallers_view (mid j) (hmid j) evs f j
  rw [Stage, hsame]
  exact h

theorem still (h : Stage mid before after f) : Stage mid (before ++ []) (after ++ []) f := by
  rw [List.append_nil, List.append_nil]
  exact h

theorem fibre_eq (h : Stage mid before after f) (hi : mid i (f i) = []) :
    fibre Prod.fst i before = fibre Prod.fst i after :=
  Between.fibre_eq h hi

end Stage

theorem stateless_nil : Stateless (π := π) (χ := χ) (υ := υ) [] :=
  fun _ hq => absurd hq List.not_mem_nil

theorem rest_begin {l : Logger π χ υ} (h : Stateless l.processors) (c : Call χ υ) :
    Stateless (rest (begin l c)) := by
  rw [begin]
  split
  · exact stateless_nil
  · exact h

theorem rest_update (h : ∀ j, Stateless (rest (f j))) (hc : Stateless (rest c)) :
    ∀ j, Stateless (rest (Function.update f i c j)) :=
  (Function.forall_update_iff f fun _ c => Stateless (rest c)).mpr ⟨hc, fun j _ => h j⟩

theorem rest_back (h : ∀ j, Stateless (rest (f j)))
    (evs : List (Transport.Event ι (Rec χ υ) Unit)) (j : ι) :
    Stateless (rest (returnCallers evs f j)) := by
  rw [Calling.returnCallers_view rest rfl evs f j]
  exact h j

omit [DecidableEq ι] in
theorem pending_begin (l : Logger π χ υ) (c : Call χ υ) :
    pending i (begin l c) = [] := by
  rw [begin]
  split <;> rfl

omit [DecidableEq ι] in
theorem outcomes_append (l : Logger π χ υ) (st : π) (log evs : List (Event ι χ υ ε)) :
    outcomes l st (log ++ evs) = outcomes l st log ++ outcomes l st evs := by
  rw [outcomes, calls_append, List.filterMap_append]
  rfl

omit [DecidableEq ι] in
theorem outcomes_nil {l : Logger π χ υ} {st : π} {evs : List (Event ι χ υ ε)} (h : marks evs = []) :
    outcomes l st evs = [] := by
  rw [outcomes, calls, h]
  rfl

omit [DecidableEq ι] in
theorem outcomes_called (l : Logger π χ υ) (st : π) (c : Call χ υ) :
    outcomes l st [(.call (.called i c) : Event ι χ υ ε)] = coming st i (begin l c) := by
  have hlog : coming st i (begin l c) =
      ((l.log st c.site c.ctx c.level c.msg c.fields).2.map (Prod.mk i)).toList := by
    rw [begin, Logger.log]
    split <;> rfl
  rw [hlog]
  exact filterMap_concat _ [] (i, c)

omit [DecidableEq ι] in
theorem coming_fst {st : π} : ∀ x ∈ coming st i c, x.1 = i := by
  cases c <;> simp [coming]

end Stages

section Runs

variable {l : Logger π χ υ} {M : Transports ι τ χ υ} {p : Writer.Config Unit (Rec χ υ)} {st : π}
  {level : Level} {policy : OverflowPolicy} {dropped : τ → UInt64} {exited : τ → Prop}
  {log : List (Event ι χ υ ε)} {s : State ι τ π χ υ ε}

theorem run_counted (h : (machine l M p st level).Run log s) :
    s.metrics.emitted = .ofNat (passes log).length := by
  refine h.invariant (P := fun log s => s.metrics.emitted = .ofNat (passes log).length) rfl ?_
  intro log s a s' evs _ ih _ hs
  rw [passes_append, List.length_append, ← Counter.add ih]
  cases step_cases hs with
  | call c ms hc =>
    rw [passes_call]
    exact hc.counted.2
  | dispatch i r t evs =>
    rw [passes_transport]
    exact (UInt64.add_zero _).symm
  | carry a t evs =>
    rw [passes_transport]
    exact (UInt64.add_zero _).symm
  | emit a t evs x xs k kevs =>
    rw [passes_append, passes_transport, passes_sink]
    exact (UInt64.add_zero _).symm
  | sink a k kevs =>
    rw [passes_sink]
    exact (UInt64.add_zero _).symm

theorem run_level (h : (machine l M p st level).Run log s) :
    Sink.Writer.thresholds (fun _ => level) (sunk log) () = [level] := by
  refine h.invariant (P := fun log _ =>
    Sink.Writer.thresholds (fun _ => level) (sunk log) () = [level]) rfl ?_
  intro log s a s' evs _ ih _ hs
  rw [Sink.Writer.thresholds, List.cons.injEq] at ih ⊢
  refine ⟨rfl, ?_⟩
  rw [sunk_append, List.filterMap_append, ih.2, List.nil_append]
  cases step_cases hs with
  | dispatch i r t evs =>
    rw [sunk_transport]
    rfl
  | carry a t evs =>
    rw [sunk_transport]
    rfl
  | emit a t evs x xs k kevs hfree ht hx hk =>
    rw [sunk_append, sunk_transport, sunk_sink, emit_calls hk]
    rfl
  | sink a k kevs ha hk =>
    rw [sunk_sink]
    exact inner_level ha hk
  | call c ms hc =>
    rw [sunk_call]
    rfl

-- The worker hands one record at a time to the sink, the ones it takes out of the transport.
theorem run_handed (hM : Engine M policy dropped exited) (h : (machine l M p st level).Run log s) :
    (Sink.Writer.calls (sunk log)).map Sink.Writer.Emission.record =
      (handed log).map Item.record := by
  refine h.invariant (P := fun log _ =>
    (Sink.Writer.calls (sunk log)).map Sink.Writer.Emission.record =
      (handed log).map Item.record) rfl ?_
  intro log s a s' evs _ ih _ hs
  rw [Sink.Writer.calls, handed, Transport.emitted] at ih ⊢
  rw [sunk_append, carried_append, List.filterMap_append, List.filterMap_append, List.map_append,
    List.map_append, ih]
  refine congrArg _ ?_
  cases step_cases hs with
  | dispatch i r t evs hi ht =>
    obtain ⟨n, rfl⟩ := hM.dispatch ht
    rfl
  | carry a t evs hfree ht hnone =>
    rw [sunk_transport, carried_transport, ← Transport.emitted, hnone]
    rfl
  | emit a t evs x xs k kevs hfree ht hx hk =>
    rcases hM.emits ht with hnone | ⟨pick, y, rfl, hy, hrun⟩
    · exact absurd (hnone.symm.trans hx) (List.cons_ne_nil _ _).symm
    · rw [sunk_append, sunk_transport, sunk_sink, List.nil_append, carried_append,
        carried_transport, carried_sink, List.append_nil, ← Transport.emitted, emit_calls hk, hy]
      obtain ⟨rfl, -⟩ := List.cons.inj (hy.symm.trans hx)
      rfl
  | sink a k kevs ha hk =>
    rw [sunk_sink, carried_sink, ← Sink.Writer.calls, inner_calls ha hk]
    rfl
  | call c ms hc =>
    rw [sunk_call, carried_call]
    rfl

theorem run_barrier (hM : Engine M policy dropped exited) (h : (machine l M p st level).Run log s) :
    busy (s.sink.client ()) = true → ¬ exited s.transport := by
  refine h.invariant (P := fun _ s => busy (s.sink.client ()) = true → ¬ exited s.transport)
    (by simp [machine, Sink.Writer.machine, busy]) ?_
  intro log s a s' evs _ ih _ hs
  cases step_cases hs with
  | dispatch i r t evs hi ht =>
    intro hb he
    rcases hM.exits ht he with hbefore | ⟨pick, hpick⟩
    · exact ih hb hbefore
    · cases hpick
  | carry a t evs hfree ht hnone =>
    intro hb he
    rcases hM.exits ht he with hbefore | ⟨pick, rfl⟩
    · exact ih hb hbefore
    · exact absurd (hfree.symm.trans hb) Bool.false_ne_true
  | emit a t evs x xs k kevs hfree ht hx hk =>
    intro _
    rcases hM.emits ht with hnone | ⟨pick, y, rfl, hy, hrun⟩
    · exact absurd (hnone.symm.trans hx) (List.cons_ne_nil _ _).symm
    · exact hrun
  | sink a k kevs ha hk => exact fun hb => ih (inner_busy ha hk hb)
  | _ => exact ih

theorem pending_step {c c' : Calling.State ι π χ υ} {ms : List (Mark ι χ υ)}
    {before after : List (ι × Rec χ υ)} (h : Stage pending before after c.caller)
    (hc : Calling.Step l c c' ms) :
    Stage pending (before ++ Calling.passes ms) (after ++ []) c'.caller := by
  cases hc with
  | enter i call hi => exact (h.keep (by rw [pending_begin, hi]; rfl)).still
  | finish i ctx r lv hi => exact (h.keep (by rw [hi]; rfl)).still
  | refuse i q ps ctx r lv st hi => exact (h.keep (by rw [hi]; rfl)).still
  | advance i q ps ctx r r' lv st hi => exact (h.keep (by rw [hi]; rfl)).still
  | drop i hi => exact (h.keep (by rw [hi]; rfl)).still
  | pass i r lv hi =>
    rw [List.append_nil]
    exact h.enter (c := .dispatching r) (by rw [hi]; rfl) (by simp [pending])

theorem run_dispatched (hM : Engine M policy dropped exited)
    (h : (machine l M p st level).Run log s) :
    Stage pending (passes log) ((Transport.calls (carried log)).map sent) s.caller := by
  refine h.invariant (P := fun log s =>
    Stage pending (passes log) ((Transport.calls (carried log)).map sent) s.caller) ?_ ?_
  · exact Between.fresh
  intro log s a s' evs _ ih _ hs
  rw [passes_append, carried_append, Transport.calls_append, List.map_append]
  cases step_cases hs with
  | call c ms hc =>
    rw [passes_call, carried_call]
    exact pending_step ih hc
  | dispatch i r t evs hi ht =>
    obtain ⟨n, rfl⟩ := hM.dispatch ht
    change Stage pending (passes log ++ []) (_ ++ [(i, r)]) _
    rw [List.append_nil]
    exact ih.leave (by rw [hi]; rfl) rfl
  | carry a t evs hfree ht hnone =>
    rw [passes_transport, carried_transport, hM.inner ht (barred_ne hfree)]
    exact (ih.back (fun _ => rfl) evs).still
  | emit a t evs x xs k kevs hfree ht hx hk =>
    rw [passes_append, passes_transport, passes_sink, carried_append, carried_transport,
      carried_sink, List.append_nil evs, hM.inner ht (barred_ne hfree)]
    exact (ih.back (fun _ => rfl) evs).still
  | sink a k kevs ha hk =>
    rw [passes_sink, carried_sink]
    exact ih.still

theorem coming_step {c c' : Calling.State ι π χ υ} {ms : List (Mark ι χ υ)}
    {before after : List (ι × Rec χ υ)} (hl : Stateless l.processors)
    (hrest : ∀ i, Stateless (rest (c.caller i))) (h : Stage (coming st) before after c.caller)
    (hc : Calling.Step l c c' ms) :
    (∀ i, Stateless (rest (c'.caller i))) ∧
      Stage (coming st) (before ++ outcomes l st (ms.map (Event.call (ε := ε))))
        (after ++ Calling.passes ms) c'.caller := by
  cases hc with
  | enter i call hi =>
    refine ⟨rest_update hrest (rest_begin hl call), ?_⟩
    change Stage (coming st) (before ++ outcomes l st [.call (.called i call)]) (after ++ []) _
    rw [List.append_nil, outcomes_called]
    exact h.enter (by rw [hi]; rfl) coming_fst
  | finish i ctx r lv hi =>
    exact ⟨rest_update hrest stateless_nil, (h.keep (by rw [hi]; rfl)).still⟩
  | refuse i q ps ctx r lv st' hi hq =>
    refine ⟨rest_update hrest stateless_nil, (h.keep ?_).still⟩
    have hps := hrest i
    rw [hi] at hps ⊢
    rw [coming, coming, hps.outcome_cons (congrArg Prod.snd hq)]
    rfl
  | advance i q ps ctx r r' lv st' hi hq =>
    have hps := hrest i
    rw [hi] at hps
    refine ⟨rest_update hrest (List.forall_mem_cons.mp hps).2, (h.keep ?_).still⟩
    rw [hi, coming, coming, hps.outcome_cons (congrArg Prod.snd hq)]
    rfl
  | drop i hi => exact ⟨rest_update hrest stateless_nil, (h.keep (by rw [hi]; rfl)).still⟩
  | pass i r lv hi =>
    refine ⟨rest_update hrest stateless_nil, ?_⟩
    change Stage (coming st) (before ++ []) (after ++ [(i, r)]) _
    rw [List.append_nil]
    exact h.leave (by rw [hi]; rfl) rfl

theorem run_answered (hl : Stateless l.processors) (h : (machine l M p st level).Run log s) :
    (∀ i, Stateless (rest (s.caller i))) ∧
      Stage (coming st) (outcomes l st log) (passes log) s.caller := by
  refine h.invariant (P := fun log s => (∀ i, Stateless (rest (s.caller i))) ∧
    Stage (coming st) (outcomes l st log) (passes log) s.caller) ?_ ?_
  · exact ⟨fun _ => stateless_nil, Between.fresh⟩
  intro log s a s' evs _ ih _ hs
  obtain ⟨hrest, hstage⟩ := ih
  rw [passes_append, outcomes_append]
  cases step_cases hs with
  | call c ms hc =>
    rw [passes_call]
    exact coming_step hl hrest hstage hc
  | dispatch i r t evs hi ht =>
    rw [passes_transport, outcomes_nil (marks_transport evs)]
    exact ⟨rest_update hrest stateless_nil, (hstage.keep (by rw [hi]; rfl)).still⟩
  | carry a t evs hfree ht hnone =>
    rw [passes_transport, outcomes_nil (marks_transport evs)]
    exact ⟨rest_back hrest evs, (hstage.back (fun _ => rfl) evs).still⟩
  | emit a t evs x xs k kevs hfree ht hx hk =>
    rw [passes_append, passes_transport, passes_sink, outcomes_append,
      outcomes_nil (marks_transport evs), outcomes_nil (marks_sink kevs)]
    exact ⟨rest_back hrest evs, (hstage.back (fun _ => rfl) evs).still⟩
  | sink a k kevs ha hk =>
    rw [passes_sink, outcomes_nil (marks_sink kevs)]
    exact ⟨hrest, hstage.still⟩

end Runs

section Results

variable {l : Logger π χ υ} {M : Transports ι τ χ υ} {p : Writer.Config Unit (Rec χ υ)} {st : π}
  {level : Level} {policy : OverflowPolicy} {dropped : τ → UInt64} {exited : τ → Prop}
  {log : List (Event ι χ υ ε)} {s : State ι τ π χ υ ε}

open Sink.Writer (Written Outcome Emission)

theorem idle_of_not_busy {ph : Writer.Phase Unit Unit (Rec χ υ) ε} (h : ¬ busy ph = true) :
    ph = .idle := by
  cases ph <;> first | rfl | exact absurd rfl h

-- A record below the level of the sink is filtered, any other is written.
theorem writes_of_decided {klog : List (Sink.Writer.Event Unit Unit (Rec χ υ) ε)}
    (hf : ∀ e, .filtered e ∈ klog → p.level e.record < level)
    (hw : ∀ w, .wrote w ∈ klog → level ≤ p.level w.emission.record) :
    (Sink.Writer.writes () klog).map Written.emission =
      ((Sink.Writer.decided klog).map Outcome.emission).filter
        fun e => level ≤ p.level e.record := by
  induction klog with
  | nil => rfl
  | cons ev klog ih =>
    have htail := ih (fun e he => hf e (List.mem_cons_of_mem _ he))
      fun w hmem => hw w (List.mem_cons_of_mem _ hmem)
    rw [Sink.Writer.writes, Sink.Writer.decided] at htail ⊢
    cases ev with
    | filtered e =>
      have hlow : ¬ level ≤ p.level e.record := not_le.mpr (hf e List.mem_cons_self)
      simpa [List.filterMap_cons, Sink.Writer.Event.writeAt, Sink.Writer.Event.decided, hlow]
        using htail
    | wrote w =>
      have hhigh : level ≤ p.level w.emission.record := hw w List.mem_cons_self
      simpa [List.filterMap_cons, Sink.Writer.Event.writeAt, Sink.Writer.Event.decided, hhigh]
        using htail
    | _ =>
      simpa [List.filterMap_cons, Sink.Writer.Event.writeAt, Sink.Writer.Event.decided] using htail

theorem sink_idle (hM : Engine M policy dropped exited) (h : (machine l M p st level).Run log s)
    (hk : .closeRet () ∈ carried log) : s.sink.client () = .idle :=
  idle_of_not_busy fun hb => run_barrier hM h hb (hM.closed (run_transport h) hk)

theorem writes_of_idle (h : (machine l M p st level).Run log s) (hidle : s.sink.client () = .idle) :
    (Sink.Writer.writes () (sunk log)).map (fun w => w.emission.record) =
      ((Sink.Writer.calls (sunk log)).map Emission.record).filter fun r => level ≤ p.level r := by
  have hreasons := Sink.Writer.run_reasons (run_sink h)
  have hlevel := run_level h
  have hf (e : Emission Unit Unit (Rec χ υ)) (he : .filtered e ∈ sunk log) :
      p.level e.record < level := by
    obtain ⟨x, hx, hlt⟩ := hreasons.event _ he
    rw [hlevel, List.mem_singleton] at hx
    exact hx ▸ hlt
  have hw (w : Written Unit Unit (Rec χ υ) ε) (hmem : .wrote w ∈ sunk log) :
      level ≤ p.level w.emission.record := by
    obtain ⟨x, hx, hle⟩ := (hreasons.event _ hmem).1
    rw [hlevel, List.mem_singleton] at hx
    exact hx ▸ hle
  have hall : Sink.Writer.calls (sunk log) =
      (Sink.Writer.decided (sunk log)).map Outcome.emission := by
    have hfibre := (Sink.Writer.run_accounts (run_sink h)).undecided.fibre_eq (i := ())
      (by rw [Function.comp, hidle]; rfl)
    rwa [fibre_eq_self Emission.caller fun _ _ => rfl,
      fibre_eq_self Emission.caller fun _ _ => rfl] at hfibre
  have hrecord : (Sink.Writer.writes () (sunk log)).map (fun w => w.emission.record) =
      ((Sink.Writer.writes () (sunk log)).map Written.emission).map Emission.record :=
    List.map_map.symm
  rw [hrecord, hall, writes_of_decided hf hw, List.filter_map (f := Emission.record)]
  rfl

theorem fibre_sent (i : ι) (xs : List (Item ι (Rec χ υ))) :
    fibre Prod.fst i (xs.map sent) = (fibre Item.producer i xs).map sent :=
  List.filter_map

-- What has become of the calls once Close has returned.
structure Reached (l : Logger π χ υ) (p : Writer.Config Unit (Rec χ υ)) (st : π) (level : Level)
    (policy : OverflowPolicy) (log : List (Event ι χ υ ε)) (s : State ι τ π χ υ ε)
    (dropped : UInt64) : Prop where
  rest : s.sink.client () = .idle
  handed : (Sink.Writer.calls (sunk log)).map Emission.record = (handed log).map Item.record
  once : ((Delivery.handed log).map Item.call).Nodup
  ordered : ∀ i, (fibre Prod.fst i ((Delivery.handed log).map sent)).Sublist
    (fibre Prod.fst i (passes log))
  balance : s.metrics.emitted = .ofNat (Delivery.handed log).length + dropped
  lossless : policy = .block → dropped = 0 ∧
    ∀ i, fibre Prod.fst i ((Delivery.handed log).map sent) = fibre Prod.fst i (passes log)
  answered : Stateless l.processors → ∀ i,
    fibre Prod.fst i (passes log) = fibre Prod.fst i (outcomes l st log)
  written : (Sink.Writer.writes () (sunk log)).map (fun w => w.emission.record) =
    ((Delivery.handed log).map Item.record).filter (fun r => level ≤ p.level r)
  stream : s.sink.stream () = (Sink.Writer.writes () (sunk log)).flatMap Written.text
  lines : ∀ w ∈ Sink.Writer.writes () (sunk log),
    w.text <+: (p.enc ()).encode [] w.emission.record ∧
    (w.err = none → w.text = (p.enc ()).encode [] w.emission.record)

theorem reached (hM : Engine M policy dropped exited) (h : (machine l M p st level).Run log s)
    (ho : Orderly (carried log)) (hk : .closeRet () ∈ carried log)
    (hidle : ∀ i, s.caller i = .idle) :
    Reached l p st level policy log s (dropped s.transport) := by
  have hrest : s.sink.client () = .idle := sink_idle hM h hk
  have hsettled := hM.settled (run_transport h) ho hk
  have hcounted := hM.counted (run_transport h) ho
  have hdispatched := run_dispatched hM h
  have hpasses (i : ι) : fibre Prod.fst i (passes log) =
      (fibre Item.producer i (Transport.calls (carried log))).map sent := by
    rw [← fibre_sent]
    exact hdispatched.fibre_eq (by rw [hidle i]; rfl)
  refine ⟨hrest, run_handed hM h, hsettled.once, fun i => ?_, ?_, fun hblock => ?_, fun hl i => ?_,
    ?_, ?_, fun w hw => ?_⟩
  · rw [hpasses, fibre_sent]
    exact (hsettled.ordered i).map sent
  · have hlen := (hdispatched.perm fun i => by rw [hidle i]; rfl).length_eq
    rw [run_counted h, hlen, List.length_map, ← hsettled.balance, hcounted, UInt64.ofNat_add]
    rfl
  · obtain ⟨hzero, hsame⟩ := hsettled.lossless hblock
    refine ⟨?_, fun i => ?_⟩
    · rw [hcounted, hzero]
      rfl
    · rw [hpasses, fibre_sent]
      exact congrArg _ (hsame i)
  · exact ((run_answered hl h).2.fibre_eq (by rw [hidle i]; rfl)).symm
  · rw [writes_of_idle h hrest, run_handed hM h]
  · refine Sink.Writer.stream_of_rest (run_sink h) fun i e a n hi => ?_
    rw [hrest] at hi
    cases hi
  · exact ((Sink.Writer.run_reasons (run_sink h)).event _ (Sink.Writer.mem_writes.mp hw).1).2.2

theorem logged_reach_stream (t : Transport.Async) {capacity : Int}
    {s : State ι (t.State ι (Rec χ υ)) π χ υ ε}
    (h : (machine l (t.machine capacity policy) p st level).Run log s)
    (ho : Orderly (carried log)) (hk : .closeRet () ∈ carried log)
    (hidle : ∀ i, s.caller i = .idle) :
    s.sink.client () = .idle ∧
      (Sink.Writer.calls (sunk log)).map Emission.record = (handed log).map Item.record ∧
      ((handed log).map Item.call).Nodup ∧
      (∀ i, (fibre Prod.fst i ((handed log).map sent)).Sublist (fibre Prod.fst i (passes log))) ∧
      s.metrics.emitted = .ofNat (handed log).length + t.dropped s.transport ∧
      (policy = .block → t.dropped s.transport = 0 ∧
        ∀ i, fibre Prod.fst i ((handed log).map sent) = fibre Prod.fst i (passes log)) ∧
      (Stateless l.processors → ∀ i,
        fibre Prod.fst i (passes log) = fibre Prod.fst i (outcomes l st log)) ∧
      (Sink.Writer.writes () (sunk log)).map (fun w => w.emission.record) =
        ((handed log).map Item.record).filter (fun r => level ≤ p.level r) ∧
      s.sink.stream () = (Sink.Writer.writes () (sunk log)).flatMap Written.text ∧
      ∀ w ∈ Sink.Writer.writes () (sunk log),
        w.text <+: (p.enc ()).encode [] w.emission.record ∧
        (w.err = none → w.text = (p.enc ()).encode [] w.emission.record) := by
  have hr := reached (t.engine capacity policy) h ho hk hidle
  exact ⟨hr.rest, hr.handed, hr.once, hr.ordered, hr.balance, hr.lossless, hr.answered, hr.written,
    hr.stream, hr.lines⟩

end Results

-- Two calls, of which the pipeline refuses one; the other is carried by the ring and written.
def refuseB : Processor Unit Unit Unit := fun st _ r =>
  (st, if r.message = [98] then none else some r)

def twoCalls : Logger Unit Unit Unit where
  level := 1
  processors := [refuseB]
  withFields := []
  addCaller := false

def lineConfig : Writer.Config Unit (Rec Unit Unit) where
  outlet := fun _ => .writer
  enc := fun _ => JSONEncoder.new.encoder bareRuntime
  level := Record.level
  grow := fun cap _ => 2 * cap

def callOf (msg : Bytes) : Call Unit Unit :=
  ⟨⟨Time.epoch, 0⟩, none, 9, msg, []⟩

def carryOne (n : Nat) : List (Act Unit Unit Unit Unit) :=
  [.call (.log () (callOf [98])), .call (.process ()), .call (.count ()),
    .call (.log () (callOf [97])), .call (.process ()), .call (.process ()), .call (.count ()),
    .dispatch (), .transport (.produce ()), .transport (.produce ()),
    .transport (.close ()), .transport (.closer ()), .transport (.work 0), .transport (.work 0),
    .sink (.check ()), .sink (.getBuffer () none), .sink (.append () n), .sink (.encoded ()),
    .sink (.lock ()), .sink (.hand () n), .sink (.wrote () none), .sink (.unlock ()),
    .sink (.putBuffer ()), .sink (.ret ())] ++ List.replicate 2 (.transport (.work 0)) ++
    List.replicate 4 (.transport (.closer ()))

theorem logged_reach_stream_ring :
    ∃ (log : List (Event Unit Unit Unit Unit))
      (s : State Unit (Transport.Async.ring.State Unit (Rec Unit Unit)) Unit Unit Unit Unit),
      (machine twoCalls (Transport.Async.ring.machine 2 .block) lineConfig () 5).Run log s ∧
        (calls log).length = 2 ∧
        ((Sink.Writer.writes () (sunk log)).map fun w => w.emission.record.message) = [[97]] ∧
        s.sink.stream () = (Sink.Writer.writes () (sunk log)).flatMap Sink.Writer.Written.text := by
  obtain ⟨log, s, hrun, hgood⟩ := Machine.exists_exec
    (M := machine (ε := Unit) twoCalls
      (Transport.Async.ring.machine (ι := Unit) (β := Rec Unit Unit) 2 .block) lineConfig () 5)
    (C := fun _ _ => True)
    (carryOne (JSONEncoder.new.encode bareRuntime []
      (twoCalls.record (callOf [97]).site none 9 [97] [])).length)
    (fun log s => decide ((∀ x ∈ Transport.calls (Transport.beforeClose (carried log)),
      x ∈ Transport.returns (Transport.beforeClose (carried log))) ∧
      Transport.calls (Transport.afterClose (carried log)) = [] ∧
      .closeRet () ∈ carried log ∧ (calls log).length = 2 ∧
      ((Sink.Writer.writes () (sunk log)).map fun w => w.emission.record.message) = [[97]]) &&
      (s.caller ()).isIdle) (by decide +kernel)
  obtain ⟨hlog, hidle⟩ := Bool.and_eq_true_iff.mp hgood
  obtain ⟨hret, hcalls, hclose, htwo, hone⟩ := of_decide_eq_true hlog
  obtain ⟨-, -, -, -, -, -, -, -, hstream, -⟩ := logged_reach_stream .ring hrun
    (Transport.orderly_of_split hret hcalls) hclose fun _ => Caller.eq_idle hidle
  exact ⟨log, s, hrun, htwo, hone, hstream⟩

end UbgoLogger.Delivery
