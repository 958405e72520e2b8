import UbgoLogger.Foundation.Counter
import UbgoLogger.Foundation.Layer
import UbgoLogger.Sink.WriterLines

namespace UbgoLogger.Sink.Writer
open Foundation Foundation.Text

variable {ι σ ρ ε : Type}

-- A Fanout over sinks named by σ; onError says whether OnError is set.
structure Fanout (σ : Type) where
  sinks : List σ
  onError : Bool

namespace Fanout

-- One call of Fanout.Emit: the sinks its loop has still to visit, and the error that a visit
-- returned and OnError has not seen yet.
structure Job (σ ρ ε : Type) where
  record : ρ
  todo : List σ
  report : Option (σ × ε)

structure State (ι σ ρ ε : Type) where
  base : Writer.State ι σ ρ ε
  job : ι → Option (Job σ ρ ε)
  sinkErrors : UInt64

inductive Act (ι σ ρ ε : Type) where
  | emit (i : ι) (r : ρ)
  | visit (i : ι)
  | inner (a : Writer.Act ι σ ρ ε)
  | report (i : ι)
  | done (i : ι)

inductive Event (ι σ ρ ε : Type) where
  | emit (i : ι) (r : ρ)
  | inner (ev : Writer.Event ι σ ρ ε)
  | onError (i : ι) (k : σ) (x : ε)
  | done (i : ι) (r : ρ)

def isEmit : Writer.Act ι σ ρ ε → Bool
  | .emit _ _ _ => true
  | _ => false

variable [DecidableEq ι]

-- What the loop does when the Emit of a sink returns.
def note (f : Fanout σ) (job : ι → Option (Job σ ρ ε)) : Writer.Event ι σ ρ ε → ι → Option (Job σ ρ ε)
  | .ret e (some x) =>
      if f.onError then
        Function.update job e.caller ((job e.caller).map fun j => { j with report := some (e.sink, x) })
      else job
  | _ => job

def step [DecidableEq σ] (f : Fanout σ) (p : Config σ ρ) (s : State ι σ ρ ε) :
    Act ι σ ρ ε → Option (State ι σ ρ ε × List (Event ι σ ρ ε))
  | .emit i r =>
      match s.job i with
      | none => some ({ s with job := Function.update s.job i (some ⟨r, f.sinks, none⟩) }, [.emit i r])
      | some _ => none
  | .visit i =>
      match s.job i with
      | some ⟨r, k :: ks, none⟩ =>
          (Writer.step p s.base (.emit i k r)).map fun q =>
            ({ s with base := q.1, job := Function.update s.job i (some ⟨r, ks, none⟩) },
              q.2.map .inner)
      | _ => none
  | .inner a =>
      if isEmit a then none
      else
        (Writer.step p s.base a).map fun q =>
          ({ s with base := q.1, job := q.2.foldl f.note s.job }, q.2.map .inner)
  | .report i =>
      match s.job i with
      | some ⟨r, todo, some (k, x)⟩ =>
          some ({ s with job := Function.update s.job i (some ⟨r, todo, none⟩),
                         sinkErrors := s.sinkErrors + 1 }, [.onError i k x])
      | _ => none
  | .done i =>
      match s.job i, s.base.client i with
      | some ⟨r, [], none⟩, .idle => some ({ s with job := Function.update s.job i none }, [.done i r])
      | _, _ => none

def machine [DecidableEq σ] (f : Fanout σ) (p : Config σ ρ) (levels : σ → Level) :
    Machine (State ι σ ρ ε) (Act ι σ ρ ε) (Event ι σ ρ ε) where
  init := { base := (Writer.machine p levels).init, job := fun _ => none, sinkErrors := 0 }
  step := step f p

section Lists

omit [DecidableEq ι]

def Event.base : Event ι σ ρ ε → Option (Writer.Event ι σ ρ ε)
  | .inner ev => some ev
  | .emit _ _ | .onError _ _ _ | .done _ _ => none

def Event.wanted (f : Fanout σ) : Event ι σ ρ ε → List (ι × σ × ρ)
  | .emit i r => f.sinks.map fun k => (i, k, r)
  | .inner _ | .onError _ _ _ | .done _ _ => []

def Event.report : Event ι σ ρ ε → Option (ι × σ × ε)
  | .onError i k x => some (i, k, x)
  | .emit _ _ | .inner _ | .done _ _ => none

def base (log : List (Event ι σ ρ ε)) : List (Writer.Event ι σ ρ ε) := log.filterMap Event.base

-- Every sink for every call of Fanout.Emit, in order.
def wanted (f : Fanout σ) (log : List (Event ι σ ρ ε)) : List (ι × σ × ρ) :=
  log.flatMap (Event.wanted f)

def visited (log : List (Event ι σ ρ ε)) : List (ι × σ × ρ) :=
  (calls (base log)).map fun e => (e.caller, e.sink, e.record)

def failing (o : Outcome ι σ ρ ε) : Option (ι × σ × ε) :=
  o.err.map fun x => (o.caller, o.emission.sink, x)

def reports (log : List (Event ι σ ρ ε)) : List (ι × σ × ε) := log.filterMap Event.report

def wants (i : ι) : Option (Job σ ρ ε) → List (ι × σ × ρ)
  | none => []
  | some j => j.todo.map fun k => (i, k, j.record)

def pending (i : ι) : Option (Job σ ρ ε) → List (ι × σ × ε)
  | some ⟨_, _, some (k, x)⟩ => [(i, k, x)]
  | some ⟨_, _, none⟩ | none => []

theorem base_append (log evs : List (Event ι σ ρ ε)) : base (log ++ evs) = base log ++ base evs :=
  List.filterMap_append

theorem filterMap_inner (evs : List (Writer.Event ι σ ρ ε)) :
    (evs.map Event.inner).filterMap Event.base = evs := by
  induction evs with
  | nil => rfl
  | cons ev evs ih => simpa [Event.base, List.filterMap_cons] using ih

theorem base_inner (evs : List (Writer.Event ι σ ρ ε)) : base (evs.map Event.inner) = evs :=
  filterMap_inner evs

theorem wanted_inner (f : Fanout σ) (evs : List (Writer.Event ι σ ρ ε)) :
    wanted f (evs.map Event.inner) = [] := by
  simp [wanted, List.flatMap_map, Event.wanted]

theorem reports_inner (evs : List (Writer.Event ι σ ρ ε)) : reports (evs.map Event.inner) = [] := by
  simp [reports, List.filterMap_map, Event.report, Function.comp_def]

end Lists

theorem note_quiet (f : Fanout σ) (job : ι → Option (Job σ ρ ε)) {evs : List (Writer.Event ι σ ρ ε)}
    (h : returned evs = []) : evs.foldl f.note job = job := by
  induction evs with
  | nil => rfl
  | cons ev evs ih =>
    rw [returned, List.filterMap_cons] at h
    cases ev with
    | ret e err => simp [Event.returned] at h
    | _ => exact ih h

-- A returned error is on its way to OnError, if there is one.
theorem note_ret {job : ι → Option (Job σ ρ ε)} {e : Emission ι σ ρ} {i : ι} {r : ρ}
    {todo : List σ} (hi : e.caller = i) (hj : job i = some ⟨r, todo, none⟩) (f : Fanout σ)
    (err : Option ε) :
    f.note job (.ret e err) = job ∧ (f.onError = true → failing ⟨e, err⟩ = none) ∨
      ∃ x, err = some x ∧ f.onError = true ∧ f.note job (.ret e err) =
        Function.update job i (some ⟨r, todo, some (e.sink, x)⟩) := by
  cases err with
  | none => exact .inl ⟨rfl, fun _ => rfl⟩
  | some x =>
    rw [note]
    split
    next hon => exact .inr ⟨x, rfl, hon, by rw [hi, hj]; rfl⟩
    next hoff => exact .inl ⟨rfl, fun hon => absurd hon hoff⟩

theorem wants_update (job : ι → Option (Job σ ρ ε)) (i : ι) (v : Option (Job σ ρ ε)) :
    (fun j => wants j (Function.update job i v j)) =
      Function.update (fun j => wants j (job j)) i (wants i v) :=
  funext fun j => Function.apply_update wants job i v j

theorem pending_update (job : ι → Option (Job σ ρ ε)) (i : ι) (v : Option (Job σ ρ ε)) :
    (fun j => pending j (Function.update job i v j)) =
      Function.update (fun j => pending j (job j)) i (pending i v) :=
  funext fun j => Function.apply_update pending job i v j

theorem wants_same {job : ι → Option (Job σ ρ ε)} {i : ι} {v : Option (Job σ ρ ε)}
    (h : wants i v = wants i (job i)) :
    (fun j => wants j (Function.update job i v j)) = fun j => wants j (job j) := by
  rw [wants_update, h]
  exact Function.update_eq_self i _

theorem pending_same {job : ι → Option (Job σ ρ ε)} {i : ι} {v : Option (Job σ ρ ε)}
    (h : pending i v = pending i (job i)) :
    (fun j => pending j (Function.update job i v j)) = fun j => pending j (job j) := by
  rw [pending_update, h]
  exact Function.update_eq_self i _

section Invariant

variable {f : Fanout σ} {p : Config σ ρ} {levels : σ → Level} {client : ι → Phase ι σ ρ ε}
  {job : ι → Option (Job σ ρ ε)} {errors : UInt64} {log : List (Event ι σ ρ ε)} {i : ι} {r : ρ}
  {todo : List σ}

theorem fibre_failing (i : ι) (os : List (Outcome ι σ ρ ε)) :
    fibre Prod.fst i (os.filterMap failing) = (fibre Outcome.caller i os).filterMap failing := by
  induction os with
  | nil => rfl
  | cons o os ih =>
    have hhead (xs : List (Outcome ι σ ρ ε)) : (o :: xs).filterMap failing =
        (failing o).toList ++ xs.filterMap failing := by
      rw [List.filterMap_cons]
      cases failing o <;> rfl
    have hcons : fibre Outcome.caller i (o :: os) =
        fibre Outcome.caller i [o] ++ fibre Outcome.caller i os := fibre_append _ i [o] os
    rw [hhead, fibre_append, ih, hcons, List.filterMap_append]
    congr 1
    rw [fibre_singleton]
    cases herr : o.err with
    | none => split <;> simp [failing, herr, fibre_nil]
    | some x =>
      by_cases hi : o.caller = i
      · simp [failing, herr, hi, fibre_singleton]
      · simp [failing, herr, hi, fibre_singleton]

structure Inv (f : Fanout σ) (log : List (Event ι σ ρ ε)) (client : ι → Phase ι σ ρ ε)
    (job : ι → Option (Job σ ρ ε)) (errors : UInt64) : Prop where
  working : ∀ i, client i ≠ .idle → ∃ r todo, job i = some ⟨r, todo, none⟩
  visits : Between Prod.fst (wanted f log) (visited log) fun i => wants i (job i)
  reported : f.onError = true → Between Prod.fst ((returned (base log)).filterMap failing)
    (reports log) fun i => pending i (job i)
  counted : errors = .ofNat (reports log).length

namespace Inv

theorem fresh : Inv f [] (fun _ : ι => (.idle : Phase ι σ ρ ε)) (fun _ => none) 0 where
  working := fun _ h => absurd rfl h
  visits := Between.fresh
  reported := fun _ => Between.fresh
  counted := rfl

theorem working_update (h : Inv f log client job errors) (j : ι) (hj : client j ≠ .idle) :
    ∃ r' todo', Function.update job i (some ⟨r, todo, none⟩) j = some ⟨r', todo', none⟩ := by
  rw [Function.update_apply]
  split
  · exact ⟨r, todo, rfl⟩
  · exact h.working j hj

theorem emit (h : Inv f log client job errors) (hj : job i = none) :
    Inv f (log ++ [.emit i r]) client (Function.update job i (some ⟨r, f.sinks, none⟩)) errors := by
  have hwanted : wanted f (log ++ [.emit i r]) = wanted f log ++ f.sinks.map fun k => (i, k, r) := by
    simp [wanted, Event.wanted]
  have hbase : base (log ++ [.emit i r]) = base log := by simp [base, Event.base]
  have hreports : reports (log ++ [.emit i r]) = reports log := by simp [reports, Event.report]
  have hxs : ∀ x ∈ f.sinks.map fun k => (i, k, r), x.1 = i := by simp
  refine ⟨fun j => h.working_update j, ?_, fun ho => ?_, ?_⟩
  · have henter := h.visits.enterAll hxs
    rw [hj] at henter
    rw [wants_update, hwanted, visited, hbase]
    exact henter
  · rw [hbase, hreports, pending_same (by rw [hj]; rfl)]
    exact h.reported ho
  · rw [hreports]
    exact h.counted

theorem visit (h : Inv f log client job errors) {e : Emission ι σ ρ} (hi : e.caller = i)
    (hj : job i = some ⟨e.record, e.sink :: todo, none⟩) :
    Inv f (log ++ [.inner (.call e)]) (Function.update client i (.entered e))
      (Function.update job i (some ⟨e.record, todo, none⟩)) errors := by
  have hbase : base (log ++ [.inner (.call e)]) = base log ++ [.call e] := by
    simp [base, Event.base]
  have hwanted : wanted f (log ++ [.inner (.call e)]) = wanted f log := by
    simp [wanted, Event.wanted]
  have hvisited : visited (log ++ [.inner (.call e)]) = visited log ++ [(i, e.sink, e.record)] := by
    simp [visited, hbase, calls, Event.called, hi]
  have hreturned : returned (base log ++ [.call e]) = returned (base log) := by
    simp [returned, Event.returned]
  have hreports : reports (log ++ [.inner (.call e)]) = reports log := by simp [reports, Event.report]
  refine ⟨(Function.forall_update_iff client fun j ph => ph ≠ .idle → ∃ r' todo',
    Function.update job i (some ⟨e.record, todo, none⟩) j = some ⟨r', todo', none⟩).mpr
      ⟨fun _ => ⟨e.record, todo, Function.update_self ..⟩, fun j _ => h.working_update j⟩,
    ?_, fun ho => ?_, ?_⟩
  · rw [wants_update, hwanted, hvisited]
    exact h.visits.leave rfl (by rw [hj]; rfl)
  · rw [hbase, hreturned, hreports, pending_same (by rw [hj]; rfl)]
    exact h.reported ho
  · rw [hreports]
    exact h.counted

theorem quiet (h : Inv f log client job errors) {client' : ι → Phase ι σ ρ ε}
    {evs : List (Writer.Event ι σ ρ ε)} (hidle : ∀ i, client i = .idle → client' i = .idle)
    (hc : calls evs = []) (hr : returned evs = []) :
    Inv f (log ++ evs.map .inner) client' job errors := by
  have hbase : base (log ++ evs.map .inner) = base log ++ evs := by rw [base_append, base_inner]
  have hwanted : wanted f (log ++ evs.map .inner) = wanted f log := by
    rw [wanted, List.flatMap_append]
    exact (congrArg _ (wanted_inner f evs)).trans (List.append_nil _)
  have hcalls : calls (base log ++ evs) = calls (base log) := by
    rw [calls, List.filterMap_append]
    exact (congrArg _ hc).trans (List.append_nil _)
  have hreturned : returned (base log ++ evs) = returned (base log) := by
    rw [returned, List.filterMap_append]
    exact (congrArg _ hr).trans (List.append_nil _)
  have hreports : reports (log ++ evs.map .inner) = reports log := by
    rw [reports, List.filterMap_append]
    exact (congrArg _ (reports_inner evs)).trans (List.append_nil _)
  refine ⟨fun i hi => h.working i fun he => hi (hidle i he), ?_, fun ho => ?_, ?_⟩
  · rw [hwanted, visited, hbase, hcalls]
    exact h.visits
  · rw [hbase, hreturned, hreports]
    exact h.reported ho
  · rw [hreports]
    exact h.counted

theorem ret (h : Inv f log client job errors) {e : Emission ι σ ρ} (err : Option ε)
    (hi : e.caller = i) (hj : job i = some ⟨r, todo, none⟩) :
    Inv f (log ++ [.inner (.ret e err)]) (Function.update client i .idle)
      (f.note job (.ret e err)) errors := by
  have hbase : base (log ++ [.inner (.ret e err)]) = base log ++ [.ret e err] := by
    simp [base, Event.base]
  have hwanted : wanted f (log ++ [.inner (.ret e err)]) = wanted f log := by
    simp [wanted, Event.wanted]
  have hcalls : calls (base log ++ [.ret e err]) = calls (base log) := by
    simp [calls, Event.called]
  have hreturned : (returned (base log ++ [.ret e err])).filterMap failing =
      (returned (base log)).filterMap failing ++ (failing ⟨e, err⟩).toList := by
    rw [returned, filterMap_concat, List.filterMap_append]
    cases err <;> rfl
  have hreports : reports (log ++ [.inner (.ret e err)]) = reports log := by
    simp [reports, Event.report]
  have hidle (job' : ι → Option (Job σ ρ ε)) (hsame : ∀ j, j ≠ i → job' j = job j) (j : ι)
      (hne : Function.update client i .idle j ≠ .idle) : ∃ r todo, job' j = some ⟨r, todo, none⟩ := by
    rw [Function.update_apply] at hne
    split at hne
    next => exact absurd rfl hne
    next hji =>
      rw [hsame j hji]
      exact h.working j hne
  rcases note_ret hi hj f err with ⟨hnote, hfailing⟩ | ⟨x, rfl, hon, hnote⟩
  · rw [hnote]
    refine ⟨hidle job fun _ _ => rfl, ?_, fun ho => ?_, ?_⟩
    · rw [hwanted, visited, hbase, hcalls]
      exact h.visits
    · rw [hbase, hreturned, hreports, hfailing ho]
      simpa using h.reported ho
    · rw [hreports]
      exact h.counted
  · rw [hnote]
    refine ⟨hidle _ fun j hji => Function.update_of_ne hji _ _, ?_, fun ho => ?_, ?_⟩
    · rw [hwanted, visited, hbase, hcalls, wants_same (by rw [hj]; rfl)]
      exact h.visits
    · have henter := (h.reported ho).enter (x := (i, e.sink, x)) (i := i) rfl
      rw [hj] at henter
      rw [hbase, hreturned, hreports, pending_update, failing, Outcome.caller, hi]
      exact henter
    · rw [hreports]
      exact h.counted

theorem report (h : Inv f log client job errors) {k : σ} {x : ε}
    (hj : job i = some ⟨r, todo, some (k, x)⟩) :
    Inv f (log ++ [.onError i k x]) client (Function.update job i (some ⟨r, todo, none⟩))
      (errors + 1) := by
  have hbase : base (log ++ [.onError i k x]) = base log := by simp [base, Event.base]
  have hwanted : wanted f (log ++ [.onError i k x]) = wanted f log := by simp [wanted, Event.wanted]
  have hreports : reports (log ++ [.onError i k x]) = reports log ++ [(i, k, x)] := by
    simp [reports, Event.report]
  refine ⟨fun j => h.working_update j, ?_, fun ho => ?_, ?_⟩
  · rw [hwanted, visited, hbase, wants_same (by rw [hj]; rfl)]
    exact h.visits
  · rw [hbase, hreports, pending_update]
    exact (h.reported ho).leave rfl (by rw [hj]; rfl)
  · rw [hreports, List.length_append]
    exact Counter.succ h.counted

theorem done (h : Inv f log client job errors) (hj : job i = some ⟨r, [], none⟩)
    (hi : client i = .idle) :
    Inv f (log ++ [.done i r]) client (Function.update job i none) errors := by
  have hbase : base (log ++ [.done i r]) = base log := by simp [base, Event.base]
  have hwanted : wanted f (log ++ [.done i r]) = wanted f log := by simp [wanted, Event.wanted]
  have hreports : reports (log ++ [.done i r]) = reports log := by simp [reports, Event.report]
  refine ⟨fun j hne => ?_, ?_, fun ho => ?_, ?_⟩
  · have hji : j ≠ i := by
      rintro rfl
      exact hne hi
    rw [Function.update_of_ne hji]
    exact h.working j hne
  · rw [hwanted, visited, hbase, wants_same (by rw [hj]; rfl)]
    exact h.visits
  · rw [hbase, hreports, pending_same (by rw [hj]; rfl)]
    exact h.reported ho
  · rw [hreports]
    exact h.counted

end Inv

end Invariant

section Steps

variable [DecidableEq σ]

variable {f : Fanout σ} {p : Config σ ρ} {s s' : State ι σ ρ ε} {b b' : Writer.State ι σ ρ ε}

-- A step that is no call leaves the idle clients alone and makes no call; it may return.
inductive Moves (b b' : Writer.State ι σ ρ ε) : List (Writer.Event ι σ ρ ε) → Prop
  | quiet {evs : List (Writer.Event ι σ ρ ε)} (hidle : ∀ i, b.client i = .idle → b'.client i = .idle)
      (hc : calls evs = []) (hr : returned evs = []) : Moves b b' evs
  | ret {i : ι} {e : Emission ι σ ρ} {err : Option ε} (h : b.client i = .returning e err)
      (hnow : b'.client = Function.update b.client i .idle) : Moves b b' [.ret e err]

theorem moves {a : Writer.Act ι σ ρ ε} {evs : List (Writer.Event ι σ ρ ε)} (ha : isEmit a = false)
    (hs : Writer.step p b a = some (b', evs)) : Moves b b' evs := by
  have hset {i : ι} {ph ph' : Phase ι σ ρ ε} (hi : b.client i = ph) (hne : ph ≠ .idle) (j : ι)
      (hj : b.client j = .idle) : Function.update b.client i ph' j = .idle := by
    have hji : j ≠ i := by
      rintro rfl
      exact hne (hi.symm.trans hj)
    rw [Function.update_of_ne hji, hj]
  cases Writer.step_cases hs with
  | call i k r hi => cases ha
  | ret i e err hi => exact .ret hi rfl
  | setLevel k l => exact .quiet (fun _ hj => hj) rfl rfl
  | collect a => exact .quiet (fun _ hj => hj) rfl rfl
  | filter i e hi _ => exact .quiet (hset hi (by simp)) rfl rfl
  | pass i e hi _ => exact .quiet (hset hi (by simp)) rfl rfl
  | create i e hi => exact .quiet (hset hi (by simp)) rfl rfl
  | reuse i e a hi ha => exact .quiet (hset hi (by simp)) rfl rfl
  | append i e a m n hi hn => exact .quiet (hset hi (by simp)) rfl rfl
  | encoded i e a m hi hm ho => exact .quiet (hset hi (by simp)) rfl rfl
  | copy i e a m hi hm ho => exact .quiet (hset hi (by simp)) rfl rfl
  | lock i e a hi hfree => exact .quiet (hset hi (by simp)) rfl rfl
  | hand i e a m n hi hn => exact .quiet (hset hi (by simp)) rfl rfl
  | wrote i e a m err hi hm => exact .quiet (hset hi (by simp)) rfl rfl
  | unlock i e a err hi => exact .quiet (hset hi (by simp)) rfl rfl
  | keep i e a after hi hcap => exact .quiet (hset hi (by simp)) rfl rfl
  | drop i e a after hi hcap => exact .quiet (hset hi (by simp)) rfl rfl
  | send i e msg n err hi hn => exact .quiet (hset hi (by simp)) rfl rfl

inductive Step (f : Fanout σ) (p : Config σ ρ) (s : State ι σ ρ ε) :
    State ι σ ρ ε → List (Event ι σ ρ ε) → Prop
  | emit (i : ι) (r : ρ) (h : s.job i = none) :
      Step f p s { s with job := Function.update s.job i (some ⟨r, f.sinks, none⟩) } [.emit i r]
  | visit (i : ι) (k : σ) (ks : List σ) (r : ρ) (h : s.job i = some ⟨r, k :: ks, none⟩)
      {b : Writer.State ι σ ρ ε} {evs : List (Writer.Event ι σ ρ ε)}
      (hs : Writer.step p s.base (.emit i k r) = some (b, evs)) :
      Step f p s { s with base := b, job := Function.update s.job i (some ⟨r, ks, none⟩) }
        (evs.map .inner)
  | inner (a : Writer.Act ι σ ρ ε) (ha : isEmit a = false) {b : Writer.State ι σ ρ ε}
      {evs : List (Writer.Event ι σ ρ ε)} (hs : Writer.step p s.base a = some (b, evs)) :
      Step f p s { s with base := b, job := evs.foldl f.note s.job } (evs.map .inner)
  | report (i : ι) (r : ρ) (todo : List σ) (k : σ) (x : ε)
      (h : s.job i = some ⟨r, todo, some (k, x)⟩) :
      Step f p s { s with job := Function.update s.job i (some ⟨r, todo, none⟩),
                          sinkErrors := s.sinkErrors + 1 } [.onError i k x]
  | done (i : ι) (r : ρ) (h : s.job i = some ⟨r, [], none⟩) (hi : s.base.client i = .idle) :
      Step f p s { s with job := Function.update s.job i none } [.done i r]

theorem step_cases {a : Act ι σ ρ ε} {evs : List (Event ι σ ρ ε)}
    (h : step f p s a = some (s', evs)) : Step f p s s' evs := by
  cases a with
  | emit i r =>
    simp only [step] at h
    split at h
    next hj =>
      cases h
      exact .emit i r hj
    next => cases h
  | visit i =>
    simp only [step] at h
    split at h
    next r k ks hj =>
      obtain ⟨q, hq, he⟩ := Option.map_eq_some_iff.mp h
      cases he
      exact .visit i k ks r hj hq
    next => cases h
  | inner a =>
    simp only [step] at h
    split at h
    next => cases h
    next ha =>
      obtain ⟨q, hq, he⟩ := Option.map_eq_some_iff.mp h
      cases he
      exact .inner a (Bool.eq_false_iff.mpr ha) hq
  | report i =>
    simp only [step] at h
    split at h
    next r todo k x hj =>
      cases h
      exact .report i r todo k x hj
    next => cases h
  | done i =>
    simp only [step] at h
    split at h
    next r hj hi =>
      cases h
      exact .done i r hj hi
    next => cases h

theorem run_base {levels : σ → Level} {log : List (Event ι σ ρ ε)}
    (h : (machine f p levels).Run log s) : (Writer.machine p levels).Run (base log) s.base := by
  refine h.project State.base Event.base rfl ?_
  intro log s a s' evs _ hs
  cases step_cases hs with
  | emit i r hj => exact .inr ⟨rfl, rfl⟩
  | visit i k ks r hj hq =>
    rw [filterMap_inner]
    exact .inl ⟨.emit i k r, hq⟩
  | inner a ha hq =>
    rw [filterMap_inner]
    exact .inl ⟨a, hq⟩
  | report i r todo k x hj => exact .inr ⟨rfl, rfl⟩
  | done i r hj hi => exact .inr ⟨rfl, rfl⟩

theorem Inv.step {levels : σ → Level} {log evs : List (Event ι σ ρ ε)}
    (hrun : (Writer.machine p levels).Run (base log) s.base)
    (h : Inv f log s.base.client s.job s.sinkErrors) (hs : Step f p s s' evs) :
    Inv f (log ++ evs) s'.base.client s'.job s'.sinkErrors := by
  cases hs with
  | emit i r hj => exact h.emit hj
  | visit i k ks r hj hq =>
    cases Writer.step_cases hq
    exact h.visit rfl hj
  | inner a ha hq =>
    cases moves ha hq with
    | quiet hidle hc hr =>
      rw [note_quiet f s.job hr]
      exact h.quiet hidle hc hr
    | @ret i e err hi hnow =>
      obtain ⟨r, todo, hj⟩ := h.working i (by rw [hi]; simp)
      have hmine : e.caller = i := (run_accounts hrun).mine i e (by rw [hi]; rfl)
      have hret := h.ret err hmine hj
      rwa [← hnow] at hret
  | report i r todo k x hj => exact h.report hj
  | done i r hj hi => exact h.done hj hi

theorem run_inv {levels : σ → Level} {log : List (Event ι σ ρ ε)}
    (h : (machine f p levels).Run log s) : Inv f log s.base.client s.job s.sinkErrors :=
  h.invariant (P := fun log s => Inv f log s.base.client s.job s.sinkErrors) Inv.fresh
    fun hexec hi _ hs => hi.step (run_base hexec) (step_cases hs)

theorem idle_of_free {levels : σ → Level} {log : List (Event ι σ ρ ε)}
    (h : (machine f p levels).Run log s) {i : ι} (hi : s.job i = none) : s.base.client i = .idle := by
  by_contra hne
  obtain ⟨r, todo, hj⟩ := (run_inv h).working i hne
  rw [hi] at hj
  cases hj

theorem fanout_delivers {levels : σ → Level} {log : List (Event ι σ ρ ε)}
    (h : (machine f p levels).Run log s) :
    (Writer.machine p levels).Run (base log) s.base ∧
    (∀ i, fibre Prod.fst i (visited log) <+: fibre Prod.fst i (wanted f log) ∧
      (s.job i = none → fibre Prod.fst i (visited log) = fibre Prod.fst i (wanted f log))) ∧
    (f.onError = true → ∀ i, s.job i = none →
      fibre Prod.fst i (reports log) = fibre Prod.fst i ((decided (base log)).filterMap failing)) ∧
    (f.onError = true → (∀ i, s.job i = none) →
      s.sinkErrors = .ofNat ((decided (base log)).filterMap failing).length) := by
  have hi := run_inv h
  have hreports : f.onError = true → ∀ i, s.job i = none →
      fibre Prod.fst i (reports log) = fibre Prod.fst i ((decided (base log)).filterMap failing) := by
    intro ho i hj
    have hleft := (run_accounts (run_base h)).leaving.fibre_eq (i := i)
      (by rw [Function.comp_apply, idle_of_free h hj]; rfl)
    have hback := (hi.reported ho).fibre_eq (i := i) (by simp [hj, pending])
    rw [← hback, fibre_failing, fibre_failing, hleft]
  refine ⟨run_base h, fun i => ⟨hi.visits.fibre_starts i, fun hj => ?_⟩, hreports, fun ho hfree => ?_⟩
  · exact (hi.visits.fibre_eq (by simp [hj, wants])).symm
  · rw [hi.counted]
    exact congrArg _ (perm_of_fibre Prod.fst fun i => hreports ho i (hfree i)).length_eq

end Steps

def bothSinks : Fanout Outlet := ⟨[.writer, .syslog], true⟩

-- The Write of the first sink fails half way; the second sink still gets its message.
def firstFails : List (Act Unit Outlet Bytes Unit) :=
  [.emit () [97], .visit (), .inner (.check ()), .inner (.getBuffer () none), .inner (.append () 2),
    .inner (.encoded ()), .inner (.lock ()), .inner (.hand () 1), .inner (.wrote () (some ())),
    .inner (.unlock ()), .inner (.putBuffer ()), .inner (.ret ()), .report (), .visit (),
    .inner (.check ()), .inner (.getBuffer () (some 0)), .inner (.append () 2), .inner (.encoded ()),
    .inner (.putBuffer ()), .inner (.send () 2 none), .inner (.ret ()), .done ()]

theorem fanout_delivers_firstFails :
    ∃ log s, (machine (ι := Unit) (ε := Unit) bothSinks rawConfig fun _ => 0).Run log s ∧
      s.base.stream .writer = [97] ∧
      s.base.stream .syslog = [97, 10] ∧ s.sinkErrors = 1 ∧
      fibre Prod.fst () (visited log) = fibre Prod.fst () (wanted bothSinks log) := by
  obtain ⟨log, s, hrun, hgood⟩ := Machine.exists_exec
    (M := machine (ι := Unit) (ε := Unit) bothSinks rawConfig fun _ => 0) (C := fun _ _ => True)
    firstFails
    (fun _ s => s.base.stream .writer == [97] && s.base.stream .syslog == [97, 10] &&
      s.sinkErrors == 1 && (s.job ()).isNone) (by decide +kernel)
  simp only [Bool.and_eq_true, beq_iff_eq, Option.isNone_iff_eq_none] at hgood
  obtain ⟨⟨⟨hwriter, hsyslog⟩, herrors⟩, hfree⟩ := hgood
  exact ⟨log, s, hrun, hwriter, hsyslog, herrors, ((fanout_delivers hrun).2.1 ()).2 hfree⟩

end Fanout

end UbgoLogger.Sink.Writer
