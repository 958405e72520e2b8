import UbgoLogger.Core.Metrics
import UbgoLogger.Core.Slog
import UbgoLogger.Foundation.Counter
import UbgoLogger.Foundation.History
import UbgoLogger.Foundation.Machine

namespace UbgoLogger.Emission
open Foundation Foundation.Text

variable {π χ υ : Type}

-- The three ways into the pipeline.
inductive Call (χ υ : Type) where
  | log (site : Logger.Site) (ctx : Option (Context χ υ)) (level : Level) (msg : Bytes)
      (fields : List (Field χ))
  | eventAt (site : Logger.Site) (ctx : Option (Context χ υ)) (level : Level) (name : Bytes)
      (fields : List (Field χ))
  | logAt (ctx : Option (Context χ υ)) (t : Time) (level : Level) (msg : Bytes)
      (fields : List (Field χ))

namespace Call

def level : Call χ υ → Level
  | .log _ _ level _ _ => level
  | .eventAt _ _ level _ _ => level
  | .logAt _ _ level _ _ => level

def context : Call χ υ → Context χ υ
  | .log _ ctx _ _ _ => ctx.getD Context.background
  | .eventAt _ ctx _ _ _ => ctx.getD Context.background
  | .logAt ctx _ _ _ _ => ctx.getD Context.background

def record (l : Logger π χ υ) : Call χ υ → Rec χ υ
  | .log site ctx level msg fields => l.record site ctx level msg fields
  | .eventAt site ctx level name fields =>
      { l.record site ctx level [] fields with pc := 0, eventName := name }
  | .logAt ctx t level msg fields => { l.record ⟨t, 0⟩ ctx level msg fields with pc := 0 }

def run (l : Logger π χ υ) (st : π) : Call χ υ → π × Option (Rec χ υ)
  | .log site ctx level msg fields => l.log st site ctx level msg fields
  | .eventAt site ctx level name fields => l.eventAt st site ctx level name fields
  | .logAt ctx t level msg fields => l.logAt st ctx t level msg fields

theorem run_eq (l : Logger π χ υ) (st : π) (c : Call χ υ) :
    c.run l st =
      if c.level < l.level then (st, none)
      else runPipeline l.processors st c.context (c.record l) := by
  cases c with
  | log site ctx level msg fields => rfl
  | eventAt site ctx level name fields => rfl
  | logAt ctx t lv msg fields =>
    simp only [run, Logger.logAt, Logger.recordAt, level, context, record, Logger.record]
    split_ifs <;> rfl

end Call

inductive Outcome where
  | filtered
  | dropped
  | emitted (level : Level)
  deriving DecidableEq

-- Where a call stands. The level is the one it was made with, whatever the processors do to the
-- record; fields are those bound to its logger.
inductive Phase (χ υ : Type) where
  | gate (fields : List (Field χ)) (c : Call χ υ)
  | processing (j : Nat) (ctx : Context χ υ) (r : Rec χ υ) (level : Level)
  | dropping
  | counting (r : Rec χ υ) (level : Level)
  | banding (r : Rec χ υ) (level : Level)
  | dispatching (r : Rec χ υ) (level : Level)
  | inside (level : Level)
  | returned (o : Outcome)

-- The loggers of one New share everything but the fields bound to them.
structure State (π χ υ : Type) where
  level : Level
  pipeline : π
  metrics : Metrics
  loggers : List (List (Field χ))
  calls : List (Phase χ υ)

inductive Act (π χ υ : Type) where
  | setLevel (level : Level)
  | disturb (st : π)
  | derive (k : Nat) (fields : List (Field χ))
  | call (k : Nat) (c : Call χ υ)
  | advance (i : Nat)

inductive Mark (χ υ : Type) where
  | passed
  | saw (j : Nat)
  | rejected (j : Nat)
  | dispatched (level : Level) (r : Rec χ υ)

abbrev Entry (χ υ : Type) := Nat × Mark χ υ

section Steps

variable (l : Logger π χ υ)

def State.move (s : State π χ υ) (i : Nat) (ph : Phase χ υ) : State π χ υ :=
  { s with calls := s.calls.set i ph }

def advance (s : State π χ υ) (i : Nat) : Phase χ υ → Option (State π χ υ × List (Mark χ υ))
  | .gate fields c =>
      if c.level < s.level then some (s.move i (.returned .filtered), [])
      else
        some (s.move i (.processing 0 c.context (c.record { l with withFields := fields }) c.level),
          [.passed])
  | .processing j ctx r level =>
      match l.processors[j]? with
      | none => some (s.move i (.counting r level), [])
      | some p =>
          match p s.pipeline ctx r with
          | (st, none) => some ({ s.move i .dropping with pipeline := st }, [.saw j, .rejected j])
          | (st, some r) =>
              some ({ s.move i (.processing (j + 1) ctx r level) with pipeline := st }, [.saw j])
  | .dropping =>
      some ({ s.move i (.returned .dropped) with metrics := s.metrics.incDropped }, [])
  | .counting r level =>
      some ({ s.move i (.banding r level) with metrics := s.metrics.addEmitted }, [])
  | .banding r level =>
      some ({ s.move i (.dispatching r level) with metrics := s.metrics.addLevel level }, [])
  | .dispatching r level => some (s.move i (.inside level), [.dispatched level r])
  | .inside level => some (s.move i (.returned (.emitted level)), [])
  | .returned _ => none

def step (s : State π χ υ) : Act π χ υ → Option (State π χ υ × List (Entry χ υ))
  | .setLevel level => some ({ s with level := level }, [])
  | .disturb st => some ({ s with pipeline := st }, [])
  | .derive k fields =>
      match s.loggers[k]? with
      | none => none
      | some bound => some ({ s with loggers := s.loggers ++ [bound ++ fields] }, [])
  | .call k c =>
      match s.loggers[k]? with
      | none => none
      | some bound => some ({ s with calls := s.calls ++ [.gate bound c] }, [])
  | .advance i =>
      match s.calls[i]? with
      | none => none
      | some ph => (advance l s i ph).map fun p => (p.1, p.2.map (Prod.mk i))

def machine (st : π) : Machine (State π χ υ) (Act π χ υ) (Entry χ υ) where
  init := ⟨l.level, st, .new, [l.withFields], []⟩
  step := step l

end Steps

-- Calls are made at the levels that have a name.
def InRange (_ : State π χ υ) : Act π χ υ → Prop
  | .call _ c => 1 ≤ c.level ∧ c.level ≤ 24
  | _ => True

instance (s : State π χ υ) (a : Act π χ υ) : Decidable (InRange s a) := by
  unfold InRange
  split <;> infer_instance

def Mark.isPassed : Mark χ υ → Bool
  | .passed => true
  | _ => false

def Mark.sent : Mark χ υ → Option Level
  | .dispatched level _ => some level
  | _ => none

-- How many calls passed the level gate.
def passes (log : List (Entry χ υ)) : Nat := log.countP fun e => e.2.isPassed

-- The call-site levels of the records given to Dispatch.
def dispatches (log : List (Entry χ υ)) : List Level := log.filterMap fun e => e.2.sent

-- What happened to the call i, in order.
def history (i : Nat) (log : List (Entry χ υ)) : List (Mark χ υ) :=
  (log.filter (·.1 = i)).map Prod.snd

namespace Phase

def passed : Phase χ υ → Bool
  | .gate _ _ => false
  | .returned .filtered => false
  | _ => true

def dropped : Phase χ υ → Bool
  | .returned .dropped => true
  | _ => false

def emitted : Phase χ υ → Bool
  | .banding _ _ => true
  | .dispatching _ _ => true
  | .inside _ => true
  | .returned (.emitted _) => true
  | _ => false

def banded : Phase χ υ → Option Level
  | .dispatching _ level => some level
  | .inside level => some level
  | .returned (.emitted level) => some level
  | _ => none

def sent : Phase χ υ → Option Level
  | .inside level => some level
  | .returned (.emitted level) => some level
  | _ => none

def level : Phase χ υ → Option Level
  | .gate _ c => some c.level
  | .processing _ _ _ x => some x
  | .dropping => none
  | .counting _ x => some x
  | .banding _ x => some x
  | .dispatching _ x => some x
  | .inside x => some x
  | .returned (.emitted x) => some x
  | .returned _ => none

def isReturned : Phase χ υ → Bool
  | .returned _ => true
  | _ => false

-- The marks a call has left by the time it stands here.
def Story : Phase χ υ → List (Mark χ υ) → Prop
  | .gate _ _, h => h = []
  | .processing j _ _ _, h => h = .passed :: (List.range j).map .saw
  | .dropping, h => ∃ j, h = .passed :: (List.range (j + 1)).map .saw ++ [.rejected j]
  | .counting _ _, h => ∃ j, h = .passed :: (List.range j).map .saw
  | .banding _ _, h => ∃ j, h = .passed :: (List.range j).map .saw
  | .dispatching _ _, h => ∃ j, h = .passed :: (List.range j).map .saw
  | .inside level, h => ∃ j r, h = .passed :: (List.range j).map .saw ++ [.dispatched level r]
  | .returned .filtered, h => h = []
  | .returned .dropped, h => ∃ j, h = .passed :: (List.range (j + 1)).map .saw ++ [.rejected j]
  | .returned (.emitted level), h =>
      ∃ j r, h = .passed :: (List.range j).map .saw ++ [.dispatched level r]

end Phase

section History

variable (log entries : List (Entry χ υ))

theorem passes_append : passes (log ++ entries) = passes log + passes entries :=
  List.countP_append

theorem dispatches_append : dispatches (log ++ entries) = dispatches log ++ dispatches entries :=
  List.filterMap_append

theorem history_append (i : Nat) :
    history i (log ++ entries) = history i log ++ history i entries := by
  simp [history]

theorem history_marks (i k : Nat) (marks : List (Mark χ υ)) :
    history k (marks.map (Prod.mk i)) = if i = k then marks else [] := by
  split_ifs with h
  · simp [history, h, List.filter_map, Function.comp_def]
  · simp [history, h, List.filter_map, Function.comp_def]

variable {log}

theorem mem_history {i : Nat} {m : Mark χ υ} : m ∈ history i log ↔ (i, m) ∈ log := by
  simp only [history, List.mem_map, List.mem_filter, decide_eq_true_eq]
  constructor
  · rintro ⟨e, ⟨he, rfl⟩, rfl⟩
    exact he
  · exact fun h => ⟨_, ⟨h, rfl⟩, rfl⟩

end History

-- The call i runs while everything else stands still.
inductive Alone (l : Logger π χ υ) (i : Nat) :
    State π χ υ → List (Mark χ υ) → State π χ υ → Prop
  | done (s : State π χ υ) : Alone l i s [] s
  | step {s s₁ s₂ : State π χ υ} {ph : Phase χ υ} {marks rest : List (Mark χ υ)} :
      s.calls[i]? = some ph → advance l s i ph = some (s₁, marks) → Alone l i s₁ rest s₂ →
        Alone l i s (marks ++ rest) s₂

def Mark.record : Mark χ υ → Option (Rec χ υ)
  | .dispatched _ r => some r
  | _ => none

-- How the call leaves the shared state when its pipeline answered so.
structure Ends (l : Logger π χ υ) (i : Nat) (s : State π χ υ) (level : Level)
    (answer : π × Option (Rec χ υ)) (marks : List (Mark χ υ)) (s' : State π χ υ) : Prop where
  alone : Alone l i s marks s'
  returned : ∃ o, s'.calls[i]? = some (.returned o)
  pipeline : s'.pipeline = answer.1
  records : marks.filterMap Mark.record = answer.2.toList
  metrics : s'.metrics =
    if answer.2.isSome then s.metrics.incEmitted level else s.metrics.incDropped

section Alone

variable {l : Logger π χ υ} {s : State π χ υ} {i : Nat}

theorem getElem?_move {ph : Phase χ υ} (hi : s.calls[i]? = some ph) (ph' : Phase χ υ) :
    (s.move i ph').calls[i]? = some ph' :=
  List.getElem?_set_self (List.getElem?_eq_some_iff.mp hi).1

theorem ends_counting {r : Rec χ υ} {level : Level}
    (hi : s.calls[i]? = some (.counting r level)) :
    ∃ s', Ends l i s level (s.pipeline, some r) [.dispatched level r] s' := by
  let s₁ : State π χ υ := { s.move i (.banding r level) with metrics := s.metrics.addEmitted }
  let s₂ : State π χ υ :=
    { s₁.move i (.dispatching r level) with metrics := s₁.metrics.addLevel level }
  have h₁ : s₁.calls[i]? = some (.banding r level) := getElem?_move hi _
  have h₂ : s₂.calls[i]? = some (.dispatching r level) := getElem?_move h₁ _
  have h₃ := getElem?_move h₂ (.inside level)
  exact ⟨_, .step hi rfl (.step h₁ rfl (.step h₂ rfl (.step h₃ rfl (.done _)))),
    ⟨_, getElem?_move h₃ _⟩, rfl, rfl, rfl⟩

theorem ends_processing {j : Nat} {ctx : Context χ υ} {r : Rec χ υ} {level : Level}
    (hi : s.calls[i]? = some (.processing j ctx r level)) :
    ∃ marks s', Ends l i s level (runPipeline (l.processors.drop j) s.pipeline ctx r) marks s' := by
  induction hn : l.processors.length - j generalizing s j r with
  | zero =>
    have hge : l.processors.length ≤ j := by omega
    have hstep : advance l s i (.processing j ctx r level) = some (s.move i (.counting r level), []) := by
      simp [advance, List.getElem?_eq_none hge]
    obtain ⟨s', h⟩ := ends_counting (l := l) (getElem?_move hi (.counting r level))
    rw [List.drop_eq_nil_of_le hge]
    exact ⟨_, s', .step hi hstep h.alone, h.returned, h.pipeline, h.records, h.metrics⟩
  | succ n ih =>
    have hlt : j < l.processors.length := by omega
    rw [List.drop_eq_getElem_cons hlt, runPipeline]
    cases hp : l.processors[j] s.pipeline ctx r with
    | mk st answer =>
      cases answer with
      | none =>
        have hstep : advance l s i (.processing j ctx r level) =
            some ({ s.move i .dropping with pipeline := st }, [.saw j, .rejected j]) := by
          simp [advance, List.getElem?_eq_getElem hlt, hp]
        let s₁ : State π χ υ := { s.move i .dropping with pipeline := st }
        have h₁ : s₁.calls[i]? = some .dropping := getElem?_move hi _
        exact ⟨_, _, .step hi hstep (.step h₁ rfl (.done _)), ⟨_, getElem?_move h₁ _⟩, rfl, rfl, rfl⟩
      | some r' =>
        have hstep : advance l s i (.processing j ctx r level) =
            some ({ s.move i (.processing (j + 1) ctx r' level) with pipeline := st }, [.saw j]) := by
          simp [advance, List.getElem?_eq_getElem hlt, hp]
        obtain ⟨marks, s', h⟩ := ih (s := { s.move i (.processing (j + 1) ctx r' level) with
          pipeline := st }) (getElem?_move hi (.processing (j + 1) ctx r' level)) (by omega)
        exact ⟨_, s', .step hi hstep h.alone, h.returned, h.pipeline, h.records, h.metrics⟩

-- A call that nothing interleaves with does what log, eventAt and logAt do.
theorem alone_run {fields : List (Field χ)} {c : Call χ υ}
    (hi : s.calls[i]? = some (.gate fields c)) :
    ∃ marks s', Alone l i s marks s' ∧ (∃ o, s'.calls[i]? = some (.returned o)) ∧
      s'.pipeline = (c.run { l with level := s.level, withFields := fields } s.pipeline).1 ∧
      marks.filterMap Mark.record =
        (c.run { l with level := s.level, withFields := fields } s.pipeline).2.toList ∧
      s'.metrics =
        if c.level < s.level then s.metrics
        else if (c.run { l with level := s.level, withFields := fields } s.pipeline).2.isSome then
          s.metrics.incEmitted c.level
        else s.metrics.incDropped := by
  rw [Call.run_eq]
  by_cases hlevel : c.level < s.level
  · have hstep : advance l s i (.gate fields c) = some (s.move i (.returned .filtered), []) := by
      simp [advance, hlevel]
    rw [if_pos hlevel, if_pos hlevel]
    exact ⟨_, _, .step hi hstep (.done _), ⟨_, getElem?_move hi _⟩, rfl, rfl, rfl⟩
  · have hstep : advance l s i (.gate fields c) = some (s.move i (.processing 0 c.context
        (c.record { l with withFields := fields }) c.level), [.passed]) := by
      simp [advance, hlevel]
    rw [if_neg hlevel, if_neg hlevel]
    obtain ⟨marks, s', h⟩ := ends_processing (l := l) (getElem?_move hi (.processing 0 c.context
      (c.record { l with withFields := fields }) c.level))
    have hrecord : c.record { l with level := s.level, withFields := fields } =
        c.record { l with withFields := fields } := by cases c <;> rfl
    rw [hrecord]
    exact ⟨_, s', .step hi hstep h.alone, h.returned, h.pipeline, h.records, h.metrics⟩

end Alone

-- What one step of the call i does to it, to the counters and to the log.
structure Effect (s s' : State π χ υ) (i : Nat) (ph ph' : Phase χ υ) (marks : List (Mark χ υ)) :
    Prop where
  calls : s'.calls = s.calls.set i ph'
  passed : ph.passed.toNat + marks.countP Mark.isPassed = ph'.passed.toNat
  dropped : s'.metrics.dropped + .ofNat ph.dropped.toNat =
    s.metrics.dropped + .ofNat ph'.dropped.toNat
  emitted : s'.metrics.emitted + .ofNat ph.emitted.toNat =
    s.metrics.emitted + .ofNat ph'.emitted.toNat
  length : s'.metrics.byLevel.length = s.metrics.byLevel.length
  banded (n : Nat) : s'.metrics.byLevel.getD n 0 + .ofNat (ph.banded.any (· = (n : Int))).toNat =
    s.metrics.byLevel.getD n 0 + .ofNat (ph'.banded.any (· = (n : Int))).toNat
  sent (p : Level → Bool) :
    (ph.sent.any p).toNat + (marks.filterMap Mark.sent).countP p = (ph'.sent.any p).toNat
  level (x : Level) : ph'.level = some x → ph.level = some x
  story (h : List (Mark χ υ)) : ph.Story h → ph'.Story (h ++ marks)

theorem getD_addLevel {m : Metrics} {x : Int} (h : 0 ≤ x ∧ x < m.byLevel.length) (n : Nat) :
    (m.addLevel x).byLevel.getD n 0 = m.byLevel.getD n 0 + .ofNat (decide (x = n)).toNat := by
  obtain ⟨k, rfl⟩ := Int.eq_ofNat_of_zero_le h.1
  have hk : k < m.byLevel.length := by omega
  simp only [Metrics.addLevel, h, and_self, if_true, Int.toNat_natCast, List.getD_eq_getElem?_getD,
    List.getElem?_modify, Nat.cast_inj]
  by_cases hn : k = n
  · subst hn
    simp [List.getElem?_eq_getElem hk]
  · simp [hn]

theorem advance_effect {l : Logger π χ υ} {s s' : State π χ υ} {i : Nat} {ph : Phase χ υ}
    {marks : List (Mark χ υ)} (hlevel : ∀ x, ph.level = some x → 0 ≤ x ∧ x < s.metrics.byLevel.length)
    (h : advance l s i ph = some (s', marks)) : ∃ ph', Effect s s' i ph ph' marks := by
  cases ph with
  | gate fields c =>
    simp only [advance] at h
    split at h
    · cases h
      exact ⟨_, rfl, rfl, rfl, rfl, rfl, fun _ => rfl, fun _ => rfl, nofun,
        fun _ h => (List.append_nil _).trans h⟩
    · cases h
      exact ⟨_, rfl, rfl, rfl, rfl, rfl, fun _ => rfl, fun _ => rfl, fun _ h => h,
        fun _ h => congrArg (· ++ [Mark.passed]) h⟩
  | processing j ctx r level =>
    simp only [advance] at h
    split at h
    · cases h
      exact ⟨_, rfl, rfl, rfl, rfl, rfl, fun _ => rfl, fun _ => rfl, fun _ h => h,
        fun _ h => ⟨j, (List.append_nil _).trans h⟩⟩
    · split at h
      · cases h
        refine ⟨_, rfl, rfl, rfl, rfl, rfl, fun _ => rfl, fun _ => rfl, nofun, fun _ h => ⟨j, ?_⟩⟩
        rw [show _ = _ from h]
        simp [List.range_succ]
      · cases h
        refine ⟨_, rfl, rfl, rfl, rfl, rfl, fun _ => rfl, fun _ => rfl, fun _ h => h,
          fun _ h => ?_⟩
        rw [show _ = _ from h]
        simp [Phase.Story, List.range_succ]
  | dropping =>
    cases h
    exact ⟨_, rfl, rfl, UInt64.add_zero _, rfl, rfl, fun _ => rfl, fun _ => rfl, nofun,
      fun _ ⟨j, h⟩ => ⟨j, (List.append_nil _).trans h⟩⟩
  | counting r level =>
    cases h
    exact ⟨_, rfl, rfl, rfl, UInt64.add_zero _, rfl, fun _ => rfl, fun _ => rfl, fun _ h => h,
      fun _ ⟨j, h⟩ => ⟨j, (List.append_nil _).trans h⟩⟩
  | banding r level =>
    cases h
    have hlength : (s.metrics.addLevel level).byLevel.length = s.metrics.byLevel.length := by
      simp only [Metrics.addLevel]
      split <;> simp
    exact ⟨.dispatching r level, rfl, rfl, rfl, rfl, hlength,
      fun n => (UInt64.add_zero _).trans (getD_addLevel (hlevel level rfl) n),
      fun _ => rfl, fun _ h => h, fun _ ⟨j, h⟩ => ⟨j, (List.append_nil _).trans h⟩⟩
  | dispatching r level =>
    cases h
    refine ⟨_, rfl, rfl, rfl, rfl, rfl, fun _ => rfl, fun p => ?_, fun _ h => h,
      fun _ ⟨j, h⟩ => ⟨j, r, congrArg (· ++ [.dispatched level r]) h⟩⟩
    cases hp : p level <;> simp [Phase.sent, Mark.sent, hp]
  | inside level =>
    cases h
    exact ⟨_, rfl, rfl, rfl, rfl, rfl, fun _ => rfl, fun _ => rfl, fun _ h => h,
      fun _ ⟨j, r, h⟩ => ⟨j, r, (List.append_nil _).trans h⟩⟩
  | returned o => cases h

structure Balanced (log : List (Entry χ υ)) (s : State π χ υ) : Prop where
  passed : passes log = s.calls.countP Phase.passed
  dropped : s.metrics.dropped = .ofNat (s.calls.countP Phase.dropped)
  emitted : s.metrics.emitted = .ofNat (s.calls.countP Phase.emitted)
  length : s.metrics.byLevel.length = 25
  banded (n : Nat) : s.metrics.byLevel.getD n 0 =
    .ofNat (s.calls.countP fun ph => ph.banded.any (· = (n : Int)))
  sent (p : Level → Bool) : (dispatches log).countP p = s.calls.countP fun ph => ph.sent.any p
  level : ∀ ph ∈ s.calls, ∀ x : Int, ph.level = some x → 1 ≤ x ∧ x ≤ 24
  story (i : Nat) (ph : Phase χ υ) : s.calls[i]? = some ph → ph.Story (history i log)
  fresh (i : Nat) : s.calls.length ≤ i → history i log = []

theorem Balanced.advance {s s' : State π χ υ} {log : List (Entry χ υ)} {i : Nat} {ph ph' : Phase χ υ}
    {marks : List (Mark χ υ)} (h : Balanced log s) (hi : s.calls[i]? = some ph)
    (e : Effect s s' i ph ph' marks) : Balanced (log ++ marks.map (Prod.mk i)) s' := by
  have hcount (p : Phase χ υ → Bool) : s'.calls.countP p + (p ph).toNat =
      s.calls.countP p + (p ph').toNat := e.calls ▸ countP_set p ph' hi
  have hlt : i < s.calls.length := (List.getElem?_eq_some_iff.mp hi).1
  constructor
  case passed =>
    have := hcount Phase.passed
    have := e.passed
    have : passes (marks.map (Prod.mk i)) = marks.countP Mark.isPassed := by
      simp [passes, List.countP_map, Function.comp_def]
    rw [passes_append, h.passed]
    omega
  case dropped => exact Counter.move h.dropped e.dropped (hcount Phase.dropped)
  case emitted => exact Counter.move h.emitted e.emitted (hcount Phase.emitted)
  case length => exact e.length.trans h.length
  case banded => exact fun n => Counter.move (h.banded n) (e.banded n) (hcount _)
  case sent =>
    intro p
    have := hcount fun ph => ph.sent.any p
    have := e.sent p
    have : dispatches (marks.map (Prod.mk i)) = marks.filterMap Mark.sent := by
      simp [dispatches, List.filterMap_map]
    rw [dispatches_append, List.countP_append, h.sent]
    rw [this]
    omega
  case level =>
    intro q hq x hx
    rw [e.calls] at hq
    rcases List.mem_or_eq_of_mem_set hq with hq | rfl
    · exact h.level q hq x hx
    · exact h.level ph (List.mem_of_getElem? hi) x (e.level x hx)
  case story =>
    intro k q hq
    rw [history_append, history_marks]
    rw [e.calls] at hq
    by_cases hk : i = k
    · subst hk
      rw [List.getElem?_set_self hlt] at hq
      cases hq
      rw [if_pos rfl]
      exact e.story _ (h.story i ph hi)
    · rw [List.getElem?_set_ne hk] at hq
      rw [if_neg hk, List.append_nil]
      exact h.story k q hq
  case fresh =>
    intro k hk
    rw [e.calls, List.length_set] at hk
    rw [history_append, history_marks, if_neg (by omega), h.fresh k hk]
    rfl

theorem Balanced.call {s : State π χ υ} {log : List (Entry χ υ)} (h : Balanced log s)
    (fields : List (Field χ)) {c : Call χ υ} (hc : 1 ≤ c.level ∧ c.level ≤ 24) :
    Balanced log { s with calls := s.calls ++ [.gate fields c] } := by
  have hgate (p : Phase χ υ → Bool) (hp : p (.gate fields c) = false) :
      (s.calls ++ [Phase.gate fields c]).countP p = s.calls.countP p := by
    simp [hp]
  refine ⟨h.passed.trans (hgate _ rfl).symm, h.dropped.trans (congrArg _ (hgate _ rfl).symm),
    h.emitted.trans (congrArg _ (hgate _ rfl).symm), h.length,
    fun n => (h.banded n).trans (congrArg _ (hgate _ rfl).symm), fun p => (h.sent p).trans (hgate _ rfl).symm, ?_, fun i ph hi => ?_, fun i hi => ?_⟩
  · intro ph hph x hx
    rcases List.mem_append.mp hph with hph | hph
    · exact h.level ph hph x hx
    · obtain rfl := List.mem_singleton.mp hph
      cases hx
      exact hc
  · rcases getElem?_concat_cases hi with hi | ⟨rfl, rfl⟩
    · exact h.story i ph hi
    · exact h.fresh _ le_rfl
  · exact h.fresh i (by simp at hi; omega)

-- The level, the state of the processors and the set of loggers do not enter the balance.
theorem Balanced.congr {s s' : State π χ υ} {log : List (Entry χ υ)} (h : Balanced log s)
    (hcalls : s'.calls = s.calls) (hmetrics : s'.metrics = s.metrics) : Balanced log s' := by
  obtain ⟨level, pipeline, metrics, loggers, calls⟩ := s'
  subst hcalls hmetrics
  exact ⟨h.passed, h.dropped, h.emitted, h.length, h.banded, h.sent, h.level, h.story, h.fresh⟩

theorem Balanced.step {l : Logger π χ υ} {s s' : State π χ υ} {log entries : List (Entry χ υ)}
    {a : Act π χ υ} (h : Balanced log s) (hrange : InRange s a)
    (hs : step l s a = some (s', entries)) : Balanced (log ++ entries) s' := by
  cases a with
  | setLevel | disturb =>
    cases hs
    exact (List.append_nil log).symm ▸ h.congr rfl rfl
  | derive k fields =>
    simp only [Emission.step] at hs
    split at hs
    · cases hs
    · cases hs
      exact (List.append_nil log).symm ▸ h.congr rfl rfl
  | call k c =>
    simp only [Emission.step] at hs
    split at hs
    · cases hs
    next bound _ =>
      cases hs
      exact (List.append_nil log).symm ▸ h.call bound hrange
  | advance i =>
    simp only [Emission.step] at hs
    split at hs
    · cases hs
    next ph hi =>
      obtain ⟨⟨s₁, marks⟩, hadvance, heq⟩ := Option.map_eq_some_iff.mp hs
      cases heq
      have hlevel (x : Int) (hx : ph.level = some x) : 0 ≤ x ∧ x < s.metrics.byLevel.length := by
        have := h.level ph (List.mem_of_getElem? hi) x hx
        have := h.length
        omega
      obtain ⟨ph', effect⟩ := advance_effect hlevel hadvance
      exact h.advance hi effect

theorem balanced_init (l : Logger π χ υ) (st : π) : Balanced [] (machine l st).init where
  passed := rfl
  dropped := rfl
  emitted := rfl
  length := List.length_replicate
  banded n := by
    change (List.replicate 25 (0 : UInt64)).getD n 0 = 0
    rw [List.getD_eq_getElem?_getD, List.getElem?_replicate]
    split <;> rfl
  sent _ := rfl
  level _ hph := absurd hph List.not_mem_nil
  story _ _ hi := absurd hi (Option.some_ne_none _).symm
  fresh _ _ := rfl

theorem exec_balanced {l : Logger π χ υ} {st : π} {log : List (Entry χ υ)} {s : State π χ υ}
    (h : (machine l st).Exec InRange log s) : Balanced log s :=
  h.invariant (P := Balanced) (balanced_init l st) fun _ hb hrange hs => hb.step hrange hs

section Returned

variable {log : List (Entry χ υ)} {s : State π χ υ}

theorem countP_passed {calls : List (Phase χ υ)} (h : ∀ ph ∈ calls, ph.isReturned = true) :
    calls.countP Phase.passed = calls.countP Phase.emitted + calls.countP Phase.dropped := by
  induction calls with
  | nil => rfl
  | cons ph calls ih =>
    obtain ⟨hph, hcalls⟩ := List.forall_mem_cons.mp h
    have hrest := ih hcalls
    cases ph with
    | returned o =>
      cases o <;> simp only [List.countP_cons, Phase.passed, Phase.emitted, Phase.dropped] <;>
        simp only [Bool.false_eq_true, if_true, if_false] <;> omega
    | _ => cases hph

theorem emitted_returned {ph : Phase χ υ} (h : ph.isReturned = true) :
    ph.emitted = ph.sent.isSome ∧ ph.banded = ph.sent := by
  cases ph with
  | returned o => cases o <;> exact ⟨rfl, rfl⟩
  | _ => cases h

theorem level_of_sent {ph : Phase χ υ} {x : Level} (h : ph.sent = some x) : ph.level = some x := by
  cases ph with
  | inside level => exact h
  | returned o =>
    cases o with
    | emitted level => exact h
    | _ => cases h
  | _ => cases h

theorem Balanced.dispatches_range (hb : Balanced log s) :
    ∀ x : Int, x ∈ dispatches log → 1 ≤ x ∧ x ≤ 24 := by
  intro x hx
  have hpos : 0 < (dispatches log).countP (· = x) :=
    List.countP_pos_iff.mpr ⟨x, hx, decide_eq_true rfl⟩
  rw [hb.sent] at hpos
  obtain ⟨ph, hph, hsent⟩ := List.countP_pos_iff.mp hpos
  refine hb.level ph hph x (level_of_sent ?_)
  cases hy : ph.sent with
  | none => simp [hy] at hsent
  | some y => simpa [hy] using hsent

theorem Balanced.countP_emitted (hb : Balanced log s) (h : ∀ ph ∈ s.calls, ph.isReturned = true) :
    s.calls.countP Phase.emitted = (dispatches log).length := by
  have hsent := hb.sent fun _ => true
  rw [List.countP_true] at hsent
  rw [hsent]
  refine List.countP_congr fun ph hph => ?_
  rw [(emitted_returned (h ph hph)).1]
  cases ph.sent <;> simp

theorem Balanced.passes_eq (hb : Balanced log s) (h : ∀ ph ∈ s.calls, ph.isReturned = true) :
    passes log = (dispatches log).length + s.calls.countP Phase.dropped := by
  rw [hb.passed, countP_passed h, hb.countP_emitted h]

theorem Balanced.byLevel_eq (hb : Balanced log s) (h : ∀ ph ∈ s.calls, ph.isReturned = true)
    (hbound : (dispatches log).length < 2 ^ 64) (name : Bytes) :
    s.metrics.snapshot.byLevel name =
      if name ∈ (dispatches log).map Level.string then
        some (.ofNat (((dispatches log).map Level.string).count name))
      else none := by
  refine Metrics.snapshot_byLevel hb.length (fun n _ hn => ?_) hb.dispatches_range hbound name
  have hlt : n < s.metrics.byLevel.length := hb.length ▸ hn
  have hbanded := hb.banded n
  rw [List.getD_eq_getElem _ _ hlt] at hbanded
  rw [List.getElem?_eq_getElem hlt, hbanded, List.count, hb.sent]
  refine congrArg (fun n => some (UInt64.ofNat n)) (List.countP_congr fun ph hph => ?_)
  rw [(emitted_returned (h ph hph)).2]
  rfl

theorem Balanced.byLevel_toNat (hb : Balanced log s) (h : ∀ ph ∈ s.calls, ph.isReturned = true)
    (hbound : (dispatches log).length < 2 ^ 64) (name : Bytes) :
    ((s.metrics.snapshot.byLevel name).getD 0).toNat =
      ((dispatches log).map Level.string).count name := by
  rw [hb.byLevel_eq h hbound]
  split_ifs with hmem
  · refine UInt64.toNat_ofNat_of_lt' (List.count_le_length.trans_lt ?_)
    rwa [List.length_map]
  · exact (List.count_eq_zero.mpr hmem).symm

-- A rejection is the last thing that happens to a record.
theorem Phase.Story.rejected {ph : Phase χ υ} {h : List (Mark χ υ)} (hs : ph.Story h) {j : Nat}
    (hj : .rejected j ∈ h) :
    h = .passed :: (List.range (j + 1)).map .saw ++ [.rejected j] := by
  have hdropped (hs : ∃ k, h = .passed :: (List.range (k + 1)).map .saw ++ [.rejected k]) :
      h = .passed :: (List.range (j + 1)).map .saw ++ [.rejected j] := by
    obtain ⟨k, rfl⟩ := hs
    obtain rfl : j = k := by simpa using hj
    rfl
  cases ph with
  | dropping => exact hdropped hs
  | returned o =>
    cases o with
    | filtered => simp [show h = [] from hs] at hj
    | dropped => exact hdropped hs
    | emitted level =>
      obtain ⟨k, r, rfl⟩ := hs
      simp at hj
  | gate fields c => simp [show h = [] from hs] at hj
  | processing k ctx r level => simp [show h = _ from hs] at hj
  | inside level =>
    obtain ⟨k, r, rfl⟩ := hs
    simp at hj
  | _ =>
    obtain ⟨k, rfl⟩ := hs
    simp at hj

theorem Balanced.silenced (hb : Balanced log s) {i j : Nat} (h : (i, .rejected j) ∈ log) :
    (∀ level r, (i, .dispatched level r) ∉ log) ∧ ∀ k, j < k → (i, .saw k) ∉ log := by
  have hmark := mem_history.mpr h
  rcases Nat.lt_or_ge i s.calls.length with hlt | hge
  · have hhistory := (hb.story i _ (List.getElem?_eq_getElem hlt)).rejected hmark
    simp only [← mem_history, hhistory]
    refine ⟨fun level r => by simp, fun k hk => ?_⟩
    simp
    omega
  · simp [hb.fresh i hge] at hmark

end Returned

theorem emission_accounting (l : Logger π χ υ) (st : π) (log : List (Entry χ υ))
    (s : State π χ υ) (h : (machine l st).Exec InRange log s) :
    ((∀ ph ∈ s.calls, ph.isReturned = true) → passes log < 2 ^ 64 →
      s.metrics.snapshot.emitted.toNat + s.metrics.snapshot.dropped.toNat = passes log ∧
      s.metrics.snapshot.emitted.toNat = (dispatches log).length ∧
      (∃ keys : List Bytes, keys.Nodup ∧
        (∀ name, name ∈ keys ↔ s.metrics.snapshot.byLevel name ≠ none) ∧
        (keys.map fun name => ((s.metrics.snapshot.byLevel name).getD 0).toNat).sum =
          s.metrics.snapshot.emitted.toNat) ∧
      ∀ name, ((s.metrics.snapshot.byLevel name).getD 0).toNat =
        (dispatches log).countP fun level => level.string = name) ∧
    ∀ i j, (i, .rejected j) ∈ log →
      (∀ level r, (i, .dispatched level r) ∉ log) ∧ ∀ k, j < k → (i, .saw k) ∉ log := by
  have hb := exec_balanced h
  refine ⟨fun hreturned hbound => ?_, fun i j => hb.silenced⟩
  have hpasses := hb.passes_eq hreturned
  have hsent : (dispatches log).length < 2 ^ 64 := by omega
  have hemitted : s.metrics.snapshot.emitted.toNat = (dispatches log).length :=
    Counter.toNat_eq (hb.countP_emitted hreturned ▸ hb.emitted) hsent
  have hdropped : s.metrics.snapshot.dropped.toNat = s.calls.countP Phase.dropped :=
    Counter.toNat_eq hb.dropped (by omega)
  have hband := hb.byLevel_toNat hreturned hsent
  refine ⟨?_, hemitted, ⟨((dispatches log).map Level.string).dedup, List.nodup_dedup _, ?_, ?_⟩, ?_⟩
  · rw [hemitted, hdropped, hpasses]
  · intro name
    rw [List.mem_dedup, hb.byLevel_eq hreturned hsent]
    split_ifs with hmem <;> simp [hmem]
  · have hsum := List.sum_map_count_dedup_eq_length ((dispatches log).map Level.string)
    rw [List.length_map, ← hemitted] at hsum
    rw [← hsum]
    refine congrArg List.sum (List.map_congr_left fun name _ => (hband name).trans ?_)
    exact List.countP_congr fun x _ => by simp
  · intro name
    rw [hband, List.count, List.countP_map]
    exact List.countP_congr fun level _ => by simp

def rejectLogout : Processor Unit Unit Unit :=
  fun st _ r => (st, if r.eventName = ascii "logout" then none else some r)

def auditLogger : Logger Unit Unit Unit where
  level := Level.info
  processors := [rejectLogout, rejectLogout]
  withFields := []
  addCaller := false

def auditSite : Logger.Site where
  now := Time.epoch
  pc := 0

def auditSchedule : List (Act Unit Unit Unit) :=
  [.derive 0 [stringField (ascii "user") (ascii "ada")],
    .call 1 (.log auditSite none Level.info (ascii "start") []),
    .call 0 (.eventAt auditSite none Level.warn (ascii "logout") []),
    .call 1 (.logAt none auditSite.now Level.debug (ascii "noise") [])] ++
  [0, 1, 2, 0, 1, 0, 1, 0].map Act.advance ++
  [.setLevel Level.error, .call 1 (.log auditSite none Level.warn (ascii "late") [])] ++
  [0, 3, 0, 0, 0].map Act.advance

theorem emission_accounting_audit : ∃ (log : List (Entry Unit Unit)) (s : State Unit Unit Unit),
    (machine auditLogger ()).Exec InRange log s ∧ (∀ ph ∈ s.calls, ph.isReturned = true) ∧
    s.metrics.snapshot.emitted.toNat + s.metrics.snapshot.dropped.toNat = passes log ∧
    passes log = 2 := by
  obtain ⟨log, s, hexec, hgood⟩ := Machine.exists_exec (M := machine auditLogger ()) (C := InRange)
    auditSchedule (fun log s => s.calls.all Phase.isReturned && passes log == 2) (by decide +kernel)
  simp only [Bool.and_eq_true, List.all_eq_true, beq_iff_eq] at hgood
  exact ⟨log, s, hexec, hgood.1,
    ((emission_accounting auditLogger () log s hexec).1 hgood.1 (by rw [hgood.2]; decide)).1,
    hgood.2⟩

end UbgoLogger.Emission
