import UbgoLogger.Core.LevelControl
import UbgoLogger.Foundation.Machine

namespace UbgoLogger.ConfigWatcher
open Foundation Foundation.Text

structure FileConfig where
  level : Bytes
  deriving DecidableEq

-- With the decoding of a file by json.Unmarshal.
structure Library extends Strings where
  unmarshal : Bytes → Option FileConfig

inductive Origin where
  | startup
  | firstPoll
  | laterPoll
  deriving DecidableEq

-- A call of apply: the mtime found by the Stat before it, and by the one before the previous call.
structure Application where
  origin : Origin
  mtime : Time
  previous : Option Time
  deriving DecidableEq

inductive Phase where
  | booting
  | reading (a : Application)
  | setting (a : Application) (content : Bytes)
  | notifying (a : Application) (c : FileConfig)
  | polling
  | returned
  deriving DecidableEq

def Phase.application : Phase → Option Application
  | .reading a | .setting a _ | .notifying a _ => some a
  | _ => none

-- lv, the lastMod of run, where the watcher stands, and the flags set from outside. The last two
-- fields are history: the mtime of the last call of apply, and whether a poll has made one.
structure State where
  level : Level
  lastMod : Time
  phase : Phase
  onReload : Bool
  stopped : Bool
  cycle : LevelCycle
  applied : Option Time
  polled : Bool

inductive Action where
  | stat (mtime : Option Time)
  | read (content : Option Bytes)
  | set
  | notify
  | leave
  | stop
  | register (callback : Bool)
  | store (l : Level)
  | serve (r : Request)
  | signal

-- The steps of WatchConfigFile and of the goroutine it starts.
def Action.watcher : Action → Bool
  | .stat _ | .read _ | .set | .notify | .leave => true
  | _ => false

inductive Event where
  | wrote (a : Application) (content : Bytes) (l : Level)
  | reloaded (c : FileConfig)
  deriving DecidableEq

-- WatchConfigFile has not returned the watcher yet.
def State.starting (s : State) : Bool :=
  s.phase == .booting || s.phase.application.any (·.origin == .startup)

def State.begin (s : State) (origin : Origin) (m : Time) : State :=
  { s with phase := .reading ⟨origin, m, s.applied⟩, applied := some m }

def State.beginPoll (s : State) (m : Time) : State :=
  { s.begin (if s.polled then .laterPoll else .firstPoll) m with lastMod := m, polled := true }

-- applyOnce up to its call of apply, and one round of the loop of run up to its own.
def stat (s : State) (found : Option Time) : Option State :=
  match s.phase, found with
  | .booting, none => some { s with phase := .polling }
  | .booting, some m => some (s.begin .startup m)
  | .polling, none => some s
  | .polling, some m => if m.equal s.lastMod then some s else some (s.beginPoll m)
  | _, _ => none

def read (s : State) (content : Option Bytes) : Option State :=
  match s.phase, content with
  | .reading _, none => some { s with phase := .polling }
  | .reading a, some b => some { s with phase := .setting a b }
  | _, _ => none

def set (lib : Library) (s : State) : Option (State × List Event) :=
  match s.phase with
  | .setting a b =>
      match lib.unmarshal b with
      | none => some ({ s with phase := .polling }, [])
      | some c =>
          match parseLevel lib.toStrings c.level with
          | none => some ({ s with phase := .notifying a c }, [])
          | some l => some ({ s with level := l, phase := .notifying a c }, [.wrote a b l])
  | _ => none

def notify (s : State) : Option (State × List Event) :=
  match s.phase with
  | .notifying _ c =>
      some ({ s with phase := .polling }, if s.onReload then [.reloaded c] else [])
  | _ => none

def quietly (s : State) : State × List Event := (s, [])

def step (lib : Library) (s : State) : Action → Option (State × List Event)
  | .stat found => (stat s found).map quietly
  | .read content => (read s content).map quietly
  | .set => set lib s
  | .notify => notify s
  | .leave =>
      if s.phase = .polling ∧ s.stopped = true then some (quietly { s with phase := .returned })
      else none
  | .stop => if s.starting then none else some (quietly { s with stopped := true })
  | .register callback =>
      if s.starting then none else some (quietly { s with onReload := callback })
  | .store l => some (quietly { s with level := l })
  | .serve r => some (quietly { s with level := (LevelHandler.serveHTTP lib.toStrings s.level r).1 })
  | .signal => some (quietly { s with level := s.cycle.deliver.1, cycle := s.cycle.deliver.2 })

def start (level : Level) (cycle : LevelCycle) : State where
  level := level
  lastMod := Time.zero
  phase := .booting
  onReload := false
  stopped := false
  cycle := cycle
  applied := none
  polled := false

def machine (lib : Library) (level : Level) (cycle : LevelCycle) : Machine State Action Event where
  init := start level cycle
  step := step lib

-- The level a file with this content asks for.
def fileLevel (lib : Library) (content : Bytes) : Option Level :=
  (lib.unmarshal content).bind fun c => parseLevel lib.toStrings c.level

-- The mtime is the one the previous call of apply was made at.
def Application.stale (a : Application) : Bool := a.previous.any a.mtime.equal

def Event.Stale : Event → Prop
  | .wrote a _ _ => a.origin ≠ .startup ∧ a.stale = true
  | .reloaded _ => False

-- Polls write the level of a file whose mtime has moved, and nothing else of the watcher does.
def AppliesChanges (lib : Library) (log : List Event) (s : State) : Prop :=
  (∀ e ∈ log, ¬ e.Stale) ∧
  ∀ act s' evs, act.watcher = true → step lib s act = some (s', evs) →
    (s'.level = s.level ∧ ∀ a b l, .wrote a b l ∉ evs) ∨
    ∃ a b l, s.phase = .setting a b ∧ fileLevel lib b = some l ∧ evs = [.wrote a b l] ∧ s'.level = l

-- The first poll to apply the file does not find, at the mtime of the startup, a valid level.
def Fresh (lib : Library) (s : State) (act : Action) : Prop :=
  match act, s.phase with
  | .set, .setting a b => a.origin = .firstPoll → a.stale = true → fileLevel lib b = none
  | _, _ => True

instance (lib : Library) (s : State) (act : Action) : Decidable (Fresh lib s act) := by
  unfold Fresh
  split <;> infer_instance

section Steps

variable {lib : Library} {s s' : State} {act : Action} {evs : List Event}

-- What a step can do: leave the watcher alone, move it on without a write, begin a call of apply
-- or write the level.
inductive Step (lib : Library) (s : State) : Action → State → List Event → Prop
  | outside {act : Action} {level : Level} {onReload stopped : Bool} {cycle : LevelCycle} :
      act.watcher = false →
      Step lib s act { s with level := level, onReload := onReload, stopped := stopped, cycle := cycle } []
  | advance {act : Action} {phase : Phase} {evs : List Event} : phase ≠ .booting →
      (∀ a, phase.application = some a → s.phase.application = some a) →
      (∀ a b l, .wrote a b l ∉ evs) →
      (∀ a b, act = .set → s.phase = .setting a b → fileLevel lib b = none) →
      Step lib s act { s with phase := phase } evs
  | startup {m : Time} : s.phase = .booting → Step lib s (.stat (some m)) (s.begin .startup m) []
  | poll {m : Time} : m.equal s.lastMod = false → Step lib s (.stat (some m)) (s.beginPoll m) []
  | write {a : Application} {b : Bytes} {c : FileConfig} {l : Level} : s.phase = .setting a b →
      fileLevel lib b = some l →
      Step lib s .set { s with level := l, phase := .notifying a c } [.wrote a b l]

theorem Step.move {phase : Phase} (hphase : phase ≠ .booting) (hact : act ≠ .set)
    (happ : ∀ a, phase.application = some a → s.phase.application = some a) :
    Step lib s act { s with phase := phase } [] :=
  .advance hphase happ (fun _ _ _ => List.not_mem_nil) fun _ _ h => absurd h hact

theorem stat_cases {found : Option Time} (h : stat s found = some s') :
    Step lib s (.stat found) s' [] := by
  simp only [stat] at h
  split at h
  next => cases h; exact .move nofun nofun nofun
  next hphase => cases h; exact .startup hphase
  next hphase => cases h; exact .move (by simp [hphase]) nofun fun _ h => h
  next m hphase =>
    split at h
    next => cases h; exact .move (by simp [hphase]) nofun fun _ h => h
    next hm => cases h; exact .poll (by simpa using hm)
  next => cases h

theorem read_cases {content : Option Bytes} (h : read s content = some s') :
    Step lib s (.read content) s' [] := by
  simp only [read] at h
  split at h
  next => cases h; exact .move nofun nofun nofun
  next hphase => cases h; exact .move nofun nofun fun _ h => by rwa [hphase]
  next => cases h

theorem set_cases (h : set lib s = some (s', evs)) : Step lib s .set s' evs := by
  simp only [set] at h
  split at h
  next a b hphase =>
    have hlevel : ∀ {o}, fileLevel lib b = o → ∀ a' b', Action.set = .set →
        s.phase = .setting a' b' → fileLevel lib b' = o := by
      intro o ho a' b' _ hphase'
      cases hphase.symm.trans hphase'
      exact ho
    split at h
    next hc =>
      cases h
      exact .advance nofun nofun (fun _ _ _ => List.not_mem_nil) (hlevel (by simp [fileLevel, hc]))
    next c hc =>
      split at h
      next hl =>
        cases h
        exact .advance nofun (fun _ h => by rwa [hphase]) (fun _ _ _ => List.not_mem_nil)
          (hlevel (by simp [fileLevel, hc, hl]))
      next l hl =>
        cases h
        exact .write hphase (by simp [fileLevel, hc, hl])
  next => cases h

theorem notify_cases (h : notify s = some (s', evs)) : Step lib s .notify s' evs := by
  simp only [notify] at h
  split at h
  next =>
    cases h
    refine .advance nofun nofun (fun a b l hmem => ?_) nofun
    split at hmem <;> simp at hmem
  next => cases h

theorem step_cases (h : step lib s act = some (s', evs)) : Step lib s act s' evs := by
  cases act with
  | stat found =>
    obtain ⟨_, hstat, hs⟩ := Option.map_eq_some_iff.mp h
    cases hs
    exact stat_cases hstat
  | read content =>
    obtain ⟨_, hread, hs⟩ := Option.map_eq_some_iff.mp h
    cases hs
    exact read_cases hread
  | set => exact set_cases h
  | notify => exact notify_cases h
  | leave =>
    simp only [step] at h
    split at h <;> cases h
    exact .move nofun nofun nofun
  | stop =>
    simp only [step] at h
    split at h <;> cases h
    exact .outside rfl
  | register =>
    simp only [step] at h
    split at h <;> cases h
    exact .outside rfl
  | store | serve | signal =>
    cases h
    exact .outside rfl

-- run remembers the mtime of the last call of apply once a poll has made one, and only then.
structure Tracked (s : State) : Prop where
  booting : s.phase = .booting → s.polled = false
  lastMod : s.polled = true → s.applied = some s.lastMod
  moved : ∀ a, s.phase.application = some a → a.origin = .laterPoll → a.stale = false

theorem Tracked.step (T : Tracked s) (hs : Step lib s act s' evs) : Tracked s' := by
  cases hs with
  | outside => exact ⟨T.booting, T.lastMod, T.moved⟩
  | advance hphase happ =>
    exact ⟨fun h => absurd h hphase, T.lastMod, fun a ha => T.moved a (happ a ha)⟩
  | startup hphase =>
    refine ⟨nofun, fun h => ?_, fun a ha hlater => ?_⟩
    · exact absurd (T.booting hphase) (by simp [show s.polled = true from h])
    · cases ha
      cases hlater
  | @poll m hm =>
    refine ⟨nofun, fun _ => rfl, fun a ha hlater => ?_⟩
    cases ha
    cases hpolled : s.polled with
    | false => simp [hpolled] at hlater
    | true => simpa [Application.stale, T.lastMod hpolled] using hm
  | write hphase =>
    refine ⟨nofun, T.lastMod, fun a ha => T.moved a ?_⟩
    rw [hphase]
    exact ha

theorem Tracked.fresh_iff (T : Tracked s) (hs : Step lib s act s' evs) :
    Fresh lib s act ↔ ∀ e ∈ evs, ¬ e.Stale := by
  have hquiet : (∀ a b l, Event.wrote a b l ∉ evs) → ∀ e ∈ evs, ¬ e.Stale := by
    intro h e he
    cases e with
    | wrote a b l => exact absurd he (h a b l)
    | reloaded c => exact not_false
  cases hs with
  | outside hact => cases act <;> simp_all [Fresh, Action.watcher]
  | advance _ _ hevs hset =>
    refine iff_of_true ?_ (hquiet hevs)
    unfold Fresh
    split
    next hphase => exact fun _ _ => hset _ _ rfl hphase
    next => trivial
  | startup => simp [Fresh]
  | poll => simp [Fresh]
  | @write a b c l hphase hl =>
    have hmoved := T.moved a (by rw [hphase]; rfl)
    simp only [Fresh, hphase, hl, List.mem_singleton, forall_eq, Event.Stale]
    cases horigin : a.origin with
    | startup => simp
    | firstPoll => simp
    | laterPoll => simp [hmoved horigin]

theorem level_step (hs : Step lib s act s' evs) (hact : act.watcher = true) :
    (s'.level = s.level ∧ ∀ a b l, .wrote a b l ∉ evs) ∨
    ∃ a b l, s.phase = .setting a b ∧ fileLevel lib b = some l ∧ evs = [.wrote a b l] ∧
      s'.level = l := by
  cases hs with
  | outside h => exact absurd hact (by simp [h])
  | advance _ _ hevs => exact .inl ⟨rfl, hevs⟩
  | startup => exact .inl ⟨rfl, fun _ _ _ => List.not_mem_nil⟩
  | poll => exact .inl ⟨rfl, fun _ _ _ => List.not_mem_nil⟩
  | write hphase hl => exact .inr ⟨_, _, _, hphase, hl, rfl, rfl⟩

end Steps

section Runs

variable {lib : Library} {level : Level} {cycle : LevelCycle} {log : List Event} {s : State}

theorem tracked_start (level : Level) (cycle : LevelCycle) : Tracked (start level cycle) :=
  ⟨fun _ => rfl, nofun, nofun⟩

theorem tracked (h : (machine lib level cycle).Run log s) : Tracked s :=
  h.invariant (P := fun _ s => Tracked s) (tracked_start level cycle)
    fun _ T _ hs => T.step (step_cases hs)

theorem exec_fresh_iff : (machine lib level cycle).Exec (Fresh lib) log s ↔
    (machine lib level cycle).Run log s ∧ ∀ e ∈ log, ¬ e.Stale := by
  refine Machine.exec_iff (G := fun (log : List Event) _ => ∀ e ∈ log, ¬ e.Stale) nofun
    fun h hs => ?_
  rw [(tracked h).fresh_iff (step_cases hs), List.forall_mem_append]

theorem appliesChanges_iff (h : (machine lib level cycle).Run log s) :
    AppliesChanges lib log s ↔ (machine lib level cycle).Exec (Fresh lib) log s := by
  rw [exec_fresh_iff]
  constructor
  · exact fun hchanges => ⟨h, hchanges.1⟩
  · rintro ⟨-, hlog⟩
    exact ⟨hlog, fun _ _ _ hact hs => level_step (step_cases hs) hact⟩

end Runs

def file (level : Bytes) : Bytes := ascii "\x7b\"level\":\"" ++ level ++ ascii "\"\x7d"

-- Texts in ASCII, and files that hold the one member and no blanks.
def plain : Library where
  toStrings := asciiStrings
  unmarshal b :=
    let level := (b.drop 10).take (b.length - 12)
    if b = file level then some ⟨level⟩ else none

def usr2 : LevelCycle := ⟨Level.info, Level.trace, false⟩

def second (n : Int) : Time := ⟨n, 0, 0, Time.zero_nsec_lt⟩

-- What the watcher does when it finds a file of that time and level to apply.
def visit (t : Time) (level : String) : List Action :=
  [.stat (some t), .read (some (file (ascii level))), .set, .notify]

def operator : Action := .serve ⟨.put, [], [ascii "debug"]⟩

theorem appliesChanges_iff_edited :
    ∃ log s, (machine plain Level.info usr2).Run log s ∧ s.level = Level.debug ∧
      log.length = 2 ∧ AppliesChanges plain log s := by
  obtain ⟨log, s, h, hgood⟩ := Machine.exists_exec (M := machine plain Level.info usr2)
    (C := Fresh plain)
    (visit (second 100) "info" ++ .signal :: visit (second 160) "Warn " ++
      visit (second 220) "loud" ++ [operator, .stat (some (second 220))])
    (fun log s => decide (s.level = Level.debug ∧ log.length = 2)) (by decide +kernel)
  obtain ⟨hlevel, hlog⟩ := of_decide_eq_true hgood
  exact ⟨log, s, h.run, hlevel, hlog, (appliesChanges_iff h.run).mpr h⟩

-- The operator's level is replaced by the one of a file that nobody has touched.
theorem operator_level_undone :
    ((machine plain Level.info usr2).perform [] (start Level.info usr2)
      (visit (second 100) "info" ++ [operator])).map (fun p => p.2.level) = some Level.debug ∧
    ∃ log s, (machine plain Level.info usr2).perform [] (start Level.info usr2)
      (visit (second 100) "info" ++ operator :: visit (second 100) "info") = some (log, s) ∧
      s.level = Level.info ∧ ¬ AppliesChanges plain log s := by
  refine ⟨by decide +kernel, ?_⟩
  have hundone : ((machine plain Level.info usr2).perform [] (start Level.info usr2)
      (visit (second 100) "info" ++ operator :: visit (second 100) "info")).any (fun p =>
        decide (p.2.level = Level.info ∧
          .wrote ⟨.firstPoll, second 100, some (second 100)⟩ (file (ascii "info")) Level.info ∈ p.1)) =
        true := by
    decide +kernel
  obtain ⟨⟨log, s⟩, hp, hgood⟩ := (Option.any_eq_true _ _).mp hundone
  obtain ⟨hlevel, hwrote⟩ := of_decide_eq_true hgood
  exact ⟨log, s, hp, hlevel, fun hchanges => hchanges.1 _ hwrote ⟨by decide, by decide⟩⟩

end UbgoLogger.ConfigWatcher
