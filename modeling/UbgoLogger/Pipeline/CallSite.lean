import UbgoLogger.Pipeline.Template

namespace UbgoLogger
open Foundation.Text

variable {π χ υ : Type}

inductive Method where
  | trace
  | debug
  | info
  | warn
  | error
  | traceContext
  | debugContext
  | infoContext
  | warnContext
  | errorContext
  | log
  | debugt
  | infot
  | warnt
  | errort
  | logt
  | event
  | eventAt
  deriving DecidableEq

inductive Method.Kind where
  | plain
  | templated
  | event
  deriving DecidableEq

def Method.kind : Method → Method.Kind
  | .debugt | .infot | .warnt | .errort | .logt => .templated
  | .event | .eventAt => .event
  | _ => .plain

-- The program counters that the frames inside the package stand at.
structure Code where
  callers : UInt64
  log : UInt64
  logt : UInt64
  method : Method → UInt64

-- runtime.Callers into one slot, which stays zero when the stack ends before.
def callers (skip : Nat) (stack : List UInt64) : UInt64 := (stack[skip]?).getD 0

namespace Logger

-- What a call is made in: the clock, and the stack from the calling function upwards.
structure Env where
  code : Code
  now : Time
  user : List UInt64

section Methods

variable (l : Logger π χ υ) (callerSkip : Nat) (rt : Runtime χ) (env : Env) (st : π)

def site (stack : List UInt64) : Site where
  now := env.now
  pc := callers (3 + callerSkip) (env.code.callers :: env.code.log :: stack)

def leveled (m : Method) (ctx : Option (Context χ υ)) (level : Level) (msg : Bytes)
    (f : List (Field χ)) : π × Option (Rec χ υ) :=
  l.log st (site callerSkip env (env.code.method m :: env.user)) ctx level msg f

def templated (m : Method) (ctx : Option (Context χ υ)) (level : Level) (tmpl : Bytes)
    (args : List (AnyVal χ)) : π × Option (Rec χ υ) :=
  l.logt rt st (site callerSkip env (env.code.logt :: env.code.method m :: env.user)) ctx level tmpl
    args

-- eventAt does not ask for its callers.
def named (ctx : Option (Context χ υ)) (level : Level) (name : Bytes) (f : List (Field χ)) :
    π × Option (Rec χ υ) :=
  l.eventAt st ⟨env.now, 0⟩ ctx level name f

def trace := l.leveled callerSkip env st .trace (some Context.background) Level.trace

def debug := l.leveled callerSkip env st .debug (some Context.background) Level.debug

def info := l.leveled callerSkip env st .info (some Context.background) Level.info

def warn := l.leveled callerSkip env st .warn (some Context.background) Level.warn

def error := l.leveled callerSkip env st .error (some Context.background) Level.error

def traceContext (ctx : Option (Context χ υ)) :=
  l.leveled callerSkip env st .traceContext ctx Level.trace

def debugContext (ctx : Option (Context χ υ)) :=
  l.leveled callerSkip env st .debugContext ctx Level.debug

def infoContext (ctx : Option (Context χ υ)) :=
  l.leveled callerSkip env st .infoContext ctx Level.info

def warnContext (ctx : Option (Context χ υ)) :=
  l.leveled callerSkip env st .warnContext ctx Level.warn

def errorContext (ctx : Option (Context χ υ)) :=
  l.leveled callerSkip env st .errorContext ctx Level.error

def logMethod := l.leveled callerSkip env st .log

def debugt := l.templated callerSkip rt env st .debugt (some Context.background) Level.debug

def infot := l.templated callerSkip rt env st .infot (some Context.background) Level.info

def warnt := l.templated callerSkip rt env st .warnt (some Context.background) Level.warn

def errort := l.templated callerSkip rt env st .errort (some Context.background) Level.error

def logtMethod := l.templated callerSkip rt env st .logt

def event := l.named env st (some Context.background) Level.info

def eventAtMethod := l.named env st

end Methods

-- Everything a method may be given; text is its message, its template or the name of its event.
structure Args (χ υ : Type) where
  ctx : Option (Context χ υ)
  level : Level
  text : Bytes
  fields : List (Field χ)
  args : List (AnyVal χ)

def emit (l : Logger π χ υ) (callerSkip : Nat) (rt : Runtime χ) (env : Env) (st : π)
    (a : Args χ υ) : Method → π × Option (Rec χ υ)
  | .trace => l.trace callerSkip env st a.text a.fields
  | .debug => l.debug callerSkip env st a.text a.fields
  | .info => l.info callerSkip env st a.text a.fields
  | .warn => l.warn callerSkip env st a.text a.fields
  | .error => l.error callerSkip env st a.text a.fields
  | .traceContext => l.traceContext callerSkip env st a.ctx a.text a.fields
  | .debugContext => l.debugContext callerSkip env st a.ctx a.text a.fields
  | .infoContext => l.infoContext callerSkip env st a.ctx a.text a.fields
  | .warnContext => l.warnContext callerSkip env st a.ctx a.text a.fields
  | .errorContext => l.errorContext callerSkip env st a.ctx a.text a.fields
  | .log => l.logMethod callerSkip env st a.ctx a.level a.text a.fields
  | .debugt => l.debugt callerSkip rt env st a.text a.args
  | .infot => l.infot callerSkip rt env st a.text a.args
  | .warnt => l.warnt callerSkip rt env st a.text a.args
  | .errort => l.errort callerSkip rt env st a.text a.args
  | .logt => l.logtMethod callerSkip rt env st a.ctx a.level a.text a.args
  | .event => l.event env st a.text a.fields
  | .eventAt => l.eventAtMethod env st a.ctx a.level a.text a.fields

-- The program counter that a record of this method is stamped with.
def stamp (callerSkip : Nat) (env : Env) (m : Method) : UInt64 :=
  match m.kind with
  | .plain => (env.user[callerSkip]?).getD 0
  | .templated => ((env.code.method m :: env.user)[callerSkip]?).getD 0
  | .event => 0

def stamped (pc : UInt64) (p : π × Option (Rec χ υ)) : π × Option (Rec χ υ) :=
  (p.1, p.2.map fun r => { r with pc := pc })

-- The processor does the same whatever the program counter is, and keeps it.
def PcBlind (p : Processor π χ υ) : Prop :=
  ∀ st ctx r pc, p st ctx { r with pc := pc } = stamped pc (p st ctx r)

theorem pcBlind_pathRedactor (pr : PathRedactor) (hashValue : Field χ → Bytes) :
    PcBlind (pr.process hashValue : Processor π χ υ) :=
  fun _ _ _ _ => rfl

theorem runPipeline_blind {ps : List (Processor π χ υ)} (h : ∀ p ∈ ps, PcBlind p) (st : π)
    (ctx : Context χ υ) (r : Rec χ υ) (pc : UInt64) :
    runPipeline ps st ctx { r with pc := pc } = stamped pc (runPipeline ps st ctx r) := by
  induction ps generalizing st r with
  | nil => rfl
  | cons p ps ih =>
    obtain ⟨hp, hps⟩ := List.forall_mem_cons.mp h
    rw [runPipeline, hp, runPipeline]
    rcases p st ctx r with ⟨st', - | r'⟩
    · rfl
    · exact ih hps st' r'

section Stamps

variable {l : Logger π χ υ} (h : ∀ p ∈ l.processors, PcBlind p) (caller : Bool) (st : π)
include h

theorem log_stamped (s : Site) (ctx : Option (Context χ υ)) (level : Level) (msg : Bytes)
    (f : List (Field χ)) :
    { l with addCaller := caller }.log st s ctx level msg f =
      stamped (if caller then s.pc else 0)
        ({ l with addCaller := false }.log st s ctx level msg f) := by
  by_cases hlevel : level < l.level
  · simp only [log, hlevel, if_true]
    rfl
  · simp only [log, hlevel, if_false]
    exact runPipeline_blind h st _ ({ l with addCaller := false }.record s ctx level msg f) _

theorem logt_stamped (rt : Runtime χ) (s : Site) (ctx : Option (Context χ υ)) (level : Level)
    (tmpl : Bytes) (args : List (AnyVal χ)) :
    { l with addCaller := caller }.logt rt st s ctx level tmpl args =
      stamped (if caller then s.pc else 0)
        ({ l with addCaller := false }.logt rt st s ctx level tmpl args) := by
  by_cases hlevel : l.level ≤ level
  · simp only [logt, hlevel, if_true]
    exact log_stamped h caller st s ctx level _ _
  · simp only [logt, hlevel, if_false]
    rfl

theorem eventAt_stamped (s : Site) (ctx : Option (Context χ υ)) (level : Level) (name : Bytes)
    (f : List (Field χ)) :
    { l with addCaller := caller }.eventAt st s ctx level name f =
      stamped 0 ({ l with addCaller := false }.eventAt st s ctx level name f) := by
  simp only [eventAt]
  split_ifs
  · rfl
  · exact runPipeline_blind h st _
      { { l with addCaller := false }.record s ctx level [] f with pc := 0, eventName := name } 0

omit h in
theorem site_pc (callerSkip : Nat) (env : Env) (a : UInt64) (stack : List UInt64) :
    (site callerSkip env (a :: stack)).pc = (stack[callerSkip]?).getD 0 := by
  simp [site, callers, Nat.add_comm 3]

theorem leveled_stamped (callerSkip : Nat) (env : Env) (m : Method) (ctx : Option (Context χ υ))
    (level : Level) (msg : Bytes) (f : List (Field χ)) :
    { l with addCaller := caller }.leveled callerSkip env st m ctx level msg f =
      stamped (if caller then (env.user[callerSkip]?).getD 0 else 0)
        ({ l with addCaller := false }.leveled callerSkip env st m ctx level msg f) := by
  rw [leveled, log_stamped h, site_pc]
  rfl

theorem templated_stamped (callerSkip : Nat) (rt : Runtime χ) (env : Env) (m : Method)
    (ctx : Option (Context χ υ)) (level : Level) (tmpl : Bytes) (args : List (AnyVal χ)) :
    { l with addCaller := caller }.templated callerSkip rt env st m ctx level tmpl args =
      stamped (if caller then ((env.code.method m :: env.user)[callerSkip]?).getD 0 else 0)
        ({ l with addCaller := false }.templated callerSkip rt env st m ctx level tmpl args) := by
  rw [templated, logt_stamped h, site_pc]
  rfl

theorem named_stamped (env : Env) (ctx : Option (Context χ υ)) (level : Level) (name : Bytes)
    (f : List (Field χ)) :
    { l with addCaller := caller }.named env st ctx level name f =
      stamped (if caller then 0 else 0)
        ({ l with addCaller := false }.named env st ctx level name f) := by
  rw [ite_self]
  exact eventAt_stamped h caller st _ ctx level name f

theorem emit_stamped (callerSkip : Nat) (rt : Runtime χ) (env : Env) (a : Args χ υ) (m : Method) :
    { l with addCaller := caller }.emit callerSkip rt env st a m =
      stamped (if caller then stamp callerSkip env m else 0)
        ({ l with addCaller := false }.emit callerSkip rt env st a m) := by
  cases m with
  | debugt | infot | warnt | errort | logt =>
    exact templated_stamped h caller st callerSkip rt env _ _ _ a.text a.args
  | event | eventAt => exact named_stamped h caller st env _ _ a.text a.fields
  | _ => exact leveled_stamped h caller st callerSkip env _ _ _ a.text a.fields

end Stamps

-- The record is stamped with the frame callerSkip levels above the caller, and is otherwise the
-- record without capture.
def Attributed (l : Logger π χ υ) (callerSkip : Nat) (rt : Runtime χ) (env : Env) (st : π)
    (a : Args χ υ) (m : Method) : Prop :=
  ∀ r, ({ l with addCaller := true }.emit callerSkip rt env st a m).2 = some r →
    r.pc ≠ 0 ∧ env.user[callerSkip]? = some r.pc ∧
    { l with addCaller := false }.emit callerSkip rt env st a m =
      (({ l with addCaller := true }.emit callerSkip rt env st a m).1, some { r with pc := 0 })

section Attribution

variable {callerSkip : Nat} {env : Env} {m : Method}

theorem stamp_eq_iff (hpc : ∀ pc ∈ env.user, pc ≠ 0) (hdepth : callerSkip < env.user.length) :
    stamp callerSkip env m = env.user[callerSkip] ↔
      m.kind = .plain ∨ m.kind = .templated ∧
        (env.code.method m :: env.user)[callerSkip]? = env.user[callerSkip]? := by
  have hlt : callerSkip < (env.code.method m :: env.user).length := Nat.lt_succ_of_lt hdepth
  unfold stamp
  cases m.kind with
  | plain => simp [hdepth]
  | templated => simp [List.getElem?_eq_getElem hlt, List.getElem?_eq_getElem hdepth]
  | event => simpa using (hpc _ (List.getElem_mem hdepth)).symm

-- A call whose record is dropped or filtered out attributes nothing.
theorem attributed_at_iff {l : Logger π χ υ} (h : ∀ p ∈ l.processors, PcBlind p)
    (hpc : ∀ pc ∈ env.user, pc ≠ 0) (hdepth : callerSkip < env.user.length) (rt : Runtime χ) (st : π)
    (a : Args χ υ) :
    l.Attributed callerSkip rt env st a m ↔
      ({ l with addCaller := false }.emit callerSkip rt env st a m).2 = none ∨
        m.kind = .plain ∨ m.kind = .templated ∧
          (env.code.method m :: env.user)[callerSkip]? = env.user[callerSkip]? := by
  rw [← stamp_eq_iff hpc hdepth]
  have hon := emit_stamped h true st callerSkip rt env a m
  have hoff := emit_stamped h false st callerSkip rt env a m
  rw [if_pos rfl] at hon
  rw [if_neg Bool.false_ne_true] at hoff
  rw [Attributed, hon]
  cases hr : ({ l with addCaller := false }.emit callerSkip rt env st a m).2 with
  | none => simp [stamped, hr]
  | some r =>
    have hframe : env.user[callerSkip]? = some env.user[callerSkip] :=
      List.getElem?_eq_getElem hdepth
    constructor
    · intro hattributed
      obtain ⟨-, hpc', -⟩ := hattributed { r with pc := stamp callerSkip env m } (by simp [stamped, hr])
      rw [hframe] at hpc'
      exact .inr (Option.some.inj hpc').symm
    · rintro (hnone | hstamp) r' hr'
      · cases hnone
      · obtain ⟨q, hq, rfl⟩ := Option.map_eq_some_iff.mp hr'
        rw [hstamp]
        refine ⟨hpc _ (List.getElem_mem hdepth), hframe, hoff.trans ?_⟩
        exact Prod.ext rfl (by simp [stamped, hq])

-- A logger without a pipeline lets every record of a named level through.
def bareLogger : Logger Unit χ υ := ⟨Level.trace, [], [], true⟩

def bareArgs : Args χ υ := ⟨none, Level.trace, [], [], []⟩

theorem emit_bare (callerSkip : Nat) (rt : Runtime χ) (env : Env) (m : Method) :
    ∃ r, ({ (bareLogger : Logger Unit χ υ) with addCaller := false }.emit callerSkip rt env ()
      bareArgs m).2 = some r := by
  cases m <;> exact ⟨_, rfl⟩

end Attribution

theorem attributed_iff (callerSkip : Nat) (rt : Runtime χ) (env : Env) (m : Method)
    (hpc : ∀ pc ∈ env.user, pc ≠ 0) (hdepth : callerSkip < env.user.length) :
    (∀ (π : Type) (l : Logger π χ υ) (st : π) (a : Args χ υ), (∀ p ∈ l.processors, PcBlind p) →
      l.Attributed callerSkip rt env st a m) ↔
    m.kind = .plain ∨ m.kind = .templated ∧
      (env.code.method m :: env.user)[callerSkip]? = env.user[callerSkip]? := by
  constructor
  · intro h
    obtain ⟨r, hr⟩ := emit_bare (υ := υ) callerSkip rt env m
    have hbare := (attributed_at_iff nofun hpc hdepth rt () bareArgs).mp
      (h Unit bareLogger () bareArgs nofun)
    exact hbare.resolve_left fun hnone => absurd (hr.symm.trans hnone) (Option.some_ne_none r)
  · intro hkind π l st a h
    exact (attributed_at_iff h hpc hdepth rt st a).mpr (.inr hkind)

def sampleCode : Code where
  callers := 1
  log := 2
  logt := 3
  method := fun m => if m = .infot then 4 else 5

def sampleEnv : Env where
  code := sampleCode
  now := Template.loginSite.now
  user := [16, 32]

theorem sampleEnv_user : ∀ pc ∈ sampleEnv.user, pc ≠ 0 := by
  simp [sampleEnv]

theorem attributed_iff_info :
    (∀ pc ∈ sampleEnv.user, pc ≠ 0) ∧ 1 < sampleEnv.user.length ∧
    (bareLogger : Logger Unit Unit Unit).Attributed 1 bareRuntime sampleEnv () bareArgs .info :=
  ⟨sampleEnv_user, by decide,
    (attributed_iff 1 bareRuntime sampleEnv .info sampleEnv_user (by decide)).mpr (.inl rfl) Unit
      bareLogger () bareArgs nofun⟩

def sampleEmit (m : Method) : Option (Rec Unit Unit) :=
  (bareLogger.emit 0 bareRuntime sampleEnv () bareArgs m).2

theorem caller_lost :
    (∀ pc ∈ sampleEnv.user, pc ≠ 0) ∧ 0 < sampleEnv.user.length ∧
    (sampleEmit .info).map Record.pc = some 16 ∧
    ((sampleEmit .infot).map Record.pc = some 4 ∧
      ¬ (bareLogger : Logger Unit Unit Unit).Attributed 0 bareRuntime sampleEnv () bareArgs .infot) ∧
    (sampleEmit .event).map Record.pc = some 0 ∧
      ¬ (bareLogger : Logger Unit Unit Unit).Attributed 0 bareRuntime sampleEnv () bareArgs .event :=
  ⟨sampleEnv_user, by decide, by decide,
    ⟨by decide, fun h => absurd (h _ rfl).2.1 (by decide)⟩, by decide,
    fun h => absurd (h _ rfl).1 (by decide)⟩

end Logger

end UbgoLogger
