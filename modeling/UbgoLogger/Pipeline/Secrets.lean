import UbgoLogger.Encode.JsonLine
import UbgoLogger.Pipeline.Enrich
import UbgoLogger.Pipeline.RedactPaths
import UbgoLogger.Transport.Delivery

namespace UbgoLogger.Secrets
open Foundation Foundation.Text Delivery
open Transport (Item Async OverflowPolicy Orderly)
open Calling (Caller Call)
open Sink (Writer.Config)

variable {ι π χ υ ε : Type}

-- What a sink can show of a record: all but the context it was logged with.
def strip (r : Rec χ υ) : Rec χ υ := { r with ctx := none }

def scope (c : Call χ υ) : Context χ υ := c.ctx.getD Context.background

-- Two calls that differ at most in the values the redactor censors.
structure SameCall (e : EnrichProcessor χ υ) (pr : PathRedactor) (c c' : Call χ υ) : Prop where
  site : c.site = c'.site
  level : c.level = c'.level
  msg : c.msg = c'.msg
  fields : pr.SameElsewhere c.fields c'.fields
  bound : pr.SameElsewhere (scope c).ctxFields (scope c').ctxFields
  traced : e.extract (scope c) = e.extract (scope c')

structure SameLogger (e : EnrichProcessor χ υ) (pr : PathRedactor) (hash : Field χ → Bytes)
    (l l' : Logger π χ υ) : Prop where
  level : l.level = l'.level
  addCaller : l.addCaller = l'.addCaller
  withFields : pr.SameElsewhere l.withFields l'.withFields
  left : l.processors = [e.processor, pr.process hash]
  right : l'.processors = [e.processor, pr.process hash]

def outcome (l : Logger π χ υ) (st : π) (c : Call χ υ) : Option (Rec χ υ) :=
  (l.log st c.site c.ctx c.level c.msg c.fields).2

section Pipeline

variable {e : EnrichProcessor χ υ} {pr : PathRedactor} {hash : Field χ → Bytes}
  {l l' : Logger π χ υ} {c c' : Call χ υ}

def enriched (e : EnrichProcessor χ υ) (l : Logger π χ υ) (c : Call χ υ) : List (Field χ) :=
  l.withFields ++ c.fields ++ (scope c).ctxFields ++ e.traceFields (scope c)

theorem outcome_eq (hl : l.processors = [e.processor, pr.process hash]) (st : π) (c : Call χ υ) :
    outcome l st c = if c.level < l.level then none else
      some { l.record c.site c.ctx c.level c.msg c.fields with
        fields := (enriched e l c).filterMap (pr.redactField hash) } := by
  rw [outcome, Logger.log, hl]
  split <;> rfl

theorem stateless_pipeline (hl : l.processors = [e.processor, pr.process hash]) :
    Stateless l.processors := by
  rw [hl]
  intro q hq st st' ctx r
  rcases List.mem_pair.mp hq with rfl | rfl <;> rfl

theorem sameElsewhere_refl (fs : List (Field χ)) : pr.SameElsewhere fs fs :=
  List.forall₂_same.mpr fun _ _ => .inl rfl

theorem sameElsewhere_append {fs gs fs' gs' : List (Field χ)} (h : pr.SameElsewhere fs gs)
    (h' : pr.SameElsewhere fs' gs') : pr.SameElsewhere (fs ++ fs') (gs ++ gs') :=
  List.rel_append h h'

theorem enriched_same (hl : SameLogger e pr hash l l') (hc : SameCall e pr c c') :
    pr.SameElsewhere (enriched e l c) (enriched e l' c') := by
  have htrace : e.traceFields (scope c) = e.traceFields (scope c') := by
    rw [EnrichProcessor.traceFields, EnrichProcessor.traceFields, hc.traced]
  rw [enriched, enriched, htrace]
  exact sameElsewhere_append (sameElsewhere_append (sameElsewhere_append hl.withFields hc.fields)
    hc.bound) (sameElsewhere_refl _)

theorem outcome_same (hs : pr.strategy ≠ .hash) (hl : SameLogger e pr hash l l')
    (hc : SameCall e pr c c') (st st' : π) :
    (outcome l st c).map strip = (outcome l' st' c').map strip := by
  rw [outcome_eq hl.left, outcome_eq hl.right, hc.level, hl.level]
  split
  · rfl
  · have hfields : (enriched e l c).filterMap (pr.redactField hash) =
        (enriched e l' c').filterMap (pr.redactField hash) :=
      PathRedactor.filterMap_redactField_congr hs (enriched_same hl hc)
    simp [strip, Logger.record, hfields, hc.site, hc.msg, hl.addCaller]

theorem outcomes_same (hs : pr.strategy ≠ .hash) (hl : SameLogger e pr hash l l') (st st' : π)
    {cs cs' : List (Call χ υ)} (h : List.Forall₂ (SameCall e pr) cs cs') :
    (cs.filterMap (outcome l st)).map strip = (cs'.filterMap (outcome l' st')).map strip := by
  rw [List.map_filterMap, List.map_filterMap]
  induction h with
  | nil => rfl
  | cons hc _ ih =>
    rw [List.filterMap_cons, List.filterMap_cons, outcome_same hs hl hc st st', ih]

end Pipeline

-- An encoder and a level that read nothing of the context.
def Contextless (p : Writer.Config Unit (Rec χ υ)) : Prop :=
  ∀ r, (p.enc ()).encode [] (strip r) = (p.enc ()).encode [] r ∧ p.level (strip r) = p.level r

theorem Contextless.lines {p : Writer.Config Unit (Rec χ υ)} (h : Contextless p) (level : Level)
    (rs : List (Rec χ υ)) :
    ((rs.map strip).filter fun r => level ≤ p.level r).map ((p.enc ()).encode []) =
      (rs.filter fun r => level ≤ p.level r).map ((p.enc ()).encode []) := by
  rw [List.filter_map, List.map_map]
  simp only [Function.comp_def, fun r => (h r).1, fun r => (h r).2]

section Runs

variable [DecidableEq ι]

-- The calls of one goroutine, in its order.
def callsOf (log : List (Event ι χ υ ε)) (i : ι) : List (Call χ υ) :=
  (fibre Prod.fst i (calls log)).map Prod.snd

-- A run under Block with all calls returned and Close after them, in which no Write failed.
structure Finished (t : Async) (capacity : Int) (l : Logger π χ υ)
    (p : Writer.Config Unit (Rec χ υ)) (st : π) (level : Level) (log : List (Event ι χ υ ε))
    (s : State ι (t.State ι (Rec χ υ)) π χ υ ε) : Prop where
  run : (machine l (t.machine capacity .block) p st level).Run log s
  orderly : Orderly (carried log)
  closed : .closeRet () ∈ carried log
  idle : ∀ i, s.caller i = .idle
  ok : ∀ w ∈ Sink.Writer.writes () (sunk log), w.err = none

variable {e : EnrichProcessor χ υ} {pr : PathRedactor} {hash : Field χ → Bytes}
  {l l' : Logger π χ υ} {p : Writer.Config Unit (Rec χ υ)} {st st' : π} {level : Level}
  {t t' : Async} {capacity capacity' : Int}
  {log log' : List (Event ι χ υ ε)} {s : State ι (t.State ι (Rec χ υ)) π χ υ ε}
  {s' : State ι (t'.State ι (Rec χ υ)) π χ υ ε}

theorem fibre_outcomes (l : Logger π χ υ) (st : π) (log : List (Event ι χ υ ε)) (i : ι) :
    (fibre Prod.fst i (outcomes l st log)).map Prod.snd =
      (callsOf log i).filterMap (outcome l st) := by
  have hfibre : fibre Prod.fst i (outcomes l st log) =
      (fibre Prod.fst i (calls log)).filterMap fun q => (outcome l st q.2).map (Prod.mk q.1) := by
    refine fibre_filterMap (fun q y hy => ?_) i
    obtain ⟨r, -, rfl⟩ := Option.map_eq_some_iff.mp hy
    rfl
  rw [hfibre, callsOf, List.map_filterMap, List.filterMap_map]
  refine List.filterMap_congr fun q _ => ?_
  rw [Option.map_map]
  exact Option.map_id'

-- The lines that the calls of one goroutine come to.
def linesOf (l : Logger π χ υ) (p : Writer.Config Unit (Rec χ υ)) (st : π) (level : Level)
    (log : List (Event ι χ υ ε)) (i : ι) : List Bytes :=
  (((callsOf log i).filterMap (outcome l st)).filter fun r => level ≤ p.level r).map
    ((p.enc ()).encode [])

theorem fibre_records {xs : List (Item ι (Rec χ υ))}
    (h : ∀ i, fibre Prod.fst i (xs.map sent) = fibre Prod.fst i (outcomes l st log)) (i : ι) :
    (fibre Item.producer i xs).map Item.record = (callsOf log i).filterMap (outcome l st) := by
  rw [← fibre_outcomes, ← h i, fibre_sent, List.map_map]
  rfl

theorem Finished.stream (h : Finished t capacity l p st level log s)
    (hl : Stateless l.processors) :
    ∃ xs : List (ι × Bytes), s.sink.stream () = (xs.map Prod.snd).flatten ∧
      ∀ i, (fibre Prod.fst i xs).map Prod.snd = linesOf l p st level log i := by
  have hr := reached (t.engine capacity .block) h.run h.orderly h.closed h.idle
  have hrecords : ∀ i, (fibre Item.producer i (Transport.emitted (carried log))).map Item.record =
      (callsOf log i).filterMap (outcome l st) :=
    fibre_records fun i => ((hr.lossless rfl).2 i).trans (hr.answered hl i)
  refine ⟨((Transport.emitted (carried log)).filter fun x => level ≤ p.level x.record).map
    fun x => (x.producer, (p.enc ()).encode [] x.record), ?_, fun i => ?_⟩
  · have hlines : (Sink.Writer.writes () (sunk log)).map Sink.Writer.Written.text =
        ((Sink.Writer.writes () (sunk log)).map fun w => w.emission.record).map
          ((p.enc ()).encode []) := by
      rw [List.map_map]
      exact List.map_congr_left fun w hw => (hr.lines w hw).2 (h.ok w hw)
    rw [hr.stream, List.flatMap_def, hlines, hr.written, List.filter_map, List.map_map,
      List.map_map]
    rfl
  · rw [fibre_tagged, List.map_map, linesOf, ← hrecords, List.filter_map, List.map_map]
    simp only [fibre, Function.comp_def, List.map_map, List.filter_filter, Bool.and_comm]

theorem linesOf_same (hs : pr.strategy ≠ .hash) (hl : SameLogger e pr hash l l')
    (hp : Contextless p) {i : ι}
    (hcalls : List.Forall₂ (SameCall e pr) (callsOf log i) (callsOf log' i)) :
    linesOf l p st level log i = linesOf l' p st' level log' i := by
  rw [linesOf, linesOf, ← hp.lines, outcomes_same hs hl st st' hcalls, hp.lines]

theorem secrets_never_written (hs : pr.strategy ≠ .hash) (hl : SameLogger e pr hash l l')
    (hp : Contextless p) (h : Finished t capacity l p st level log s)
    (h' : Finished t' capacity' l' p st' level log' s')
    (hcalls : ∀ i, List.Forall₂ (SameCall e pr) (callsOf log i) (callsOf log' i)) :
    (∃ xs xs' : List (ι × Bytes), s.sink.stream () = (xs.map Prod.snd).flatten ∧
      s'.sink.stream () = (xs'.map Prod.snd).flatten ∧
      ∀ i, (fibre Prod.fst i xs).map Prod.snd = linesOf l p st level log i ∧
        (fibre Prod.fst i xs').map Prod.snd = linesOf l p st level log i) ∧
    (Subsingleton ι → s.sink.stream () = s'.sink.stream ()) := by
  obtain ⟨xs, hstream, hlines⟩ := h.stream (stateless_pipeline hl.left)
  obtain ⟨xs', hstream', hlines'⟩ := h'.stream (stateless_pipeline hl.right)
  have hother (i : ι) : (fibre Prod.fst i xs').map Prod.snd = linesOf l p st level log i :=
    (hlines' i).trans (linesOf_same hs hl hp (hcalls i)).symm
  refine ⟨⟨xs, xs', hstream, hstream', fun i => ⟨hlines i, hother i⟩⟩, fun _ => ?_⟩
  rw [hstream, hstream',
    map_eq_of_fibre Prod.snd Prod.snd fun i => (hlines i).trans (hother i).symm]

end Runs

theorem json_contextless (rt : Runtime χ) (e : JSONEncoder) (grow : Nat → Nat → Nat) :
    Contextless
      ⟨fun _ => .writer, fun _ => e.encoder rt, Record.level (κ := Option (Context χ υ)), grow⟩ :=
  fun _ => ⟨rfl, rfl⟩

-- A password in the call, another one bound to the context.
def signIn (secret : Bytes) : Call Unit Unit where
  site := ⟨Time.epoch, 0⟩
  ctx := some (Context.background.contextWith [stringField (ascii "db.password") secret])
  level := 9
  msg := ascii "in"
  fields := [stringField (ascii "password") secret]

def masks : PathRedactor := newPathRedactor .mask [] [ascii "password", ascii "*.password"]

def masking : Logger Unit Unit Unit where
  level := 1
  processors := [(EnrichProcessor.new []).processor, masks.process fun _ => []]
  withFields := []
  addCaller := false

def signInOnce (secret : Bytes) (n : Nat) : List (Act Unit Unit Unit Unit) :=
  [.call (.log () (signIn secret)), .call (.process ()), .call (.process ()), .call (.process ()),
    .call (.count ()), .dispatch (),
    .transport (.produce ()), .transport (.produce ()), .transport (.close ()),
    .transport (.closer ()), .transport (.work 0), .transport (.work 0), .sink (.check ()),
    .sink (.getBuffer () none), .sink (.append () n), .sink (.encoded ()), .sink (.lock ()),
    .sink (.hand () n), .sink (.wrote () none), .sink (.unlock ()), .sink (.putBuffer ()),
    .sink (.ret ())] ++ List.replicate 2 (.transport (.work 0)) ++
    List.replicate 4 (.transport (.closer ()))

def lineLength (secret : Bytes) : Nat :=
  ((outcome masking () (signIn secret)).elim [] (JSONEncoder.new.encode bareRuntime [])).length

-- A call as a record, which can be compared.
def parts (c : Call Unit Unit) : Rec Unit Unit :=
  ⟨c.site.now, c.level, c.msg, c.site.pc, [], c.fields, c.ctx⟩

theorem parts_injective : Function.Injective parts := by
  rintro ⟨⟨now, pc⟩, ctx, level, msg, fields⟩ ⟨⟨now', pc'⟩, ctx', level', msg', fields'⟩ h
  cases h
  rfl

def ends (secret : Bytes) (log : List (Event Unit Unit Unit Unit))
    (s : State Unit (Async.ring.State Unit (Rec Unit Unit)) Unit Unit Unit Unit) : Bool :=
  decide ((∀ x ∈ Transport.calls (Transport.beforeClose (carried log)),
      x ∈ Transport.returns (Transport.beforeClose (carried log))) ∧
    Transport.calls (Transport.afterClose (carried log)) = [] ∧ .closeRet () ∈ carried log ∧
    ∀ w ∈ Sink.Writer.writes () (sunk log), w.err = none) && (s.caller ()).isIdle &&
    decide ((callsOf log ()).map parts = [parts (signIn secret)])

theorem finished_of_ends {secret : Bytes} {log : List (Event Unit Unit Unit Unit)}
    {s : State Unit (Async.ring.State Unit (Rec Unit Unit)) Unit Unit Unit Unit}
    (h : (machine masking (Async.ring.machine 2 .block) lineConfig () 5).Run log s)
    (hends : ends secret log s = true) :
    Finished .ring 2 masking lineConfig () 5 log s ∧ callsOf log () = [signIn secret] := by
  obtain ⟨hrun, hone⟩ := Bool.and_eq_true_iff.mp hends
  obtain ⟨hlog, hidle⟩ := Bool.and_eq_true_iff.mp hrun
  obtain ⟨hret, hcalls, hclose, hok⟩ := of_decide_eq_true hlog
  exact ⟨⟨h, Transport.orderly_of_split hret hcalls, hclose, fun _ => Caller.eq_idle hidle, hok⟩,
    parts_injective.list_map (of_decide_eq_true hone)⟩

theorem secrets_never_written_signIn :
    ∃ (log log' : List (Event Unit Unit Unit Unit))
      (s s' : State Unit (Async.ring.State Unit (Rec Unit Unit)) Unit Unit Unit Unit),
      callsOf log () = [signIn (ascii "hunter2")] ∧ callsOf log' () = [signIn (ascii "swordfish")] ∧
      s.sink.stream () ≠ [] ∧ s.sink.stream () = s'.sink.stream () := by
  obtain ⟨log, s, hrun, hgood⟩ := Machine.exists_exec
    (M := machine (ε := Unit) masking
      (Async.ring.machine (ι := Unit) (β := Rec Unit Unit) 2 .block) lineConfig () 5)
    (C := fun _ _ => True) (signInOnce (ascii "hunter2") (lineLength (ascii "hunter2")))
    (fun log s => ends (ascii "hunter2") log s && !(s.sink.stream ()).isEmpty) (by decide +kernel)
  obtain ⟨log', s', hrun', hends'⟩ := Machine.exists_exec
    (M := machine (ε := Unit) masking
      (Async.ring.machine (ι := Unit) (β := Rec Unit Unit) 2 .block) lineConfig () 5)
    (C := fun _ _ => True) (signInOnce (ascii "swordfish") (lineLength (ascii "swordfish")))
    (ends (ascii "swordfish")) (by decide +kernel)
  obtain ⟨hends, hwritten⟩ := Bool.and_eq_true_iff.mp hgood
  obtain ⟨hfin, hcalls⟩ := finished_of_ends hrun hends
  obtain ⟨hfin', hcalls'⟩ := finished_of_ends hrun' hends'
  have hsame : SameCall (EnrichProcessor.new []) masks (signIn (ascii "hunter2"))
      (signIn (ascii "swordfish")) :=
    ⟨rfl, rfl, rfl, .cons (.inr ⟨rfl, by decide⟩) .nil, .cons (.inr ⟨rfl, by decide⟩) .nil, rfl⟩
  have hall := secrets_never_written (by decide)
    (⟨rfl, rfl, sameElsewhere_refl _, rfl, rfl⟩ : SameLogger _ masks _ masking masking)
    (json_contextless bareRuntime JSONEncoder.new fun cap _ => 2 * cap) hfin hfin'
    fun i => by rw [hcalls, hcalls']; exact .cons hsame .nil
  exact ⟨log, log', s, s', hcalls, hcalls', by simpa using hwritten, hall.2 inferInstance⟩

end UbgoLogger.Secrets
