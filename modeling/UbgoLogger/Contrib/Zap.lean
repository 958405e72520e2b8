import Mathlib.Data.Set.Finite.List
import UbgoLogger.Core.Slog
import UbgoLogger.Foundation.LastWins

namespace UbgoLogger.Zap
open Foundation Foundation.Text Foundation.LastWins

-- What AnyVal.other holds here: a map[string]any, or something else.
inductive Nested (χ : Type) where
  | leaf (v : χ)
  | map (ms : List (Bytes × AnyVal (Nested χ)))

inductive EncoderCall (χ : Type) where
  | add (key : Bytes) (v : AnyVal (Nested χ))
  | openNamespace (key : Bytes)

def EncoderCall.key {χ : Type} : EncoderCall χ → Bytes
  | .add k _ => k
  | .openNamespace k => k

def EncoderCall.opens {χ : Type} : EncoderCall χ → Bool
  | .add _ _ => false
  | .openNamespace _ => true

-- A zapcore.Field by the calls its AddTo makes: none for Skip, one for most types, more for an
-- error or an inlined object.
structure ZapField (χ : Type) where
  calls : List (EncoderCall χ)

def ZapField.opens {χ : Type} (f : ZapField χ) : Bool := f.calls.any EncoderCall.opens

-- The order in which one range over a map visits it.
structure Ranging (χ : Type) where
  visit : List (Bytes × AnyVal (Nested χ)) → List (Bytes × AnyVal (Nested χ))
  perm : ∀ ms, (visit ms).Perm ms

def Ranging.stored {χ : Type} : Ranging χ := ⟨id, fun _ => .refl _⟩

structure Entry where
  level : Int
  loggerName : Bytes
  message : Bytes

structure Core (η χ : Type) where
  l : η
  lvl : Int
  withFields : List (Field (Nested χ))

-- A call of Log.
structure Logged (η χ : Type) where
  l : η
  level : Level
  message : Bytes
  fields : List (Field (Nested χ))

-- zapcore counts DebugLevel as -1 up to PanicLevel as 4.
def mapLevel (z : Int) : Level :=
  if z < -1 then Level.trace
  else if z < 0 then Level.debug
  else if z < 1 then Level.info
  else if z < 2 then Level.warn
  else if z < 4 then Level.error
  else Level.fatal

variable {η χ : Type}

-- MapObjectEncoder: once a namespace is open, every later call is made on its map.
def addAll : List (Bytes × AnyVal (Nested χ)) → List (EncoderCall χ) →
    List (Bytes × AnyVal (Nested χ))
  | ms, [] => ms
  | ms, .add k v :: calls => addAll (put k v ms) calls
  | ms, .openNamespace k :: calls => put k (.other (.map (addAll [] calls))) ms

def calls (fs : List (ZapField χ)) : List (EncoderCall χ) := fs.flatMap ZapField.calls

def toField (k : Bytes) : AnyVal (Nested χ) → Field (Nested χ)
  | .string x => stringField k x
  | .bool x => boolField k x
  | .int64 x => intField k x
  | .float64 x => floatField k x
  | v => anyField k v

def convert (o : Ranging χ) (fs : List (ZapField χ)) : List (Field (Nested χ)) :=
  if fs = [] then [] else (o.visit (addAll [] (calls fs))).map fun m => toField m.1 m.2

namespace Core

def newCore (l : η) (enab : Int) : Core η χ := ⟨l, enab, []⟩

-- With
def addWith (c : Core η χ) (o : Ranging χ) (fs : List (ZapField χ)) : Core η χ :=
  { c with withFields := c.withFields ++ convert o fs }

def write (c : Core η χ) (o : Ranging χ) (e : Entry) (fs : List (ZapField χ)) : Logged η χ where
  l := c.l
  level := mapLevel e.level
  message := e.message
  fields :=
    let fields := c.withFields ++ convert o fs
    if e.loggerName ≠ [] then fields ++ [stringField (ascii "logger") e.loggerName] else fields

def withAll (c : Core η χ) (chain : List (Ranging χ × List (ZapField χ))) : Core η χ :=
  chain.foldl (fun c step => c.addWith step.1 step.2) c

theorem write_fields (c : Core η χ) (o : Ranging χ) (e : Entry) (fs : List (ZapField χ)) :
    (c.write o e fs).fields = (c.withFields ++ convert o fs) ++
      if e.loggerName ≠ [] then [stringField (ascii "logger") e.loggerName] else [] := by
  rw [write]
  split
  · rfl
  · rw [List.append_nil]

theorem withAll_eq (c : Core η χ) (chain : List (Ranging χ × List (ZapField χ))) :
    c.withAll chain =
      { c with withFields := c.withFields ++ chain.flatMap fun step => convert step.1 step.2 } := by
  induction chain generalizing c with
  | nil => simp [withAll]
  | cons step chain ih =>
    have hstep : c.withAll (step :: chain) = (c.addWith step.1 step.2).withAll chain := rfl
    rw [hstep, ih, addWith, List.flatMap_cons, List.append_assoc]

theorem withAll_withFields (c : Core η χ) (chain : List (Ranging χ × List (ZapField χ))) :
    (c.withAll chain).withFields =
      c.withFields ++ chain.flatMap fun step => convert step.1 step.2 := by
  rw [withAll_eq]

end Core

-- What stands at the end of a path into the mapping.
inductive Found (χ : Type) where
  | leaf (v : Boxed (Nested χ))
  | object

def inside : List Bytes → AnyVal (Nested χ) → Option (Found χ)
  | [], .other (.map _) => some .object
  | [], v => some (.leaf (.any v))
  | k :: path, .other (.map ms) => (ms.lookup k).bind (inside path)
  | _ :: _, _ => none

def insideBoxed (path : List Bytes) : Boxed (Nested χ) → Option (Found χ)
  | .any v => inside path v
  | v => if path = [] then some (.leaf v) else none

def values (localOffset : Int → Int) (fields : List (Field (Nested χ))) :
    List (Bytes × Boxed (Nested χ)) :=
  fields.map fun f => (f.key, f.value localOffset)

-- The nested mapping of a list of fields, later duplicates winning.
def emitted (localOffset : Int → Int) (fields : List (Field (Nested χ))) :
    List Bytes → Option (Found χ)
  | [] => some .object
  | k :: path => (latest (values localOffset fields) k).bind (insideBoxed path)

structure Agrees (localOffset : Int → Int) (a b : Logged η χ) : Prop where
  logger : a.l = b.l
  level : a.level = b.level
  message : a.message = b.message
  mapping : ∀ path, emitted localOffset a.fields path = emitted localOffset b.fields path

section Encoder

variable {cs ds : List (EncoderCall χ)} {ms : List (Bytes × AnyVal (Nested χ))}

theorem addAll_append (h : ∀ c ∈ cs, c.opens = false) (ms : List (Bytes × AnyVal (Nested χ)))
    (ds : List (EncoderCall χ)) : addAll ms (cs ++ ds) = addAll (addAll ms cs) ds := by
  induction cs generalizing ms with
  | nil => rfl
  | cons c cs ih =>
    obtain ⟨hc, hcs⟩ := List.forall_mem_cons.mp h
    cases c with
    | add k v => exact ih hcs (put k v ms)
    | openNamespace k => cases hc

theorem lookup_addAll (ms : List (Bytes × AnyVal (Nested χ))) (cs : List (EncoderCall χ)) (k : Bytes) :
    (addAll ms cs).lookup k = ((addAll [] cs).lookup k).or (ms.lookup k) := by
  induction cs generalizing ms with
  | nil => rfl
  | cons c cs ih =>
    cases c with
    | add k' v =>
      rw [addAll, addAll, ih (put k' v ms), ih (put k' v []), lookup_put_or k k' v ms, Option.or_assoc]
    | openNamespace k' => rw [addAll, addAll, lookup_put_or]

theorem nodup_addAll (h : (ms.map Prod.fst).Nodup) (cs : List (EncoderCall χ)) :
    ((addAll ms cs).map Prod.fst).Nodup := by
  induction cs generalizing ms with
  | nil => exact h
  | cons c cs ih =>
    cases c with
    | add k v => exact ih (nodup_put h k v)
    | openNamespace k => exact nodup_put h k _

-- Nothing reaches the outer map any more once a namespace is open.
theorem lookup_addAll_opened {z : Bytes} (hopen : ∃ c ∈ cs, c.opens = true)
    (hz : z ∉ cs.map EncoderCall.key) (ms : List (Bytes × AnyVal (Nested χ)))
    (ds : List (EncoderCall χ)) : (addAll ms (cs ++ ds)).lookup z = ms.lookup z := by
  induction cs generalizing ms with
  | nil => simp at hopen
  | cons c cs ih =>
    obtain ⟨hne, hrest⟩ := List.ne_and_not_mem_of_not_mem_cons hz
    cases c with
    | add k v =>
      have hlater : ∃ c ∈ cs, c.opens = true := by simpa [EncoderCall.opens] using hopen
      rw [List.cons_append, addAll, ih hlater hrest]
      exact lookup_put_of_ne hne v ms
    | openNamespace k => exact lookup_put_of_ne hne _ ms

end Encoder

section Chain

variable {localOffset : Int → Int}

theorem toField_key (k : Bytes) (v : AnyVal (Nested χ)) : (toField k v).key = k := by
  cases v <;> rfl

theorem latest_values_append (fs gs : List (Field (Nested χ))) (k : Bytes) :
    latest (values localOffset (fs ++ gs)) k =
      (latest (values localOffset gs) k).or (latest (values localOffset fs) k) := by
  rw [values, List.map_append, latest_append]
  rfl

theorem convert_eq (o : Ranging χ) (fs : List (ZapField χ)) :
    convert o fs = (o.visit (addAll [] (calls fs))).map fun m => toField m.1 m.2 := by
  unfold convert
  split
  · subst fs
    have hnil : o.visit (addAll [] (calls [])) = [] := (o.perm []).eq_nil
    rw [hnil, List.map_nil]
  · rfl

theorem latest_convert (o : Ranging χ) (fs : List (ZapField χ)) (k : Bytes) :
    latest (values localOffset (convert o fs)) k =
      ((addAll [] (calls fs)).lookup k).map fun v => (toField k v).value localOffset := by
  have hvalues : values localOffset (convert o fs) = (o.visit (addAll [] (calls fs))).map
      fun m => (m.1, (toField m.1 m.2).value localOffset) := by
    rw [convert_eq, values, List.map_map]
    exact List.map_congr_left fun m _ => by rw [Function.comp_apply, toField_key]
  have hnodup : ((addAll [] (calls fs)).map Prod.fst).Nodup := nodup_addAll (by simp) (calls fs)
  have hperm := (o.perm (addAll [] (calls fs))).map
    fun m => (m.1, (toField m.1 m.2).value localOffset)
  rw [hvalues, latest_of_perm hperm (by rwa [List.map_map]), lookup_map
    fun k v => (toField k v).value localOffset]

theorem mem_calls {fs : List (ZapField χ)} {c : EncoderCall χ} :
    c ∈ calls fs ↔ ∃ f ∈ fs, c ∈ f.calls :=
  List.mem_flatMap

theorem calls_append (fs gs : List (ZapField χ)) : calls (fs ++ gs) = calls fs ++ calls gs :=
  List.flatMap_append

theorem opens_calls {fs : List (ZapField χ)} (h : ∀ f ∈ fs, f.opens = false) :
    ∀ c ∈ calls fs, c.opens = false := by
  intro c hc
  obtain ⟨f, hf, hcf⟩ := mem_calls.mp hc
  exact Bool.eq_false_iff.mpr (List.any_eq_false.mp (h f hf) c hcf)

theorem latest_chain {chain : List (Ranging χ × List (ZapField χ))}
    (h : ∀ step ∈ chain, ∀ f ∈ step.2, f.opens = false) (o : Ranging χ)
    (gs : List (ZapField χ)) (k : Bytes) :
    latest (values localOffset ((chain.flatMap fun step => convert step.1 step.2) ++ convert o gs)) k =
      ((addAll [] (calls (chain.flatMap Prod.snd ++ gs))).lookup k).map
        fun v => (toField k v).value localOffset := by
  induction chain with
  | nil => exact latest_convert o gs k
  | cons step chain ih =>
    obtain ⟨hstep, hchain⟩ := List.forall_mem_cons.mp h
    rw [List.flatMap_cons, List.append_assoc, latest_values_append, ih hchain, latest_convert,
      List.flatMap_cons, List.append_assoc, calls_append step.2, addAll_append (opens_calls hstep),
      lookup_addAll (addAll [] (calls step.2)), Option.map_or]

theorem latest_logger {z : Bytes} (name : Bytes) (h : name ≠ [] → z ≠ ascii "logger") :
    latest (values localOffset (if name ≠ [] then [stringField (ascii "logger") name] else
      ([] : List (Field (Nested χ))))) z = none := by
  split
  · rename_i hname
    exact lookup_put_of_ne (h hname) _ []
  · rfl

theorem latest_opened {fs : List (ZapField χ)} {z : Bytes} (hopen : ∃ c ∈ calls fs, c.opens = true)
    (hz : z ∉ (calls fs).map EncoderCall.key) (o : Ranging χ) (gs : List (ZapField χ)) :
    latest (values localOffset (convert o (fs ++ gs))) z = none := by
  rw [latest_convert, calls_append, lookup_addAll_opened hopen hz]
  rfl

theorem emitted_congr {fs gs : List (Field (Nested χ))}
    (h : ∀ k, latest (values localOffset fs) k = latest (values localOffset gs) k) (path : List Bytes) :
    emitted localOffset fs path = emitted localOffset gs path := by
  cases path with
  | nil => rfl
  | cons k path => rw [emitted, emitted, h k]

theorem insideBoxed_nil_isSome (v : Boxed (Nested χ)) : (insideBoxed [] v).isSome = true := by
  cases v with
  | any v =>
    cases v with
    | other v => cases v <;> rfl
    | _ => rfl
  | _ => rfl

theorem emitted_isSome (fs : List (Field (Nested χ))) (k : Bytes) :
    (emitted localOffset fs [k]).isSome = (latest (values localOffset fs) k).isSome := by
  rw [emitted]
  cases latest (values localOffset fs) k with
  | none => rfl
  | some v => exact insideBoxed_nil_isSome v

end Chain

namespace Core

variable {localOffset : Int → Int} {chain : List (Ranging χ × List (ZapField χ))}

theorem withAll_agrees (h : ∀ step ∈ chain, ∀ f ∈ step.2, f.opens = false) (c : Core η χ)
    (hbase : c.withFields = []) (e : Entry) (gs : List (ZapField χ)) (o o' : Ranging χ) :
    Agrees localOffset ((c.withAll chain).write o e gs)
      (c.write o' e (chain.flatMap Prod.snd ++ gs)) := by
  have hl : (c.withAll chain).l = c.l := by rw [withAll_eq]
  refine ⟨hl, rfl, rfl, emitted_congr fun k => ?_⟩
  rw [write_fields, write_fields, withAll_withFields, hbase, List.nil_append, List.nil_append,
    latest_values_append, latest_chain h, latest_values_append, latest_convert]

-- What Write puts under a key the chain does not use: the chain emits it at the top, the base core
-- inside the namespace that a With field has opened.
theorem agrees_at_iff {z : Bytes} (hz : z ∉ (calls (chain.flatMap Prod.snd)).map EncoderCall.key)
    {gs : List (ZapField χ)} (hgs : (addAll [] (calls gs)).lookup z ≠ none) {e : Entry}
    (hname : e.loggerName ≠ [] → z ≠ ascii "logger") {c : Core η χ} (hbase : c.withFields = [])
    (o o' : Ranging χ) :
    Agrees localOffset ((c.withAll chain).write o e gs)
        (c.write o' e (chain.flatMap Prod.snd ++ gs)) ↔
      ∀ step ∈ chain, ∀ f ∈ step.2, f.opens = false := by
  refine ⟨fun hagrees step hstep f hf => ?_, fun h => withAll_agrees h c hbase e gs o o'⟩
  by_contra hopens
  obtain ⟨call, hcall, hopen⟩ := List.any_eq_true.mp (Bool.not_eq_false _ ▸ hopens)
  have hmem : call ∈ calls (chain.flatMap Prod.snd) :=
    mem_calls.mpr ⟨f, List.mem_flatMap.mpr ⟨step, hstep, hf⟩, hcall⟩
  obtain ⟨v, hv⟩ := Option.ne_none_iff_exists'.mp hgs
  have hemitted := congrArg Option.isSome (hagrees.mapping [z])
  rw [emitted_isSome, emitted_isSome, write_fields, write_fields, withAll_withFields, hbase,
    List.nil_append, List.nil_append, latest_values_append, latest_values_append _ (ite _ _ _),
    latest_logger _ hname, Option.none_or, Option.none_or, latest_values_append, latest_convert, hv,
    Option.map_some, Option.some_or, latest_opened ⟨call, hmem, hopen⟩ hz] at hemitted
  cases hemitted

theorem with_concatenates_iff (localOffset : Int → Int) (l : η) (lvl : Int)
    (chain : List (Ranging χ × List (ZapField χ))) :
    (∀ (e : Entry) (gs : List (ZapField χ)) (o o' : Ranging χ),
      Agrees localOffset (((newCore l lvl).withAll chain).write o e gs)
        ((newCore l lvl).write o' e (chain.flatMap Prod.snd ++ gs))) ↔
      ∀ step ∈ chain, ∀ f ∈ step.2, f.opens = false := by
  refine ⟨fun h => ?_, fun h => withAll_agrees h (newCore l lvl) rfl⟩
  obtain ⟨z, hz⟩ :=
    (List.finite_toSet ((calls (chain.flatMap Prod.snd)).map EncoderCall.key)).exists_notMem
  have hput : (addAll [] (calls [(⟨[.add z .nil]⟩ : ZapField χ)])).lookup z = some .nil :=
    lookup_put_self z (AnyVal.nil : AnyVal (Nested χ)) []
  exact (agrees_at_iff hz (hput ▸ Option.some_ne_none _) (e := ⟨0, [], []⟩) (absurd rfl) rfl
    .stored .stored).mp (h ⟨0, [], []⟩ _ .stored .stored)

theorem with_namespace_closed :
    let req : ZapField Unit := ⟨[.openNamespace (ascii "req")]⟩
    let x : ZapField Unit := ⟨[.add (ascii "x") (.int64 1)]⟩
    let e : Entry := ⟨0, [], ascii "m"⟩
    let base : Core Unit Unit := newCore () 0
    let chained := (base.withAll [(.stored, [req])]).write .stored e [x]
    let whole := base.write .stored e [req, x]
    let found (log : Logged Unit Unit) (path : List Bytes) :=
      (emitted (fun _ => 0) log.fields path).isSome
    found chained [ascii "x"] = true ∧ found chained [ascii "req", ascii "x"] = false ∧
      found whole [ascii "x"] = false ∧ found whole [ascii "req", ascii "x"] = true ∧
      ¬ Agrees (fun _ => 0) chained whole := by
  refine ⟨by decide, by decide, by decide, by decide, fun h => ?_⟩
  exact absurd (congrArg Option.isSome (h.mapping [ascii "x"])) (by decide)

end Core

end UbgoLogger.Zap
