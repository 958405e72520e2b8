import UbgoLogger.Core.SpanTree
import UbgoLogger.Foundation.Layer
import UbgoLogger.Foundation.Lineage
import UbgoLogger.Pipeline.Enrich

namespace UbgoLogger.SpanTrail
open Foundation Foundation.Text SpanTree

variable {χ υ : Type}

-- The contexts a program has derived so far; opened are those that StartSpan returned.
structure State (χ υ : Type) where
  spans : Spans χ
  opened : List (Context χ υ)
  table : List (Context χ υ)

inductive Act (χ υ : Type) where
  | contextWith (c : Option Nat) (fields : List (Field χ))
  | withValue (c : Option Nat) (v : υ)
  | fcScope (c : Option Nat) (buffer : Nat)
  | startSpan (c : Option Nat) (random : Random) (name : Bytes) (now : Time) (fields : List (Field χ))
  | log (c : Option Nat) (site : Logger.Site) (level : Level) (msg : Bytes) (fields : List (Field χ))
  | event (c : Option Nat) (site : Logger.Site) (level : Level) (name : Bytes)
      (fields : List (Field χ))

inductive Event (χ υ : Type) where
  | started (parent : Option Nat)
  | emitted (ctx : Context χ υ) (r : Rec χ υ)

def context (s : State χ υ) : Option Nat → Option (Context χ υ)
  | none => some Context.background
  | some c => s.table[c]?

def derive (s : State χ υ) (c : Option Nat) (g : Context χ υ → Context χ υ) :
    Option (State χ υ × List (Event χ υ)) :=
  (context s c).map fun ctx => ({ s with table := s.table ++ [g ctx] }, [])

-- A logger whose pipeline is the enricher alone.
def enriched (l : Logger Unit χ υ) (e : EnrichProcessor χ υ) : Logger Unit χ υ :=
  { l with processors := [e.processor] }

def emitted (ctx : Context χ υ) : Option (Rec χ υ) → List (Event χ υ)
  | none => []
  | some r => [.emitted ctx r]

def step (l : Logger Unit χ υ) (e : EnrichProcessor χ υ) (s : State χ υ) :
    Act χ υ → Option (State χ υ × List (Event χ υ))
  | .contextWith c fields => derive s c fun ctx => ctx.contextWith fields
  | .withValue c v => derive s c fun ctx => .other v :: ctx
  | .fcScope c buffer => derive s c fun ctx => .fcScope buffer :: ctx
  | .startSpan c random name now fields =>
      (context s c).map fun ctx =>
        let p := s.spans.startSpan (some ctx) (shortID random.bytes) name now fields
        (⟨p.2, s.opened ++ [p.1], s.table ++ [p.1]⟩, [.started ctx.span])
  | .log c site level msg fields =>
      (context s c).map fun ctx =>
        (s, emitted ctx ((enriched l e).log () site (some ctx) level msg fields).2)
  | .event c site level name fields =>
      (context s c).map fun ctx =>
        (s, emitted ctx ((enriched l e).eventAt () site (some ctx) level name fields).2)

def machine (l : Logger Unit χ υ) (e : EnrichProcessor χ υ) :
    Machine (State χ υ) (Act χ υ) (Event χ υ) where
  init := ⟨.empty, [], []⟩
  step := step l e

def Event.parent : Event χ υ → Option (Option Nat)
  | .started p => some p
  | .emitted _ _ => none

def forest (log : List (Event χ υ)) : Forest := log.filterMap Event.parent

def reserved : List Bytes := [ascii "span_id", ascii "span_path", ascii "parent_span_id"]

def Plain (fields : List (Field χ)) : Prop := ∀ f ∈ fields, f.key ∉ reserved

-- The program's own fields do not use the keys of StartSpan.
def Unreserved (_ : State χ υ) : Act χ υ → Prop
  | .contextWith _ fields | .startSpan _ _ _ _ fields | .log _ _ _ _ fields
  | .event _ _ _ _ fields => Plain fields
  | .withValue _ _ | .fcScope _ _ => True

-- The spans a context lies in, outermost first.
def within (ctx : Context χ υ) : List Nat :=
  (ctx.filterMap fun
    | .span n => some n
    | _ => none).reverse

def keyed (key : Bytes) (fields : List (Field χ)) : List Bytes :=
  (fields.filter fun f => f.key = key).map Field.str

section Keyed

variable {key : Bytes} {fields : List (Field χ)}

theorem keyed_append (key : Bytes) (fs gs : List (Field χ)) :
    keyed key (fs ++ gs) = keyed key fs ++ keyed key gs := by
  simp [keyed]

theorem keyed_plain (h : Plain fields) (hk : key ∈ reserved) : keyed key fields = [] := by
  have hnone : fields.filter (fun f => f.key = key) = [] := by
    refine List.filter_eq_nil_iff.mpr fun f hf => ?_
    rw [decide_eq_true_eq]
    exact fun he => h f hf (he ▸ hk)
  rw [keyed, hnone, List.map_nil]

theorem keyed_stringField (key k v : Bytes) :
    keyed key [(stringField k v : Field χ)] = if k = key then [v] else [] := by
  by_cases h : k = key <;> simp [keyed, stringField, h]

variable (name id path parentID : Bytes)

theorem keyed_bound (h : Plain fields) (hk : key ∈ reserved) :
    keyed key (Spans.boundFields name id path parentID fields) =
      (if ascii "span_id" = key then [id] else []) ++ (if ascii "span_path" = key then [path] else []) ++
        if parentID = [] then [] else if ascii "parent_span_id" = key then [parentID] else [] := by
  have hspan : ascii "span" ≠ key := by
    rintro rfl
    exact absurd hk (by decide)
  have hcons (f g h : Field χ) : [f, g, h] = [f] ++ [g] ++ [h] := rfl
  have hnil : keyed key ([] : List (Field χ)) = [] := rfl
  rw [Spans.boundFields, hcons, keyed_append, keyed_append, keyed_append, keyed_append,
    keyed_plain h hk, keyed_stringField, keyed_stringField, keyed_stringField, if_neg hspan]
  by_cases hp : parentID = []
  · simp [hp, hnil]
  · simp [hp, keyed_stringField]

theorem keyed_bound_path (h : Plain fields) :
    keyed (ascii "span_path") (Spans.boundFields name id path parentID fields) = [path] := by
  have hid : ascii "span_id" ≠ ascii "span_path" := by decide
  have hparent : ascii "parent_span_id" ≠ ascii "span_path" := by decide
  rw [keyed_bound _ _ _ _ h (by decide), if_neg hid, if_pos rfl, if_neg hparent, ite_self]
  rfl

theorem keyed_bound_id (h : Plain fields) :
    keyed (ascii "span_id") (Spans.boundFields name id path parentID fields) = [id] := by
  have hpath : ascii "span_path" ≠ ascii "span_id" := by decide
  have hparent : ascii "parent_span_id" ≠ ascii "span_id" := by decide
  rw [keyed_bound _ _ _ _ h (by decide), if_pos rfl, if_neg hpath, if_neg hparent, ite_self]
  rfl

theorem keyed_bound_parentID (h : Plain fields) :
    keyed (ascii "parent_span_id") (Spans.boundFields name id path parentID fields) =
      if parentID = [] then [] else [parentID] := by
  have hid : ascii "span_id" ≠ ascii "parent_span_id" := by decide
  have hpath : ascii "span_path" ≠ ascii "parent_span_id" := by decide
  rw [keyed_bound _ _ _ _ h (by decide), if_neg hid, if_neg hpath, if_pos rfl]
  rfl

end Keyed

section Contexts

variable (ctx : Context χ υ)

theorem ctxFields_contextWith (fields : List (Field χ)) :
    (ctx.contextWith fields).ctxFields = ctx.ctxFields ++ fields := rfl

theorem within_inside (id name : Bytes) (fields : List (Field χ)) (n : Nat) (parentID path : Bytes) :
    within (inside (some ctx) id name fields n parentID path) = within ctx ++ [n] := by
  simp [within, inside, Context.contextWith]

theorem ctxFields_inside (id name : Bytes) (fields : List (Field χ)) (n : Nat)
    (parentID path : Bytes) :
    (inside (some ctx) id name fields n parentID path).ctxFields =
      ctx.ctxFields ++ Spans.boundFields name id path parentID fields := rfl

end Contexts

section Steps

variable {l : Logger Unit χ υ} {e : EnrichProcessor χ υ} {s s' : State χ υ} {a : Act χ υ}
  {evs : List (Event χ υ)}

-- A layer that is neither a span nor bound fields.
inductive Aside : Layer χ υ → Prop
  | other (v : υ) : Aside (.other v)
  | fcScope (buffer : Nat) : Aside (.fcScope buffer)

def Shows (l : Logger Unit χ υ) (e : EnrichProcessor χ υ) (ctx : Context χ υ)
    (fields : List (Field χ)) (ev : Event χ υ) : Prop :=
  ∃ r, ev = .emitted ctx r ∧
    r.fields = l.withFields ++ fields ++ ctx.ctxFields ++ e.traceFields ctx

theorem Shows.not_started {ctx : Context χ υ} {fields : List (Field χ)}
    (h : ∀ ev ∈ evs, Shows l e ctx fields ev) : evs.filterMap Event.parent = [] := by
  refine List.filterMap_eq_nil_iff.mpr fun ev hev => ?_
  obtain ⟨r, rfl, -⟩ := h ev hev
  rfl

inductive Step (l : Logger Unit χ υ) (e : EnrichProcessor χ υ) (s : State χ υ) :
    Act χ υ → State χ υ → List (Event χ υ) → Prop
  | bound {c : Option Nat} {ctx : Context χ υ} (h : context s c = some ctx) (fields : List (Field χ)) :
      Step l e s (.contextWith c fields) { s with table := s.table ++ [ctx.contextWith fields] } []
  | layered {a : Act χ υ} {c : Option Nat} {ctx : Context χ υ} (h : context s c = some ctx)
      {y : Layer χ υ} (hy : Aside y) : Step l e s a { s with table := s.table ++ [y :: ctx] } []
  | started {c : Option Nat} {ctx : Context χ υ} (h : context s c = some ctx) (random : Random)
      (name : Bytes) (now : Time) (fields : List (Field χ)) {p : Context χ υ × Spans χ}
      (hp : s.spans.startSpan (some ctx) (shortID random.bytes) name now fields = p) :
      Step l e s (.startSpan c random name now fields)
        ⟨p.2, s.opened ++ [p.1], s.table ++ [p.1]⟩ [.started ctx.span]
  | logged {a : Act χ υ} {c : Option Nat} {ctx : Context χ υ} (h : context s c = some ctx)
      {fields : List (Field χ)} (ha : Unreserved s a → Plain fields) {evs : List (Event χ υ)}
      (hevs : ∀ ev ∈ evs, Shows l e ctx fields ev) : Step l e s a s evs

theorem enriched_log (l : Logger Unit χ υ) (e : EnrichProcessor χ υ) (site : Logger.Site)
    (ctx : Context χ υ) (level : Level) (msg : Bytes) (fields : List (Field χ)) :
    ∀ ev ∈ emitted ctx ((enriched l e).log () site (some ctx) level msg fields).2,
      Shows l e ctx fields ev := by
  unfold Logger.log
  split
  · simp [emitted]
  · refine List.forall_mem_singleton.mpr ⟨_, rfl, ?_⟩
    simp [EnrichProcessor.process, Logger.record, enriched]

theorem enriched_event (l : Logger Unit χ υ) (e : EnrichProcessor χ υ) (site : Logger.Site)
    (ctx : Context χ υ) (level : Level) (name : Bytes) (fields : List (Field χ)) :
    ∀ ev ∈ emitted ctx ((enriched l e).eventAt () site (some ctx) level name fields).2,
      Shows l e ctx fields ev := by
  unfold Logger.eventAt
  split
  · simp [emitted]
  · refine List.forall_mem_singleton.mpr ⟨_, rfl, ?_⟩
    simp [EnrichProcessor.process, Logger.record, enriched]

theorem step_cases (h : step l e s a = some (s', evs)) : Step l e s a s' evs := by
  cases a with
  | contextWith c fields =>
    obtain ⟨ctx, hc, he⟩ := Option.map_eq_some_iff.mp h
    cases he
    exact .bound hc fields
  | withValue c v =>
    obtain ⟨ctx, hc, he⟩ := Option.map_eq_some_iff.mp h
    cases he
    exact .layered hc (.other v)
  | fcScope c buffer =>
    obtain ⟨ctx, hc, he⟩ := Option.map_eq_some_iff.mp h
    cases he
    exact .layered hc (.fcScope buffer)
  | startSpan c random name now fields =>
    obtain ⟨ctx, hc, he⟩ := Option.map_eq_some_iff.mp h
    cases he
    exact .started hc random name now fields rfl
  | log c site level msg fields =>
    obtain ⟨ctx, hc, he⟩ := Option.map_eq_some_iff.mp h
    cases he
    exact .logged hc id (enriched_log l e site ctx level msg fields)
  | event c site level name fields =>
    obtain ⟨ctx, hc, he⟩ := Option.map_eq_some_iff.mp h
    cases he
    exact .logged hc id (enriched_event l e site ctx level name fields)

end Steps

section Tree

variable {l : Logger Unit χ υ} {e : EnrichProcessor χ υ} {s s' : State χ υ} {a : Act χ υ}
  {log : List (Event χ υ)} {ctx : Context χ υ}

-- A context in a span is the one StartSpan returned, under layers that are not spans.
def Placed (opened : List (Context χ υ)) (ctx : Context χ υ) : Prop :=
  ∀ p, ctx.span = some p → ∃ outer c, outer.span = none ∧ opened[p]? = some c ∧ ctx = outer ++ c

theorem Placed.background (opened : List (Context χ υ)) : Placed opened Context.background := by
  intro p hp
  cases hp

theorem Placed.grow {opened : List (Context χ υ)} (h : Placed opened ctx) (c : Context χ υ) :
    Placed (opened ++ [c]) ctx := by
  intro p hp
  obtain ⟨outer, c', houter, hc', hctx⟩ := h p hp
  exact ⟨outer, c', houter, by rw [List.getElem?_append_left (List.getElem?_eq_some_iff.mp hc').1, hc'],
    hctx⟩

theorem Placed.layer {opened : List (Context χ υ)} (h : Placed opened ctx) {y : Layer χ υ}
    (hy : Context.span [y] = none) : Placed opened (y :: ctx) := by
  intro p hp
  have hspan : Context.span (y :: ctx) = ctx.span := span_append hy ctx
  obtain ⟨outer, c, houter, hc, hctx⟩ := h p (hspan ▸ hp)
  refine ⟨y :: outer, c, (span_append hy outer).trans houter, hc, ?_⟩
  rw [hctx, List.cons_append]

theorem Aside.span {y : Layer χ υ} (h : Aside y) : Context.span [y] = none := by
  cases h <;> rfl

structure Laid (s : State χ υ) : Prop where
  placed : ∀ ctx ∈ s.table, Placed s.opened ctx
  states : s.spans.states.length = s.opened.length

theorem Laid.context (h : Laid s) {c : Option Nat} (hc : context s c = some ctx) :
    Placed s.opened ctx := by
  cases c with
  | none =>
    cases hc
    exact Placed.background _
  | some c => exact h.placed ctx (List.mem_of_getElem? hc)

theorem forall_mem_concat {α : Type} {P : α → Prop} {xs : List α} {x : α} (hxs : ∀ y ∈ xs, P y)
    (hx : P x) : ∀ y ∈ xs ++ [x], P y := by
  intro y hy
  rcases List.mem_append.mp hy with hold | hnew
  · exact hxs y hold
  · exact List.mem_singleton.mp hnew ▸ hx

-- StartSpan from a context the table has.
theorem startSpan_shape (s : Spans χ) (ctx : Context χ υ) (id name : Bytes) (now : Time)
    (fields : List (Field χ)) :
    ∃ parentID path states,
      s.startSpan (some ctx) id name now fields =
        (inside (some ctx) id name fields s.states.length parentID path,
          ⟨states, s.spans ++ [opened id name now fields parentID path]⟩) ∧
      states.length = s.states.length + 1 ∧ (ctx.span = none → parentID = []) := by
  cases hp : s.parent ctx with
  | none =>
    exact ⟨_, _, _, startSpan_root s (some ctx) id name now fields hp, by simp, fun _ => rfl⟩
  | some np =>
    refine ⟨_, _, _, startSpan_child s (some ctx) id name now fields hp, by simp, fun hnone => ?_⟩
    rw [Spans.parent, hnone] at hp
    cases hp

theorem laid (h : (machine l e).Run log s) : Laid s := by
  refine h.invariant (P := fun _ s => Laid s) ⟨by simp [machine], rfl⟩ ?_
  intro log s a s' evs _ hl _ hs
  cases step_cases hs with
  | bound hc fields =>
    exact ⟨forall_mem_concat hl.placed ((hl.context hc).layer rfl), hl.states⟩
  | layered hc hy => exact ⟨forall_mem_concat hl.placed ((hl.context hc).layer hy.span), hl.states⟩
  | @started c ctx hc random name now fields p hp =>
    obtain ⟨parentID, path, states, hstart, hlen, -⟩ :=
      startSpan_shape s.spans ctx (shortID random.bytes) name now fields
    rw [hstart] at hp
    subst hp
    refine ⟨forall_mem_concat (fun ctx hctx => (hl.placed ctx hctx).grow _) ?_, ?_⟩
    · intro q hq
      rw [inside_span, Option.some.injEq] at hq
      refine ⟨[], _, rfl, ?_, (List.nil_append _).symm⟩
      rw [← hq, hl.states]
      exact List.getElem?_concat_length
    · rw [hlen, hl.states, List.length_append, List.length_singleton]
  | logged hc _ _ => exact hl

def tree (s : State χ υ) : SpanTree.State χ υ := ⟨s.spans, s.opened⟩

-- What StartSpan does here it does in the machine of the span tree.
theorem run_spans (h : (machine l e).Run log s) :
    (SpanTree.machine : Machine (SpanTree.State χ υ) (Start χ υ) (Option Nat)).Run (forest log)
      (tree s) := by
  refine h.project tree Event.parent rfl ?_
  intro log s a s' evs hexec hs
  cases step_cases hs with
  | bound hc fields => exact .inr ⟨rfl, rfl⟩
  | layered hc hy => exact .inr ⟨rfl, rfl⟩
  | @started c ctx hc random name now fields p hp =>
    subst hp
    left
    cases hspan : ctx.span with
    | none =>
      refine ⟨⟨.free (some ctx), random, name, now, fields⟩, ?_⟩
      have horigin : origin (tree s) (.free (some ctx)) = some (some ctx, none) := if_pos hspan
      simp only [SpanTree.machine, SpanTree.step, horigin, Option.map_some]
      rfl
    | some q =>
      obtain ⟨outer, c', houter, hc', hctx⟩ := (laid hexec).context hc q hspan
      refine ⟨⟨.under q outer, random, name, now, fields⟩, ?_⟩
      have horigin : origin (tree s) (.under q outer) = some (some ctx, some q) := by
        rw [origin, if_pos houter, tree, hc', hctx]
        rfl
      simp only [SpanTree.machine, SpanTree.step, horigin, Option.map_some]
      rfl
  | logged hc _ hevs => exact .inr ⟨rfl, Shows.not_started hevs⟩

end Tree

section Told

variable {ps : Forest} {spans : List (Span χ)} {ctx : Context χ υ} {fields : List (Field χ)}

-- What the bound fields of a context say of the spans around it.
structure Told (ps : Forest) (spans : List (Span χ)) (ctx : Context χ υ) : Prop where
  lineage : within ctx = [] ∧ ctx.span = none ∨ ∃ i, ctx.span = some i ∧ ps.Lineage i (within ctx)
  path : (keyed (ascii "span_path") ctx.ctxFields).map some =
    (within ctx).map fun n => (spans[n]?).map Span.path
  id : (keyed (ascii "span_id") ctx.ctxFields).map some =
    (within ctx).map fun n => (spans[n]?).map Span.id
  parentID : (keyed (ascii "parent_span_id") ctx.ctxFields).map some =
    (within ctx).tail.map fun n => (spans[n]?).map Span.parentID

namespace Told

theorem background : Told ps spans (Context.background : Context χ υ) :=
  ⟨.inl ⟨rfl, rfl⟩, rfl, rfl, rfl⟩

theorem bind (h : Told ps spans ctx) (hf : Plain fields) : Told ps spans (ctx.contextWith fields) := by
  have hkeyed {key : Bytes} (hk : key ∈ reserved) :
      keyed key (ctx.contextWith fields).ctxFields = keyed key ctx.ctxFields := by
    rw [ctxFields_contextWith, keyed_append, keyed_plain hf hk, List.append_nil]
  refine ⟨h.lineage, ?_, ?_, ?_⟩
  · rw [hkeyed (by decide)]
    exact h.path
  · rw [hkeyed (by decide)]
    exact h.id
  · rw [hkeyed (by decide)]
    exact h.parentID

theorem aside (h : Told ps spans ctx) {y : Layer χ υ} (hy : Aside y) : Told ps spans (y :: ctx) := by
  cases hy <;> exact ⟨h.lineage, h.path, h.id, h.parentID⟩

theorem lt (h : Told ps spans ctx) {n : Nat} (hn : n ∈ within ctx) : n < ps.length := by
  rcases h.lineage with ⟨hnil, -⟩ | ⟨i, -, hlineage⟩
  · rw [hnil] at hn
    cases hn
  · exact hlineage.lt hn

theorem grow (h : Told ps spans ctx) (hlen : spans.length = ps.length) (x : Option Nat)
    (y : Span χ) : Told (ps ++ [x]) (spans ++ [y]) ctx := by
  have hsame {β : Type} (g : Span χ → β) (ns : List Nat) (hns : ∀ n ∈ ns, n ∈ within ctx) :
      (ns.map fun n => ((spans ++ [y])[n]?).map g) = ns.map fun n => (spans[n]?).map g := by
    refine List.map_congr_left fun n hn => ?_
    rw [List.getElem?_append_left (hlen ▸ h.lt (hns n hn))]
  refine ⟨h.lineage.imp_right fun ⟨i, hi, hlineage⟩ => ⟨i, hi, hlineage.grow x⟩, ?_, ?_, ?_⟩
  · rw [hsame _ _ fun _ hn => hn]
    exact h.path
  · rw [hsame _ _ fun _ hn => hn]
    exact h.id
  · rw [hsame _ _ fun _ hn => List.mem_of_mem_tail hn]
    exact h.parentID

theorem inside (h : Told ps spans ctx) (hlen : spans.length = ps.length) (y : Span χ)
    (hf : Plain y.fields) (hparent : ctx.span = none ↔ y.parentID = []) :
    Told (ps ++ [ctx.span]) (spans ++ [y])
      (SpanTree.inside (some ctx) y.id y.name y.fields spans.length y.parentID y.path) := by
  have hold := h.grow hlen ctx.span y
  have hnew : (spans ++ [y])[spans.length]? = some y := List.getElem?_concat_length
  have hlast (g : Span χ → Bytes) (ns : List Nat) :
      ((ns ++ [spans.length]).map fun n => ((spans ++ [y])[n]?).map g) =
        (ns.map fun n => ((spans ++ [y])[n]?).map g) ++ [some (g y)] := by
    rw [List.map_append, List.map_singleton, hnew]
    rfl
  refine ⟨.inr ⟨spans.length, inside_span _ _ _ _ _ _ _, ?_⟩, ?_, ?_, ?_⟩
  · rw [within_inside]
    rcases h.lineage with ⟨hnil, hspan⟩ | ⟨p, hspan, hlineage⟩
    · rw [hnil, hspan]
      exact .root (by simp [Forest.Root, hlen])
    · rw [hspan]
      exact .child (by simp [Forest.Child, hlen]) (hlineage.grow _)
  · rw [within_inside, hlast, ctxFields_inside, keyed_append, keyed_bound_path _ _ _ _ hf,
      List.map_append, hold.path]
    rfl
  · rw [within_inside, hlast, ctxFields_inside, keyed_append, keyed_bound_id _ _ _ _ hf,
      List.map_append, hold.id]
    rfl
  · rw [within_inside, ctxFields_inside, keyed_append, keyed_bound_parentID _ _ _ _ hf,
      List.map_append, hold.parentID]
    rcases h.lineage with ⟨hnil, hspan⟩ | ⟨p, hspan, hlineage⟩
    · rw [hnil, if_pos (hparent.mp hspan)]
      rfl
    · have hsome : ¬y.parentID = [] := fun hy => by simp [hparent.mpr hy] at hspan
      rw [if_neg hsome, List.tail_append_of_ne_nil hlineage.ne_nil, hlast]
      rfl

end Told

end Told

section Trails

variable {l : Logger Unit χ υ} {e : EnrichProcessor χ υ} {s : State χ υ} {log : List (Event χ υ)}
  {ctx : Context χ υ}

structure Trails (l : Logger Unit χ υ) (e : EnrichProcessor χ υ) (log : List (Event χ υ))
    (s : State χ υ) : Prop where
  table : ∀ ctx ∈ s.table, Told (forest log) s.spans.spans ctx
  shown : ∀ ev ∈ log, ev.parent = none → ∃ ctx fields, Shows l e ctx fields ev ∧ Plain fields ∧
    Told (forest log) s.spans.spans ctx

theorem Trails.context (h : Trails l e log s) {c : Option Nat} (hc : context s c = some ctx) :
    Told (forest log) s.spans.spans ctx := by
  cases c with
  | none =>
    cases hc
    exact Told.background
  | some c => exact h.table ctx (List.mem_of_getElem? hc)

-- A span that has a parent in the tree shows the parent's id, and no id is empty.
theorem parentID_iff {ps : Forest} {s : SpanTree.State χ υ} {x : Option Nat} {y : Span χ}
    (h : Tracks (ps ++ [x]) s) (hy : s.spans.spans[ps.length]? = some y)
    (hroot : x = none → y.parentID = []) : x = none ↔ y.parentID = [] := by
  refine ⟨hroot, fun hnil => ?_⟩
  cases x with
  | none => rfl
  | some p =>
    have hlt := h.spans ▸ h.earlier p (List.mem_append_right _ (List.mem_singleton.mpr rfl))
    have hp := List.getElem?_eq_getElem hlt
    have hchild : Forest.Child (ps ++ [some p]) p ps.length := List.getElem?_concat_length
    exact absurd ((h.parentID p _ _ y hchild hp hy).symm.trans hnil) (h.id p _ hp)

theorem trails (h : (machine l e).Exec Unreserved log s) : Trails l e log s := by
  refine h.invariant (P := Trails l e) ⟨by simp [machine], by simp⟩ ?_
  intro log s a s' evs hexec ht ha hs
  have hnext := (hexec.step ha hs).run
  cases step_cases hs with
  | bound hc fields =>
    rw [List.append_nil]
    exact ⟨forall_mem_concat ht.table ((ht.context hc).bind ha), ht.shown⟩
  | layered hc hy =>
    rw [List.append_nil]
    exact ⟨forall_mem_concat ht.table ((ht.context hc).aside hy), ht.shown⟩
  | @started c ctx hc random name now fields p hp =>
    have hlen : s.spans.spans.length = (forest log).length := (tracks (run_spans hexec.run)).spans
    obtain ⟨parentID, path, states, hstart, -, hroot⟩ :=
      startSpan_shape s.spans ctx (shortID random.bytes) name now fields
    rw [hstart] at hp
    subst hp
    have hforest : forest (log ++ [.started ctx.span]) = forest log ++ [ctx.span] :=
      List.filterMap_append
    have htracks := tracks (run_spans hnext)
    rw [hforest] at htracks
    have hnew := List.getElem?_concat_length (l := s.spans.spans)
      (a := SpanTree.opened (shortID random.bytes) name now fields parentID path)
    have hparent := parentID_iff htracks (hlen ▸ hnew) hroot
    have hstates := hlen.trans (tracks (run_spans hexec.run)).states.symm
    refine ⟨?_, ?_⟩
    · rw [hforest]
      refine forall_mem_concat (fun ctx hctx => (ht.table ctx hctx).grow hlen _ _) ?_
      have hin := (ht.context hc).inside hlen
        (SpanTree.opened (shortID random.bytes) name now fields parentID path) ha hparent
      rw [hstates] at hin
      exact hin
    · rw [hforest]
      refine forall_mem_concat (fun ev hev hnone => ?_)
        fun hnone => absurd hnone (Option.some_ne_none _)
      obtain ⟨ctx', fields', hshows, hplain, htold⟩ := ht.shown ev hev hnone
      exact ⟨ctx', fields', hshows, hplain, htold.grow hlen _ _⟩
  | @logged a c ctx hc fields hplain evs hevs =>
    have hforest : forest (log ++ evs) = forest log := by
      rw [forest, List.filterMap_append, Shows.not_started hevs, List.append_nil, forest]
    refine ⟨fun ctx hctx => hforest ▸ ht.table ctx hctx, fun ev hev hnone => ?_⟩
    rw [hforest]
    rcases List.mem_append.mp hev with hold | hnew
    · exact ht.shown ev hold hnone
    · exact ⟨ctx, fields, hevs ev hnew, hplain ha, ht.context hc⟩

theorem keyed_traceFields {key : Bytes} (htk : e.tk ≠ key) (hsk : e.sk ≠ key) (ctx : Context χ υ) :
    keyed key (e.traceFields ctx) = [] := by
  unfold EnrichProcessor.traceFields
  split
  · rfl
  · rw [keyed_append]
    have hnil : keyed key ([] : List (Field χ)) = [] := rfl
    split <;> split <;> simp [keyed_stringField, htk, hsk, hnil]

theorem keyed_record {key : Bytes} {fields : List (Field χ)} {r : Rec χ υ} (hk : key ∈ reserved)
    (hl : Plain l.withFields) (hf : Plain fields)
    (hr : r.fields = l.withFields ++ fields ++ ctx.ctxFields ++ e.traceFields ctx) :
    keyed key r.fields = keyed key ctx.ctxFields ++ keyed key (e.traceFields ctx) := by
  rw [hr, keyed_append, keyed_append, keyed_append, keyed_plain hl hk, keyed_plain hf hk]
  rfl

-- The paths of a lineage are the dotted initial parts of the last address.
theorem paths_eq {ps : Forest} {s : SpanTree.State χ υ} {i : Nat} {c a : List Nat} (h : Tracks ps s)
    (hc : ps.Lineage i c) (ha : ps.Address i a) :
    (c.map fun n => (s.spans.spans[n]?).map Span.path) =
      ((List.range a.length).map fun j => dotted (a.take (j + 1))).map some := by
  rw [List.map_map, ← List.forall₂_eq_eq_eq, List.forall₂_map_left_iff]
  have hall := hc.addresses ha
  rw [List.forall₂_map_right_iff] at hall ⊢
  refine hall.imp fun n j hn => ?_
  have hn' := List.getElem?_eq_getElem (h.spans ▸ hn.lt)
  obtain ⟨b, hb, hpath⟩ := h.path n _ hn'
  rw [hn', Option.map_some, hpath, hb.unique hn]
  rfl

theorem parentIDs_eq {ps : Forest} {s : SpanTree.State χ υ} {i : Nat} {c : List Nat}
    (h : Tracks ps s) (hc : ps.Lineage i c) :
    (c.tail.map fun n => (s.spans.spans[n]?).map Span.parentID) =
      c.dropLast.map fun n => (s.spans.spans[n]?).map Span.id := by
  refine hc.shift fun {p i} hchild => ?_
  have hi := List.getElem?_eq_getElem (h.spans ▸ Forest.lt_of_child hchild)
  have hp := List.getElem?_eq_getElem (h.spans ▸ h.earlier p (List.mem_of_getElem? hchild))
  rw [hi, hp, Option.map_some, Option.map_some, h.parentID p i _ _ hchild hp hi]

-- What a record tells of the span its context lies in.
structure Trail (ps : Forest) (spans : List (Span χ)) (e : EnrichProcessor χ υ) (ctx : Context χ υ)
    (i : Nat) (r : Rec χ υ) : Prop where
  path : ∀ a, ps.Address i a → keyed (ascii "span_path") r.fields =
    (List.range a.length).map fun j => dotted (a.take (j + 1))
  ids : ∃ c, ps.Lineage i c ∧
    (keyed (ascii "span_id") r.fields).map some = (c.map fun n => (spans[n]?).map Span.id) ++
      (keyed (ascii "span_id") (e.traceFields ctx)).map some ∧
    (keyed (ascii "parent_span_id") r.fields).map some =
      c.dropLast.map fun n => (spans[n]?).map Span.id

theorem record_shows_lineage (h : (machine l e).Exec Unreserved log s) (hl : Plain l.withFields)
    (htk : e.tk ∉ reserved) (hpath : e.sk ≠ ascii "span_path")
    (hparent : e.sk ≠ ascii "parent_span_id") {r : Rec χ υ} (hr : .emitted ctx r ∈ log) :
    (ctx.span = none → keyed (ascii "span_path") r.fields = [] ∧
      keyed (ascii "parent_span_id") r.fields = []) ∧
    ∀ i, ctx.span = some i → Trail (forest log) s.spans.spans e ctx i r := by
  have htracks := tracks (run_spans h.run)
  obtain ⟨ctx', fields, ⟨r', heq, hfields⟩, hplain, htold⟩ := (trails h).shown _ hr rfl
  cases heq
  have hkeyed {key : Bytes} (hk : key ∈ reserved) := keyed_record hk hl hplain hfields
  have hnone {key : Bytes} (hk : key ∈ reserved) (hsk : e.sk ≠ key) :
      keyed key r.fields = keyed key ctx.ctxFields := by
    rw [hkeyed hk, keyed_traceFields (fun he => htk (he ▸ hk)) hsk, List.append_nil]
  rcases htold.lineage with ⟨hnil, hspan⟩ | ⟨i, hspan, hlineage⟩
  · refine ⟨fun _ => ⟨?_, ?_⟩, fun i hi => ?_⟩
    · rw [hnone (by decide) hpath, ← List.map_eq_nil_iff, htold.path, hnil, List.map_nil]
    · rw [hnone (by decide) hparent, ← List.map_eq_nil_iff, htold.parentID, hnil]
      rfl
    · rw [hspan] at hi
      cases hi
  · refine ⟨fun hi => ?_, fun j hj => ?_⟩
    · rw [hspan] at hi
      cases hi
    · obtain rfl := Option.some.inj (hspan.symm.trans hj)
      refine ⟨fun a ha => ?_, within ctx, hlineage, ?_, ?_⟩
      · have hpaths := htold.path.trans (paths_eq htracks hlineage ha)
        rw [hnone (by decide) hpath]
        exact List.map_injective_iff.mpr (Option.some_injective _) hpaths
      · rw [hkeyed (by decide), List.map_append, htold.id]
      · rw [hnone (by decide) hparent, htold.parentID]
        exact parentIDs_eq htracks hlineage

end Trails

instance (fields : List (Field χ)) : Decidable (Plain fields) :=
  inferInstanceAs (Decidable (∀ f ∈ fields, f.key ∉ reserved))

instance (s : State χ υ) : ∀ a : Act χ υ, Decidable (Unreserved s a)
  | .contextWith _ fields => inferInstanceAs (Decidable (Plain fields))
  | .startSpan _ _ _ _ fields => inferInstanceAs (Decidable (Plain fields))
  | .log _ _ _ _ fields => inferInstanceAs (Decidable (Plain fields))
  | .event _ _ _ _ fields => inferInstanceAs (Decidable (Plain fields))
  | .withValue _ _ => inferInstanceAs (Decidable True)
  | .fcScope _ _ => inferInstanceAs (Decidable True)

def Event.paths : Event χ υ → Option (Option Nat × List Bytes)
  | .started _ => none
  | .emitted ctx r => some (ctx.span, keyed (ascii "span_path") r.fields)

def tracedLogger : Logger Unit Unit Unit := ⟨Level.trace, [], [], false⟩

def tracedEnricher : EnrichProcessor Unit Unit :=
  .new [fun _ => none, fun _ => some (ascii "t", ascii "s")]

-- A line two spans deep, with fields bound between the two, under the default keys.
theorem record_shows_lineage_nested :
    ∃ log s ctx r, (machine tracedLogger tracedEnricher).Exec Unreserved log s ∧
      ctx.span = some 1 ∧ keyed (ascii "span_path") r.fields = [ascii "1", ascii "1.1"] ∧
      Trail (forest log) s.spans.spans tracedEnricher ctx 1 r := by
  obtain ⟨log, s, hexec, hgood⟩ := Machine.exists_exec (M := machine tracedLogger tracedEnricher)
    (C := Unreserved)
    [.startSpan none sixZeros (ascii "a") Time.epoch [],
      .contextWith (some 0) [stringField (ascii "user") (ascii "u")],
      .startSpan (some 1) sixZeros (ascii "b") Time.epoch [],
      .log (some 2) ⟨Time.epoch, 0⟩ Level.info (ascii "m") []]
    (fun log _ => log.any fun ev => ev.paths = some (some 1, [ascii "1", ascii "1.1"]))
    (by decide +kernel)
  obtain ⟨ev, hev, hpaths⟩ := List.any_eq_true.mp hgood
  rw [decide_eq_true_eq] at hpaths
  cases ev with
  | started p => cases hpaths
  | emitted ctx r =>
    obtain ⟨hspan, hshown⟩ := Prod.mk.inj (Option.some.inj hpaths)
    have hshows := record_shows_lineage hexec (by decide) (by decide) (by decide) (by decide) hev
    exact ⟨log, s, ctx, r, hexec, hspan, hshown, hshows.2 1 hspan⟩

end UbgoLogger.SpanTrail
