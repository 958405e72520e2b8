import UbgoLogger.Core.Span
import UbgoLogger.Foundation.Forest
import UbgoLogger.Foundation.History
import UbgoLogger.Foundation.Machine

namespace UbgoLogger.SpanTree
open Foundation Foundation.Text

variable {χ υ : Type}

-- What a StartSpan call reads from the random source.
structure Random where
  bytes : Bytes
  six : bytes.length = 6

-- The context a StartSpan call is given: one without a span, or the context an earlier call
-- returned, possibly under further values that are not spans.
inductive Origin (χ υ : Type) where
  | free (ctx : Option (Context χ υ))
  | under (p : Nat) (outer : Context χ υ)

structure Start (χ υ : Type) where
  origin : Origin χ υ
  random : Random
  name : Bytes
  now : Time
  fields : List (Field χ)

structure State (χ υ : Type) where
  spans : Spans χ
  contexts : List (Context χ υ)

def origin (s : State χ υ) : Origin χ υ → Option (Option (Context χ υ) × Option Nat)
  | .free ctx => if (ctx.getD Context.background).span = none then some (ctx, none) else none
  | .under p outer =>
      if outer.span = none then (s.contexts[p]?).map fun ctx => (some (outer ++ ctx), some p)
      else none

-- The event of a call is the number of the span above the new one.
def step (s : State χ υ) (a : Start χ υ) : Option (State χ υ × List (Option Nat)) :=
  (origin s a.origin).map fun o =>
    let p := s.spans.startSpan o.1 (shortID a.random.bytes) a.name a.now a.fields
    (⟨p.2, s.contexts ++ [p.1]⟩, [o.2])

def machine : Machine (State χ υ) (Start χ υ) (Option Nat) where
  init := ⟨.empty, []⟩
  step := step

def dotted (a : List Nat) : Bytes := [46].intercalate (a.map decimal)

def segments (path : Bytes) : List Bytes := path.splitOn 46

theorem dotted_concat {a : List Nat} (h : a ≠ []) (k : Nat) :
    dotted (a ++ [k]) = dotted a ++ ascii "." ++ decimal k := by
  have hcons : ∀ (x : Bytes) (xs : List Bytes) (y : Bytes),
      [46].intercalate (x :: xs ++ [y]) = [46].intercalate (x :: xs) ++ ascii "." ++ y := by
    intro x xs y
    induction xs generalizing x with
    | nil => simp [List.intercalate, ascii]
    | cons z zs ih =>
      rw [List.cons_append, List.cons_append, List.intercalate_cons_cons, List.intercalate_cons_cons]
      rw [← List.cons_append, ih]
      simp
  obtain ⟨x, xs, rfl⟩ := List.exists_cons_of_ne_nil h
  simpa [dotted] using hcons (decimal x) (xs.map decimal) (decimal k)

theorem segments_dotted {a : List Nat} (h : a ≠ []) : segments (dotted a) = a.map decimal := by
  refine List.splitOn_intercalate 46 (fun l hl => ?_) (by simpa using h)
  obtain ⟨k, -, rfl⟩ := List.mem_map.mp hl
  intro hdot
  exact absurd (decimal_isDigit hdot) (by decide)

theorem decimal_injective : Function.Injective decimal := by
  intro m n h
  have hparse := parse_decimal m
  rw [h, parse_decimal n] at hparse
  exact (Option.some.inj hparse).symm

theorem dotted_injective {a b : List Nat} (ha : a ≠ []) (hb : b ≠ []) (h : dotted a = dotted b) :
    a = b := by
  have hsegments := congrArg segments h
  rw [segments_dotted ha, segments_dotted hb] at hsegments
  exact List.map_injective_iff.mpr decimal_injective hsegments

section Opening

variable (s : Spans χ) (ctx : Option (Context χ υ)) (id name : Bytes) (now : Time)
  (fields : List (Field χ))

def opened (parentID path : Bytes) : Span χ where
  name := name
  id := id
  parentID := parentID
  path := path
  start := now
  fields := fields
  level := Level.info
  err := none
  ended := false

def inside (n : Nat) (parentID path : Bytes) : Context χ υ :=
  Context.contextWith (.span n :: ctx.getD Context.background)
    (Spans.boundFields name id path parentID fields)

theorem startSpan_root (h : s.parent (ctx.getD Context.background) = none) :
    s.startSpan ctx id name now fields =
      (inside ctx id name fields s.states.length [] (ascii "1"),
        ⟨s.states ++ [⟨id, ascii "1", 0⟩],
          s.spans ++ [opened id name now fields [] (ascii "1")]⟩) := by
  simp only [Spans.startSpan, h]
  rfl

theorem startSpan_child {n : Nat} {p : SpanState}
    (h : s.parent (ctx.getD Context.background) = some (n, p)) :
    s.startSpan ctx id name now fields =
      (inside ctx id name fields s.states.length p.id
          (p.path ++ ascii "." ++ decimal (p.children + 1)),
        ⟨s.states.set n { p with children := p.children + 1 } ++
            [⟨id, p.path ++ ascii "." ++ decimal (p.children + 1), 0⟩],
          s.spans ++ [opened id name now fields p.id
            (p.path ++ ascii "." ++ decimal (p.children + 1))]⟩) := by
  simp only [Spans.startSpan, h, List.length_set, itoa_eq_decimal]
  rfl

theorem inside_span (n : Nat) (parentID path : Bytes) :
    (inside ctx id name fields n parentID path).span = some n := rfl

theorem inside_path (n : Nat) (parentID path : Bytes) :
    stringField (ascii "span_path") path ∈
      (inside ctx id name fields n parentID path).ctxFields := by
  refine List.mem_append_right _ ?_
  simp [Spans.boundFields]

theorem inside_parentID (n : Nat) {parentID : Bytes} (h : parentID ≠ []) (path : Bytes) :
    stringField (ascii "parent_span_id") parentID ∈
      (inside ctx id name fields n parentID path).ctxFields := by
  refine List.mem_append_right _ ?_
  simp [Spans.boundFields, h]

end Opening

theorem span_append {outer : Context χ υ} (h : outer.span = none) (ctx : Context χ υ) :
    Context.span (outer ++ ctx) = ctx.span := by
  unfold Context.span at h ⊢
  rw [List.findSome?_append, h, Option.none_or]

theorem shortID_ne_nil (r : Random) : shortID r.bytes ≠ [] := by
  intro h
  have hlen := encodeHex_length r.bytes
  rw [show encodeHex r.bytes = [] from h, r.six] at hlen
  cases hlen

structure Tracks (ps : Forest) (s : State χ υ) : Prop where
  spans : s.spans.spans.length = ps.length
  states : s.spans.states.length = ps.length
  contexts : s.contexts.length = ps.length
  earlier : ∀ p, some p ∈ ps → p < ps.length
  path : ∀ (i : Nat) (x : Span χ), s.spans.spans[i]? = some x → ∃ a, ps.Address i a ∧ x.path = dotted a
  id : ∀ (i : Nat) (x : Span χ), s.spans.spans[i]? = some x → x.id ≠ []
  state : ∀ (i : Nat) (x : Span χ) (st : SpanState), s.spans.spans[i]? = some x → s.spans.states[i]? = some st →
    st.id = x.id ∧ st.path = x.path ∧ st.children = ps.count (some i)
  parentID : ∀ (p i : Nat) (x y : Span χ), ps.Child p i → s.spans.spans[p]? = some x → s.spans.spans[i]? = some y →
    y.parentID = x.id
  span : ∀ (i : Nat) (c : Context χ υ), s.contexts[i]? = some c → c.span = some i
  shown : ∀ (i : Nat) (c : Context χ υ) (x : Span χ), s.contexts[i]? = some c → s.spans.spans[i]? = some x →
    stringField (ascii "span_path") x.path ∈ c.ctxFields ∧
      (x.parentID ≠ [] → stringField (ascii "parent_span_id") x.parentID ∈ c.ctxFields)

variable {ps : Forest} {s s' : State χ υ}

theorem tracks_init : Tracks [] (machine : Machine (State χ υ) (Start χ υ) (Option Nat)).init := by
  refine ⟨rfl, rfl, rfl, nofun, ?_, ?_, ?_, ?_, ?_, ?_⟩ <;> simp [machine, Spans.empty]

-- What a call adds under the parent x, if there is one: the new node is number ps.length.
structure Adds (ps : Forest) (x : Option Nat) (s s' : State χ υ) (y : Span χ) (c : Context χ υ) :
    Prop where
  spans : s'.spans.spans = s.spans.spans ++ [y]
  contexts : s'.contexts = s.contexts ++ [c]
  span : c.span = some ps.length
  path : ∃ a, Forest.Address (ps ++ [x]) ps.length a ∧ y.path = dotted a
  id : y.id ≠ []
  parent : ∀ p, x = some p → p < ps.length ∧ ∀ z : Span χ, s.spans.spans[p]? = some z →
    y.parentID = z.id
  shown : stringField (ascii "span_path") y.path ∈ c.ctxFields ∧
    (y.parentID ≠ [] → stringField (ascii "parent_span_id") y.parentID ∈ c.ctxFields)
  states : s'.spans.states.length = s.spans.states.length + 1
  old : ∀ (i : Nat) (st' : SpanState), i < ps.length → s'.spans.states[i]? = some st' →
    ∃ st, s.spans.states[i]? = some st ∧ st'.id = st.id ∧ st'.path = st.path ∧
      st'.children = st.children + [x].count (some i)
  new : s'.spans.states[ps.length]? = some ⟨y.id, y.path, 0⟩

theorem count_new (h : Tracks ps s) (x : Option Nat) (hx : ∀ p, x = some p → p < ps.length) :
    (ps ++ [x]).count (some ps.length) = 0 := by
  refine List.count_eq_zero.mpr fun hmem => ?_
  rcases List.mem_append.mp hmem with hold | hnew
  · exact absurd (h.earlier _ hold) (lt_irrefl _)
  · exact absurd (hx _ (List.mem_singleton.mp hnew).symm) (lt_irrefl _)

theorem added_cases {α : Type} {xs ys : List α} {y z : α} {n i : Nat} (hys : ys = xs ++ [y])
    (hn : xs.length = n) (hz : ys[i]? = some z) : xs[i]? = some z ∧ i < n ∨ i = n ∧ z = y := by
  subst hys hn
  rcases getElem?_concat_cases hz with hold | hnew
  · exact .inl ⟨hold, (List.getElem?_eq_some_iff.mp hold).1⟩
  · exact .inr hnew

theorem Adds.parentID {x : Option Nat} {w y z : Span χ} {c : Context χ υ} {p i : Nat}
    (ha : Adds ps x s s' y c) (h : Tracks ps s) (hchild : Forest.Child (ps ++ [x]) p i)
    (hw : s'.spans.spans[p]? = some w) (hz : s'.spans.spans[i]? = some z) : z.parentID = w.id := by
  -- The parent is older than its child, so it is never the span that was added.
  have hparent : p < ps.length → s.spans.spans[p]? = some w := by
    intro hp
    rcases added_cases ha.spans h.spans hw with ⟨hold, -⟩ | ⟨rfl, -⟩
    · exact hold
    · exact absurd hp (lt_irrefl _)
  rcases added_cases ha.spans h.spans hz with ⟨hold, hi⟩ | ⟨rfl, rfl⟩
  · have hchild₀ : ps.Child p i := (Forest.getElem?_grow x hi).symm.trans hchild
    exact h.parentID p i w z hchild₀ (hparent (h.earlier p (List.mem_of_getElem? hchild₀))) hold
  · obtain ⟨hp, hid⟩ := ha.parent p (by simpa [Forest.Child] using hchild)
    exact hid w (hparent hp)

theorem Tracks.adds {x : Option Nat} {y : Span χ} {c : Context χ υ} (h : Tracks ps s)
    (ha : Adds ps x s s' y c) : Tracks (ps ++ [x]) s' := by
  have hlen : (ps ++ [x]).length = ps.length + 1 := List.length_append
  constructor
  case spans => rw [ha.spans, List.length_append, h.spans, hlen, List.length_singleton]
  case states => rw [ha.states, h.states, hlen]
  case contexts => rw [ha.contexts, List.length_append, h.contexts, hlen, List.length_singleton]
  case earlier =>
    intro p hp
    rw [hlen]
    rcases List.mem_append.mp hp with hold | hnew
    · exact (h.earlier p hold).trans (Nat.lt_succ_self _)
    · exact ((ha.parent p (List.mem_singleton.mp hnew).symm).1).trans (Nat.lt_succ_self _)
  case path =>
    intro i z hz
    rcases added_cases ha.spans h.spans hz with ⟨hold, -⟩ | ⟨rfl, rfl⟩
    · obtain ⟨a, haddress, hpath⟩ := h.path i z hold
      exact ⟨a, haddress.grow x, hpath⟩
    · exact ha.path
  case id =>
    intro i z hz
    rcases added_cases ha.spans h.spans hz with ⟨hold, -⟩ | ⟨-, rfl⟩
    · exact h.id i z hold
    · exact ha.id
  case state =>
    intro i z st' hz hst
    rcases added_cases ha.spans h.spans hz with ⟨hold, hi⟩ | ⟨rfl, rfl⟩
    · obtain ⟨st, hst, hid, hpath, hchildren⟩ := ha.old i st' hi hst
      obtain ⟨hid₀, hpath₀, hchildren₀⟩ := h.state i z st hold hst
      refine ⟨hid.trans hid₀, hpath.trans hpath₀, ?_⟩
      rw [hchildren, hchildren₀, List.count_append]
    · obtain rfl := Option.some.inj (ha.new.symm.trans hst)
      exact ⟨rfl, rfl, (count_new h x fun p hp => (ha.parent p hp).1).symm⟩
  case parentID => exact fun p i w z hchild hw hz => ha.parentID h hchild hw hz
  case span =>
    intro i d hd
    rcases added_cases ha.contexts h.contexts hd with ⟨hold, -⟩ | ⟨rfl, rfl⟩
    · exact h.span i d hold
    · exact ha.span
  case shown =>
    intro i d z hd hz
    rcases added_cases ha.contexts h.contexts hd with ⟨hold, hi⟩ | ⟨rfl, rfl⟩
    · rcases added_cases ha.spans h.spans hz with ⟨hz, -⟩ | ⟨rfl, -⟩
      · exact h.shown i d z hold hz
      · exact absurd hi (lt_irrefl _)
    · rcases added_cases ha.spans h.spans hz with ⟨-, hi⟩ | ⟨-, rfl⟩
      · exact absurd hi (lt_irrefl _)
      · exact ha.shown

theorem Tracks.root (h : Tracks ps s) {ctx : Option (Context χ υ)}
    (hctx : (ctx.getD Context.background).span = none) (r : Random) (name : Bytes) (now : Time)
    (fields : List (Field χ)) :
    Tracks (ps ++ [none])
      ⟨(s.spans.startSpan ctx (shortID r.bytes) name now fields).2,
        s.contexts ++ [(s.spans.startSpan ctx (shortID r.bytes) name now fields).1]⟩ := by
  have hparent : s.spans.parent (ctx.getD Context.background) = none := by
    rw [Spans.parent, hctx, Option.bind_none]
  rw [startSpan_root s.spans ctx _ name now fields hparent]
  refine h.adds (y := opened (shortID r.bytes) name now fields [] (ascii "1"))
    ⟨rfl, rfl, ?_, ⟨[1], Forest.address_new_root, ?_⟩, shortID_ne_nil r, nofun, ⟨?_, ?_⟩, ?_, ?_, ?_⟩
  · rw [inside_span, h.states]
  · rfl
  · exact inside_path ctx _ name fields _ _ _
  · exact fun hne => absurd rfl hne
  · simp
  · intro i st hi hst
    rw [List.getElem?_append_left (h.states ▸ hi)] at hst
    exact ⟨st, hst, rfl, rfl, rfl⟩
  · rw [← h.states]
    simp [opened]

theorem Tracks.child (h : Tracks ps s) {p : Nat} {outer ctx : Context χ υ}
    (houter : outer.span = none) (hctx : s.contexts[p]? = some ctx) (r : Random) (name : Bytes)
    (now : Time) (fields : List (Field χ)) :
    Tracks (ps ++ [some p])
      ⟨(s.spans.startSpan (some (outer ++ ctx)) (shortID r.bytes) name now fields).2,
        s.contexts ++
          [(s.spans.startSpan (some (outer ++ ctx)) (shortID r.bytes) name now fields).1]⟩ := by
  have hp : p < ps.length := h.contexts ▸ (List.getElem?_eq_some_iff.mp hctx).1
  obtain ⟨st, hst⟩ : ∃ st, s.spans.states[p]? = some st :=
    ⟨_, List.getElem?_eq_getElem (h.states.symm ▸ hp)⟩
  obtain ⟨z, hz⟩ : ∃ z, s.spans.spans[p]? = some z :=
    ⟨_, List.getElem?_eq_getElem (h.spans.symm ▸ hp)⟩
  obtain ⟨hid, hpath, hchildren⟩ := h.state p z st hz hst
  obtain ⟨a, haddress, hdotted⟩ := h.path p z hz
  have hparent : s.spans.parent ((some (outer ++ ctx)).getD Context.background) = some (p, st) := by
    rw [Option.getD_some, Spans.parent, span_append houter, h.span p ctx hctx]
    simp [hst]
  have hne : st.id ≠ [] := hid ▸ h.id p z hz
  rw [startSpan_child s.spans _ _ name now fields hparent]
  refine h.adds (y := opened (shortID r.bytes) name now fields st.id
      (st.path ++ ascii "." ++ decimal (st.children + 1)))
    ⟨rfl, rfl, ?_, ⟨_, Forest.address_new_child haddress, ?_⟩, shortID_ne_nil r, ?_, ⟨?_, ?_⟩, ?_, ?_,
      ?_⟩
  · rw [inside_span, h.states]
  · rw [dotted_concat haddress.ne_nil, ← hdotted, ← hpath, ← hchildren]
    rfl
  · rintro q hq
    obtain rfl := Option.some.inj hq
    refine ⟨hp, fun w hw => ?_⟩
    obtain rfl := Option.some.inj (hz.symm.trans hw)
    exact hid
  · exact inside_path _ _ name fields _ _ _
  · exact fun _ => inside_parentID _ _ name fields _ hne _
  · simp
  · intro i st' hi hst'
    rw [List.getElem?_append_left (by rw [List.length_set, h.states]; exact hi)] at hst'
    rw [List.getElem?_set] at hst'
    split at hst'
    next heq =>
      subst heq
      rw [if_pos (h.states.symm ▸ hp), Option.some.injEq] at hst'
      subst hst'
      exact ⟨st, hst, rfl, rfl, by simp⟩
    next hneq => exact ⟨st', hst', rfl, rfl, by simp [hneq]⟩
  · have hlen : (s.spans.states.set p { st with children := st.children + 1 }).length = ps.length := by
      rw [List.length_set, h.states]
    rw [← hlen]
    exact List.getElem?_concat_length

theorem tracks {log : List (Option Nat)}
    (h : (machine : Machine (State χ υ) (Start χ υ) (Option Nat)).Run log s) : Tracks log s := by
  refine h.invariant (P := Tracks) tracks_init ?_
  intro log s a s' evs _ ht _ hstep
  obtain ⟨o, ho, heq⟩ := Option.map_eq_some_iff.mp hstep
  obtain ⟨rfl, rfl⟩ := Prod.mk.inj heq
  cases horigin : a.origin with
  | free ctx =>
    rw [horigin, origin] at ho
    split at ho
    next hctx =>
      cases ho
      exact ht.root hctx a.random a.name a.now a.fields
    next => cases ho
  | under p outer =>
    rw [horigin, origin] at ho
    split at ho
    next houter =>
      obtain ⟨ctx, hctx, rfl⟩ := Option.map_eq_some_iff.mp ho
      exact ht.child houter hctx a.random a.name a.now a.fields
    next => cases ho

-- What the flat paths say of the forest of spans.
structure PathTree (ps : Forest) (s : State χ υ) : Prop where
  distinct : ∀ (i j : Nat) (x y : Span χ), s.spans.spans[i]? = some x → s.spans.spans[j]? = some y →
    ps.SameTree i j → x.path = y.path → i = j
  ancestor : ∀ (i j : Nat) (x y : Span χ), s.spans.spans[i]? = some x → s.spans.spans[j]? = some y →
    ps.SameTree i j →
    (segments x.path <+: segments y.path ∧ segments x.path ≠ segments y.path ↔ ps.Ancestor i j)
  child : ∀ (p i : Nat) (x y : Span χ), s.spans.spans[p]? = some x → s.spans.spans[i]? = some y →
    ps.Child p i → y.path = x.path ++ ascii "." ++ itoa (ps.rank p i) ∧ y.parentID = x.id
  sibling : ∀ p i j : Nat, ps.Child p i → ps.Child p j → (ps.rank p i < ps.rank p j ↔ i < j)
  shown : ∀ (i : Nat) (c : Context χ υ) (x : Span χ), s.contexts[i]? = some c →
    s.spans.spans[i]? = some x → stringField (ascii "span_path") x.path ∈ c.ctxFields ∧
      ∀ p, ps.Child p i → stringField (ascii "parent_span_id") x.parentID ∈ c.ctxFields

theorem Tracks.ancestor (h : Tracks ps s) {i j : Nat} {x y : Span χ}
    (hx : s.spans.spans[i]? = some x) (hy : s.spans.spans[j]? = some y) (ht : ps.SameTree i j) :
    segments x.path <+: segments y.path ∧ segments x.path ≠ segments y.path ↔ ps.Ancestor i j := by
  obtain ⟨a, ha, hxa⟩ := h.path i x hx
  obtain ⟨b, hb, hyb⟩ := h.path j y hy
  have hinj : Function.Injective (List.map decimal) := List.map_injective_iff.mpr decimal_injective
  rw [hxa, hyb, segments_dotted ha.ne_nil, segments_dotted hb.ne_nil, hinj.ne_iff,
    List.prefix_map_iff_of_injective decimal_injective]
  exact ha.extends_iff hb ht

theorem Tracks.child_path (h : Tracks ps s) {p i : Nat} {x y : Span χ}
    (hx : s.spans.spans[p]? = some x) (hy : s.spans.spans[i]? = some y) (hc : ps.Child p i) :
    y.path = x.path ++ ascii "." ++ itoa (ps.rank p i) := by
  obtain ⟨a, ha, hxa⟩ := h.path p x hx
  obtain ⟨b, hb, hyb⟩ := h.path i y hy
  rw [hyb, hb.unique (.child hc ha), dotted_concat ha.ne_nil, hxa, itoa_eq_decimal]

theorem span_paths_encode_tree {log : List (Option Nat)} {s : State χ υ}
    (h : (machine : Machine (State χ υ) (Start χ υ) (Option Nat)).Run log s) : PathTree log s := by
  have ht := tracks h
  refine ⟨?_, fun i j x y hx hy hs => ht.ancestor hx hy hs, ?_, ?_, ?_⟩
  · intro i j x y hx hy hs hpath
    obtain ⟨a, ha, hxa⟩ := ht.path i x hx
    obtain ⟨b, hb, hyb⟩ := ht.path j y hy
    rw [hxa, hyb] at hpath
    exact ha.injective hb hs (dotted_injective ha.ne_nil hb.ne_nil hpath)
  · intro p i x y hx hy hc
    exact ⟨ht.child_path hx hy hc, ht.parentID p i x y hc hx hy⟩
  · exact fun p i j hi hj => Forest.rank_lt_iff hi hj
  · intro i c x hc hx
    obtain ⟨hpath, hparent⟩ := ht.shown i c x hc hx
    refine ⟨hpath, fun p hp => hparent ?_⟩
    have hlt : p < s.spans.spans.length := ht.spans ▸ ht.earlier p (List.mem_of_getElem? hp)
    have hz := List.getElem?_eq_getElem hlt
    rw [ht.parentID p i _ x hp hz hx]
    exact ht.id p _ hz

def sixZeros : Random := ⟨List.replicate 6 0, rfl⟩

def plainStart (origin : Origin Unit Unit) : Start Unit Unit where
  origin := origin
  random := sixZeros
  name := ascii "s"
  now := Time.epoch
  fields := []

-- Two trees; in the first the span at 1 has two children and the second of them has one.
theorem span_paths_encode_tree_two :
    ∃ s : State Unit Unit, s.spans.spans.map Span.path =
        [ascii "1", ascii "1.1", ascii "1", ascii "1.2", ascii "1.2.1"] ∧
      PathTree [none, some 0, none, some 0, some 3] s := by
  obtain ⟨log, s, hrun, hgood⟩ := Machine.exists_exec (M := machine (χ := Unit) (υ := Unit))
    (C := fun _ _ => True)
    [plainStart (.free none), plainStart (.under 0 []), plainStart (.free (some [.other ()])),
      plainStart (.under 0 [.other ()]), plainStart (.under 3 [])]
    (fun log s => decide (log = [none, some 0, none, some 0, some 3] ∧ s.spans.spans.map Span.path =
      [ascii "1", ascii "1.1", ascii "1", ascii "1.2", ascii "1.2.1"])) (by decide +kernel)
  obtain ⟨rfl, hpaths⟩ := of_decide_eq_true hgood
  exact ⟨s, hpaths, span_paths_encode_tree hrun⟩

end UbgoLogger.SpanTree
