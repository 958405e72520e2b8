import UbgoLogger.Core.Slog

namespace UbgoLogger.Slog

open Foundation Foundation.Text

-- The attribute tree slog prescribes, and its leaves.
inductive Node (χ : Type) where
  | leaf (key : Bytes) (v : Boxed χ)
  | group (key : Bytes) (children : List (Node χ))

variable {π χ υ : Type}

-- The attributes a record under these derivations amounts to.
def nest : List (Derivation χ) → List (Attr χ) → List (Attr χ)
  | [], as => as
  | .group name :: ds, as => if name = [] then nest ds as else [.mk name (.group (nest ds as))]
  | .attrs bs :: ds, as => bs ++ nest ds as

mutual

def valueTree (key : Bytes) : Value χ → List (Node χ)
  | .logValuer v => valueTree key v
  | .boxed v => if isZero key v then [] else [.leaf key v]
  | .group gs =>
      if key = [] then tree gs
      else
        match tree gs with
        | [] => []
        | n :: ns => [.group key (n :: ns)]

def attrTree : Attr χ → List (Node χ)
  | .mk key v => valueTree key v

def tree : List (Attr χ) → List (Node χ)
  | [] => []
  | a :: as => attrTree a ++ tree as

end

mutual

def nodeLeaves (path : List Bytes) : Node χ → List (List Bytes × Boxed χ)
  | .leaf key v => [(path ++ [key], v)]
  | .group key ns => leaves (path ++ [key]) ns

def leaves (path : List Bytes) : List (Node χ) → List (List Bytes × Boxed χ)
  | [] => []
  | n :: ns => nodeLeaves path n ++ leaves path ns

end

def dotJoined (path : List Bytes) : Bytes := (ascii ".").intercalate path

-- slog compares times by their instant.
def Same : Boxed χ → Boxed χ → Prop
  | .time t, .time u => t.sec = u.sec ∧ t.nsec = u.nsec
  | v, w => v = w

structure Carries (localOffset : Int → Int) (leaf : List Bytes × Boxed χ) (f : Field χ) : Prop where
  key : f.key = dotJoined leaf.1
  value : Same (f.value localOffset) leaf.2

def Fits : Boxed χ → Prop
  | .time t => -2 ^ 63 ≤ t.sec * 1000000000 + t.nsec ∧ t.sec * 1000000000 + t.nsec < 2 ^ 63
  | _ => True

theorem same_time_iff (localOffset : Int → Int) (t : Time) :
    (Time.unix localOffset t.unixNano.toInt).sec = t.sec ∧
        (Time.unix localOffset t.unixNano.toInt).nsec = t.nsec ↔
      Fits (.time t : Boxed χ) := by
  have hlt := t.nsec_lt
  have hle := t.unixNano.le_toInt
  have hmax := t.unixNano.toInt_lt
  constructor
  · rintro ⟨hsec, hnsec⟩
    simp only [Time.unix] at hsec hnsec
    have heq : t.unixNano.toInt = t.sec * 1000000000 + t.nsec := by omega
    rw [Fits, ← heq]
    exact ⟨hle, hmax⟩
  · rintro ⟨hmin, hsup⟩
    have heq : t.unixNano.toInt = t.sec * 1000000000 + t.nsec :=
      Int64.toInt_ofInt_of_le hmin hsup
    simp only [Time.unix, heq]
    omega

theorem same_leafField_iff (localOffset : Int → Int) (key : Bytes) (v : Boxed χ) :
    Same ((leafField key v).value localOffset) v ↔ Fits v := by
  cases v with
  | time t =>
    simpa [leafField, timeField, Field.value, Field.time, Field.int64, Same]
      using same_time_iff localOffset t
  | bool v => cases v <;> simp [leafField, boolField, Field.value, Same, Fits]
  | _ => simp [leafField, stringField, intField, uintField, floatField, durField, anyField,
      Field.value, Field.int64, Same, Fits]

-- The path of open groups as the source's prefix.
def openPrefix (path : List Bytes) : Bytes := path.flatMap (· ++ ascii ".")

theorem openPrefix_append_key (path : List Bytes) (key : Bytes) :
    openPrefix path ++ key = dotJoined (path ++ [key]) := by
  induction path with
  | nil => simp [openPrefix, dotJoined]
  | cons g path ih =>
    obtain ⟨k, ks, hks⟩ := List.exists_cons_of_ne_nil (List.concat_ne_nil key path)
    rw [openPrefix, List.flatMap_cons, List.append_assoc]
    change _ ++ (openPrefix path ++ key) = _
    rw [ih, List.cons_append, hks, dotJoined, dotJoined, List.intercalate_cons_cons]

theorem leaves_append (path : List Bytes) (ms ns : List (Node χ)) :
    leaves path (ms ++ ns) = leaves path ms ++ leaves path ns := by
  induction ms with
  | nil => rfl
  | cons m ms ih => rw [List.cons_append, leaves, leaves, ih, List.append_assoc]

def leafOf (leaf : List Bytes × Boxed χ) : Field χ := leafField (dotJoined leaf.1) leaf.2

mutual

theorem flattenValue_eq_leaves (path : List Bytes) (key : Bytes) :
    ∀ v : Value χ, flattenValue (openPrefix path) key v =
      (leaves path (valueTree key v)).map leafOf
  | .logValuer v => flattenValue_eq_leaves path key v
  | .boxed v => by
    rw [flattenValue, valueTree]
    split
    · rfl
    · simp [leaves, nodeLeaves, leafOf, openPrefix_append_key]
  | .group gs => by
    rw [flattenValue, valueTree]
    by_cases hkey : key = []
    · subst hkey
      exact flattenAttrs_eq_leaves path gs
    · have hpath : openPrefix path ++ key ++ ascii "." = openPrefix (path ++ [key]) := by
        simp [openPrefix]
      rw [if_neg (by simpa using hkey), if_neg hkey, hpath, flattenAttrs_eq_leaves _ gs]
      cases tree gs with
      | nil => rfl
      | cons n ns => simp [leaves, nodeLeaves]

theorem flattenAttr_eq_leaves (path : List Bytes) :
    ∀ a : Attr χ, flattenAttr (openPrefix path) a = (leaves path (attrTree a)).map leafOf
  | .mk key v => flattenValue_eq_leaves path key v

theorem flattenAttrs_eq_leaves (path : List Bytes) :
    ∀ as : List (Attr χ), flattenAttrs (openPrefix path) as = (leaves path (tree as)).map leafOf
  | [] => rfl
  | a :: as => by
    rw [flattenAttrs, flattenAttr_eq_leaves path a, flattenAttrs_eq_leaves path as, tree,
      leaves_append, List.map_append]

end

theorem leafField_key (key : Bytes) (v : Boxed χ) : (leafField key v).key = key := by
  cases v <;> rfl

theorem carries_leafOf_iff (localOffset : Int → Int) (leaf : List Bytes × Boxed χ) :
    Carries localOffset leaf (leafOf leaf) ↔ Fits leaf.2 :=
  ⟨fun h => (same_leafField_iff localOffset _ leaf.2).mp h.value,
    fun h => ⟨leafField_key _ leaf.2, (same_leafField_iff localOffset _ leaf.2).mpr h⟩⟩

theorem forall₂_carries_iff (localOffset : Int → Int) (ls : List (List Bytes × Boxed χ)) :
    List.Forall₂ (Carries localOffset) ls (ls.map leafOf) ↔ ∀ leaf ∈ ls, Fits leaf.2 := by
  rw [List.forall₂_map_right_iff, List.forall₂_same]
  exact forall₂_congr fun leaf _ => carries_leafOf_iff localOffset leaf

namespace View

theorem fields_start (as : List (Attr χ)) : start.fields as = (leaves [] (tree as)).map leafOf :=
  flattenAttrs_eq_leaves [] as

theorem fields_derive_group (v : View χ) {name : Bytes} (h : name ≠ []) (as : List (Attr χ)) :
    (v.derive (.group name)).fields as = v.fields [.mk name (.group as)] := by
  simp [derive, fields, flattenAttrs, flattenAttr, flattenValue, h]

theorem fields_derive_attrs (v : View χ) (as bs : List (Attr χ)) :
    (v.derive (.attrs as)).fields bs = v.fields (as ++ bs) := by
  simp [derive, fields, flattenAttrs_append]

theorem fields_foldl_derive (v : View χ) (ds : List (Derivation χ)) (as : List (Attr χ)) :
    (ds.foldl derive v).fields as = v.fields (nest ds as) := by
  induction ds generalizing v with
  | nil => rfl
  | cons d ds ih =>
    rw [List.foldl_cons, ih]
    cases d with
    | attrs bs => exact v.fields_derive_attrs bs _
    | group name =>
      by_cases h : name = []
      · rw [derive, if_pos h, nest, if_pos h]
      · rw [v.fields_derive_group h, nest, if_neg h]

end View

structure State (π χ : Type) where
  memory : Memory χ
  handlers : List SlogHandler
  pipeline : π

inductive Call (χ υ : Type) where
  | derive (i : Nat) (d : Derivation χ)
  | handle (i : Nat) (ctx : Option (Context χ υ)) (r : Record χ)

inductive Event (χ υ : Type) where
  | derived (i : Nat) (d : Derivation χ)
  | handed (rec : Option (Rec χ υ))

def SlogHandler.derive (grow : Nat → Nat → Nat) (m : Memory χ) (h : SlogHandler) :
    Derivation χ → Memory χ × SlogHandler
  | .group name => h.withGroup grow m name
  | .attrs as => h.withAttrs grow m as

section Machine

variable (l : Logger π χ υ) (grow : Nat → Nat → Nat)

-- The record the pipeline gets when handler i handles r.
def handed (s : State π χ) (i : Nat) (ctx : Option (Context χ υ)) (r : Record χ) :
    Option (Rec χ υ) :=
  s.handlers[i]?.bind fun h =>
    l.recordAt ctx r.time (slogToLevel r.level) r.message (h.fields grow s.memory r.attrs).2

-- Every call adds the handler it returns; WithGroup("") returns the one it is called on.
def step (s : State π χ) : Call χ υ → Option (State π χ × List (Event χ υ))
  | .derive i d =>
      s.handlers[i]?.map fun h =>
        let (m, nh) := h.derive grow s.memory d
        ({ s with memory := m, handlers := s.handlers ++ [nh] }, [.derived i d])
  | .handle i ctx r =>
      s.handlers[i]?.map fun h =>
        let (m, fields) := h.fields grow s.memory r.attrs
        let (st, _) := l.logAt s.pipeline ctx r.time (slogToLevel r.level) r.message fields
        ({ s with memory := m, pipeline := st }, [.handed (handed l grow s i ctx r)])

def machine (st : π) : Machine (State π χ) (Call χ υ) (Event χ υ) where
  init := ⟨.empty, [⟨Slices.Slice.nil, [], Slices.Slice.nil⟩], st⟩
  step := step l grow

end Machine

-- The calls that led to each handler.
def histories (log : List (Event χ υ)) : List (List (Derivation χ)) :=
  log.foldl (fun hs e =>
    match e with
    | .derived i d => hs ++ [hs.getD i [] ++ [d]]
    | .handed _ => hs) [[]]

def viewOf (ds : List (Derivation χ)) : View χ := ds.foldl View.derive View.start

structure Refines (log : List (Event χ υ)) (s : State π χ) : Prop where
  sound : s.memory.Sound
  views : List.Forall₂ (fun h ds => s.memory.Valid h ∧ h.view s.memory = viewOf ds)
    s.handlers (histories log)

section Runs

variable {l : Logger π χ υ} {grow : Nat → Nat → Nat} {st : π} {log : List (Event χ υ)}
  {s s' : State π χ} {evs : List (Event χ υ)}

theorem derive_spec (grow : Nat → Nat → Nat) {m : Memory χ} (hm : m.Sound) {h : SlogHandler} (hh : m.Valid h)
    (d : Derivation χ) :
    m.Keeps (h.derive grow m d).1 ∧ (h.derive grow m d).1.Valid (h.derive grow m d).2 ∧
      (h.derive grow m d).2.view (h.derive grow m d).1 = (h.view m).derive d := by
  cases d with
  | group name => exact SlogHandler.withGroup_spec grow hm hh name
  | attrs as => exact SlogHandler.withAttrs_spec grow hm h as

theorem Refines.keeps {m : Memory χ} (h : Refines log s) (hm : s.memory.Keeps m) (st : π) :
    Refines log ⟨m, s.handlers, st⟩ :=
  ⟨hm.sound h.sound, h.views.imp fun _ _ hv => ⟨hm.valid hv.1, (hm.view hv.1).trans hv.2⟩⟩

theorem histories_concat_derived (log : List (Event χ υ)) (i : Nat) (d : Derivation χ) :
    histories (log ++ [.derived i d]) =
      histories log ++ [(histories log).getD i [] ++ [d]] := by
  simp [histories]

theorem histories_concat_handed (log : List (Event χ υ)) (rec : Option (Rec χ υ)) :
    histories (log ++ [.handed rec]) = histories log := by
  simp [histories]

theorem Refines.history {i : Nat} {h : SlogHandler} (hr : Refines log s)
    (hi : s.handlers[i]? = some h) :
    ∃ ds, (histories log)[i]? = some ds ∧ s.memory.Valid h ∧ h.view s.memory = viewOf ds := by
  obtain ⟨hlt, rfl⟩ := List.getElem?_eq_some_iff.mp hi
  have hlt' : i < (histories log).length := hr.views.length_eq ▸ hlt
  exact ⟨_, List.getElem?_eq_getElem hlt', hr.views.get hlt hlt'⟩

theorem Refines.handler {i : Nat} {ds : List (Derivation χ)} (hr : Refines log s)
    (hi : (histories log)[i]? = some ds) :
    ∃ h, s.handlers[i]? = some h ∧ h.view s.memory = viewOf ds := by
  obtain ⟨hlt, rfl⟩ := List.getElem?_eq_some_iff.mp hi
  have hlt' : i < s.handlers.length := hr.views.length_eq.symm ▸ hlt
  exact ⟨_, List.getElem?_eq_getElem hlt', (hr.views.get hlt' hlt).2⟩

theorem refines_step (h : Refines log s) {c : Call χ υ}
    (hs : step l grow s c = some (s', evs)) : Refines (log ++ evs) s' := by
  cases c with
  | derive i d =>
    obtain ⟨sh, hi, hs⟩ := Option.map_eq_some_iff.mp hs
    cases hs
    obtain ⟨ds, hds, hvalid, hview⟩ := h.history hi
    obtain ⟨hkeeps, hnew, hderive⟩ := derive_spec grow h.sound hvalid d
    refine ⟨hkeeps.sound h.sound, ?_⟩
    rw [histories_concat_derived]
    refine List.rel_append (h.keeps hkeeps s.pipeline).views (.cons ⟨hnew, ?_⟩ .nil)
    refine hderive.trans ?_
    rw [hview, List.getD_eq_getElem?_getD, hds]
    simp [viewOf]
  | handle i ctx r =>
    obtain ⟨sh, hi, hs⟩ := Option.map_eq_some_iff.mp hs
    cases hs
    have hkeeps := (SlogHandler.fields_spec grow s.memory sh r.attrs).1
    have hnext := h.keeps hkeeps
      (l.logAt s.pipeline ctx r.time (slogToLevel r.level) r.message
        (sh.fields grow s.memory r.attrs).2).1
    exact ⟨hnext.sound, (histories_concat_handed log _).symm ▸ hnext.views⟩

theorem refines_start : Refines ([] : List (Event χ υ)) (machine l grow st).init :=
  ⟨Memory.sound_empty, .cons ⟨⟨Slices.Store.sound_empty.valid_nil, Slices.Store.sound_empty.valid_nil⟩,
    rfl⟩ .nil⟩

theorem refines_run (h : (machine l grow st).Run log s) : Refines log s :=
  h.invariant (P := Refines) refines_start fun _ ih _ hs => refines_step ih hs

theorem Refines.handed_eq (h : Refines log s) {i : Nat} {ds : List (Derivation χ)}
    (hi : (histories log)[i]? = some ds) (ctx : Option (Context χ υ)) (r : Record χ) :
    handed l grow s i ctx r =
      l.recordAt ctx r.time (slogToLevel r.level) r.message (View.start.fields (nest ds r.attrs)) := by
  obtain ⟨sh, hsh, hview⟩ := h.handler hi
  rw [handed, hsh, Option.bind_some, (SlogHandler.fields_spec grow s.memory sh r.attrs).2, hview, viewOf,
    View.fields_foldl_derive]

-- A later call adds handlers and leaves the history of each one that was there.
theorem histories_step {c : Call χ υ} (hs : step l grow s c = some (s', evs))
    {i : Nat} {ds : List (Derivation χ)} (hi : (histories log)[i]? = some ds) :
    (histories (log ++ evs))[i]? = some ds := by
  cases c with
  | derive j d =>
    obtain ⟨sh, -, hs⟩ := Option.map_eq_some_iff.mp hs
    cases hs
    rw [histories_concat_derived, List.getElem?_append_left (List.getElem?_eq_some_iff.mp hi).1]
    exact hi
  | handle j ctx r =>
    obtain ⟨sh, -, hs⟩ := Option.map_eq_some_iff.mp hs
    cases hs
    rw [histories_concat_handed]
    exact hi

theorem handed_later (h : Refines log s) {i : Nat} {ds : List (Derivation χ)}
    (hi : (histories log)[i]? = some ds) {calls : List (Call χ υ)} {log' : List (Event χ υ)}
    (hp : (machine l grow st).perform log s calls = some (log', s')) (ctx : Option (Context χ υ))
    (r : Record χ) : handed l grow s' i ctx r = handed l grow s i ctx r := by
  have hlater : Refines log' s' ∧ (histories log')[i]? = some ds :=
    Machine.performIf_invariant
      (P := fun log (s : State π χ) => Refines log s ∧ (histories log)[i]? = some ds)
      (fun ih _ hs => ⟨refines_step ih.1 hs, histories_step hs ih.2⟩) ⟨h, hi⟩ hp
  rw [hlater.1.handed_eq hlater.2, h.handed_eq hi]

theorem exists_derive (h : Refines log s) {i : Nat} {ds : List (Derivation χ)}
    (hi : (histories log)[i]? = some ds) (d : Derivation χ) :
    ∃ s', step l grow s (.derive i d) = some (s', [.derived i d]) ∧
      Refines (log ++ [.derived i d]) s' ∧
      (histories (log ++ [.derived i d]))[s.handlers.length]? = some (ds ++ [d]) := by
  obtain ⟨sh, hsh, -⟩ := h.handler hi
  have hs : step l grow s (.derive i d) =
      some (⟨(sh.derive grow s.memory d).1, s.handlers ++ [(sh.derive grow s.memory d).2], s.pipeline⟩,
        [.derived i d]) := by
    rw [step, hsh]
    rfl
  refine ⟨_, hs, refines_step h hs, ?_⟩
  rw [histories_concat_derived, h.views.length_eq, List.getElem?_concat_length,
    List.getD_eq_getElem?_getD, hi, Option.getD_some]

theorem handed_derived (h : Refines log s) {i : Nat} {ds : List (Derivation χ)}
    (hi : (histories log)[i]? = some ds) (d : Derivation χ) (ctx : Option (Context χ υ))
    {r r' : Record χ} (hr : nest (ds ++ [d]) r.attrs = nest ds r'.attrs)
    (hsame : r' = { r with attrs := r'.attrs }) :
    ∃ s', step l grow s (.derive i d) = some (s', [.derived i d]) ∧
      handed l grow s' s.handlers.length ctx r = handed l grow s i ctx r' := by
  obtain ⟨s', hs, hnext, hnew⟩ := exists_derive h hi d
  refine ⟨s', hs, ?_⟩
  rw [hnext.handed_eq hnew, h.handed_eq hi, hr, hsame]

theorem nest_concat (ds : List (Derivation χ)) (d : Derivation χ) (as : List (Attr χ)) :
    nest (ds ++ [d]) as = nest ds (nest [d] as) := by
  induction ds with
  | nil => rfl
  | cons e ds ih =>
    cases e with
    | group name => simp only [List.cons_append, nest, ih]
    | attrs bs => simp only [List.cons_append, nest, ih]

theorem Refines.carries_iff (h : Refines log s) {i : Nat} {ds : List (Derivation χ)}
    (hi : (histories log)[i]? = some ds) (localOffset : Int → Int) (ctx : Option (Context χ υ))
    {r : Record χ} (hlevel : l.level ≤ slogToLevel r.level) :
    (∃ rec fs, handed l grow s i ctx r = some rec ∧ rec.fields = l.withFields ++ fs ∧
        List.Forall₂ (Carries localOffset) (leaves [] (tree (nest ds r.attrs))) fs) ↔
      ∀ leaf ∈ leaves [] (tree (nest ds r.attrs)), Fits leaf.2 := by
  rw [h.handed_eq hi, Logger.recordAt, if_neg (not_lt.mpr hlevel), View.fields_start,
    ← forall₂_carries_iff localOffset]
  constructor
  · rintro ⟨rec, fs, hrec, hfields, hcarries⟩
    cases hrec
    rwa [List.append_cancel_left hfields]
  · intro hcarries
    exact ⟨_, _, rfl, rfl, hcarries⟩

theorem handler_carries_tree_iff (l : Logger π χ υ) (grow : Nat → Nat → Nat) (st : π)
    (localOffset : Int → Int) {log : List (Event χ υ)} {s : State π χ}
    (h : (machine l grow st).Run log s) {i : Nat} {ds : List (Derivation χ)}
    (hi : (histories log)[i]? = some ds) (ctx : Option (Context χ υ)) (r : Record χ)
    (hlevel : l.level ≤ slogToLevel r.level) :
    ((∃ rec fs, handed l grow s i ctx r = some rec ∧ rec.fields = l.withFields ++ fs ∧
          List.Forall₂ (Carries localOffset) (leaves [] (tree (nest ds r.attrs))) fs) ↔
        ∀ leaf ∈ leaves [] (tree (nest ds r.attrs)), Fits leaf.2) ∧
      (∀ g ≠ [], ∃ s', step l grow s (.derive i (.group g)) = some (s', [.derived i (.group g)]) ∧
        handed l grow s' s.handlers.length ctx r =
          handed l grow s i ctx { r with attrs := [.mk g (.group r.attrs)] }) ∧
      (∀ as, ∃ s', step l grow s (.derive i (.attrs as)) = some (s', [.derived i (.attrs as)]) ∧
        handed l grow s' s.handlers.length ctx r =
          handed l grow s i ctx { r with attrs := as ++ r.attrs }) ∧
      ∀ calls log' s', (machine l grow st).perform log s calls = some (log', s') →
        handed l grow s' i ctx r = handed l grow s i ctx r := by
  have hinv := refines_run h
  refine ⟨hinv.carries_iff hi localOffset ctx hlevel, fun g hg => handed_derived hinv hi _ ctx ?_ rfl,
    fun as => handed_derived hinv hi _ ctx ?_ rfl,
    fun calls log' s' hp => handed_later hinv hi hp ctx r⟩
  · rw [nest_concat, nest, if_neg hg]
    rfl
  · rw [nest_concat]
    rfl

end Runs

def quietLogger : Logger Unit Unit Unit where
  level := Level.info
  processors := []
  withFields := [stringField (ascii "svc") (ascii "api")]
  addCaller := false

def groupedTime : Record Unit where
  time := Time.zero
  level := levelInfo
  message := ascii "m"
  attrs := [.mk (ascii "t") (.boxed (.time ⟨0, 1, 0, by omega⟩))]

theorem handler_carries_tree_iff_grouped :
    ∃ log s, (machine quietLogger (fun _ _ => 3) ()).Run log s ∧
      (histories log)[1]? = some [.group (ascii "g")] ∧
      (leaves [] (tree (nest [.group (ascii "g")] groupedTime.attrs))).map Prod.fst =
        [[ascii "g", ascii "t"]] ∧
      ∃ rec fs, handed quietLogger (fun _ _ => 3) s 1 none groupedTime = some rec ∧
        rec.fields = quietLogger.withFields ++ fs ∧
        List.Forall₂ (Carries fun _ => 0)
          (leaves [] (tree (nest [.group (ascii "g")] groupedTime.attrs))) fs := by
  have hstep : ∃ s, (machine quietLogger (fun _ _ => 3) ()).step
      (machine quietLogger (fun _ _ => 3) ()).init (.derive 0 (.group (ascii "g"))) =
        some (s, [.derived 0 (.group (ascii "g"))]) := ⟨_, rfl⟩
  obtain ⟨s, hs⟩ := hstep
  have hrun := (Machine.Exec.start (C := fun _ _ => True)).step trivial hs
  refine ⟨_, s, hrun, rfl, rfl, ?_⟩
  refine (handler_carries_tree_iff quietLogger (fun _ _ => 3) () (fun _ => 0) hrun
    (i := 1) rfl none groupedTime (by decide)).1.mpr ?_
  intro leaf hleaf
  rw [List.mem_singleton.mp hleaf]
  exact ⟨by decide, by decide⟩

-- The zero time is outside the range of UnixNano.
theorem zero_time_changes_on_the_way :
    ∃ r : Record Unit, r.attrs = [.mk (ascii "t") (.boxed (.time Time.zero))] ∧
      quietLogger.level ≤ slogToLevel r.level ∧
      ¬ ∃ rec fs, handed quietLogger (fun _ _ => 3)
            (machine quietLogger (fun _ _ => 3) ()).init 0 none r = some rec ∧
          rec.fields = quietLogger.withFields ++ fs ∧
          List.Forall₂ (Carries fun _ => 0) (leaves [] (tree (nest [] r.attrs))) fs := by
  refine ⟨{ groupedTime with attrs := [.mk (ascii "t") (.boxed (.time Time.zero))] }, rfl, by decide, ?_⟩
  intro hcarried
  have hfits := (Refines.carries_iff (i := 0) refines_start rfl _ none (by decide)).mp hcarried
  exact absurd (hfits _ (List.mem_singleton_self _)).1 (by decide)

end UbgoLogger.Slog
