import UbgoLogger.Core.SpanTree
import UbgoLogger.Foundation.LostUpdate

namespace UbgoLogger.SpanRace
open Foundation Foundation.Text Foundation.LostUpdate
open SpanTree (opened inside)

variable {χ υ : Type}

structure Start (χ : Type) where
  id : Bytes
  name : Bytes
  now : Time
  fields : List (Field χ)

-- The context that all calls are given, and the span it holds.
structure Shared (χ υ : Type) where
  ctx : Context χ υ
  spans : Spans χ
  parent : Nat
  state : SpanState
  found : spans.parent ctx = some (parent, state)

def addSpan (s : Spans χ) (span : Span χ) : Spans χ :=
  ⟨s.states ++ [⟨span.id, span.path, 0⟩], s.spans ++ [span]⟩

def setChildren (s : Spans χ) (p n : Nat) : Spans χ :=
  { s with states := s.states.modify p fun st => { st with children := n } }

structure State (χ : Type) where
  spans : Spans χ
  calls : List (Start χ × Pc)

inductive Act (χ : Type) where
  | enter (c : Start χ)
  | load (i : Nat)
  | store (i : Nat)
  | name (i : Nat)

inductive Event (χ υ : Type) where
  | loaded (i : Nat)
  | stored (i : Nat)
  | started (i : Nat) (ctx : Context χ υ) (span : Span χ)

section Steps

variable (sh : Shared χ υ)

-- parent.children
def children (s : State χ) : Nat :=
  ((s.spans.states[sh.parent]?).map SpanState.children).getD 0

def childPath (n : Nat) : Bytes := sh.state.path ++ ascii "." ++ itoa n

def step (s : State χ) : Act χ → Option (State χ × List (Event χ υ))
  | .enter c => some ({ s with calls := s.calls ++ [(c, .loading)] }, [])
  -- parent.children++ reads and writes
  | .load i =>
      match s.calls[i]? with
      | some (c, .loading) =>
          some ({ s with calls := s.calls.set i (c, .storing (children sh s)) }, [.loaded i])
      | _ => none
  | .store i =>
      match s.calls[i]? with
      | some (c, .storing l) =>
          some (⟨setChildren s.spans sh.parent (l + 1),
            s.calls.set i (c, .rereading (l + 1))⟩, [.stored i])
      | _ => none
  -- itoa(parent.children) reads again
  | .name i =>
      match s.calls[i]? with
      | some (c, .rereading v) =>
          let path := childPath sh (children sh s)
          let span := opened c.id c.name c.now c.fields sh.state.id path
          some (⟨addSpan s.spans span, s.calls.set i (c, .done v (children sh s))⟩,
            [.started i (inside (some sh.ctx) c.id c.name c.fields s.spans.states.length
              sh.state.id path) span])
      | _ => none

def machine : Machine (State χ) (Act χ) (Event χ υ) where
  init := ⟨sh.spans, []⟩
  step := step sh

-- A write finds the counter as it was read, and the second read finds it as it was written.
def Undisturbed (s : State χ) : Act χ → Prop
  | .store i => ∀ c l, s.calls[i]? = some (c, .storing l) → children sh s = l
  | .name i => ∀ c v, s.calls[i]? = some (c, .rereading v) → children sh s = v
  | _ => True

end Steps

def Event.path : Event χ υ → Option Bytes
  | .started _ _ span => some span.path
  | _ => none

-- The span_path of each child, in the order they were started.
def paths (log : List (Event χ υ)) : List Bytes := log.filterMap Event.path

section Abstraction

variable (sh : Shared χ υ)

def Act.counter : Act χ → LostUpdate.Act
  | .enter _ => .enter
  | .load i => .load i
  | .store i => .store i
  | .name i => .reread i

def counterState (s : State χ) : LostUpdate.State := ⟨children sh s, s.calls.map Prod.snd⟩

variable {sh} {s s' : State χ} {a : Act χ} {evs : List (Event χ υ)}

theorem getElem?_counterState {i : Nat} {c : Start χ} {pc : Pc} (h : s.calls[i]? = some (c, pc)) :
    (counterState sh s).pcs[i]? = some pc := by
  simp [counterState, h]

theorem undisturbed_iff :
    Undisturbed sh s a ↔ LostUpdate.Undisturbed (counterState sh s) a.counter := by
  cases a with
  | store i | name i =>
    simp only [Undisturbed, LostUpdate.Undisturbed, Act.counter, counterState, List.getElem?_map,
      Option.map_eq_some_iff, Prod.exists, exists_eq_right, forall_exists_index]
    exact forall_comm
  | _ => rfl

-- The parent is where it was, and each child is named after what its call saw.
structure Linked (sh : Shared χ υ) (log : List (Event χ υ)) (s : State χ) : Prop where
  parent : s.spans.states[sh.parent]? = some { sh.state with children := children sh s }
  named (q : Bytes → Bool) : (paths log).countP q =
    s.calls.countP fun c => c.2.seen.any fun n => q (childPath sh n)

theorem Shared.span_parent (sh : Shared χ υ) :
    sh.ctx.span = some sh.parent ∧ sh.spans.states[sh.parent]? = some sh.state := by
  have hfound := sh.found
  simp only [Spans.parent, Option.bind_eq_some_iff, Option.map_eq_some_iff, Prod.mk.injEq] at hfound
  obtain ⟨n, hn, st, hst, rfl, rfl⟩ := hfound
  exact ⟨hn, hst⟩

theorem children_init (sh : Shared χ υ) : children sh (machine sh).init = sh.state.children := by
  simp [children, machine, sh.span_parent.2]

theorem linked_init (sh : Shared χ υ) : Linked sh [] (machine sh).init := by
  refine ⟨?_, fun _ => rfl⟩
  rw [children_init]
  exact sh.span_parent.2

theorem children_eq {n : Nat}
    (h : s.spans.states[sh.parent]? = some { sh.state with children := n }) : children sh s = n := by
  simp [children, h]

-- One call moves on: the counter of the abstraction makes the same move.
theorem Linked.move {log : List (Event χ υ)} (h : Linked sh log s) {i : Nat} {c : Start χ}
    {pc : Pc} (hi : s.calls[i]? = some (c, pc)) (spans : Spans χ) (n : Nat) (pc' : Pc)
    (evs : List (Event χ υ))
    (hparent : spans.states[sh.parent]? = some { sh.state with children := n })
    (hnamed : ∀ q : Bytes → Bool, (paths evs).countP q +
      (pc.seen.any fun n => q (childPath sh n)).toNat =
        (pc'.seen.any fun n => q (childPath sh n)).toNat)
    (hstep : (counterState sh s).pcs[i]? = some pc →
      LostUpdate.step (counterState sh s) a.counter =
        some ⟨n, (counterState sh s).pcs.set i pc'⟩) :
    Linked sh (log ++ evs) ⟨spans, s.calls.set i (c, pc')⟩ ∧
      LostUpdate.step (counterState sh s) a.counter =
        some (counterState sh ⟨spans, s.calls.set i (c, pc')⟩) := by
  have hchildren : children sh ⟨spans, s.calls.set i (c, pc')⟩ = n := children_eq hparent
  refine ⟨⟨?_, fun q => ?_⟩, ?_⟩
  · rw [hchildren]
    exact hparent
  · have hcount := countP_set (fun c : Start χ × Pc => c.2.seen.any fun n => q (childPath sh n))
      (c, pc') hi
    have hpaths : paths (log ++ evs) = paths log ++ paths evs := List.filterMap_append
    rw [hpaths, List.countP_append, h.named q]
    have := hnamed q
    dsimp only at hcount ⊢
    omega
  · rw [hstep (getElem?_counterState hi), counterState, counterState, hchildren, List.map_set]

theorem Linked.step {log : List (Event χ υ)} (h : Linked sh log s)
    (hs : SpanRace.step sh s a = some (s', evs)) :
    Linked sh (log ++ evs) s' ∧
      LostUpdate.step (counterState sh s) a.counter = some (counterState sh s') := by
  cases a with
  | enter c =>
    cases hs
    refine ⟨⟨h.parent, fun q => ?_⟩, ?_⟩
    · rw [List.append_nil, h.named]
      simp [Pc.seen]
    · simp only [LostUpdate.step, Act.counter, counterState, List.map_append]
      rfl
  | load i =>
    simp only [SpanRace.step] at hs
    split at hs
    next c hi =>
      cases hs
      exact h.move hi s.spans (children sh s) (.storing (children sh s)) [.loaded i] h.parent
        (fun _ => rfl) fun hpc => by simp only [LostUpdate.step, Act.counter, hpc]; rfl
    next => cases hs
  | store i =>
    simp only [SpanRace.step] at hs
    split at hs
    next c l hi =>
      cases hs
      exact h.move hi (setChildren s.spans sh.parent (l + 1)) (l + 1) (.rereading (l + 1))
        [.stored i] (by simp [setChildren, h.parent]) (fun _ => rfl)
        fun hpc => by simp only [LostUpdate.step, Act.counter, hpc]
    next => cases hs
  | name i =>
    simp only [SpanRace.step] at hs
    split at hs
    next c v hi =>
      cases hs
      have hlt := (List.getElem?_eq_some_iff.mp h.parent).1
      refine h.move hi
        (addSpan s.spans (opened c.id c.name c.now c.fields sh.state.id
          (childPath sh (children sh s))))
        (children sh s) (.done v (children sh s)) _ ((List.getElem?_append_left hlt).trans h.parent)
        (fun q => ?_) fun hpc => by simp only [LostUpdate.step, Act.counter, hpc]; rfl
      cases hq : q (childPath sh (children sh s)) <;>
        simp [paths, Event.path, opened, Pc.seen, hq]
    next => cases hs

variable {log : List (Event χ υ)}

theorem counterState_init (sh : Shared χ υ) :
    counterState sh (machine sh).init = ⟨sh.state.children, []⟩ := by
  rw [counterState, children_init]
  rfl

theorem run_linked (h : (machine sh).Run log s) :
    Linked sh log s ∧ Bounded sh.state.children (counterState sh s) := by
  refine Machine.Exec.invariant (P := fun log s => Linked sh log s ∧
    Bounded sh.state.children (counterState sh s)) ?_ ?_ h
  · exact ⟨linked_init sh, counterState_init sh ▸ bounded_init _⟩
  · rintro log s a s' evs - ⟨hlinked, hb⟩ - hs
    obtain ⟨hlinked', hstep⟩ := hlinked.step hs
    exact ⟨hlinked', hb.step hstep⟩

theorem exec_fair (h : (machine sh).Exec (Undisturbed sh) log s) :
    Fair sh.state.children (counterState sh s) := by
  refine Machine.Exec.invariant (P := fun _ s => Fair sh.state.children (counterState sh s)) ?_ ?_ h
  · exact counterState_init sh ▸ fair_init _
  · intro log s a s' evs hexec hfair hu hs
    obtain ⟨hlinked, hb⟩ := run_linked hexec.run
    exact hfair.step hb (undisturbed_iff.mp hu) (hlinked.step hs).2

theorem exec_or_spoiled (h : (machine sh).Run log s) :
    (machine sh).Exec (Undisturbed sh) log s ∨ Spoiled sh.state.children (counterState sh s) := by
  refine Machine.Exec.invariant (P := fun log s => (machine sh).Exec (Undisturbed sh) log s ∨
    Spoiled sh.state.children (counterState sh s)) (.inl .start) ?_ h
  intro log s a s' evs hrun hcases _ hs
  obtain ⟨hlinked, hb⟩ := run_linked hrun
  have hstep := (hlinked.step hs).2
  rcases hcases with hexec | hspoiled
  · by_cases hu : Undisturbed sh s a
    · exact .inl (hexec.step hu hs)
    · exact .inr ((exec_fair hexec).spoiled hb (mt undisturbed_iff.mpr hu) hstep)
  · exact .inr (hspoiled.step hb hstep)

theorem childPath_injective (sh : Shared χ υ) : Function.Injective (childPath sh) := by
  intro m n h
  simp only [childPath, itoa_eq_decimal] at h
  exact SpanTree.decimal_injective (List.append_cancel_left h)

theorem Linked.nodup_iff (h : Linked sh log s) :
    (paths log).Nodup ↔ Distinct (counterState sh s) := by
  have hcount (n : Nat) : (paths log).count (childPath sh n) =
      (counterState sh s).pcs.countP fun pc => pc.seen = some n := by
    rw [List.count, h.named, counterState, List.countP_map]
    refine List.countP_congr fun c _ => ?_
    cases hc : c.2.seen <;> simp [hc, (childPath_injective sh).eq_iff]
  constructor
  · intro hnodup n
    rw [← hcount]
    exact List.nodup_iff_count_le_one.mp hnodup (childPath sh n)
  · intro hdistinct
    refine List.nodup_iff_count_le_one.mpr fun x => ?_
    by_cases hx : ∃ n, childPath sh n = x
    · obtain ⟨n, rfl⟩ := hx
      rw [hcount]
      exact hdistinct n
    · rw [List.count, h.named]
      refine (List.countP_eq_zero.mpr fun c _ => ?_).le.trans zero_le_one
      cases c.2.seen with
      | none => simp
      | some n => simpa using fun heq => hx ⟨n, heq⟩

theorem setChildren_eq {st : SpanState} {p : Nat} {spans : Spans χ}
    (h : spans.states[p]? = some st) (n : Nat) :
    setChildren spans p n = { spans with states := spans.states.set p { st with children := n } } := by
  have hlt := (List.getElem?_eq_some_iff.mp h).1
  rw [setChildren, List.modify_eq_set_getElem? ]
  simp [h]

-- The three accesses in a row are a call of StartSpan.
theorem startSpan_alone (h : Linked sh log s) {i : Nat} {c : Start χ}
    (hi : s.calls[i]? = some (c, .loading)) :
    ∃ s₁ s₂ s₃ ctx span, SpanRace.step sh s (.load i) = some (s₁, [.loaded i]) ∧
      SpanRace.step sh s₁ (.store i) = some (s₂, [.stored i]) ∧
      SpanRace.step sh s₂ (.name i) = some (s₃, [.started i ctx span]) ∧
      s.spans.startSpan (some sh.ctx) c.id c.name c.now c.fields = (ctx, s₃.spans) := by
  have hlt := (List.getElem?_eq_some_iff.mp hi).1
  have hfound : s.spans.parent sh.ctx =
      some (sh.parent, { sh.state with children := children sh s }) := by
    simp [Spans.parent, sh.span_parent.1, h.parent]
  let n := children sh s
  let s₁ : State χ := ⟨s.spans, s.calls.set i (c, .storing n)⟩
  let s₂ : State χ :=
    ⟨setChildren s.spans sh.parent (n + 1), s₁.calls.set i (c, .rereading (n + 1))⟩
  have h₁ : s₁.calls[i]? = some (c, .storing n) := List.getElem?_set_self hlt
  have h₂ : s₂.calls[i]? = some (c, .rereading (n + 1)) :=
    List.getElem?_set_self (List.getElem?_eq_some_iff.mp h₁).1
  have hchildren : children sh s₂ = n + 1 := children_eq (by simp [s₂, setChildren, h.parent])
  refine ⟨s₁, s₂, _, _, _, by simp [SpanRace.step, hi, s₁, n], by simp only [SpanRace.step, h₁]; rfl,
    by simp only [SpanRace.step, h₂]; rfl, ?_⟩
  rw [hchildren]
  simp only [Spans.startSpan, Option.getD_some, hfound, childPath, addSpan, s₂,
    setChildren_eq h.parent]
  rfl

end Abstraction

theorem child_spans_iff (sh : Shared χ υ) (log : List (Event χ υ)) (s : State χ)
    (h : (machine sh).Run log s) (hdone : ∀ c ∈ s.calls, c.2.isDone = true) :
    (paths log).Nodup ∧ children sh s = sh.state.children + (paths log).length ↔
      (machine sh).Exec (Undisturbed sh) log s := by
  obtain ⟨hlinked, -⟩ := run_linked h
  have hpcs : ∀ pc ∈ (counterState sh s).pcs, pc.isDone = true := by
    intro pc hpc
    obtain ⟨c, hc, rfl⟩ := List.mem_map.mp hpc
    exact hdone c hc
  have hlength : (paths log).length = (counterState sh s).pcs.length := by
    have hnamed := hlinked.named fun _ => true
    rw [List.countP_true] at hnamed
    rw [hnamed, counterState, List.length_map]
    refine List.countP_eq_length.mpr fun c hc => ?_
    obtain ⟨v, m, hpc⟩ := eq_done hpcs (List.mem_map_of_mem hc)
    simp [hpc, Pc.seen]
  rw [hlinked.nodup_iff, hlength]
  constructor
  · intro hgood
    exact (exec_or_spoiled h).resolve_right fun hspoiled => hspoiled.final hpcs hgood
  · intro hexec
    exact (exec_fair hexec).final hpcs

def request : Shared Unit Unit where
  ctx := [.span 0]
  spans := ⟨[⟨ascii "a1", ascii "1", 0⟩], []⟩
  parent := 0
  state := ⟨ascii "a1", ascii "1", 0⟩
  found := rfl

def query (id : Bytes) : Start Unit :=
  ⟨id, ascii "query", Time.epoch, []⟩

theorem child_spans_iff_in_turn : ∃ log s, (machine request).Run log s ∧
    (∀ c ∈ s.calls, c.2.isDone = true) ∧ paths log = [ascii "1.1", ascii "1.2"] ∧
    (machine request).Exec (Undisturbed request) log s := by
  obtain ⟨log, s, hrun, hgood⟩ := Machine.exists_exec (M := machine request) (C := fun _ _ => True)
    [.enter (query (ascii "b1")), .enter (query (ascii "b2")), .load 0, .store 0, .name 0, .load 1,
      .store 1, .name 1]
    (fun log s => s.calls.all (fun c => c.2.isDone) && paths log == [ascii "1.1", ascii "1.2"] &&
      children request s == 2) (by decide +kernel)
  simp only [Bool.and_eq_true, List.all_eq_true, beq_iff_eq] at hgood
  obtain ⟨⟨hdone, hpaths⟩, hchildren⟩ := hgood
  refine ⟨log, s, hrun, hdone, hpaths, (child_spans_iff request log s hrun hdone).mp ⟨?_, ?_⟩⟩
  · rw [hpaths]
    decide
  · rw [hpaths, hchildren]
    rfl

theorem children_share_path : ∃ log s, (machine request).Run log s ∧
    (∀ c ∈ s.calls, c.2.isDone = true) ∧ paths log = [ascii "1.1", ascii "1.1"] ∧
    ¬ (paths log).Nodup ∧ children request s ≠ request.state.children + (paths log).length := by
  obtain ⟨log, s, hrun, hgood⟩ := Machine.exists_exec (M := machine request) (C := fun _ _ => True)
    [.enter (query (ascii "b1")), .enter (query (ascii "b2")), .load 0, .load 1, .store 0, .store 1,
      .name 0, .name 1]
    (fun log s => s.calls.all (fun c => c.2.isDone) && paths log == [ascii "1.1", ascii "1.1"] &&
      children request s == 1) (by decide +kernel)
  simp only [Bool.and_eq_true, List.all_eq_true, beq_iff_eq] at hgood
  obtain ⟨⟨hdone, hpaths⟩, hchildren⟩ := hgood
  refine ⟨log, s, hrun, hdone, hpaths, ?_, ?_⟩
  · rw [hpaths]
    decide
  · rw [hpaths, hchildren]
    decide

end UbgoLogger.SpanRace
