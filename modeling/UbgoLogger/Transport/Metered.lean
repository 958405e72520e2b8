import UbgoLogger.Transport.Calling
import UbgoLogger.Transport.Engine

namespace UbgoLogger.Transport
open Foundation

-- A Dispatch at the step that counts a record as lost to a full queue.
def Channel.Spills {ι β κ : Type} (s : Channel.State ι β κ) : Act ι β κ → Bool
  | .produce i =>
      match s.producer i with
      | .counting _ => true
      | .refusing _ => true
      | _ => false
  | _ => false

def Ring.Spills {ι β κ : Type} (policy : OverflowPolicy) (s : Ring.State ι β κ) : Act ι β κ → Bool
  | .produce i =>
      match s.producer i with
      | .entering _ => policy = .dropOldest ∧ s.gate.closed = false ∧ s.count = s.buf.length
      | .refusing _ => true
      | _ => false
  | _ => false

def Disruptor.Spills {ι β κ : Type} (s : Disruptor.State ι β κ) : Act ι β κ → Bool
  | .produce i =>
      match s.producer i with
      | .counting _ => true
      | .refusing _ => true
      | _ => false
  | _ => false

def Async.Spills {ι β : Type} (policy : OverflowPolicy) :
    (t : Async) → t.State ι β → Act ι β Unit → Bool
  | .channel => Channel.Spills
  | .ring => Ring.Spills policy
  | .disruptor => Disruptor.Spills

theorem spilled_append {ι β κ : Type} (log evs : List (Event ι β κ)) :
    spilled (log ++ evs) = spilled log + spilled evs := by
  simp only [spilled, counters, refused, List.filterMap_append, List.length_append]
  omega

section Spills

variable {ι β κ : Type} [DecidableEq ι] {policy : OverflowPolicy} {cap : Nat}
variable {a : Act ι β κ} {evs : List (Event ι β κ)}

omit [DecidableEq ι] in
theorem Gate.Step.spilled_eq [DecidableEq κ] {g g' : Gate κ} (h : Gate.Step g g' evs) : spilled evs = 0 := by
  cases h <;> rfl

theorem Channel.send_spilled {s s' : Channel.State ι β κ} {i : ι} {x : Item ι β}
    (h : Channel.send cap policy s i x = some (s', evs)) : spilled evs = 0 := by
  unfold Channel.send at h
  split_ifs at h
  · cases h
    rfl
  · cases h
    rfl
  · cases policy <;> cases h <;> rfl

theorem Channel.evict_spilled (s : Channel.State ι β κ) (i : ι) (x : Item ι β) :
    spilled (Channel.evict s i x).2 = 0 := by
  unfold Channel.evict
  split
  · rfl
  · split_ifs <;> rfl

theorem Channel.spilled_step [DecidableEq κ] {s s' : Channel.State ι β κ}
    (h : Channel.step cap policy s a = some (s', evs)) :
    spilled evs = (Channel.Spills s a).toNat := by
  cases a with
  | produce i =>
    simp only [Channel.step, Channel.Spills] at h ⊢
    cases hi : s.producer i with
    | sending x =>
      rw [hi] at h
      exact Channel.send_spilled h
    | evicting x =>
      rw [hi] at h
      obtain rfl : (Channel.evict s i x).2 = evs := congrArg Prod.snd (Option.some.inj h)
      exact Channel.evict_spilled s i x
    | _ =>
      rw [hi] at h
      cases h <;> rfl
  | _ =>
    cases Channel.step_cases h with
    | gate a b hg => exact hg.spilled_eq
    | _ => rfl

theorem Ring.enter_spilled (s : Ring.State ι β κ) (i : ι) (x : Item ι β) :
    spilled (Ring.enter policy s i x).2 =
      (decide (policy = .dropOldest ∧ s.gate.closed = false ∧ s.count = s.buf.length)).toNat := by
  unfold Ring.enter
  split_ifs with hclosed hfull
  · simp [hclosed, spilled, counters, refused]
  · cases policy with
    | dropOldest =>
      rw [decide_eq_true ⟨rfl, Bool.not_eq_true _ ▸ hclosed, hfull⟩]
      cases s.front <;> rfl
    | _ => rfl
  · simp [hfull, spilled, counters, refused]

theorem Ring.resume_spilled (s : Ring.State ι β κ) (i : ι) (x : Item ι β) :
    spilled (Ring.resume s i x).2 = 0 := by
  unfold Ring.resume
  split_ifs <;> rfl

theorem Ring.spilled_step [DecidableEq κ] {s s' : Ring.State ι β κ}
    (h : Ring.step policy s a = some (s', evs)) : spilled evs = (Ring.Spills policy s a).toNat := by
  cases a with
  | produce i =>
    simp only [Ring.step, Ring.Spills] at h ⊢
    cases hi : s.producer i with
    | entering x =>
      rw [hi] at h
      obtain rfl : (Ring.enter policy s i x).2 = evs := congrArg Prod.snd (Option.some.inj h)
      exact Ring.enter_spilled s i x
    | woken x =>
      rw [hi] at h
      obtain rfl : (Ring.resume s i x).2 = evs := congrArg Prod.snd (Option.some.inj h)
      exact Ring.resume_spilled s i x
    | _ =>
      rw [hi] at h
      cases h <;> rfl
  | _ =>
    cases Ring.step_cases h with
    | gate a hg => exact hg.spilled_eq
    | shut a hg => exact hg.spilled_eq
    | _ => rfl

omit [DecidableEq ι] in
-- What the operations of the queue show of themselves is no loss.
theorem Disruptor.queue_spilled {f : Mpmc.Event (Item ι β) → Option (Event ι β κ)}
    (hf : ∀ e, (f e).bind Event.counter = none ∧ (f e).bind Event.refuseItem = none)
    (evs : List (Mpmc.Event (Item ι β))) : spilled (evs.filterMap f) = 0 := by
  rw [spilled, counters, refused, List.filterMap_filterMap, List.filterMap_filterMap,
    List.filterMap_eq_nil_iff.mpr fun e _ => (hf e).1,
    List.filterMap_eq_nil_iff.mpr fun e _ => (hf e).2]
  rfl

theorem Disruptor.enqueue_spilled {s s' : Disruptor.State ι β κ} {i : ι} {x : Item ι β}
    {pc : Mpmc.Pc (Item ι β)} (h : Disruptor.enqueue policy s i x pc = some (s', evs)) :
    spilled evs = 0 := by
  unfold Disruptor.enqueue at h
  split at h
  · cases h
    exact Disruptor.queue_spilled (fun e => by cases e <;> exact ⟨rfl, rfl⟩) _
  · split at h
    · cases h
      rfl
    · cases policy <;> cases h <;> rfl
    · cases h

theorem Disruptor.evict_spilled {s s' : Disruptor.State ι β κ} {i : ι} {x : Item ι β}
    {pc : Mpmc.Pc (Item ι β)} (h : Disruptor.evict s i x pc = some (s', evs)) : spilled evs = 0 := by
  unfold Disruptor.evict at h
  split at h
  · cases h
    refine Disruptor.queue_spilled (fun e => ?_) _
    rcases e with _ | _ | ⟨_, _ | _⟩ <;> exact ⟨rfl, rfl⟩
  · split at h <;> cases h <;> rfl

theorem Disruptor.spilled_step [DecidableEq κ] {s s' : Disruptor.State ι β κ}
    (h : Disruptor.step policy s a = some (s', evs)) :
    spilled evs = (Disruptor.Spills s a).toNat := by
  cases a with
  | produce i =>
    simp only [Disruptor.step, Disruptor.Spills] at h ⊢
    cases hi : s.producer i with
    | enqueuing x pc =>
      rw [hi] at h
      exact Disruptor.enqueue_spilled h
    | evicting x pc =>
      rw [hi] at h
      exact Disruptor.evict_spilled h
    | _ =>
      rw [hi] at h
      cases h <;> rfl
  | work pick =>
    cases Disruptor.step_cases h with
    | dequeue pick draining hc hop =>
      refine Disruptor.queue_spilled (fun e => ?_) _
      rcases e with _ | _ | ⟨_, _ | _⟩ <;> exact ⟨rfl, rfl⟩
    | gate a hg => exact hg.spilled_eq
    | _ => rfl
  | _ =>
    cases Disruptor.step_cases h with
    | gate a hg => exact hg.spilled_eq
    | _ => rfl

end Spills

theorem Async.spilled_step {ι β : Type} [DecidableEq ι] {t : Async} {capacity : Int}
    {policy : OverflowPolicy} {s s' : t.State ι β} {a : Act ι β Unit} {evs : List (Event ι β Unit)}
    (h : (t.machine capacity policy).step s a = some (s', evs)) :
    spilled evs = (t.Spills policy s a).toNat :=
  match t with
  | .channel => Channel.spilled_step h
  | .ring => Ring.spilled_step h
  | .disruptor => Disruptor.spilled_step h

namespace Metered
open Calling (Caller Call Mark begin returnCallers)

variable {ι σ π χ υ : Type}

structure State (ι σ π χ υ : Type) extends Calling.State ι π χ υ where
  transport : σ

inductive Move (ι χ υ : Type) where
  | call (a : Calling.Act ι χ υ)
  | sinkError
  | transport (a : Act ι Nat Unit)

inductive Entry (ι χ υ : Type) where
  | call (m : Mark ι χ υ)
  | transport (e : Event ι Nat Unit)

namespace Entry

def mark : Entry ι χ υ → Option (Mark ι χ υ)
  | .call m => some m
  | .transport _ => none

def event : Entry ι χ υ → Option (Event ι Nat Unit)
  | .transport e => some e
  | .call _ => none

end Entry

def marks (log : List (Entry ι χ υ)) : List (Mark ι χ υ) := log.filterMap Entry.mark

def events (log : List (Entry ι χ υ)) : List (Event ι Nat Unit) := log.filterMap Entry.event

def rejected (log : List (Entry ι χ υ)) : List ι := Calling.rejected (marks log)

section Logs

variable (log : List (Entry ι χ υ)) (ms : List (Mark ι χ υ)) (evs : List (Event ι Nat Unit))

theorem marks_call : marks (log ++ ms.map .call) = marks log ++ ms := by
  rw [marks, List.filterMap_append, List.filterMap_map]
  exact congrArg _ List.filterMap_some

theorem marks_transport : marks (log ++ evs.map .transport) = marks log := by
  simp [marks, Entry.mark]

theorem events_call : events (log ++ ms.map .call) = events log := by
  simp [events, Entry.event]

theorem events_transport : events (log ++ evs.map .transport) = events log ++ evs := by
  rw [events, List.filterMap_append, List.filterMap_map]
  exact congrArg _ List.filterMap_some

end Logs

section Steps

variable [DecidableEq ι]

def transfer (M : Machine σ (Act ι Nat Unit) (Event ι Nat Unit)) (s : State ι σ π χ υ)
    (f : ι → Caller π χ υ) (a : Act ι Nat Unit) :
    Option (State ι σ π χ υ × List (Entry ι χ υ)) :=
  match M.step s.transport a with
  | none => none
  | some (t, evs) =>
      some ({ s with caller := returnCallers evs f, transport := t }, evs.map .transport)

def step (l : Logger π χ υ) (M : Machine σ (Act ι Nat Unit) (Event ι Nat Unit))
    (s : State ι σ π χ υ) : Move ι χ υ → Option (State ι σ π χ υ × List (Entry ι χ υ))
  | .call a =>
      (Calling.step l s.toState a).map fun q => ({ s with toState := q.1 }, q.2.map .call)
  | .sinkError => some ({ s with metrics := s.metrics.incSinkError }, [])
  | .transport (.dispatch i a) =>
      match s.caller i with
      | .dispatching _ => transfer M s (Function.update s.caller i .inside) (.dispatch i a)
      | _ => none
  | .transport a => transfer M s s.caller a

def machine (l : Logger π χ υ) (st : π) (M : Machine σ (Act ι Nat Unit) (Event ι Nat Unit)) :
    Machine (State ι σ π χ υ) (Move ι χ υ) (Entry ι χ υ) where
  init := ⟨(Calling.machine l st).init, M.init⟩
  step := step l M

inductive Step (l : Logger π χ υ) (M : Machine σ (Act ι Nat Unit) (Event ι Nat Unit))
    (s : State ι σ π χ υ) : Move ι χ υ → State ι σ π χ υ → List (Entry ι χ υ) → Prop
  | call (a : Calling.Act ι χ υ) (c : Calling.State ι π χ υ) (ms : List (Mark ι χ υ))
      (hc : Calling.Step l s.toState c ms) :
      Step l M s (.call a) { s with toState := c } (ms.map .call)
  | sinkError : Step l M s .sinkError { s with metrics := s.metrics.incSinkError } []
  | dispatch (i : ι) (a : Nat) {r : Rec χ υ} {t : σ} {evs : List (Event ι Nat Unit)}
      (hi : s.caller i = .dispatching r) (hM : M.step s.transport (.dispatch i a) = some (t, evs)) :
      Step l M s (.transport (.dispatch i a))
        { s with caller := returnCallers evs (Function.update s.caller i .inside), transport := t }
        (evs.map .transport)
  | inner (a : Act ι Nat Unit) {t : σ} {evs : List (Event ι Nat Unit)}
      (ha : ∀ i b, a ≠ .dispatch i b) (hM : M.step s.transport a = some (t, evs)) :
      Step l M s (.transport a) { s with caller := returnCallers evs s.caller, transport := t }
        (evs.map .transport)

variable {l : Logger π χ υ} {M : Machine σ (Act ι Nat Unit) (Event ι Nat Unit)}
variable {s s' : State ι σ π χ υ} {m : Move ι χ υ} {log entries : List (Entry ι χ υ)}

theorem transfer_cases {f : ι → Caller π χ υ} {a : Act ι Nat Unit}
    (h : transfer M s f a = some (s', entries)) :
    ∃ t evs, M.step s.transport a = some (t, evs) ∧
      s' = { s with caller := returnCallers evs f, transport := t } ∧ entries = evs.map .transport := by
  unfold transfer at h
  split at h
  next => cases h
  next t evs hM =>
    cases h
    exact ⟨t, evs, hM, rfl, rfl⟩

theorem step_cases (h : step l M s m = some (s', entries)) : Step l M s m s' entries := by
  unfold step at h
  split at h
  next a =>
    obtain ⟨⟨c, ms⟩, hc, he⟩ := Option.map_eq_some_iff.mp h
    cases he
    exact .call a c ms (Calling.step_cases hc)
  next =>
    cases h
    exact .sinkError
  next i a =>
    split at h
    next hi =>
      obtain ⟨t, evs, hM, rfl, rfl⟩ := transfer_cases h
      exact .dispatch i a hi hM
    next => cases h
  next a ha =>
    obtain ⟨t, evs, hM, rfl, rfl⟩ := transfer_cases h
    exact .inner a (fun i b he => ha i b he) hM

def owesDrop : Caller π χ υ → Nat
  | .dropping => 1
  | _ => 0

def owesCall : Caller π χ υ → Nat
  | .dispatching _ => 1
  | _ => 0

-- rejects and called are the debts of each goroutine: a rejection it has not counted yet, a
-- record it has counted and not dispatched yet.
structure Tally (M : Machine σ (Act ι Nat Unit) (Event ι Nat Unit)) (log : List (Entry ι χ υ))
    (s : State ι σ π χ υ) : Prop where
  run : M.Run (events log) s.transport
  dropped : s.metrics.dropped = .ofNat (Calling.countedDrops (marks log)).length
  emitted : s.metrics.emitted = .ofNat (Calling.passes (marks log)).length
  rejects : ∀ i, (rejected log).count i =
    (Calling.countedDrops (marks log)).count i + owesDrop (s.caller i)
  called : ∀ i, ((Calling.passes (marks log)).map Prod.fst).count i =
    ((calls (events log)).map Item.producer).count i + owesCall (s.caller i)

-- A debt changes for the goroutine i alone, by what the lists hold of it.
theorem owes_update (owes : Caller π χ υ → Nat) (xs ys : List ι) {f : ι → Caller π χ υ} {i : ι}
    {c : Caller π χ υ} (hothers : ∀ j, j ≠ i → xs.count j = 0 ∧ ys.count j = 0)
    (hown : owes (f i) + xs.count i = ys.count i + owes c) (j : ι) :
    owes (f j) + xs.count j = ys.count j + owes (Function.update f i c j) := by
  by_cases hj : j = i
  · subst hj
    rwa [Function.update_self]
  · obtain ⟨hxs, hys⟩ := hothers j hj
    rw [Function.update_of_ne hj, hxs, hys, Nat.add_comm]

theorem owes_keep (owes : Caller π χ υ → Nat) {f : ι → Caller π χ υ} {i : ι} {c : Caller π χ υ}
    (hown : owes (f i) = owes c) (j : ι) :
    owes (f j) + 0 = 0 + owes (Function.update f i c j) :=
  owes_update owes [] [] (fun _ _ => ⟨rfl, rfl⟩) (hown.trans (Nat.zero_add _).symm) j

theorem count_singleton_ne {i j : ι} (h : j ≠ i) : [i].count j = 0 :=
  List.count_eq_zero.mpr (by simpa using h)

omit [DecidableEq ι] in
theorem begin_owes (l : Logger π χ υ) (c : Call χ υ) :
    owesDrop (begin l c) = 0 ∧ owesCall (begin l c) = 0 := by
  unfold begin
  split_ifs <;> exact ⟨rfl, rfl⟩

theorem debts_step {c c' : Calling.State ι π χ υ} {ms : List (Mark ι χ υ)}
    (h : Calling.Step l c c' ms) (j : ι) :
    owesDrop (c.caller j) + (Calling.rejected ms).count j =
        (Calling.countedDrops ms).count j + owesDrop (c'.caller j) ∧
      owesCall (c.caller j) + ((Calling.passes ms).map Prod.fst).count j =
        0 + owesCall (c'.caller j) := by
  cases h with
  | enter i call hi =>
    obtain ⟨hdrop, hcall⟩ := begin_owes l call
    exact ⟨owes_keep owesDrop (by rw [hi, hdrop]; rfl) j, owes_keep owesCall (by rw [hi, hcall]; rfl) j⟩
  | finish i ctx r level hi =>
    exact ⟨owes_keep owesDrop (by rw [hi]; rfl) j, owes_keep owesCall (by rw [hi]; rfl) j⟩
  | refuse i p ps ctx r level st hi hp =>
    refine ⟨owes_update owesDrop [i] [] (fun _ hk => ⟨count_singleton_ne hk, rfl⟩) ?_ j,
      owes_keep owesCall (by rw [hi]; rfl) j⟩
    rw [hi]
    exact (Nat.zero_add _).trans List.count_singleton_self
  | advance i p ps ctx r r' level st hi hp =>
    exact ⟨owes_keep owesDrop (by rw [hi]; rfl) j, owes_keep owesCall (by rw [hi]; rfl) j⟩
  | drop i hi =>
    refine ⟨owes_update owesDrop [] [i] (fun _ hk => ⟨rfl, count_singleton_ne hk⟩) ?_ j,
      owes_keep owesCall (by rw [hi]; rfl) j⟩
    rw [hi]
    exact List.count_singleton_self.symm
  | pass i r level hi =>
    refine ⟨owes_keep owesDrop (by rw [hi]; rfl) j,
      owes_update owesCall [i] [] (fun _ hk => ⟨count_singleton_ne hk, rfl⟩) ?_ j⟩
    rw [hi]
    exact (Nat.zero_add _).trans List.count_singleton_self

theorem Tally.call {c : Calling.State ι π χ υ} {ms : List (Mark ι χ υ)} (T : Tally M log s)
    (hc : Calling.Step l s.toState c ms) : Tally M (log ++ ms.map .call) { s with toState := c } := by
  constructor
  case run =>
    rw [events_call]
    exact T.run
  case dropped =>
    rw [marks_call, Calling.countedDrops_append, List.length_append, ← Counter.add T.dropped]
    exact hc.counted.1
  case emitted =>
    rw [marks_call, Calling.passes_append, List.length_append, ← Counter.add T.emitted]
    exact hc.counted.2
  case rejects =>
    intro j
    have hold := T.rejects j
    have hdebt := (debts_step hc j).1
    rw [rejected] at hold ⊢
    rw [marks_call, Calling.rejected_append, Calling.countedDrops_append, List.count_append,
      List.count_append]
    change _ = _ + owesDrop (c.caller j)
    omega
  case called =>
    intro j
    have hold := T.called j
    have hdebt := (debts_step hc j).2
    rw [events_call, marks_call, Calling.passes_append, List.map_append, List.count_append]
    change _ = _ + owesCall (c.caller j)
    omega

theorem Tally.transfer {evs : List (Event ι Nat Unit)} {t : σ} {f : ι → Caller π χ υ}
    (T : Tally M log s) (hrun : M.Run (events log ++ evs) t)
    (hdrop : ∀ i, owesDrop (f i) = owesDrop (s.caller i))
    (hcall : ∀ i, owesCall (s.caller i) = ((calls evs).map Item.producer).count i + owesCall (f i)) :
    Tally M (log ++ evs.map .transport)
      { s with caller := returnCallers evs f, transport := t } := by
  constructor
  case run => rwa [events_transport]
  case dropped =>
    rw [marks_transport]
    exact T.dropped
  case emitted =>
    rw [marks_transport]
    exact T.emitted
  case rejects =>
    intro i
    rw [rejected, marks_transport, Calling.returnCallers_view owesDrop rfl evs f i, hdrop i]
    exact T.rejects i
  case called =>
    intro i
    have hold := T.called i
    rw [events_transport, marks_transport, calls_append, List.map_append, List.count_append,
      Calling.returnCallers_view owesCall rfl evs f i]
    rw [hcall i] at hold
    omega

theorem Tally.step {policy : OverflowPolicy} {dropped : σ → UInt64} (hM : Carrier M policy dropped)
    (T : Tally M log s) (hs : Step l M s m s' entries) : Tally M (log ++ entries) s' := by
  cases hs with
  | call a c ms hc => exact T.call hc
  | sinkError =>
    rw [List.append_nil]
    exact ⟨T.run, T.dropped, T.emitted, T.rejects, T.called⟩
  | dispatch i a hi hstep =>
    obtain ⟨n, rfl⟩ := hM.dispatch hstep
    refine T.transfer (T.run.step trivial hstep) (fun j => ?_) fun j => ?_
    · have howes := owes_keep owesDrop (f := s.caller) (c := .inside) (by rw [hi]; rfl) j
      exact (howes.trans (Nat.zero_add _)).symm
    · refine owes_update owesCall [] [i] (fun _ hj => ⟨rfl, count_singleton_ne hj⟩) ?_ j
      rw [hi]
      exact List.count_singleton_self.symm
  | inner a ha hstep =>
    refine T.transfer (T.run.step trivial hstep) (fun _ => rfl) fun j => ?_
    rw [hM.inner hstep ha]
    exact (Nat.zero_add _).symm

theorem tally {policy : OverflowPolicy} {dropped : σ → UInt64} {st : π}
    {C : State ι σ π χ υ → Move ι χ υ → Prop} (hM : Carrier M policy dropped)
    (h : (machine l st M).Exec C log s) : Tally M log s :=
  h.invariant (P := Tally M) ⟨.start, rfl, rfl, fun _ => rfl, fun _ => rfl⟩
    fun _ T _ hs => T.step hM (step_cases hs)

end Steps

section Balance

variable [DecidableEq ι] {t : Async} {capacity : Int} {policy : OverflowPolicy} {l : Logger π χ υ}
variable {st : π} {s s' : State ι (t.State ι Nat) π χ υ} {m : Move ι χ υ}
variable {log entries : List (Entry ι χ υ)}

def spills (t : Async) (policy : OverflowPolicy) (s : State ι (t.State ι Nat) π χ υ) :
    Move ι χ υ → Bool
  | .transport a => t.Spills policy s.transport a
  | .call _ | .sinkError => false

-- The step does not lose a record to a full queue.
def Fits (t : Async) (policy : OverflowPolicy) (s : State ι (t.State ι Nat) π χ υ)
    (m : Move ι χ υ) : Prop :=
  spills t policy s m = false

instance (s : State ι (t.State ι Nat) π χ υ) (m : Move ι χ υ) : Decidable (Fits t policy s m) :=
  inferInstanceAs (Decidable (_ = false))

theorem spilled_step (hs : Step l (t.machine capacity policy) s m s' entries) :
    spilled (events (log ++ entries)) = spilled (events log) + (spills t policy s m).toNat := by
  cases hs with
  | call a c ms hc =>
    rw [events_call]
    rfl
  | sinkError =>
    rw [List.append_nil]
    rfl
  | dispatch i a hi hM =>
    rw [events_transport, spilled_append, Async.spilled_step hM]
    rfl
  | inner a ha hM =>
    rw [events_transport, spilled_append, Async.spilled_step hM]
    rfl

theorem exec_fits_iff : (machine l st (t.machine capacity policy)).Exec (Fits t policy) log s ↔
    (machine l st (t.machine capacity policy)).Run log s ∧ spilled (events log) = 0 := by
  refine Machine.exec_iff
    (G := fun log (_ : State ι (t.State ι Nat) π χ υ) => spilled (events log) = 0)
    rfl fun _ hs => ?_
  rw [spilled_step (step_cases hs), Nat.add_eq_zero_iff, Fits, Bool.toNat_eq_zero]

theorem Tally.settled {M : Machine (t.State ι Nat) (Act ι Nat Unit) (Event ι Nat Unit)}
    (T : Tally M log s) (hidle : ∀ i, s.caller i = .idle) :
    s.metrics.dropped = .ofNat (rejected log).length ∧
      s.metrics.emitted = .ofNat (calls (events log)).length := by
  have hdrops : (rejected log).Perm (Calling.countedDrops (marks log)) :=
    List.perm_iff_count.mpr fun i => by
      rw [T.rejects i, hidle i]
      rfl
  have hcalls : ((Calling.passes (marks log)).map Prod.fst).Perm
      ((calls (events log)).map Item.producer) :=
    List.perm_iff_count.mpr fun i => by
      rw [T.called i, hidle i]
      rfl
  have hlen := hcalls.length_eq
  rw [List.length_map, List.length_map] at hlen
  exact ⟨hdrops.length_eq ▸ T.dropped, hlen ▸ T.emitted⟩

theorem metrics_account_for_losses_iff (h : (machine l st (t.machine capacity policy)).Run log s)
    (ho : Orderly (events log)) (hk : .closeRet () ∈ events log)
    (hidle : ∀ i, s.caller i = .idle) (hbound : (calls (events log)).length < 2 ^ 64) :
    (s.metrics.snapshot.dropped = .ofNat (rejected log).length + t.dropped s.transport ∧
      s.metrics.snapshot.emitted = .ofNat (emitted (events log)).length) ↔
    (machine l st (t.machine capacity policy)).Exec (Fits t policy) log s := by
  have hM := (t.engine (ι := ι) (β := Nat) capacity policy).toCarrier
  have T := tally hM h
  obtain ⟨hdropped, hemitted⟩ := T.settled hidle
  have hbalance := (hM.settled T.run ho hk).balance
  rw [exec_fits_iff, show s.metrics.snapshot.dropped = _ from hdropped,
    show s.metrics.snapshot.emitted = _ from hemitted, hM.counted T.run ho, ← UInt64.ofNat_add]
  constructor
  · rintro ⟨-, hsame⟩
    have hsunk : (emitted (events log)).length < 2 ^ 64 := by omega
    have hlen := congrArg UInt64.toNat hsame
    rw [UInt64.toNat_ofNat_of_lt' hbound, UInt64.toNat_ofNat_of_lt' hsunk] at hlen
    exact ⟨h, by omega⟩
  · rintro ⟨-, hzero⟩
    rw [hzero, Nat.add_zero] at hbalance ⊢
    exact ⟨rfl, congrArg _ hbalance.symm⟩

end Balance

def plain : Logger Unit Unit Unit := ⟨0, [], [], false⟩

def info : Call Unit Unit := ⟨⟨Time.epoch, 0⟩, none, 9, [], []⟩

-- One log call up to the point where its Dispatch has begun.
def logOnce : List (Move Unit Unit Unit) :=
  [.call (.log () info), .call (.process ()), .call (.count ()), .transport (.dispatch () 0)]

def drain : List (Move Unit Unit Unit) :=
  [.transport (.close ()), .transport (.closer ())] ++ List.replicate 6 (.transport (.work 0)) ++
    List.replicate 4 (.transport (.closer ()))

def ends (log : List (Entry Unit Unit Unit))
    (s : State Unit (Async.ring.State Unit Nat) Unit Unit Unit) : Bool :=
  decide ((∀ x ∈ calls (beforeClose (events log)), x ∈ returns (beforeClose (events log))) ∧
    calls (afterClose (events log)) = [] ∧ .closeRet () ∈ events log) && (s.caller ()).isIdle

theorem metrics_account_for_losses_iff_fitting :
    ∃ (log : List (Entry Unit Unit Unit))
      (s : State Unit (Async.ring.State Unit Nat) Unit Unit Unit),
      (machine plain () (Async.ring.machine 2 .dropNewest)).Exec (Fits .ring .dropNewest) log s ∧
      (emitted (events log)).length = 2 ∧
      s.metrics.snapshot.dropped = .ofNat (rejected log).length + Async.ring.dropped s.transport ∧
      s.metrics.snapshot.emitted = .ofNat (emitted (events log)).length := by
  obtain ⟨log, s, hexec, hgood⟩ := Machine.exists_exec
    (M := machine plain () (Async.ring.machine 2 .dropNewest)) (C := Fits .ring .dropNewest)
    (logOnce ++ List.replicate 2 (Move.transport (.produce ())) ++ logOnce ++
      List.replicate 2 (Move.transport (.produce ())) ++ drain)
    (fun log s => ends log s && decide ((emitted (events log)).length = 2 ∧
      (calls (events log)).length < 2 ^ 64)) (by decide +kernel)
  obtain ⟨hends, hcounts⟩ := Bool.and_eq_true_iff.mp hgood
  obtain ⟨hlog, hidle⟩ := Bool.and_eq_true_iff.mp hends
  obtain ⟨hret, hcalls, hclose⟩ := of_decide_eq_true hlog
  obtain ⟨hsunk, hbound⟩ := of_decide_eq_true hcounts
  have hall := (metrics_account_for_losses_iff hexec.run (orderly_of_split hret hcalls) hclose
    (fun _ => Calling.Caller.eq_idle hidle) hbound).mpr hexec
  exact ⟨log, s, hexec, hsunk, hall⟩

theorem metrics_miss_refused_record :
    ∃ (log : List (Entry Unit Unit Unit))
      (s : State Unit (Async.ring.State Unit Nat) Unit Unit Unit),
      (machine plain () (Async.ring.machine 2 .dropNewest)).Run log s ∧ Orderly (events log) ∧
      .closeRet () ∈ events log ∧ (∀ i, s.caller i = .idle) ∧ rejected log = [] ∧
      Async.ring.dropped s.transport = 1 ∧ (emitted (events log)).length = 2 ∧
      s.metrics.snapshot.dropped = 0 ∧ s.metrics.snapshot.emitted = 3 := by
  obtain ⟨log, s, hrun, hgood⟩ := Machine.exists_exec
    (M := machine plain () (Async.ring.machine 2 .dropNewest)) (C := fun _ _ => True)
    (logOnce ++ List.replicate 2 (Move.transport (.produce ())) ++ logOnce ++
      List.replicate 2 (Move.transport (.produce ())) ++ logOnce ++
      List.replicate 3 (Move.transport (.produce ())) ++ drain)
    (fun log s => ends log s && decide (rejected log = [] ∧ Async.ring.dropped s.transport = 1 ∧
      (emitted (events log)).length = 2 ∧ s.metrics.dropped = 0 ∧ s.metrics.emitted = 3))
    (by decide +kernel)
  obtain ⟨hends, hcounts⟩ := Bool.and_eq_true_iff.mp hgood
  obtain ⟨hlog, hidle⟩ := Bool.and_eq_true_iff.mp hends
  obtain ⟨hret, hcalls, hclose⟩ := of_decide_eq_true hlog
  obtain ⟨hrejected, hlost, hsunk, hdropped, hemitted⟩ := of_decide_eq_true hcounts
  exact ⟨log, s, hrun, orderly_of_split hret hcalls, hclose,
    fun _ => Calling.Caller.eq_idle hidle, hrejected, hlost, hsunk, hdropped, hemitted⟩

end Metered

end UbgoLogger.Transport
