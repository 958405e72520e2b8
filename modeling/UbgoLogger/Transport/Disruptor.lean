import UbgoLogger.Transport.Gate
import UbgoLogger.Transport.Ledger
import UbgoLogger.Transport.MpmcInvariant

namespace UbgoLogger.Transport.Disruptor
open Foundation

variable {ι β κ : Type}

-- run has the loop on dequeue twice, before and after it has seen closed: the flag tells them apart.
inductive Consumer (ι β : Type) where
  | dequeuing (draining : Bool) (pc : Mpmc.Pc (Item ι β))
  | emitting (draining : Bool) (x : Item ι β)
  | checking
  | exiting
  | exited
  deriving DecidableEq

inductive Producer (ι β : Type) where
  | idle
  | enqueuing (x : Item ι β) (pc : Mpmc.Pc (Item ι β))
  | evicting (x : Item ι β) (pc : Mpmc.Pc (Item ι β))
  | counting (x : Item ι β)
  | refusing (x : Item ι β)
  | leaving (x : Item ι β)
  deriving DecidableEq

structure State (ι β κ : Type) where
  q : Mpmc.Queue (Item ι β)
  dropped : UInt64
  gate : Gate κ
  consumer : Consumer ι β
  producer : ι → Producer ι β
  calls : Nat

def ringSize (capacity : Int) : Nat := if capacity < 2 then 1024 else capacity.toNat

def acceptEvent : Mpmc.Event (Item ι β) → Option (Event ι β κ)
  | .claimEnq _ x => some (.accept x)
  | _ => none

def evictEvent (i : ι) : Mpmc.Event (Item ι β) → Option (Event ι β κ)
  | .claimDeq _ (some y) => some (.evict i y)
  | _ => none

def takeEvent : Mpmc.Event (Item ι β) → Option (Event ι β κ)
  | .claimDeq _ (some y) => some (.take y)
  | _ => none

def run (s : State ι β κ) : Option (State ι β κ × List (Event ι β κ)) :=
  match s.consumer with
  | .dequeuing draining pc =>
      match Mpmc.opStep s.q pc with
      | some (q, pc', evs) =>
          some ({ s with q := q, consumer := .dequeuing draining pc' }, evs.filterMap takeEvent)
      | none =>
          match pc with
          | .deqRet (some x) true => some ({ s with consumer := .emitting draining x }, [])
          | .deqRet _ false =>
              some ({ s with consumer := if draining then .exiting else .checking }, [])
          | _ => none
  | .emitting draining x => some ({ s with consumer := .dequeuing draining .deqLoad }, [.emit x])
  | .checking => some ({ s with consumer := .dequeuing s.gate.closed .deqLoad }, [])
  | .exiting => some ({ s with gate := { s.gate with done := true }, consumer := .exited }, [.exit])
  | .exited => none

section Steps

variable [DecidableEq ι]

def State.setProducer (s : State ι β κ) (i : ι) (p : Producer ι β) : State ι β κ :=
  { s with producer := Function.update s.producer i p }

@[simp, grind =] theorem State.setProducer_producer (s : State ι β κ) (i j : ι) (p : Producer ι β) :
    (s.setProducer i p).producer j = if j = i then p else s.producer j :=
  Function.update_apply s.producer i p j

def enqueue (policy : OverflowPolicy) (s : State ι β κ) (i : ι) (x : Item ι β)
    (pc : Mpmc.Pc (Item ι β)) : Option (State ι β κ × List (Event ι β κ)) :=
  match Mpmc.opStep s.q pc with
  | some (q, pc', evs) =>
      some ({ s with q := q }.setProducer i (.enqueuing x pc'), evs.filterMap acceptEvent)
  | none =>
      match pc with
      | .enqRet true => some (s.setProducer i (.leaving x), [])
      | .enqRet false =>
          match policy with
          | .block => some (s.setProducer i (.enqueuing x (.enqLoad x)), [])
          | .dropNewest => some (s.setProducer i (.refusing x), [])
          | .dropOldest => some (s.setProducer i (.evicting x .deqLoad), [])
      | _ => none

def evict (s : State ι β κ) (i : ι) (x : Item ι β) (pc : Mpmc.Pc (Item ι β)) :
    Option (State ι β κ × List (Event ι β κ)) :=
  match Mpmc.opStep s.q pc with
  | some (q, pc', evs) =>
      some ({ s with q := q }.setProducer i (.evicting x pc'), evs.filterMap (evictEvent i))
  | none =>
      match pc with
      | .deqRet _ true => some (s.setProducer i (.counting x), [])
      | .deqRet _ false => some (s.setProducer i (.enqueuing x (.enqLoad x)), [])
      | _ => none

variable [DecidableEq κ]

def step (policy : OverflowPolicy) (s : State ι β κ) :
    Act ι β κ → Option (State ι β κ × List (Event ι β κ))
  | .dispatch i b =>
      match s.producer i with
      | .idle =>
          let x : Item ι β := ⟨i, s.calls, b⟩
          some ({ s.setProducer i (.enqueuing x (.enqLoad x)) with calls := s.calls + 1 }, [.call x])
      | _ => none
  | .produce i =>
      match s.producer i with
      | .idle => none
      | .enqueuing x pc => enqueue policy s i x pc
      | .evicting x pc => evict s i x pc
      | .counting x =>
          some ({ s.setProducer i (.enqueuing x (.enqLoad x)) with dropped := s.dropped + 1 },
            [.count i])
      | .refusing x =>
          some ({ s.setProducer i (.leaving x) with dropped := s.dropped + 1 }, [.refuse x])
      | .leaving x => some (s.setProducer i .idle, [.ret x])
  | .work _ => run s
  | .close k =>
      match s.gate.call k with
      | none => none
      | some (g, evs) => some ({ s with gate := g }, evs)
  | .closer k =>
      match s.gate.advance k with
      | none => none
      | some (g, evs) => some ({ s with gate := g }, evs)

def machine (capacity : Int) (policy : OverflowPolicy) :
    Machine (State ι β κ) (Act ι β κ) (Event ι β κ) where
  init :=
    { q := Mpmc.newMPMC (ringSize capacity), dropped := 0, gate := Gate.fresh,
      consumer := .dequeuing false .deqLoad, producer := fun _ => .idle, calls := 0 }
  step := step policy

inductive Step (policy : OverflowPolicy) (s : State ι β κ) :
    Act ι β κ → State ι β κ → List (Event ι β κ) → Prop
  | call (i : ι) (b : β) (h : s.producer i = .idle) :
      Step policy s (.dispatch i b)
        { s.setProducer i (.enqueuing ⟨i, s.calls, b⟩ (.enqLoad ⟨i, s.calls, b⟩)) with
          calls := s.calls + 1 }
        [.call ⟨i, s.calls, b⟩]
  | enqueue (i : ι) (x : Item ι β) {pc pc' : Mpmc.Pc (Item ι β)} {q : Mpmc.Queue (Item ι β)}
      {evs : List (Mpmc.Event (Item ι β))} (h : s.producer i = .enqueuing x pc)
      (hop : Mpmc.OpStep s.q pc q pc' evs) :
      Step policy s (.produce i) ({ s with q := q }.setProducer i (.enqueuing x pc'))
        (evs.filterMap acceptEvent)
  | enqueued (i : ι) (x : Item ι β) (h : s.producer i = .enqueuing x (.enqRet true)) :
      Step policy s (.produce i) (s.setProducer i (.leaving x)) []
  | retry (i : ι) (x : Item ι β) (h : s.producer i = .enqueuing x (.enqRet false)) :
      Step policy s (.produce i) (s.setProducer i (.enqueuing x (.enqLoad x))) []
  | refusal (i : ι) (x : Item ι β) (h : s.producer i = .enqueuing x (.enqRet false))
      (hp : policy = .dropNewest) :
      Step policy s (.produce i) (s.setProducer i (.refusing x)) []
  | overflow (i : ι) (x : Item ι β) (h : s.producer i = .enqueuing x (.enqRet false))
      (hp : policy = .dropOldest) :
      Step policy s (.produce i) (s.setProducer i (.evicting x .deqLoad)) []
  | evict (i : ι) (x : Item ι β) {pc pc' : Mpmc.Pc (Item ι β)} {q : Mpmc.Queue (Item ι β)}
      {evs : List (Mpmc.Event (Item ι β))} (h : s.producer i = .evicting x pc)
      (hop : Mpmc.OpStep s.q pc q pc' evs) :
      Step policy s (.produce i) ({ s with q := q }.setProducer i (.evicting x pc'))
        (evs.filterMap (evictEvent i))
  | evicted (i : ι) (x : Item ι β) (v : Option (Item ι β))
      (h : s.producer i = .evicting x (.deqRet v true)) :
      Step policy s (.produce i) (s.setProducer i (.counting x)) []
  | again (i : ι) (x : Item ι β) (v : Option (Item ι β))
      (h : s.producer i = .evicting x (.deqRet v false)) :
      Step policy s (.produce i) (s.setProducer i (.enqueuing x (.enqLoad x))) []
  | count (i : ι) (x : Item ι β) (h : s.producer i = .counting x) :
      Step policy s (.produce i)
        { s.setProducer i (.enqueuing x (.enqLoad x)) with dropped := s.dropped + 1 } [.count i]
  | refuse (i : ι) (x : Item ι β) (h : s.producer i = .refusing x) :
      Step policy s (.produce i)
        { s.setProducer i (.leaving x) with dropped := s.dropped + 1 } [.refuse x]
  | ret (i : ι) (x : Item ι β) (h : s.producer i = .leaving x) :
      Step policy s (.produce i) (s.setProducer i .idle) [.ret x]
  | dequeue (pick : Nat) (draining : Bool) {pc pc' : Mpmc.Pc (Item ι β)}
      {q : Mpmc.Queue (Item ι β)} {evs : List (Mpmc.Event (Item ι β))}
      (h : s.consumer = .dequeuing draining pc) (hop : Mpmc.OpStep s.q pc q pc' evs) :
      Step policy s (.work pick) { s with q := q, consumer := .dequeuing draining pc' }
        (evs.filterMap takeEvent)
  | dequeued (pick : Nat) (draining : Bool) (x : Item ι β)
      (h : s.consumer = .dequeuing draining (.deqRet (some x) true)) :
      Step policy s (.work pick) { s with consumer := .emitting draining x } []
  | empty (pick : Nat) (v : Option (Item ι β)) (h : s.consumer = .dequeuing false (.deqRet v false)) :
      Step policy s (.work pick) { s with consumer := .checking } []
  | stop (pick : Nat) (v : Option (Item ι β)) (h : s.consumer = .dequeuing true (.deqRet v false)) :
      Step policy s (.work pick) { s with consumer := .exiting } []
  | emit (pick : Nat) (draining : Bool) (x : Item ι β) (h : s.consumer = .emitting draining x) :
      Step policy s (.work pick) { s with consumer := .dequeuing draining .deqLoad } [.emit x]
  | check (pick : Nat) (h : s.consumer = .checking) :
      Step policy s (.work pick) { s with consumer := .dequeuing s.gate.closed .deqLoad } []
  | exit (pick : Nat) (h : s.consumer = .exiting) :
      Step policy s (.work pick)
        { s with gate := { s.gate with done := true }, consumer := .exited } [.exit]
  | gate (a : Act ι β κ) {g : Gate κ} {evs : List (Event ι β κ)} (h : Gate.Step s.gate g evs) :
      Step policy s a { s with gate := g } evs

variable {policy : OverflowPolicy} {s s' : State ι β κ} {a : Act ι β κ} {evs : List (Event ι β κ)}

theorem enqueue_cases {i : ι} {x : Item ι β} {pc : Mpmc.Pc (Item ι β)}
    (hi : s.producer i = .enqueuing x pc) (h : enqueue policy s i x pc = some (s', evs)) :
    Step policy s (.produce i) s' evs := by
  unfold enqueue at h
  split at h
  next q pc' evs' hop =>
    cases h
    exact .enqueue i x hi (Mpmc.opStep_cases hop)
  next =>
    split at h
    next =>
      cases h
      exact .enqueued i x hi
    next =>
      cases policy with
      | block =>
        cases h
        exact .retry i x hi
      | dropNewest =>
        cases h
        exact .refusal i x hi rfl
      | dropOldest =>
        cases h
        exact .overflow i x hi rfl
    next => cases h

theorem evict_cases {i : ι} {x : Item ι β} {pc : Mpmc.Pc (Item ι β)}
    (hi : s.producer i = .evicting x pc) (h : evict s i x pc = some (s', evs)) :
    Step policy s (.produce i) s' evs := by
  unfold evict at h
  split at h
  next q pc' evs' hop =>
    cases h
    exact .evict i x hi (Mpmc.opStep_cases hop)
  next =>
    split at h
    next =>
      cases h
      exact .evicted i x _ hi
    next =>
      cases h
      exact .again i x _ hi
    next => cases h

theorem run_cases {pick : Nat} (h : run s = some (s', evs)) :
    Step policy s (.work pick) s' evs := by
  unfold run at h
  split at h
  next draining pc hc =>
    split at h
    next q pc' evs' hop =>
      cases h
      exact .dequeue pick draining hc (Mpmc.opStep_cases hop)
    next =>
      split at h
      next =>
        cases h
        exact .dequeued pick draining _ hc
      next =>
        cases draining with
        | false =>
          cases h
          exact .empty pick _ hc
        | true =>
          cases h
          exact .stop pick _ hc
      next => cases h
  next draining x hc =>
    cases h
    exact .emit pick draining x hc
  next hc =>
    cases h
    exact .check pick hc
  next hc =>
    cases h
    exact .exit pick hc
  next => cases h

theorem step_cases (h : step policy s a = some (s', evs)) : Step policy s a s' evs := by
  cases a with
  | dispatch i b =>
    simp only [step] at h
    split at h
    next hi =>
      cases h
      exact .call i b hi
    next => cases h
  | produce i =>
    simp only [step] at h
    split at h
    next => cases h
    next x pc hi => exact enqueue_cases hi h
    next x pc hi => exact evict_cases hi h
    next x hi =>
      cases h
      exact .count i x hi
    next x hi =>
      cases h
      exact .refuse i x hi
    next x hi =>
      cases h
      exact .ret i x hi
  | work pick => exact run_cases h
  | close k =>
    simp only [step] at h
    split at h
    next => cases h
    next g evs' hg =>
      cases h
      exact .gate _ (Gate.call_cases hg)
  | closer k =>
    simp only [step] at h
    split at h
    next => cases h
    next g evs' hg =>
      cases h
      exact .gate _ (Gate.advance_cases hg)

end Steps

end UbgoLogger.Transport.Disruptor
