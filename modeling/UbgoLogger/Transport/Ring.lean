import UbgoLogger.Foundation.Circular
import UbgoLogger.Transport.Gate
import UbgoLogger.Transport.Ledger

namespace UbgoLogger.Transport.Ring
open Foundation

variable {ι β κ : Type}

-- A worker woken from notEmpty takes the lock and tests its loop condition again, which is
-- what it does at the top of its loop: both are locking.
inductive Worker (ι β : Type) where
  | locking
  | waiting
  | emitting (x : Item ι β)
  | exiting
  | exited
  deriving DecidableEq

inductive Producer (ι β : Type) where
  | idle
  | entering (x : Item ι β)
  | waiting (x : Item ι β)
  | woken (x : Item ι β)
  | refusing (x : Item ι β)
  | leaving (x : Item ι β)
  deriving DecidableEq

def Worker.wake : Worker ι β → Worker ι β
  | .waiting => .locking
  | w => w

def Producer.wake : Producer ι β → Producer ι β
  | .waiting x => .woken x
  | p => p

structure State (ι β κ : Type) where
  buf : List (Option (Item ι β))
  head : Nat
  tail : Nat
  count : Nat
  dropped : UInt64
  gate : Gate κ
  worker : Worker ι β
  producer : ι → Producer ι β
  notFull : List ι
  calls : Nat

namespace State

def front (s : State ι β κ) : Option (Item ι β) := (s.buf[s.head]?).join

def pop (s : State ι β κ) : State ι β κ :=
  { s with
    buf := s.buf.set s.head none
    head := (s.head + 1) % s.buf.length
    count := s.count - 1 }

def push (s : State ι β κ) (x : Item ι β) : State ι β κ :=
  { s with
    buf := s.buf.set s.tail (some x)
    tail := (s.tail + 1) % s.buf.length
    count := s.count + 1
    worker := s.worker.wake }

def broadcast (s : State ι β κ) : State ι β κ :=
  { s with worker := s.worker.wake, producer := fun i => (s.producer i).wake, notFull := [] }

variable [DecidableEq ι]

def setProducer (s : State ι β κ) (i : ι) (p : Producer ι β) : State ι β κ :=
  { s with producer := Function.update s.producer i p }

@[simp, grind =] theorem setProducer_producer (s : State ι β κ) (i j : ι) (p : Producer ι β) :
    (s.setProducer i p).producer j = if j = i then p else s.producer j :=
  Function.update_apply s.producer i p j

def signal (s : State ι β κ) (pick : Nat) : State ι β κ :=
  match s.notFull[pick % s.notFull.length]? with
  | none => s
  | some i =>
      { s.setProducer i (s.producer i).wake with
        notFull := s.notFull.eraseIdx (pick % s.notFull.length) }

def wait (s : State ι β κ) (i : ι) (x : Item ι β) : State ι β κ :=
  { s.setProducer i (.waiting x) with notFull := s.notFull ++ [i] }

end State

def ringLen (capacity : Int) : Nat := if capacity < 2 then 1024 else capacity.toNat

theorem ringLen_ge_two (capacity : Int) : 2 ≤ ringLen capacity := by
  rw [ringLen]
  split <;> omega

section Steps

variable [DecidableEq ι] [DecidableEq κ]

def enter (policy : OverflowPolicy) (s : State ι β κ) (i : ι) (x : Item ι β) :
    State ι β κ × List (Event ι β κ) :=
  if s.gate.closed then (s.setProducer i (.leaving x), [.discard x])
  else if s.count = s.buf.length then
    match policy with
    | .block => (s.wait i x, [])
    | .dropNewest => (s.setProducer i (.refusing x), [])
    | .dropOldest =>
        ({ (s.pop.push x).setProducer i (.leaving x) with dropped := s.dropped + 1 },
          (s.front.toList.map (.evict i)) ++ [.count i, .accept x])
  else ((s.push x).setProducer i (.leaving x), [.accept x])

def resume (s : State ι β κ) (i : ι) (x : Item ι β) : State ι β κ × List (Event ι β κ) :=
  if s.count = s.buf.length ∧ s.gate.closed = false then (s.wait i x, [])
  else if s.gate.closed then (s.setProducer i (.leaving x), [.discard x])
  else ((s.push x).setProducer i (.leaving x), [.accept x])

def run (s : State ι β κ) (pick : Nat) : Option (State ι β κ × List (Event ι β κ)) :=
  match s.worker with
  | .waiting => none
  | .exited => none
  | .exiting => some ({ s with gate := { s.gate with done := true }, worker := .exited }, [.exit])
  | .emitting x => some ({ s with worker := .locking }, [.emit x])
  | .locking =>
      if s.count = 0 ∧ s.gate.closed = false then some ({ s with worker := .waiting }, [])
      else if s.count = 0 then some ({ s with worker := .exiting }, [])
      else
        match s.front with
        | none => none
        | some x => some ({ s.pop.signal pick with worker := .emitting x }, [.take x])

def step (policy : OverflowPolicy) (s : State ι β κ) :
    Act ι β κ → Option (State ι β κ × List (Event ι β κ))
  | .dispatch i b =>
      match s.producer i with
      | .idle =>
          let x : Item ι β := ⟨i, s.calls, b⟩
          some ({ s.setProducer i (.entering x) with calls := s.calls + 1 }, [.call x])
      | _ => none
  | .produce i =>
      match s.producer i with
      | .idle => none
      | .waiting _ => none
      | .entering x => some (enter policy s i x)
      | .woken x => some (resume s i x)
      | .refusing x =>
          some ({ s.setProducer i (.leaving x) with dropped := s.dropped + 1 }, [.refuse x])
      | .leaving x => some (s.setProducer i .idle, [.ret x])
  | .work pick => run s pick
  | .close k =>
      match s.gate.call k with
      | none => none
      | some (g, evs) => some ({ s with gate := g }, evs)
  | .closer k =>
      match s.gate.advance k with
      | none => none
      | some (g, evs) =>
          if s.gate.closed = false ∧ g.closed = true then some ({ s.broadcast with gate := g }, evs)
          else some ({ s with gate := g }, evs)

def machine (capacity : Int) (policy : OverflowPolicy) :
    Machine (State ι β κ) (Act ι β κ) (Event ι β κ) where
  init :=
    { buf := List.replicate (ringLen capacity) none, head := 0, tail := 0, count := 0, dropped := 0,
      gate := Gate.fresh, worker := .locking, producer := fun _ => .idle, notFull := [], calls := 0 }
  step := step policy

inductive Step (policy : OverflowPolicy) (s : State ι β κ) :
    Act ι β κ → State ι β κ → List (Event ι β κ) → Prop
  | call (i : ι) (b : β) (h : s.producer i = .idle) :
      Step policy s (.dispatch i b)
        { s.setProducer i (.entering ⟨i, s.calls, b⟩) with calls := s.calls + 1 }
        [.call ⟨i, s.calls, b⟩]
  | discard (i : ι) (x : Item ι β) (h : s.producer i = .entering x ∨ s.producer i = .woken x)
      (hc : s.gate.closed = true) :
      Step policy s (.produce i) (s.setProducer i (.leaving x)) [.discard x]
  | wait (i : ι) (x : Item ι β)
      (h : s.producer i = .entering x ∧ policy = .block ∨ s.producer i = .woken x)
      (hc : s.gate.closed = false) (hfull : s.count = s.buf.length) :
      Step policy s (.produce i) (s.wait i x) []
  | refusal (i : ι) (x : Item ι β) (h : s.producer i = .entering x) (hp : policy = .dropNewest)
      (hc : s.gate.closed = false) (hfull : s.count = s.buf.length) :
      Step policy s (.produce i) (s.setProducer i (.refusing x)) []
  | replace (i : ι) (x : Item ι β) (h : s.producer i = .entering x) (hp : policy = .dropOldest)
      (hc : s.gate.closed = false) (hfull : s.count = s.buf.length) :
      Step policy s (.produce i)
        { (s.pop.push x).setProducer i (.leaving x) with dropped := s.dropped + 1 }
        ((s.front.toList.map (.evict i)) ++ [.count i, .accept x])
  | accept (i : ι) (x : Item ι β) (h : s.producer i = .entering x ∨ s.producer i = .woken x)
      (hc : s.gate.closed = false) (hroom : s.count ≠ s.buf.length) :
      Step policy s (.produce i) ((s.push x).setProducer i (.leaving x)) [.accept x]
  | refuse (i : ι) (x : Item ι β) (h : s.producer i = .refusing x) :
      Step policy s (.produce i)
        { s.setProducer i (.leaving x) with dropped := s.dropped + 1 } [.refuse x]
  | ret (i : ι) (x : Item ι β) (h : s.producer i = .leaving x) :
      Step policy s (.produce i) (s.setProducer i .idle) [.ret x]
  | sleep (pick : Nat) (h : s.worker = .locking) (hz : s.count = 0) (hc : s.gate.closed = false) :
      Step policy s (.work pick) { s with worker := .waiting } []
  | stop (pick : Nat) (h : s.worker = .locking) (hz : s.count = 0) (hc : s.gate.closed = true) :
      Step policy s (.work pick) { s with worker := .exiting } []
  | take (pick : Nat) (x : Item ι β) (h : s.worker = .locking) (hz : s.count ≠ 0)
      (hx : s.front = some x) :
      Step policy s (.work pick) { s.pop.signal pick with worker := .emitting x } [.take x]
  | emit (pick : Nat) (x : Item ι β) (h : s.worker = .emitting x) :
      Step policy s (.work pick) { s with worker := .locking } [.emit x]
  | exit (pick : Nat) (h : s.worker = .exiting) :
      Step policy s (.work pick)
        { s with gate := { s.gate with done := true }, worker := .exited } [.exit]
  | gate (a : Act ι β κ) {g : Gate κ} {evs : List (Event ι β κ)} (h : Gate.Step s.gate g evs)
      (hc : g.closed = s.gate.closed) : Step policy s a { s with gate := g } evs
  | shut (a : Act ι β κ) {g : Gate κ} {evs : List (Event ι β κ)} (h : Gate.Step s.gate g evs)
      (hc : s.gate.closed = false ∧ g.closed = true) :
      Step policy s a { s.broadcast with gate := g } evs

variable {policy : OverflowPolicy} {s s' : State ι β κ} {a : Act ι β κ} {evs : List (Event ι β κ)}

theorem enter_cases {i : ι} {x : Item ι β} (hi : s.producer i = .entering x)
    (h : enter policy s i x = (s', evs)) : Step policy s (.produce i) s' evs := by
  unfold enter at h
  split at h
  next hc =>
    cases h
    exact .discard i x (.inl hi) hc
  next hc =>
    have hopen := Bool.eq_false_iff.mpr hc
    split at h
    next hfull =>
      cases policy with
      | block =>
        cases h
        exact .wait i x (.inl ⟨hi, rfl⟩) hopen hfull
      | dropNewest =>
        cases h
        exact .refusal i x hi rfl hopen hfull
      | dropOldest =>
        cases h
        exact .replace i x hi rfl hopen hfull
    next hroom =>
      cases h
      exact .accept i x (.inl hi) hopen hroom

theorem resume_cases {i : ι} {x : Item ι β} (hi : s.producer i = .woken x)
    (h : resume s i x = (s', evs)) : Step policy s (.produce i) s' evs := by
  rw [resume] at h
  split at h
  next hw =>
    cases h
    exact .wait i x (.inr hi) hw.2 hw.1
  next hw =>
    split at h
    next hc =>
      cases h
      exact .discard i x (.inr hi) hc
    next hc =>
      cases h
      have hopen := Bool.eq_false_iff.mpr hc
      exact .accept i x (.inr hi) hopen fun hfull => hw ⟨hfull, hopen⟩

theorem run_cases {pick : Nat} (h : run s pick = some (s', evs)) :
    Step policy s (.work pick) s' evs := by
  rw [run] at h
  split at h
  next => cases h
  next => cases h
  next hw =>
    cases h
    exact .exit pick hw
  next x hw =>
    cases h
    exact .emit pick x hw
  next hw =>
    split at h
    next hz =>
      cases h
      exact .sleep pick hw hz.1 hz.2
    next hz =>
      split at h
      next hzero =>
        cases h
        exact .stop pick hw hzero (Bool.eq_false_imp_eq_true.mp fun hc => absurd ⟨hzero, hc⟩ hz)
      next hzero =>
        split at h
        next => cases h
        next x hx =>
          cases h
          exact .take pick x hw hzero hx

theorem step_cases (h : step policy s a = some (s', evs)) : Step policy s a s' evs := by
  cases a with
  | dispatch i b =>
    simp only [step] at h
    split at h
    next hi =>
      cases h
      exact .call i b hi
    next => cases h
  | produce i =>
    simp only [step] at h
    split at h
    next => cases h
    next => cases h
    next x hi => exact enter_cases hi (Option.some.inj h)
    next x hi => exact resume_cases hi (Option.some.inj h)
    next x hi =>
      cases h
      exact .refuse i x hi
    next x hi =>
      cases h
      exact .ret i x hi
  | work pick => exact run_cases h
  | close k =>
    simp only [step] at h
    split at h
    next => cases h
    next g evs' hg =>
      cases h
      exact .gate _ (Gate.call_cases hg) (Gate.call_closed hg)
  | closer k =>
    simp only [step] at h
    split at h
    next => cases h
    next g evs' hg =>
      have hs := Gate.advance_cases hg
      split at h
      next hc =>
        cases h
        exact .shut _ hs hc
      next hc =>
        cases h
        refine .gate _ hs ?_
        have hmono := hs.closed_mono
        cases hold : s.gate.closed <;> cases hnew : g.closed <;> simp_all

end Steps

end UbgoLogger.Transport.Ring
