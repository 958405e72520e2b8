import UbgoLogger.Transport.Gate
import UbgoLogger.Transport.Ledger

namespace UbgoLogger.Transport.Channel
open Foundation

variable {ι β κ : Type}

inductive Worker (ι β : Type) where
  | receiving
  | emitting (x : Item ι β)
  | exiting
  | exited
  deriving DecidableEq

inductive Producer (ι β : Type) where
  | idle
  | sending (x : Item ι β)
  | evicting (x : Item ι β)
  | counting (x : Item ι β)
  | refusing (x : Item ι β)
  | leaving (x : Item ι β)
  | panicked (x : Item ι β)
  deriving DecidableEq

-- The channel is its buffer and the closed flag of the gate; finished is the state of once.
structure State (ι β κ : Type) where
  ch : List (Item ι β)
  dropped : UInt64
  gate : Gate κ
  finished : Bool
  worker : Worker ι β
  producer : ι → Producer ι β
  calls : Nat

def chanLen (capacity : Int) : Nat := if capacity < 1 then 1024 else capacity.toNat

section Steps

variable [DecidableEq ι] [DecidableEq κ]

def State.setProducer (s : State ι β κ) (i : ι) (p : Producer ι β) : State ι β κ :=
  { s with producer := Function.update s.producer i p }

omit [DecidableEq κ] in
@[simp, grind =] theorem State.setProducer_producer (s : State ι β κ) (i j : ι) (p : Producer ι β) :
    (s.setProducer i p).producer j = if j = i then p else s.producer j :=
  Function.update_apply s.producer i p j

def send (cap : Nat) (policy : OverflowPolicy) (s : State ι β κ) (i : ι) (x : Item ι β) :
    Option (State ι β κ × List (Event ι β κ)) :=
  if s.gate.closed then some (s.setProducer i (.panicked x), [.sendOnClosed i])
  else if s.ch.length < cap then
    some ({ s.setProducer i (.leaving x) with ch := s.ch ++ [x] }, [.accept x])
  else
    match policy with
    | .block => none
    | .dropNewest => some (s.setProducer i (.refusing x), [])
    | .dropOldest => some (s.setProducer i (.evicting x), [])

-- A receive from a closed and empty channel succeeds with the zero value.
def evict (s : State ι β κ) (i : ι) (x : Item ι β) : State ι β κ × List (Event ι β κ) :=
  match s.ch with
  | y :: rest => ({ s.setProducer i (.counting x) with ch := rest }, [.evict i y])
  | [] =>
      if s.gate.closed then (s.setProducer i (.counting x), [])
      else (s.setProducer i (.sending x), [])

def run (s : State ι β κ) : Option (State ι β κ × List (Event ι β κ)) :=
  match s.worker with
  | .receiving =>
      match s.ch with
      | x :: rest => some ({ s with ch := rest, worker := .emitting x }, [.take x])
      | [] => if s.gate.closed then some ({ s with worker := .exiting }, []) else none
  | .emitting x => some ({ s with worker := .receiving }, [.emit x])
  | .exiting => some ({ s with gate := { s.gate with done := true }, worker := .exited }, [.exit])
  | .exited => none

def closer (s : State ι β κ) (k : κ) : Option (State ι β κ × List (Event ι β κ)) :=
  match s.gate.closer k with
  | .entering =>
      if s.gate.closed = false then
        some ({ s with gate := { s.gate.setCloser k .awaiting with closed := true } }, [])
      else if s.finished then some ({ s with gate := s.gate.setCloser k .syncing }, [])
      else none
  | .awaiting =>
      if s.gate.done then
        some ({ s with gate := s.gate.setCloser k .syncing, finished := true }, [])
      else none
  | _ =>
      match s.gate.advance k with
      | none => none
      | some (g, evs) => some ({ s with gate := g }, evs)

def step (cap : Nat) (policy : OverflowPolicy) (s : State ι β κ) :
    Act ι β κ → Option (State ι β κ × List (Event ι β κ))
  | .dispatch i b =>
      match s.producer i with
      | .idle =>
          let x : Item ι β := ⟨i, s.calls, b⟩
          some ({ s.setProducer i (.sending x) with calls := s.calls + 1 }, [.call x])
      | _ => none
  | .produce i =>
      match s.producer i with
      | .idle => none
      | .panicked _ => none
      | .sending x => send cap policy s i x
      | .evicting x => some (evict s i x)
      | .counting x =>
          some ({ s.setProducer i (.sending x) with dropped := s.dropped + 1 }, [.count i])
      | .refusing x =>
          some ({ s.setProducer i (.leaving x) with dropped := s.dropped + 1 }, [.refuse x])
      | .leaving x => some (s.setProducer i .idle, [.ret x])
  | .work _ => run s
  | .close k =>
      match s.gate.call k with
      | none => none
      | some (g, evs) => some ({ s with gate := g }, evs)
  | .closer k => closer s k

def machine (capacity : Int) (policy : OverflowPolicy) :
    Machine (State ι β κ) (Act ι β κ) (Event ι β κ) where
  init :=
    { ch := [], dropped := 0, gate := Gate.fresh, finished := false, worker := .receiving,
      producer := fun _ => .idle, calls := 0 }
  step := step (chanLen capacity) policy

inductive Step (cap : Nat) (policy : OverflowPolicy) (s : State ι β κ) :
    Act ι β κ → State ι β κ → List (Event ι β κ) → Prop
  | call (i : ι) (b : β) (h : s.producer i = .idle) :
      Step cap policy s (.dispatch i b)
        { s.setProducer i (.sending ⟨i, s.calls, b⟩) with calls := s.calls + 1 }
        [.call ⟨i, s.calls, b⟩]
  | panic (i : ι) (x : Item ι β) (h : s.producer i = .sending x) (hc : s.gate.closed = true) :
      Step cap policy s (.produce i) (s.setProducer i (.panicked x)) [.sendOnClosed i]
  | accept (i : ι) (x : Item ι β) (h : s.producer i = .sending x) (hc : s.gate.closed = false)
      (hroom : s.ch.length < cap) :
      Step cap policy s (.produce i) { s.setProducer i (.leaving x) with ch := s.ch ++ [x] }
        [.accept x]
  | refusal (i : ι) (x : Item ι β) (h : s.producer i = .sending x) (hp : policy = .dropNewest) :
      Step cap policy s (.produce i) (s.setProducer i (.refusing x)) []
  | overflow (i : ι) (x : Item ι β) (h : s.producer i = .sending x) (hp : policy = .dropOldest) :
      Step cap policy s (.produce i) (s.setProducer i (.evicting x)) []
  | evict (i : ι) (x y : Item ι β) (rest : List (Item ι β)) (h : s.producer i = .evicting x)
      (hch : s.ch = y :: rest) :
      Step cap policy s (.produce i) { s.setProducer i (.counting x) with ch := rest } [.evict i y]
  | receiveZero (i : ι) (x : Item ι β) (h : s.producer i = .evicting x)
      (hc : s.gate.closed = true) : Step cap policy s (.produce i) (s.setProducer i (.counting x)) []
  | retry (i : ι) (x : Item ι β) (h : s.producer i = .evicting x) :
      Step cap policy s (.produce i) (s.setProducer i (.sending x)) []
  | count (i : ι) (x : Item ι β) (h : s.producer i = .counting x) :
      Step cap policy s (.produce i) { s.setProducer i (.sending x) with dropped := s.dropped + 1 }
        [.count i]
  | refuse (i : ι) (x : Item ι β) (h : s.producer i = .refusing x) :
      Step cap policy s (.produce i) { s.setProducer i (.leaving x) with dropped := s.dropped + 1 }
        [.refuse x]
  | ret (i : ι) (x : Item ι β) (h : s.producer i = .leaving x) :
      Step cap policy s (.produce i) (s.setProducer i .idle) [.ret x]
  | take (pick : Nat) (x : Item ι β) (rest : List (Item ι β)) (h : s.worker = .receiving)
      (hch : s.ch = x :: rest) :
      Step cap policy s (.work pick) { s with ch := rest, worker := .emitting x } [.take x]
  | stop (pick : Nat) (h : s.worker = .receiving) (hch : s.ch = []) (hc : s.gate.closed = true) :
      Step cap policy s (.work pick) { s with worker := .exiting } []
  | emit (pick : Nat) (x : Item ι β) (h : s.worker = .emitting x) :
      Step cap policy s (.work pick) { s with worker := .receiving } [.emit x]
  | exit (pick : Nat) (h : s.worker = .exiting) :
      Step cap policy s (.work pick)
        { s with gate := { s.gate with done := true }, worker := .exited } [.exit]
  | gate (a : Act ι β κ) {g : Gate κ} {evs : List (Event ι β κ)} (b : Bool)
      (h : Gate.Step s.gate g evs) :
      Step cap policy s a { s with gate := g, finished := b } evs
  | again (k : κ) (h : s.gate.closer k = .entering) (hc : s.gate.closed = true)
      (hf : s.finished = true) :
      Step cap policy s (.closer k) { s with gate := s.gate.setCloser k .syncing } []

variable {cap : Nat} {policy : OverflowPolicy} {s s' : State ι β κ} {a : Act ι β κ}
  {evs log : List (Event ι β κ)}

theorem send_cases {i : ι} {x : Item ι β} (hi : s.producer i = .sending x)
    (h : send cap policy s i x = some (s', evs)) : Step cap policy s (.produce i) s' evs := by
  unfold send at h
  split at h
  next hc =>
    cases h
    exact .panic i x hi hc
  next hc =>
    split at h
    next hroom =>
      cases h
      exact .accept i x hi (Bool.eq_false_iff.mpr hc) hroom
    next =>
      cases policy with
      | block => cases h
      | dropNewest =>
        cases h
        exact .refusal i x hi rfl
      | dropOldest =>
        cases h
        exact .overflow i x hi rfl

theorem evict_cases {i : ι} {x : Item ι β} (hi : s.producer i = .evicting x)
    (h : evict s i x = (s', evs)) : Step cap policy s (.produce i) s' evs := by
  unfold evict at h
  split at h
  next y rest hch =>
    cases h
    exact .evict i x y rest hi hch
  next hch =>
    split at h
    next hc =>
      cases h
      exact .receiveZero i x hi hc
    next =>
      cases h
      exact .retry i x hi

theorem run_cases {pick : Nat} (h : run s = some (s', evs)) :
    Step cap policy s (.work pick) s' evs := by
  unfold run at h
  split at h
  next hw =>
    split at h
    next x rest hch =>
      cases h
      exact .take pick x rest hw hch
    next hch =>
      split at h
      next hc =>
        cases h
        exact .stop pick hw hch hc
      next => cases h
  next x hw =>
    cases h
    exact .emit pick x hw
  next hw =>
    cases h
    exact .exit pick hw
  next => cases h

theorem closer_cases {k : κ} (h : closer s k = some (s', evs)) :
    Step cap policy s (.closer k) s' evs := by
  unfold closer at h
  split at h
  next hk =>
    split at h
    next hc =>
      cases h
      exact .gate _ s.finished (.first k hk hc)
    next hc =>
      split at h
      next hf =>
        cases h
        exact .again k hk (by simpa using hc) hf
      next => cases h
  next hk =>
    split at h
    next hd =>
      cases h
      exact .gate _ true (.joined k hk hd)
    next => cases h
  next =>
    split at h
    next => cases h
    next g evs' hg =>
      cases h
      exact .gate _ s.finished (Gate.advance_cases hg)

theorem step_cases (h : step cap policy s a = some (s', evs)) : Step cap policy s a s' evs := by
  cases a with
  | dispatch i b =>
    simp only [step] at h
    split at h
    next hi =>
      cases h
      exact .call i b hi
    next => cases h
  | produce i =>
    simp only [step] at h
    split at h
    next => cases h
    next => cases h
    next x hi => exact send_cases hi h
    next x hi => exact evict_cases hi (Option.some.inj h)
    next x hi =>
      cases h
      exact .count i x hi
    next x hi =>
      cases h
      exact .refuse i x hi
    next x hi =>
      cases h
      exact .ret i x hi
  | work pick => exact run_cases h
  | close k =>
    simp only [step] at h
    split at h
    next => cases h
    next g evs' hg =>
      cases h
      exact .gate _ s.finished (Gate.call_cases hg)
  | closer k => exact closer_cases h

end Steps

end UbgoLogger.Transport.Channel
