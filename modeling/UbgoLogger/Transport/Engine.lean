import UbgoLogger.Transport.ChannelFlow
import UbgoLogger.Transport.DisruptorDrain
import UbgoLogger.Transport.RingDrain

namespace UbgoLogger.Transport
open Foundation

variable {ι β κ τ : Type}

-- What the goroutines around a transport rely on, whatever it carries.
structure Carrier [DecidableEq ι] (M : Machine τ (Act ι β κ) (Event ι β κ))
    (policy : OverflowPolicy) (dropped : τ → UInt64) : Prop where
  dispatch : ∀ {s i b s' evs}, M.step s (.dispatch i b) = some (s', evs) →
    ∃ n, evs = [.call ⟨i, n, b⟩]
  inner : ∀ {s a s' evs}, M.step s a = some (s', evs) → (∀ i b, a ≠ .dispatch i b) → calls evs = []
  called : ∀ {log s}, M.Run log s → Orderly log → ∀ x ∈ emitted log, x ∈ calls log
  counted : ∀ {log s}, M.Run log s → Orderly log → dropped s = .ofNat (spilled log)
  settled : ∀ {log s k}, M.Run log s → Orderly log → .closeRet k ∈ log →
    Settled policy (calls log) (emitted log) (spilled log)

-- The worker alone hands records to the sink, one at a time, and has left its loop when Close
-- returns.
structure Engine [DecidableEq ι] (M : Machine τ (Act ι β Unit) (Event ι β Unit))
    (policy : OverflowPolicy) (dropped : τ → UInt64) (exited : τ → Prop) : Prop
    extends Carrier M policy dropped where
  emits : ∀ {s a s' evs}, M.step s a = some (s', evs) →
    emitted evs = [] ∨ ∃ pick x, a = .work pick ∧ emitted evs = [x] ∧ ¬ exited s'
  exits : ∀ {s a s' evs}, M.step s a = some (s', evs) → exited s' → exited s ∨ ∃ pick, a = .work pick
  closed : ∀ {log s}, M.Run log s → .closeRet () ∈ log → exited s

theorem Gate.Step.emitted_nil {g g' : Gate Unit} {evs : List (Event ι β Unit)}
    (h : Gate.Step g g' evs) : emitted evs = [] := by
  cases h <;> rfl

theorem Ring.Worker.exited_of_wake {w : Ring.Worker ι β} (h : w.wake = .exited) : w = .exited := by
  cases w <;> first | rfl | cases h

theorem Disruptor.emitted_queue {f : Mpmc.Event (Item ι β) → Option (Event ι β Unit)}
    (hf : ∀ e, (f e).bind Event.emitItem = none) {evs : List (Mpmc.Event (Item ι β))} :
    emitted (evs.filterMap f) = [] := by
  rw [emitted, List.filterMap_filterMap, List.filterMap_eq_nil_iff]
  exact fun e _ => hf e

theorem Disruptor.calls_queue {f : Mpmc.Event (Item ι β) → Option (Event ι β Unit)}
    (hf : ∀ e, (f e).bind Event.callItem = none) {evs : List (Mpmc.Event (Item ι β))} :
    calls (evs.filterMap f) = [] := by
  rw [calls, List.filterMap_filterMap, List.filterMap_eq_nil_iff]
  exact fun e _ => hf e

section Transports

variable [DecidableEq ι] (capacity : Int) (policy : OverflowPolicy)

theorem Channel.carrier :
    Carrier (Channel.machine (ι := ι) (β := β) (κ := Unit) capacity policy) policy Channel.State.dropped where
  dispatch := fun {s i b s' evs} h => by
    simp only [Channel.machine, Channel.step] at h
    split at h
    next =>
      cases h
      exact ⟨_, rfl⟩
    next => cases h
  inner := fun {s a s' evs} h ha => by
    cases Channel.step_cases h with
    | call i b hi => exact absurd rfl (ha i b)
    | gate a b hg => cases hg <;> rfl
    | _ => rfl
  called := fun h ho x hx => by
    obtain ⟨f, hacc, -⟩ := Channel.channel_accepted h ho
    exact (ledger hacc).emitted_called hx
  counted := Channel.channel_counted
  settled := fun h ho hk => Channel.channel_settled h ho hk

theorem Channel.engine :
    Engine (Channel.machine (ι := ι) (β := β) capacity policy) policy Channel.State.dropped
      fun s => s.worker = .exited where
  toCarrier := Channel.carrier capacity policy
  emits := fun {s a s' evs} h => by
    cases Channel.step_cases h with
    | emit pick x hw => exact .inr ⟨pick, x, rfl, rfl, by simp⟩
    | gate a b hg => exact .inl hg.emitted_nil
    | _ => exact .inl rfl
  exits := fun {s a s' evs} h he => by
    cases Channel.step_cases h with
    | exit pick hw => exact .inr ⟨pick, rfl⟩
    | take pick => exact .inr ⟨pick, rfl⟩
    | stop pick => exact .inr ⟨pick, rfl⟩
    | emit pick => exact .inr ⟨pick, rfl⟩
    | _ => exact .inl he
  closed := fun h hk => (Channel.channel_stops h).exited ((Channel.channel_gate h).returned () hk)

theorem Ring.carrier :
    Carrier (Ring.machine (ι := ι) (β := β) (κ := Unit) capacity policy) policy Ring.State.dropped where
  dispatch := fun {s i b s' evs} h => by
    simp only [Ring.machine, Ring.step] at h
    split at h
    next =>
      cases h
      exact ⟨_, rfl⟩
    next => cases h
  inner := fun {s a s' evs} h ha => by
    cases Ring.step_cases h with
    | call i b hi => exact absurd rfl (ha i b)
    | replace i x hi hp hc hfull => cases s.front <;> rfl
    | gate a hg hc => cases hg <;> rfl
    | shut a hg hc => cases hg <;> rfl
    | _ => rfl
  called := fun h _ x hx => by
    obtain ⟨f, hacc, -⟩ := Ring.ring_accepted h
    exact (ledger hacc).emitted_called hx
  counted := fun h _ => Ring.ring_counted h
  settled := fun h ho hk => Ring.ring_settled h ho hk

theorem Ring.engine :
    Engine (Ring.machine (ι := ι) (β := β) capacity policy) policy Ring.State.dropped
      fun s => s.worker = .exited where
  toCarrier := Ring.carrier capacity policy
  emits := fun {s a s' evs} h => by
    cases Ring.step_cases h with
    | emit pick x hw => exact .inr ⟨pick, x, rfl, rfl, by simp⟩
    | replace i x hi hp hc hfull => exact .inl (by cases s.front <;> rfl)
    | gate a hg hc => exact .inl hg.emitted_nil
    | shut a hg hc => exact .inl hg.emitted_nil
    | _ => exact .inl rfl
  exits := fun {s a s' evs} h he => by
    cases Ring.step_cases h with
    | exit pick hw => exact .inr ⟨pick, rfl⟩
    | sleep pick => exact .inr ⟨pick, rfl⟩
    | take pick => exact .inr ⟨pick, rfl⟩
    | stop pick => exact .inr ⟨pick, rfl⟩
    | emit pick => exact .inr ⟨pick, rfl⟩
    | accept => exact .inl (Ring.Worker.exited_of_wake he)
    | replace => exact .inl (Ring.Worker.exited_of_wake he)
    | shut => exact .inl (Ring.Worker.exited_of_wake he)
    | _ => exact .inl he
  closed := fun h hk => (Ring.ring_stops h).exited ((Ring.ring_gate h).returned () hk)

theorem Disruptor.carrier :
    Carrier (Disruptor.machine (ι := ι) (β := β) (κ := Unit) capacity policy) policy
      Disruptor.State.dropped where
  dispatch := fun {s i b s' evs} h => by
    simp only [Disruptor.machine, Disruptor.step] at h
    split at h
    next =>
      cases h
      exact ⟨_, rfl⟩
    next => cases h
  inner := fun {s a s' evs} h ha => by
    cases Disruptor.step_cases h with
    | call i b hi => exact absurd rfl (ha i b)
    | enqueue i x hi hop => exact Disruptor.calls_queue fun e => by cases e <;> rfl
    | evict i x hi hop =>
      refine Disruptor.calls_queue fun e => ?_
      rcases e with _ | _ | ⟨_, _ | _⟩ <;> rfl
    | dequeue pick draining hc hop =>
      refine Disruptor.calls_queue fun e => ?_
      rcases e with _ | _ | ⟨_, _ | _⟩ <;> rfl
    | gate a hg => cases hg <;> rfl
    | _ => rfl
  called := fun h _ x hx => by
    obtain ⟨f, hacc, -⟩ := Disruptor.disruptor_accepted h
    exact (ledger hacc).emitted_called hx
  counted := fun h _ => Disruptor.disruptor_counted h
  settled := fun h ho hk => Disruptor.disruptor_settled h ho hk

theorem Disruptor.engine :
    Engine (Disruptor.machine (ι := ι) (β := β) capacity policy) policy Disruptor.State.dropped
      fun s => s.consumer = .exited where
  toCarrier := Disruptor.carrier capacity policy
  emits := fun {s a s' evs} h => by
    cases Disruptor.step_cases h with
    | emit pick draining x hc => exact .inr ⟨pick, x, rfl, rfl, by simp⟩
    | enqueue i x hi hop => exact .inl (Disruptor.emitted_queue fun e => by cases e <;> rfl)
    | evict i x hi hop =>
      refine .inl (Disruptor.emitted_queue fun e => ?_)
      rcases e with _ | _ | ⟨_, _ | _⟩ <;> rfl
    | dequeue pick draining hc hop =>
      refine .inl (Disruptor.emitted_queue fun e => ?_)
      rcases e with _ | _ | ⟨_, _ | _⟩ <;> rfl
    | gate a hg => exact .inl hg.emitted_nil
    | _ => exact .inl rfl
  exits := fun {s a s' evs} h he => by
    cases Disruptor.step_cases h with
    | exit pick => exact .inr ⟨pick, rfl⟩
    | dequeue pick => exact .inr ⟨pick, rfl⟩
    | dequeued pick => exact .inr ⟨pick, rfl⟩
    | empty pick => exact .inr ⟨pick, rfl⟩
    | stop pick => exact .inr ⟨pick, rfl⟩
    | emit pick => exact .inr ⟨pick, rfl⟩
    | check pick => exact .inr ⟨pick, rfl⟩
    | _ => exact .inl he
  closed := fun h hk => Disruptor.disruptor_exited h hk

end Transports

inductive Async where
  | channel
  | ring
  | disruptor

namespace Async

def State (ι β : Type) : Async → Type
  | .channel => Channel.State ι β Unit
  | .ring => Ring.State ι β Unit
  | .disruptor => Disruptor.State ι β Unit

def dropped : (t : Async) → t.State ι β → UInt64
  | .channel => Channel.State.dropped
  | .ring => Ring.State.dropped
  | .disruptor => Disruptor.State.dropped

def Exited : (t : Async) → t.State ι β → Prop
  | .channel => fun s => Channel.State.worker s = .exited
  | .ring => fun s => Ring.State.worker s = .exited
  | .disruptor => fun s => Disruptor.State.consumer s = .exited

variable [DecidableEq ι]

def machine (capacity : Int) (policy : OverflowPolicy) :
    (t : Async) → Machine (t.State ι β) (Act ι β Unit) (Event ι β Unit)
  | .channel => Channel.machine capacity policy
  | .ring => Ring.machine capacity policy
  | .disruptor => Disruptor.machine capacity policy

theorem engine (t : Async) (capacity : Int) (policy : OverflowPolicy) :
    Engine (t.machine (ι := ι) (β := β) capacity policy) policy t.dropped t.Exited :=
  match t with
  | .channel => Channel.engine capacity policy
  | .ring => Ring.engine capacity policy
  | .disruptor => Disruptor.engine capacity policy

end Async

end UbgoLogger.Transport
