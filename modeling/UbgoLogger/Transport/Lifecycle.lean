import UbgoLogger.Transport.ChannelFlow
import UbgoLogger.Transport.DisruptorDrain
import UbgoLogger.Transport.RingDrain
import Mathlib.Data.Fintype.Basic

namespace UbgoLogger.Transport
open Foundation

variable {ι β κ : Type}

def Closer.working : Closer → Bool
  | .awaiting => true
  | .syncing => true
  | .closing => true
  | _ => false

def SilentAfterClose (log : List (Event ι β κ)) : Prop :=
  ∀ before after k, log = before ++ .sinkClose k :: after → emitted after = []

structure Gate.Alone (g : Gate κ) (log : List (Event ι β κ)) : Prop where
  shut : ∀ k, (g.closer k).working = true → g.closed = true
  unique : ∀ j k, (g.closer j).working = true → (g.closer k).working = true → j = k
  unspent : ∀ k, (g.closer k).working = true → sinkCloses log = []
  once : (sinkCloses log).length ≤ 1
  opened : g.closed = false → sinkCloses log = []

theorem Gate.alone_fresh : (fresh : Gate κ).Alone ([] : List (Event ι β κ)) where
  shut := nofun
  unique := nofun
  unspent := nofun
  once := Nat.zero_le 1
  opened := fun _ => rfl

theorem silent_nil : SilentAfterClose ([] : List (Event ι β κ)) := by
  intro before after k h
  simp at h

theorem SilentAfterClose.append {log evs : List (Event ι β κ)} (h : SilentAfterClose log)
    (hlog : sinkCloses log ≠ [] → emitted evs = [])
    (hevs : sinkCloses evs ≠ [] → emitted evs = []) : SilentAfterClose (log ++ evs) := by
  intro before after k he
  rcases List.append_eq_append_iff.mp he with ⟨mid, hb, hm⟩ | ⟨mid, hl, hm⟩
  · have hnone : emitted evs = [] := hevs (by rw [hm]; simp [sinkCloses])
    rw [hm, emitted_append, List.append_eq_nil_iff] at hnone
    exact hnone.2
  · cases mid with
    | nil =>
      have hnone : emitted evs = [] := hevs (by rw [← List.nil_append evs, ← hm]; simp [sinkCloses])
      rw [← List.nil_append evs, ← hm] at hnone
      exact hnone
    | cons e mid =>
      obtain ⟨rfl, rfl⟩ := List.cons.inj hm
      have hnone : emitted evs = [] := hlog (by rw [hl]; simp [sinkCloses])
      exact (emitted_append mid evs).trans (by rw [h before mid k hl, hnone, List.append_nil])

theorem Gate.Alone.quiet {g : Gate κ} {log evs : List (Event ι β κ)} (h : g.Alone log)
    (hs : sinkCloses evs = []) : g.Alone (log ++ evs) := by
  have hsame : sinkCloses (log ++ evs) = sinkCloses log := by
    rw [sinkCloses_append, hs, List.append_nil]
  exact ⟨h.shut, h.unique, hsame ▸ h.unspent, hsame ▸ h.once, hsame ▸ h.opened⟩

section Tick

variable [DecidableEq κ] {g g' : Gate κ} {evs log : List (Event ι β κ)}

theorem SilentAfterClose.tick {again : Prop} (h : SilentAfterClose log) (hj : g.Joined log)
    (ht : g.Tick again g' evs) : SilentAfterClose (log ++ evs) := by
  cases ht with
  | gate hs =>
    have hnone : emitted evs = [] := by cases hs <;> rfl
    exact h.append (fun _ => hnone) fun _ => hnone
  | repeated k ha hk hc hd => exact h.append (fun _ => rfl) fun _ => rfl
  | finish => exact h.append (fun _ => rfl) fun _ => rfl
  | emit x hd =>
    refine h.append (fun hne => ?_) fun hne => absurd rfl hne
    exact absurd (hd.symm.trans (hj.finished hne)) Bool.false_ne_true
  | inward hq => exact h.append (fun _ => emitted_inward hq) fun _ => emitted_inward hq

theorem Gate.Alone.step (h : g.Alone log) (hs : Gate.Step g g' evs) : g'.Alone (log ++ evs) := by
  have hshut := h.shut
  have hunique := h.unique
  have hunspent := h.unspent
  have hopened := h.opened
  cases hs with
  | call k hk | late k hk hc | first k hk hc | joined k hk hd | sinkSync k hk | ret k hk =>
    refine Alone.quiet (⟨fun j => ?_, fun i j => ?_, fun j => ?_, h.once, ?_⟩ : Alone _ log) rfl
    all_goals grind [Closer.working]
  | sinkClose k hk =>
    have hwork : (g.closer k).working = true := by rw [hk]; rfl
    have hidle : ∀ j, (((g.setCloser k .leaving).closer j).working = true) → False := by
      intro j hj
      rw [setCloser_closer] at hj
      split at hj
      next => cases hj
      next hne => exact hne (h.unique j k hj hwork)
    refine ⟨fun j hj => (hidle j hj).elim, fun j _ hj => (hidle j hj).elim,
      fun j hj => (hidle j hj).elim, ?_, fun hopen => ?_⟩
    · rw [sinkCloses_append, h.unspent k hwork]
      exact le_rfl
    · exact absurd ((h.shut k hwork).symm.trans hopen) nofun

theorem Gate.Alone.tick {again : Prop} (h : g.Alone log) (hn : ¬ again)
    (ht : g.Tick again g' evs) : g'.Alone (log ++ evs) := by
  cases ht with
  | gate hs => exact h.step hs
  | repeated k ha hk hc hd => exact absurd ha hn
  | finish =>
    have hsame : ({ g with done := true } : Gate κ).Alone log :=
      ⟨h.shut, h.unique, h.unspent, h.once, h.opened⟩
    exact hsame.quiet rfl
  | emit x hd => exact h.quiet rfl
  | inward hq => exact h.quiet (sinkCloses_inward hq)

variable {σ : Type} {M : Machine σ (Act ι β κ) (Event ι β κ)} {C : σ → Act ι β κ → Prop}
  {s : σ} {again : Prop}

theorem silent_of_ticks (gate : σ → Gate κ) (hinit : gate M.init = Gate.fresh)
    (htick : ∀ {log s a s' evs}, M.Exec C log s → C s a → M.step s a = some (s', evs) →
      (gate s).Tick again (gate s') evs)
    (h : M.Exec C log s) : SilentAfterClose log := by
  refine (h.invariant (P := fun log s => (gate s).Joined log ∧ SilentAfterClose log)
    ⟨hinit ▸ Gate.joined_fresh, silent_nil⟩ ?_).2
  intro log s a s' evs hexec hp hc hs
  have ht := htick hexec hc hs
  exact ⟨hp.1.tick ht, hp.2.tick hp.1 ht⟩

theorem alone_of_ticks (gate : σ → Gate κ) (hinit : gate M.init = Gate.fresh) (hn : ¬ again)
    (htick : ∀ {log s a s' evs}, M.Exec C log s → C s a → M.step s a = some (s', evs) →
      (gate s).Tick again (gate s') evs)
    (h : M.Exec C log s) : (gate s).Alone log :=
  h.invariant (P := fun log s => (gate s).Alone log) (hinit ▸ Gate.alone_fresh)
    fun hexec hp hc hs => hp.tick hn (htick hexec hc hs)

end Tick

structure SinkLifecycle (log : List (Event ι β κ)) : Prop where
  once : (sinkCloses log).length ≤ 1
  silent : SilentAfterClose log

section Sinks

variable [DecidableEq ι] [DecidableEq κ] {policy : OverflowPolicy} {capacity : Int}
  {log : List (Event ι β κ)}

theorem Ring.ring_lifecycle {s : Ring.State ι β κ}
    (h : (Ring.machine capacity policy).Run log s) : SinkLifecycle log where
  once := (alone_of_ticks Ring.State.gate rfl not_false (fun hx _ hs => Ring.ring_tick hx hs) h).once
  silent := silent_of_ticks Ring.State.gate rfl (fun hx _ hs => Ring.ring_tick hx hs) h

theorem Disruptor.disruptor_lifecycle {s : Disruptor.State ι β κ}
    (h : (Disruptor.machine capacity policy).Run log s) : SinkLifecycle log where
  once := (alone_of_ticks Disruptor.State.gate rfl not_false
    (fun hx _ hs => Disruptor.disruptor_tick hx hs) h).once
  silent := silent_of_ticks Disruptor.State.gate rfl (fun hx _ hs => Disruptor.disruptor_tick hx hs) h

end Sinks

namespace Channel

def Producer.unsent : Producer ι β → Bool
  | .sending _ => true
  | .evicting _ => true
  | .counting _ => true
  | _ => false

def SendsFirst (s : State ι β κ) : Act ι β κ → Prop
  | .dispatch _ _ => s.gate.closed = false
  | .closer k => s.gate.closer k = .entering → ∀ i, (s.producer i).unsent = false
  | _ => True

def ClosesOnce (s : State ι β κ) : Act ι β κ → Prop
  | .closer k => s.gate.closer k = .entering → s.gate.closed = false
  | _ => True

instance [Fintype ι] (s : State ι β κ) : (a : Act ι β κ) → Decidable (SendsFirst s a)
  | .dispatch _ _ => inferInstanceAs (Decidable (_ = _))
  | .produce _ => inferInstanceAs (Decidable True)
  | .work _ => inferInstanceAs (Decidable True)
  | .close _ => inferInstanceAs (Decidable True)
  | .closer _ => inferInstanceAs (Decidable (_ → _))

instance (s : State ι β κ) : (a : Act ι β κ) → Decidable (ClosesOnce s a)
  | .dispatch _ _ => inferInstanceAs (Decidable True)
  | .produce _ => inferInstanceAs (Decidable True)
  | .work _ => inferInstanceAs (Decidable True)
  | .close _ => inferInstanceAs (Decidable True)
  | .closer _ => inferInstanceAs (Decidable (_ → _))

structure Sent (s : State ι β κ) (log : List (Event ι β κ)) : Prop where
  sent : s.gate.closed = true → ∀ i, (s.producer i).unsent = false
  alive : ∀ i x, s.producer i ≠ .panicked x
  quiet : ∀ i, .sendOnClosed i ∉ log

variable [DecidableEq ι] [DecidableEq κ] {policy : OverflowPolicy} {capacity : Int} {cap : Nat}
  {log evs : List (Event ι β κ)} {s s' : State ι β κ} {a : Act ι β κ}
  {C : State ι β κ → Act ι β κ → Prop}

theorem shut_of_step (hs : step cap policy s a = some (s', evs)) (ho : s.gate.closed = false)
    (hc : s'.gate.closed = true) : ∃ k, a = .closer k ∧ s.gate.closer k = .entering := by
  have hshut : s'.gate.closed ≠ s.gate.closed := by rw [ho, hc]; nofun
  cases a with
  | closer k =>
    refine ⟨k, rfl, ?_⟩
    grind [step, closer, Gate.advance]
  | close k => grind [step, Gate.call_closed]
  | work pick => grind [step, run]
  | dispatch i b => grind [step, State.setProducer]
  | produce i => exact absurd (congrArg Gate.closed (produce_frame hs).1) hshut

theorem Sent.step (h : Sent s log) (hf : SendsFirst s a) (hs : step cap policy s a = some (s', evs)) :
    Sent s' (log ++ evs) := by
  have hsent := h.sent
  have halive := h.alive
  have hquiet := h.quiet
  have hshut := shut_of_step hs
  cases step_cases hs with
  | gate a b hg =>
    refine ⟨fun hc i => ?_, halive, fun i hmem => ?_⟩
    · cases ho : s.gate.closed with
      | true => exact hsent ho i
      | false =>
        obtain ⟨k, rfl, hk⟩ := hshut ho hc
        exact hf hk i
    · rcases List.mem_append.mp hmem with hold | hnew
      · exact hquiet i hold
      · cases hg <;> simp at hnew
  | call i b hi =>
    have ho : s.gate.closed = false := hf
    refine ⟨fun hc => ?_, fun j x => ?_, fun j => ?_⟩
    · exact absurd (ho.symm.trans hc) Bool.false_ne_true
    · grind
    · simpa using hquiet j
  | panic i x hi hc =>
    have hnone := hsent hc i
    rw [hi] at hnone
    cases hnone
  | _ =>
    refine ⟨fun hc j => ?_, fun j x => ?_, fun j => ?_⟩
    · have hold := hsent hc
      grind [Producer.unsent]
    · grind
    · simpa using hquiet j

theorem channel_sent (h : (machine capacity policy).Exec SendsFirst log s) : Sent s log :=
  h.invariant (P := fun log s => Sent s log) ⟨fun _ _ => rfl, nofun, fun _ => List.not_mem_nil⟩
    fun _ hp hf hs => hp.step hf hs

theorem panics_sending (h : (machine capacity policy).Run log s) (hc : s.gate.closed = true) {i : ι}
    {x : Item ι β} (hi : s.producer i = .sending x) :
    ∃ s', (machine capacity policy).Run (log ++ [.sendOnClosed i]) s' := by
  have hnext : (machine capacity policy).step s (.produce i) =
      some (s.setProducer i (.panicked x), [.sendOnClosed i]) := by
    simp [machine, step, send, hi, hc]
  exact ⟨_, h.step trivial hnext⟩

theorem panics_counting (h : (machine capacity policy).Run log s) (hc : s.gate.closed = true) {i : ι}
    {x : Item ι β} (hi : s.producer i = .counting x) :
    ∃ s', (machine capacity policy).Run (log ++ [.count i] ++ [.sendOnClosed i]) s' := by
  have hnext : (machine capacity policy).step s (.produce i) =
      some ({ s.setProducer i (.sending x) with dropped := s.dropped + 1 }, [.count i]) := by
    simp [machine, step, hi]
  exact panics_sending (h.step trivial hnext) hc (x := x) (by simp)

theorem panics_unsent (h : (machine capacity policy).Run log s) (hc : s.gate.closed = true) {i : ι}
    (hi : (s.producer i).unsent = true) :
    ∃ log' s', (machine capacity policy).Run (log ++ log') s' ∧ .sendOnClosed i ∈ log' := by
  cases hp : s.producer i with
  | sending x =>
    obtain ⟨s', hrun⟩ := panics_sending h hc hp
    exact ⟨_, s', hrun, List.mem_singleton_self _⟩
  | counting x =>
    obtain ⟨s', hrun⟩ := panics_counting h hc hp
    rw [List.append_assoc] at hrun
    exact ⟨_, s', hrun, by simp⟩
  | evicting x =>
    have hnext : ∃ s₁ evs, (machine capacity policy).step s (.produce i) = some (s₁, evs) ∧
        s₁.gate.closed = true ∧ s₁.producer i = .counting x := by
      cases hch : s.ch with
      | nil =>
        exact ⟨s.setProducer i (.counting x), [], by simp [machine, step, evict, hp, hch, hc], hc,
          by simp⟩
      | cons y rest =>
        exact ⟨{ s.setProducer i (.counting x) with ch := rest }, [.evict i y],
          by simp [machine, step, evict, hp, hch], hc, by simp⟩
    obtain ⟨s₁, evs, hs, hc₁, hi₁⟩ := hnext
    obtain ⟨s', hrun⟩ := panics_counting (h.step trivial hs) hc₁ hi₁
    simp only [List.append_assoc] at hrun
    exact ⟨_, s', hrun, by simp⟩
  | idle | refusing x | leaving x | panicked x =>
    rw [hp] at hi
    cases hi

theorem channel_send_before_close (capacity : Int) (policy : OverflowPolicy) :
    (∀ (log : List (Event ι β κ)) s, (machine capacity policy).Exec SendsFirst log s →
      (∀ i, .sendOnClosed i ∉ log) ∧ ∀ i x, s.producer i ≠ .panicked x) ∧
    ∀ (log : List (Event ι β κ)) s i, (machine capacity policy).Run log s →
      s.gate.closed = true → (s.producer i).unsent = true →
      ∃ log' s', (machine capacity policy).Run (log ++ log') s' ∧ .sendOnClosed i ∈ log' :=
  ⟨fun _ _ h => ⟨(channel_sent h).quiet, (channel_sent h).alive⟩,
    fun _ _ _ h hc hi => panics_unsent h hc hi⟩

theorem channel_send_before_close_drained :
    ∃ (log : List (Event (Fin 2) Nat Unit)) (s : State (Fin 2) Nat Unit),
      (machine 1 .block).Exec SendsFirst log s ∧ (emitted log).length = 2 ∧ .closeRet () ∈ log ∧
        (∀ i, .sendOnClosed i ∉ log) ∧ ∀ i x, s.producer i ≠ .panicked x := by
  obtain ⟨log, s, hexec, hgood⟩ := Machine.exists_exec (M := machine 1 .block) (C := SendsFirst)
    [.dispatch 0 10, .produce 0, .dispatch 1 11, .work 0, .produce 1, .work 0, .close (),
      .closer (), .work 0, .work 0, .work 0, .work 0, .closer (), .closer (), .closer (), .closer ()]
    (fun (log : List (Event (Fin 2) Nat Unit)) _ =>
      decide ((emitted log).length = 2 ∧ .closeRet () ∈ log)) (by decide +kernel)
  obtain ⟨hlen, hret⟩ := of_decide_eq_true hgood
  exact ⟨log, s, hexec, hlen, hret, (channel_send_before_close 1 .block).1 log s hexec⟩

theorem parked_send_panics :
    ∃ (log : List (Event (Fin 2) Nat Unit)) (s : State (Fin 2) Nat Unit),
      (machine 1 .block).Run log s ∧ .sendOnClosed 1 ∈ log := by
  obtain ⟨log, s, hrun, hgood⟩ := Machine.exists_exec (M := machine 1 .block) (C := fun _ _ => True)
    [.dispatch 0 10, .produce 0, .dispatch 1 11, .close (), .closer (), .produce 1]
    (fun (log : List (Event (Fin 2) Nat Unit)) (_ : State (Fin 2) Nat Unit) =>
      decide (.sendOnClosed 1 ∈ log)) (by decide +kernel)
  exact ⟨log, s, hrun, of_decide_eq_true hgood⟩

theorem ClosesOnce.tick (h : (machine capacity policy).Exec C log s) (hc : ClosesOnce s a)
    (hs : (machine capacity policy).step s a = some (s', evs)) : s.gate.Tick False s'.gate evs := by
  refine channel_tick h (fun k ha hk hclosed => ?_) hs
  subst ha
  exact Bool.false_ne_true ((hc hk).symm.trans hclosed)

theorem channel_silent (h : (machine capacity policy).Exec C log s) : SilentAfterClose log :=
  silent_of_ticks State.gate rfl
    (fun hx _ hs => channel_tick hx (fun _ _ _ _ => trivial) hs) h

theorem channel_lifecycle (h : (machine capacity policy).Exec ClosesOnce log s) :
    SinkLifecycle log where
  once := (alone_of_ticks State.gate rfl not_false (fun hx hc hs => hc.tick hx hs) h).once
  silent := channel_silent h

end Channel

theorem sink_closed_once [DecidableEq ι] [DecidableEq κ] (capacity : Int)
    (policy : OverflowPolicy) :
    (∀ (log : List (Event ι β κ)) s,
      (Channel.machine capacity policy).Exec Channel.ClosesOnce log s → SinkLifecycle log) ∧
    (∀ (log : List (Event ι β κ)) s,
      (Channel.machine capacity policy).Run log s → SilentAfterClose log) ∧
    (∀ (log : List (Event ι β κ)) s,
      (Ring.machine capacity policy).Run log s → SinkLifecycle log) ∧
    ∀ (log : List (Event ι β κ)) s,
      (Disruptor.machine capacity policy).Run log s → SinkLifecycle log :=
  ⟨fun _ _ h => Channel.channel_lifecycle h, fun _ _ h => Channel.channel_silent h,
    fun _ _ h => Ring.ring_lifecycle h, fun _ _ h => Disruptor.disruptor_lifecycle h⟩

theorem sink_closed_once_concurrent :
    ∃ (log : List (Event Nat Nat Nat)) (s : Channel.State Nat Nat Nat),
      (Channel.machine 4 .block).Exec Channel.ClosesOnce log s ∧ .closeRet 0 ∈ log ∧
        .closeCall 1 ∈ log ∧ sinkCloses log = [0] ∧ SinkLifecycle log := by
  obtain ⟨log, s, hexec, hgood⟩ := Machine.exists_exec (M := Channel.machine 4 .block)
    (C := Channel.ClosesOnce)
    [.dispatch 0 10, .produce 0, .close 0, .closer 0, .close 1, .work 0, .work 0, .work 0, .work 0,
      .closer 0, .closer 0, .closer 0, .closer 0]
    (fun (log : List (Event Nat Nat Nat)) _ =>
      decide (.closeRet 0 ∈ log ∧ .closeCall 1 ∈ log ∧ sinkCloses log = [0])) (by decide +kernel)
  obtain ⟨hret, hcall, hone⟩ := of_decide_eq_true hgood
  exact ⟨log, s, hexec, hret, hcall, hone, (sink_closed_once 4 .block).1 log s hexec⟩

theorem second_close_repeats :
    ∃ (log : List (Event Nat Nat Unit)) (s : Channel.State Nat Nat Unit),
      (Channel.machine 4 .block).Run log s ∧ sinkCloses log = [(), ()] := by
  obtain ⟨log, s, hrun, hgood⟩ := Machine.exists_exec (M := Channel.machine 4 .block)
    (C := fun _ _ => True)
    [.close (), .closer (), .work 0, .work 0, .closer (), .closer (), .closer (), .closer (),
      .close (), .closer (), .closer (), .closer (), .closer ()]
    (fun (log : List (Event Nat Nat Unit)) (_ : Channel.State Nat Nat Unit) =>
      decide (sinkCloses log = [(), ()])) (by decide +kernel)
  exact ⟨log, s, hrun, of_decide_eq_true hgood⟩

end UbgoLogger.Transport
