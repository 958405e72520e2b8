import UbgoLogger.Transport.RingFifo

namespace UbgoLogger.Transport.Ring
open Foundation

variable {ι β κ : Type} {policy : OverflowPolicy} {capacity : Int}
  {s s' : State ι β κ} {a : Act ι β κ} {evs log : List (Event ι β κ)}

structure Stops (s : State ι β κ) : Prop where
  exited : s.gate.done = true → s.worker = .exited
  drained : s.worker = .exiting ∨ s.worker = .exited → s.count = 0 ∧ s.gate.closed = true

theorem Stops.running (h : Stops s) {w : Worker ι β} (hw : s.worker = w) (hne : w ≠ .exited)
    (hd : s.gate.done = true) : False :=
  hne (hw.symm.trans (h.exited hd))

def locksClosed (s : State ι β κ) (a : Act ι β κ) : Bool :=
  match a with
  | .produce i =>
      match s.producer i with
      | .entering _ => s.gate.closed
      | .woken _ => s.gate.closed
      | _ => false
  | _ => false

def LocksOpen (s : State ι β κ) (a : Act ι β κ) : Prop := locksClosed s a = false

instance (s : State ι β κ) (a : Act ι β κ) : Decidable (LocksOpen s a) :=
  inferInstanceAs (Decidable (locksClosed s a = false))

theorem Worker.wake_stopped {w : Worker ι β} :
    (w.wake = .exiting ↔ w = .exiting) ∧ (w.wake = .exited ↔ w = .exited) := by
  cases w <;> simp [Worker.wake]

variable [DecidableEq ι]

theorem signal_frame (s : State ι β κ) (pick : Nat) :
    (s.signal pick).gate = s.gate ∧ (s.signal pick).count = s.count := by
  rw [State.signal]
  split <;> exact ⟨rfl, rfl⟩

variable [DecidableEq κ]

theorem Stops.step (h : Stops s) (hs : Step policy s a s' evs) : Stops s' := by
  have hexited := h.exited
  have hdrained := h.drained
  cases hs with
  | replace i x hi hp hc hfull =>
    refine ⟨fun hd => ?_, fun hw => ?_⟩
    · exact Worker.wake_stopped.2.mpr (hexited hd)
    · have hclosed := (hdrained (hw.imp Worker.wake_stopped.1.mp Worker.wake_stopped.2.mp)).2
      rw [hc] at hclosed
      cases hclosed
  | accept i x hi hc hroom =>
    refine ⟨fun hd => ?_, fun hw => ?_⟩
    · exact Worker.wake_stopped.2.mpr (hexited hd)
    · have hclosed := (hdrained (hw.imp Worker.wake_stopped.1.mp Worker.wake_stopped.2.mp)).2
      rw [hc] at hclosed
      cases hclosed
  | sleep pick hw hz hc =>
    exact ⟨fun hd => (h.running hw nofun hd).elim, fun he => by simp at he⟩
  | stop pick hw hz hc =>
    exact ⟨fun hd => (h.running hw nofun hd).elim, fun _ => ⟨hz, hc⟩⟩
  | take pick x hw hz hx =>
    refine ⟨fun hd => ?_, fun he => by simp at he⟩
    rw [show _ = s.gate from (signal_frame s.pop pick).1] at hd
    exact (h.running hw nofun hd).elim
  | emit pick x hw =>
    exact ⟨fun hd => (h.running hw nofun hd).elim, fun he => by simp at he⟩
  | exit pick hw => exact ⟨fun _ => rfl, fun _ => hdrained (.inl hw)⟩
  | gate a hg hc =>
    refine ⟨fun hd => hexited (hg.done_eq ▸ hd), fun hw => ?_⟩
    obtain ⟨hz, hclosed⟩ := hdrained hw
    exact ⟨hz, hg.closed_mono hclosed⟩
  | shut a hg hc =>
    refine ⟨fun hd => Worker.wake_stopped.2.mpr (hexited (hg.done_eq ▸ hd)), fun hw => ?_⟩
    obtain ⟨hz, hclosed⟩ := hdrained (hw.imp Worker.wake_stopped.1.mp Worker.wake_stopped.2.mp)
    exact ⟨hz, hg.closed_mono hclosed⟩
  | _ => exact ⟨hexited, hdrained⟩

variable {C : State ι β κ → Act ι β κ → Prop}

theorem ring_stops (h : (machine capacity policy).Exec C log s) : Stops s := by
  refine h.invariant (P := fun _ => Stops) ⟨fun hd => ?_, fun hw => ?_⟩ ?_
  · cases hd
  · rcases hw with hw | hw <;> cases hw
  · exact fun _ hp _ hs => hp.step (step_cases hs)

theorem Stops.tick (h : Stops s) (hs : Step policy s a s' evs) :
    s.gate.Tick False s'.gate evs := by
  cases hs with
  | gate a hg hc => exact .gate hg
  | shut a hg hc => exact .gate hg
  | exit pick hw => exact .finish
  | emit pick x hw => exact .emit x (Bool.eq_false_iff.mpr (h.running hw nofun))
  | take pick x hw hz hx =>
    rw [(signal_frame s.pop pick).1]
    exact .inward (by simp)
  | replace i x hi hp hc hfull => exact .inward (by cases hf : s.front <;> simp)
  | _ => exact .inward (by simp)

theorem ring_tick (h : (machine capacity policy).Exec C log s)
    (hs : (machine capacity policy).step s a = some (s', evs)) : s.gate.Tick False s'.gate evs :=
  (ring_stops h).tick (step_cases hs)

theorem ring_gate [Subsingleton κ] (h : (machine capacity policy).Exec C log s) : s.gate.Inv log :=
  h.invariant (P := fun log s => s.gate.Inv log) Gate.inv_fresh
    fun hexec hp _ hs => hp.tick (ring_tick hexec hs)

theorem ring_joined (h : (machine capacity policy).Exec C log s) : s.gate.Joined log :=
  h.invariant (P := fun log s => s.gate.Joined log) Gate.joined_fresh
    fun hexec hp _ hs => hp.tick (ring_tick hexec hs)

theorem ring_drained [Subsingleton κ] {cap : Nat} {f : Flow ι β}
    (h : (machine capacity policy).Exec C log s) (hrel : Rel cap policy s f) {k : κ}
    (hk : .closeRet k ∈ log) : f.queue = [] ∧ f.hand = none ∧ s.gate.closed = true := by
  have hstops := ring_stops h
  have hworker := hstops.exited ((ring_gate h).returned k hk)
  obtain ⟨hz, hclosed⟩ := hstops.drained (.inr hworker)
  refine ⟨List.eq_nil_of_length_eq_zero (hrel.holds.length.trans hz), ?_, hclosed⟩
  rw [hrel.hand, hworker]
  rfl

theorem discarded_step (hs : Step policy s a s' evs) :
    discarded evs = [] ∨ ∃ i x, a = .produce i ∧
      (s.producer i = .entering x ∨ s.producer i = .woken x) ∧ s.gate.closed = true := by
  cases hs with
  | discard i x hi hc => exact .inr ⟨i, x, rfl, hi, hc⟩
  | replace i x hi hp hc hfull => cases hf : s.front <;> exact .inl rfl
  | gate a hg hc => cases hg <;> exact .inl rfl
  | shut a hg hc => cases hg <;> exact .inl rfl
  | _ => exact .inl rfl

theorem discarded_open (h : (machine capacity policy).Exec LocksOpen log s) : discarded log = [] := by
  refine h.invariant (P := fun log _ => discarded log = []) rfl ?_
  intro log s a s' evs _ hp hc hstep
  rw [discarded_append, List.append_eq_nil_iff]
  refine ⟨hp, ?_⟩
  rcases discarded_step (step_cases hstep) with hd | ⟨i, x, rfl, hi, hclosed⟩
  · exact hd
  · rcases hi with hi | hi <;> simp [LocksOpen, locksClosed, hi, hclosed] at hc

theorem discarded_orderly [Subsingleton κ] (h : (machine capacity policy).Run log s) :
    Orderly log → discarded log = [] := by
  refine h.invariant (P := fun log _ => Orderly log → discarded log = []) (fun _ => rfl) ?_
  intro log s a s' evs hexec hp _ hstep ho
  rw [discarded_append, List.append_eq_nil_iff]
  refine ⟨hp ho.of_append, ?_⟩
  rcases discarded_step (step_cases hstep) with hd | ⟨i, x, ha, hi, hclosed⟩
  · exact hd
  · obtain ⟨f, hacc, hrel⟩ := ring_accepted hexec
    obtain ⟨k, hk⟩ := (ring_gate hexec).shut hclosed
    have hidle := ho.of_append.idle hk (ledger hacc) i
    rw [hrel.client i] at hidle
    rcases hi with hi | hi <;> rw [hi] at hidle <;> cases hidle

theorem ring_settled [Subsingleton κ] (h : (machine capacity policy).Run log s)
    (ho : Orderly log) {k : κ} (hk : .closeRet k ∈ log) :
    Settled policy (calls log) (emitted log) (spilled log) := by
  obtain ⟨f, hacc, hrel⟩ := ring_accepted h
  have hled := ledger hacc
  obtain ⟨hq, hh, hclosed⟩ := ring_drained h hrel hk
  obtain ⟨j, hj⟩ := (ring_gate h).shut hclosed
  exact hled.settled hq hh (ho.idle hj hled) (discarded_orderly h ho)

end UbgoLogger.Transport.Ring
