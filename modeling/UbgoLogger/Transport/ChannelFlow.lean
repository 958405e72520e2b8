import UbgoLogger.Transport.Channel

namespace UbgoLogger.Transport.Channel
open Foundation

variable {ι β κ : Type}

def Worker.hand : Worker ι β → Option (Item ι β)
  | .emitting x => some x
  | _ => none

def Producer.client : Producer ι β → Client ι β
  | .idle => .idle
  | .sending x => .pending x false
  | .evicting x => .pending x false
  | .counting x => .pending x true
  | .refusing x => .pending x false
  | .leaving x => .settled x
  | .panicked x => .settled x

def Producer.allowed (policy : OverflowPolicy) : Producer ι β → Prop
  | .evicting _ => policy = .dropOldest
  | .counting _ => policy = .dropOldest
  | .refusing _ => policy = .dropNewest
  | _ => True

structure Rel (policy : OverflowPolicy) (s : State ι β κ) (f : Flow ι β) : Prop where
  queue : f.queue = s.ch
  calls : f.calls = s.calls
  dropped : s.dropped = .ofNat f.dropped
  hand : f.hand = s.worker.hand
  client : ∀ i, f.client i = (s.producer i).client
  allowed : ∀ i, (s.producer i).allowed policy

structure Stops (s : State ι β κ) : Prop where
  exited : s.gate.done = true → s.worker = .exited
  drained : s.worker = .exiting ∨ s.worker = .exited → s.ch = [] ∧ s.gate.closed = true

theorem Stops.running {s : State ι β κ} (h : Stops s) {w : Worker ι β} (hw : s.worker = w)
    (hne : w ≠ .exited) (hd : s.gate.done = true) : False :=
  hne (hw.symm.trans (h.exited hd))

section Simulation

variable [DecidableEq ι] {cap : Nat} {policy : OverflowPolicy}
  {s s' : State ι β κ} {a : Act ι β κ} {f : Flow ι β} {evs log : List (Event ι β κ)}

theorem allowed_set (h : ∀ i, (s.producer i).allowed policy) {i : ι} {p : Producer ι β}
    (hp : p.allowed policy) (j : ι) : ((s.setProducer i p).producer j).allowed policy := by
  simp only [State.setProducer_producer]
  split
  · exact hp
  · exact h j

theorem Rel.stay (h : Rel policy s f) {i : ι} {p : Producer ι β}
    (hc : p.client = (s.producer i).client) (hp : p.allowed policy) :
    Rel policy (s.setProducer i p) f := by
  refine ⟨h.queue, h.calls, h.dropped, h.hand, fun j => ?_, allowed_set h.allowed hp⟩
  simp only [State.setProducer_producer]
  split
  next hj =>
    subst hj
    exact (h.client j).trans hc.symm
  next => exact h.client j

theorem send_frame {i : ι} {x : Item ι β} (h : send cap policy s i x = some (s', evs)) :
    s'.gate = s.gate ∧ s'.finished = s.finished := by
  unfold send at h
  split at h
  next =>
    cases h
    exact ⟨rfl, rfl⟩
  next =>
    split at h
    next =>
      cases h
      exact ⟨rfl, rfl⟩
    next => cases policy <;> cases h <;> exact ⟨rfl, rfl⟩

theorem evict_frame (i : ι) (x : Item ι β) :
    (evict s i x).1.gate = s.gate ∧ (evict s i x).1.finished = s.finished := by
  unfold evict
  split
  next => exact ⟨rfl, rfl⟩
  next => split <;> exact ⟨rfl, rfl⟩

variable [DecidableEq κ]

theorem Rel.step (h : Rel policy s f) (hl : Ledger cap policy log f)
    (hopen : s.gate.closed = true → ∀ i, f.client i = .idle) (hs : Step cap policy s a s' evs) :
    ∃ f', (flow κ cap policy).Path f evs f' ∧ Rel policy s' f' := by
  have hbelongs : ∀ {i x}, (s.producer i).client.current = some x → x.producer = i := by
    intro i x hx
    refine hl.belongs i x ?_
    rw [h.client i, hx]
  have hbusy : ∀ {i}, s.gate.closed = true → (s.producer i).client = .idle := fun {i} hc =>
    (h.client i).symm.trans (hopen hc i)
  cases hs with
  | call i b hi =>
    refine ⟨_, .single (.call ⟨i, s.calls, b⟩ ?_ h.calls.symm), h.queue, congrArg (· + 1) h.calls,
      h.dropped, h.hand, Flow.client_set h.client i (.sending _), allowed_set h.allowed trivial⟩
    rw [h.client i, hi]
    rfl
  | panic i x hi hc =>
    have := hbusy (i := i) hc
    rw [hi] at this
    cases this
  | receiveZero i x hi hc =>
    have := hbusy (i := i) hc
    rw [hi] at this
    cases this
  | accept i x hi hc hroom =>
    obtain rfl : x.producer = i := hbelongs (by rw [hi]; rfl)
    refine ⟨_, .single (.accept x ?_ (by rw [h.queue]; exact hroom)), ?_, h.calls, h.dropped, h.hand,
      Flow.client_set h.client _ (.leaving x), allowed_set h.allowed trivial⟩
    · rw [h.client, hi]
      rfl
    · exact congrArg (· ++ [x]) h.queue
  | refusal i x hi hp => exact ⟨f, .nil f, h.stay (by rw [hi]; rfl) hp⟩
  | overflow i x hi hp => exact ⟨f, .nil f, h.stay (by rw [hi]; rfl) hp⟩
  | evict i x y rest hi hch =>
    have hp := h.allowed i
    rw [hi] at hp
    refine ⟨_, .single (.evict i x y rest hp ?_ (h.queue.trans hch)), rfl, h.calls, h.dropped, h.hand,
      Flow.client_set h.client i (.counting x), allowed_set h.allowed hp⟩
    rw [h.client i, hi]
    rfl
  | retry i x hi => exact ⟨f, .nil f, h.stay (by rw [hi]; rfl) trivial⟩
  | count i x hi =>
    refine ⟨_, .single (.count i x ?_), h.queue, h.calls, Counter.succ h.dropped, h.hand,
      Flow.client_set h.client i (.sending x), allowed_set h.allowed trivial⟩
    rw [h.client i, hi]
    rfl
  | refuse i x hi =>
    have hp := h.allowed i
    rw [hi] at hp
    obtain rfl : x.producer = i := hbelongs (by rw [hi]; rfl)
    refine ⟨_, .single (.refuse x hp ?_), h.queue, h.calls, Counter.succ h.dropped, h.hand,
      Flow.client_set h.client _ (.leaving x), allowed_set h.allowed trivial⟩
    rw [h.client, hi]
    rfl
  | ret i x hi =>
    obtain rfl : x.producer = i := hbelongs (by rw [hi]; rfl)
    refine ⟨_, .single (.ret x ?_), h.queue, h.calls, h.dropped, h.hand,
      Flow.client_set h.client _ .idle, allowed_set h.allowed trivial⟩
    rw [h.client, hi]
    rfl
  | take pick x rest hw hch =>
    refine ⟨_, .single (.take x rest ?_ (h.queue.trans hch)), rfl, h.calls, h.dropped, rfl, h.client,
      h.allowed⟩
    rw [h.hand, hw]
    rfl
  | stop pick hw hch hc =>
    refine ⟨f, .nil f, h.queue, h.calls, h.dropped, ?_, h.client, h.allowed⟩
    rw [h.hand, hw]
    rfl
  | emit pick x hw =>
    refine ⟨_, .single (.emit x ?_), h.queue, h.calls, h.dropped, rfl, h.client, h.allowed⟩
    rw [h.hand, hw]
    rfl
  | exit pick hw =>
    refine ⟨f, .single .exit, h.queue, h.calls, h.dropped, ?_, h.client, h.allowed⟩
    rw [h.hand, hw]
    rfl
  | gate a b hg => exact ⟨f, gate_path hg, h.queue, h.calls, h.dropped, h.hand, h.client, h.allowed⟩
  | again k hk hc hf => exact ⟨f, .nil f, h.queue, h.calls, h.dropped, h.hand, h.client, h.allowed⟩

theorem Stops.step (h : Stops s) (hs : Step cap policy s a s' evs) : Stops s' := by
  have hexited := h.exited
  have hdrained := h.drained
  cases hs with
  | accept i x hi hc hroom =>
    refine ⟨hexited, fun hw => ?_⟩
    have hclosed := (hdrained hw).2
    rw [hc] at hclosed
    cases hclosed
  | evict i x y rest hi hch =>
    refine ⟨hexited, fun hw => ?_⟩
    have hnil := (hdrained hw).1
    rw [hch] at hnil
    cases hnil
  | take pick x rest hw hch =>
    exact ⟨fun hd => (h.running hw nofun hd).elim, fun he => by simp at he⟩
  | stop pick hw hch hc =>
    exact ⟨fun hd => (h.running hw nofun hd).elim, fun _ => ⟨hch, hc⟩⟩
  | emit pick x hw =>
    exact ⟨fun hd => (h.running hw nofun hd).elim, fun he => by simp at he⟩
  | exit pick hw => exact ⟨fun _ => rfl, fun _ => hdrained (.inl hw)⟩
  | gate a b hg =>
    refine ⟨fun hd => hexited (hg.done_eq ▸ hd), fun hw => ?_⟩
    obtain ⟨hnil, hclosed⟩ := hdrained hw
    exact ⟨hnil, hg.closed_mono hclosed⟩
  | _ => exact ⟨hexited, hdrained⟩

variable {capacity : Int} {C : State ι β κ → Act ι β κ → Prop}

theorem channel_stops (h : (machine capacity policy).Exec C log s) : Stops s := by
  refine h.invariant (P := fun _ => Stops) ⟨fun hd => ?_, fun hw => ?_⟩ ?_
  · cases hd
  · rcases hw with hw | hw <;> cases hw
  · exact fun _ hp _ hs => hp.step (step_cases hs)

theorem produce_frame {i : ι} (h : step cap policy s (.produce i) = some (s', evs)) :
    s'.gate = s.gate ∧ s'.finished = s.finished := by
  simp only [step] at h
  split at h
  next => cases h
  next => cases h
  next x hi => exact send_frame h
  next x hi =>
    rw [← (Prod.mk.inj (Option.some.inj h)).1]
    exact evict_frame i x
  all_goals
    cases h
    exact ⟨rfl, rfl⟩

theorem finished_of_step (h : step cap policy s a = some (s', evs)) (hf : s'.finished = true) :
    s.finished = true ∨ s.gate.done = true := by
  cases a with
  | closer k => grind [step, closer]
  | produce i => exact .inl ((produce_frame h).2 ▸ hf)
  | _ => grind [step, run, State.setProducer]

theorem channel_finished (h : (machine capacity policy).Exec C log s) :
    s.finished = true → s.gate.done = true := by
  refine h.invariant (P := fun _ s => s.finished = true → s.gate.done = true)
    (fun hf => absurd hf Bool.false_ne_true) ?_
  intro log s a s' evs _ hp _ hs hf
  have hdone : s.gate.done = true := (finished_of_step hs hf).elim hp id
  cases step_cases hs with
  | gate a b hg => exact hg.done_eq ▸ hdone
  | exit pick hw => rfl
  | _ => exact hdone

theorem channel_tick {again : Prop} (h : (machine capacity policy).Exec C log s)
    (ha : ∀ k, a = .closer k → s.gate.closer k = .entering → s.gate.closed = true → again)
    (hs : (machine capacity policy).step s a = some (s', evs)) : s.gate.Tick again s'.gate evs := by
  cases step_cases hs with
  | gate a b hg => exact .gate hg
  | again k hk hc hf => exact .repeated k (ha k rfl hk hc) hk hc (channel_finished h hf)
  | exit pick hw => exact .finish
  | emit pick x hw => exact .emit x (Bool.eq_false_iff.mpr ((channel_stops h).running hw nofun))
  | _ => exact .inward (by simp)

theorem channel_gate [Subsingleton κ] (h : (machine capacity policy).Exec C log s) :
    s.gate.Inv log :=
  h.invariant (P := fun log s => s.gate.Inv log) Gate.inv_fresh
    fun hexec hp _ hs => hp.tick (channel_tick hexec (fun _ _ _ _ => trivial) hs)

theorem channel_discarded (h : (machine capacity policy).Exec C log s) : discarded log = [] := by
  refine h.invariant (P := fun log _ => discarded log = []) rfl ?_
  intro log s a s' evs _ hp _ hstep
  rw [discarded_append, List.append_eq_nil_iff]
  refine ⟨hp, ?_⟩
  cases step_cases hstep with
  | gate a b hg => cases hg <;> rfl
  | _ => rfl

theorem channel_accepted [Subsingleton κ] (h : (machine capacity policy).Run log s) :
    Orderly log → ∃ f, (flow κ (chanLen capacity) policy).Accepts log f ∧ Rel policy s f := by
  refine h.invariant (P := fun log s => Orderly log →
    ∃ f, (flow κ (chanLen capacity) policy).Accepts log f ∧ Rel policy s f) ?_ ?_
  · exact fun _ => ⟨_, .nil _, rfl, rfl, rfl, rfl, fun _ => rfl, fun _ => trivial⟩
  · intro log s a s' evs hexec hp _ hstep ho
    obtain ⟨f, hacc, hrel⟩ := hp ho.of_append
    have hled := ledger hacc
    have hopen : s.gate.closed = true → ∀ i, f.client i = .idle := by
      intro hc
      obtain ⟨k, hk⟩ := (channel_gate hexec).shut hc
      exact ho.of_append.idle hk hled
    obtain ⟨f', hpath, hrel'⟩ := hrel.step hled hopen (step_cases hstep)
    exact ⟨f', hacc.append hpath, hrel'⟩

theorem channel_counted [Subsingleton κ] (h : (machine capacity policy).Run log s)
    (ho : Orderly log) : s.dropped = .ofNat (spilled log) := by
  obtain ⟨f, hacc, hrel⟩ := channel_accepted h ho
  rw [hrel.dropped, (ledger hacc).lost]

theorem channel_settled [Subsingleton κ] (h : (machine capacity policy).Run log s)
    (ho : Orderly log) {k : κ} (hk : .closeRet k ∈ log) :
    Settled policy (calls log) (emitted log) (spilled log) := by
  obtain ⟨f, hacc, hrel⟩ := channel_accepted h ho
  have hled := ledger hacc
  have hworker := (channel_stops h).exited ((channel_gate h).returned k hk)
  obtain ⟨hch, hclosed⟩ := (channel_stops h).drained (.inr hworker)
  obtain ⟨j, hj⟩ := (channel_gate h).shut hclosed
  refine hled.settled (hrel.queue.trans hch) ?_ (ho.idle hj hled) (channel_discarded h)
  rw [hrel.hand, hworker]
  rfl

end Simulation

end UbgoLogger.Transport.Channel
