import UbgoLogger.Transport.RingDrain

namespace UbgoLogger.Transport.Ring
open Foundation

variable {ι β κ : Type}

def Producer.parked : Producer ι β → Bool
  | .waiting _ => true
  | _ => false

def Producer.signalled : Producer ι β → Bool
  | .woken _ => true
  | _ => false

def State.free (s : State ι β κ) : Nat := s.buf.length - s.count

structure Wakeup (s : State ι β κ) (woken : List ι) : Prop where
  parked : ∀ i, i ∈ s.notFull ↔ (s.producer i).parked = true
  signalled : ∀ i, i ∈ woken ↔ (s.producer i).signalled = true
  parkedOnce : s.notFull.Nodup
  signalledOnce : woken.Nodup
  slots : s.notFull ≠ [] → s.gate.closed = false → s.buf.length ≤ s.count + woken.length
  released : s.gate.closed = true → s.notFull = []
  asleep : s.worker = .waiting → s.count = 0 ∧ s.gate.closed = false
  finished : s.worker = .exited → s.gate.done = true

theorem Producer.parked_wake (p : Producer ι β) : p.wake.parked = false := by
  cases p <;> rfl

theorem Producer.signalled_wake (p : Producer ι β) :
    p.wake.signalled = (p.parked || p.signalled) := by
  cases p <;> rfl

theorem Worker.wake_ne_waiting (w : Worker ι β) : w.wake ≠ .waiting := by
  cases w <;> simp [Worker.wake]

variable {policy : OverflowPolicy} {s s' : State ι β κ} {a : Act ι β κ}
  {evs log : List (Event ι β κ)} {woken : List ι}

theorem not_parked {i : ι} {x : Item ι β}
    (hi : s.producer i = .entering x ∨ s.producer i = .woken x) : (s.producer i).parked = false := by
  rcases hi with hi | hi <;> rw [hi] <;> rfl

theorem Wakeup.shut (h : Wakeup s woken) {g : Gate κ}
    (hd : g.done = s.gate.done) : Wakeup { s.broadcast with gate := g } (woken ++ s.notFull) := by
  refine ⟨fun j => ?_, fun j => ?_, List.nodup_nil, ?_, fun hne => absurd rfl hne, fun _ => rfl,
    fun hw => absurd hw (Worker.wake_ne_waiting _), fun hw => ?_⟩
  · change j ∈ [] ↔ (s.producer j).wake.parked = true
    rw [Producer.parked_wake]
    simp
  · change j ∈ woken ++ s.notFull ↔ (s.producer j).wake.signalled = true
    rw [List.mem_append, h.signalled j, h.parked j, Producer.signalled_wake, Bool.or_eq_true, or_comm]
  · refine List.nodup_append.mpr ⟨h.signalledOnce, h.parkedOnce, fun i hi j hj hij => ?_⟩
    subst hij
    have hsig := (h.signalled i).mp hi
    have hparked := (h.parked i).mp hj
    cases hp : s.producer i <;> simp_all [Producer.parked, Producer.signalled]
  · exact hd.trans (h.finished (Worker.wake_stopped.2.mp hw))

variable [DecidableEq ι]

theorem parked_set (h : ∀ j, j ∈ s.notFull ↔ (s.producer j).parked = true) {i : ι}
    {p : Producer ι β} (hp : p.parked = (s.producer i).parked) (j : ι) :
    j ∈ s.notFull ↔ ((s.setProducer i p).producer j).parked = true := by
  rw [h j, State.setProducer_producer]
  split
  next hj => rw [hj, hp]
  next => rfl

theorem signalled_set (h : ∀ j, j ∈ woken ↔ (s.producer j).signalled = true) {i : ι}
    {p : Producer ι β} (hp : p.signalled = (s.producer i).signalled) (j : ι) :
    j ∈ woken ↔ ((s.setProducer i p).producer j).signalled = true := by
  rw [h j, State.setProducer_producer]
  split
  next hj => rw [hj, hp]
  next => rfl

theorem signalled_erase (h : ∀ j, j ∈ woken ↔ (s.producer j).signalled = true) (hn : woken.Nodup)
    {i : ι} {p : Producer ι β} (hp : p.signalled = false) (j : ι) :
    j ∈ woken.erase i ↔ ((s.setProducer i p).producer j).signalled = true := by
  rw [hn.mem_erase_iff, h j, State.setProducer_producer]
  split
  next hj => simp [hj, hp]
  next hj => simp [hj]

theorem Wakeup.move (h : Wakeup s woken) {i : ι} {p : Producer ι β}
    (hp : p.parked = (s.producer i).parked) (hw : p.signalled = (s.producer i).signalled) :
    Wakeup (s.setProducer i p) woken :=
  { h with
    parked := parked_set h.parked hp
    signalled := signalled_set h.signalled hw }

theorem Wakeup.leave (h : Wakeup s woken) {i : ι} {x : Item ι β}
    (hi : s.producer i = .entering x ∨ s.producer i = .woken x) (hc : s.gate.closed = true) :
    Wakeup (s.setProducer i (.leaving x)) (woken.erase i) := by
  refine ⟨parked_set h.parked (not_parked hi).symm, signalled_erase h.signalled h.signalledOnce rfl,
    h.parkedOnce, h.signalledOnce.erase i, fun _ hopen => ?_, h.released, h.asleep, h.finished⟩
  exact absurd (hopen.symm.trans hc) Bool.false_ne_true

theorem Wakeup.accept (h : Wakeup s woken) {i : ι} {x : Item ι β}
    (hi : s.producer i = .entering x ∨ s.producer i = .woken x) :
    Wakeup ((s.push x).setProducer i (.leaving x)) (woken.erase i) := by
  refine ⟨parked_set (s := s.push x) h.parked (not_parked hi).symm,
    signalled_erase (s := s.push x) h.signalled h.signalledOnce rfl, h.parkedOnce,
    h.signalledOnce.erase i, fun hne hopen => ?_, h.released,
    fun hw => absurd hw (Worker.wake_ne_waiting _), fun hw => ?_⟩
  · have hlen : (s.buf.set s.tail (some x)).length = s.buf.length := List.length_set
    have hslots := h.slots hne hopen
    have hroom : woken.length ≤ (woken.erase i).length + 1 := by
      rw [List.length_erase]
      split <;> omega
    change (s.buf.set s.tail (some x)).length ≤ s.count + 1 + (woken.erase i).length
    omega
  · exact h.finished (Worker.wake_stopped.2.mp hw)

theorem Wakeup.replace (h : Wakeup s woken) {i : ι} {x : Item ι β} (hi : s.producer i = .entering x) :
    Wakeup { (s.pop.push x).setProducer i (.leaving x) with dropped := s.dropped + 1 } woken := by
  have hkeep : (s.pop.push x).producer i = .entering x := hi
  refine ⟨parked_set (s := s.pop.push x) h.parked (by rw [hkeep]; rfl),
    signalled_set (s := s.pop.push x) h.signalled (by rw [hkeep]; rfl),
    h.parkedOnce, h.signalledOnce, fun hne hopen => ?_, h.released,
    fun hw => absurd hw (Worker.wake_ne_waiting _), fun hw => ?_⟩
  · have hlen : ((s.buf.set s.head none).set s.tail (some x)).length = s.buf.length := by simp
    have hslots := h.slots hne hopen
    change ((s.buf.set s.head none).set s.tail (some x)).length ≤ s.count - 1 + 1 + woken.length
    omega
  · exact h.finished (Worker.wake_stopped.2.mp hw)

theorem Wakeup.wait (h : Wakeup s woken) {i : ι} {x : Item ι β}
    (hi : s.producer i = .entering x ∨ s.producer i = .woken x) (hc : s.gate.closed = false)
    (hfull : s.count = s.buf.length) : Wakeup (s.wait i x) (woken.erase i) := by
  have hnew : i ∉ s.notFull := fun hmem => by
    have hparked := (h.parked i).mp hmem
    rw [not_parked hi] at hparked
    cases hparked
  refine ⟨fun j => ?_, signalled_erase h.signalled h.signalledOnce rfl, ?_, h.signalledOnce.erase i,
    fun _ _ => ?_, fun hclosed => ?_, h.asleep, h.finished⟩
  · change j ∈ s.notFull ++ [i] ↔ ((s.setProducer i (.waiting x)).producer j).parked = true
    rw [List.mem_append, List.mem_singleton, h.parked j, State.setProducer_producer]
    split
    next hj => simp [hj, Producer.parked]
    next hj => simp [hj]
  · have hconcat := h.parkedOnce.concat hnew
    rwa [List.concat_eq_append] at hconcat
  · change s.buf.length ≤ s.count + (woken.erase i).length
    omega
  · exact absurd (hc.symm.trans hclosed) Bool.false_ne_true

theorem Wakeup.take (h : Wakeup s woken) (pick : Nat) (x : Item ι β) :
    ∃ woken', Wakeup { s.pop.signal pick with worker := .emitting x } woken' := by
  have hlen : (s.buf.set s.head none).length = s.buf.length := List.length_set
  have hnotFull : s.pop.notFull = s.notFull := rfl
  rw [State.signal, hnotFull]
  cases hi : s.notFull[pick % s.notFull.length]? with
  | none =>
    refine ⟨woken, { h with slots := fun hne => ?_, asleep := by simp, finished := by simp }⟩
    have hpos : 0 < s.notFull.length := List.length_pos_iff.mpr hne
    rw [List.getElem?_eq_none_iff] at hi
    exact absurd (Nat.mod_lt pick hpos) (not_lt.mpr hi)
  | some i =>
    have hmem := List.mem_of_getElem? hi
    have hparked := (h.parked i).mp hmem
    have hold : i ∉ woken := fun hw => by
      have hsig := (h.signalled i).mp hw
      cases hp : s.producer i <;> simp_all [Producer.parked, Producer.signalled]
    refine ⟨i :: woken, fun j => ?_, fun j => ?_, h.parkedOnce.eraseIdx _,
      List.nodup_cons.mpr ⟨hold, h.signalledOnce⟩, fun _ hopen => ?_, fun hclosed => ?_, by simp,
      by simp⟩
    · obtain ⟨hlt, hget⟩ := List.getElem?_eq_some_iff.mp hi
      change j ∈ s.notFull.eraseIdx (pick % s.notFull.length) ↔
        ((s.pop.setProducer i (s.producer i).wake).producer j).parked = true
      rw [← h.parkedOnce.erase_getElem _ hlt, hget, h.parkedOnce.mem_erase_iff, h.parked j,
        State.setProducer_producer]
      split
      next hj => simp [hj, Producer.parked_wake]
      next hj => simp [hj]; rfl
    · change j ∈ i :: woken ↔ ((s.pop.setProducer i (s.producer i).wake).producer j).signalled = true
      rw [List.mem_cons, h.signalled j, State.setProducer_producer]
      split
      next hj => simp [hj, Producer.signalled_wake, hparked]
      next hj => simp [hj]; rfl
    · have hslots := h.slots (List.ne_nil_of_mem hmem) hopen
      change (s.buf.set s.head none).length ≤ s.count - 1 + (woken.length + 1)
      omega
    · rw [h.released hclosed] at hmem
      cases hmem

variable [DecidableEq κ]

theorem Wakeup.step (h : Wakeup s woken) (hs : Step policy s a s' evs) : ∃ woken', Wakeup s' woken' := by
  have hmove : ∀ {i : ι} {p q : Producer ι β}, s.producer i = q → p.parked = q.parked →
      p.signalled = q.signalled → Wakeup (s.setProducer i p) woken := fun hq hp hw =>
    h.move (hp.trans (by rw [hq])) (hw.trans (by rw [hq]))
  cases hs with
  | call i b hi =>
    have hw := hmove (p := .entering ⟨i, s.calls, b⟩) hi rfl rfl
    exact ⟨woken, { hw with }⟩
  | discard i x hi hc => exact ⟨_, h.leave hi hc⟩
  | wait i x hi hc hfull => exact ⟨_, h.wait (hi.imp_left And.left) hc hfull⟩
  | refusal i x hi hp hc hfull => exact ⟨woken, hmove hi rfl rfl⟩
  | replace i x hi hp hc hfull => exact ⟨woken, h.replace hi⟩
  | accept i x hi hc hroom => exact ⟨_, h.accept hi⟩
  | refuse i x hi =>
    have hw := hmove (p := .leaving x) hi rfl rfl
    exact ⟨woken, { hw with }⟩
  | ret i x hi => exact ⟨woken, hmove hi rfl rfl⟩
  | sleep pick hw hz hc => exact ⟨woken, { h with asleep := fun _ => ⟨hz, hc⟩, finished := nofun }⟩
  | stop pick hw hz hc => exact ⟨woken, { h with asleep := nofun, finished := nofun }⟩
  | take pick x hw hz hx => exact h.take pick x
  | emit pick x hw => exact ⟨woken, { h with asleep := nofun, finished := nofun }⟩
  | exit pick hw => exact ⟨woken, { h with asleep := nofun, finished := fun _ => rfl }⟩
  | gate a hg hc =>
    refine ⟨woken, { h with
      slots := fun hne hopen => h.slots hne (hc.symm.trans hopen)
      released := fun hclosed => h.released (hc.symm.trans hclosed)
      asleep := fun hw => ⟨(h.asleep hw).1, hc.trans (h.asleep hw).2⟩
      finished := fun hw => hg.done_eq.trans (h.finished hw) }⟩
  | shut a hg hc => exact ⟨_, h.shut hg.done_eq⟩

theorem ring_wakeup {capacity : Int} {C : State ι β κ → Act ι β κ → Prop}
    (h : (machine capacity policy).Exec C log s) : ∃ woken, Wakeup s woken := by
  refine h.invariant (P := fun _ s => ∃ woken, Wakeup s woken) ⟨[], ?_⟩ ?_
  · refine ⟨fun i => ?_, fun i => ?_, List.nodup_nil, List.nodup_nil, fun hne => absurd rfl hne,
      fun _ => rfl, nofun, nofun⟩
    · exact ⟨nofun, nofun⟩
    · exact ⟨nofun, nofun⟩
  · intro log s a s' evs _ hp _ hstep
    obtain ⟨woken, hw⟩ := hp
    exact hw.step (step_cases hstep)

def continues : Act ι β κ → Bool
  | .dispatch _ _ => false
  | .close _ => false
  | _ => true

def Unfinished (s : State ι β κ) : Prop :=
  (∃ i, s.producer i ≠ .idle) ∨ ∃ k, s.gate.closer k ≠ .idle

def Moves (policy : OverflowPolicy) (s : State ι β κ) : Prop :=
  ∃ a s' evs, continues a = true ∧ step policy s a = some (s', evs)

theorem moves_producer {i : ι} (hidle : s.producer i ≠ .idle)
    (hparked : (s.producer i).parked = false) : Moves policy s := by
  suffices hsome : (step policy s (.produce i)).isSome = true by
    obtain ⟨⟨s', evs⟩, hstep⟩ := Option.isSome_iff_exists.mp hsome
    exact ⟨.produce i, s', evs, rfl, hstep⟩
  cases hi : s.producer i with
  | idle => exact absurd hi hidle
  | waiting x =>
    rw [hi] at hparked
    cases hparked
  | entering x => simp [step, hi]
  | woken x => simp [step, hi]
  | refusing x => simp [step, hi]
  | leaving x => simp [step, hi]

theorem moves_worker (hfront : s.count ≠ 0 → s.front ≠ none) (hexit : s.worker ≠ .exited)
    (hawake : s.worker ≠ .waiting) : Moves policy s := by
  suffices hsome : (run s 0).isSome = true by
    obtain ⟨⟨s', evs⟩, hstep⟩ := Option.isSome_iff_exists.mp hsome
    exact ⟨.work 0, s', evs, rfl, hstep⟩
  cases hw : s.worker with
  | waiting => exact absurd hw hawake
  | exited => exact absurd hw hexit
  | emitting x => simp [run, hw]
  | exiting => simp [run, hw]
  | locking =>
    simp only [run, hw]
    split
    · rfl
    · split
      · rfl
      · rename_i hz
        cases hx : s.front with
        | none => exact absurd hx (hfront hz)
        | some x => rfl

theorem moves_closer {k : κ} (hk : s.gate.closer k ≠ .idle)
    (hdone : s.gate.closer k = .awaiting → s.gate.done = true) : Moves policy s := by
  suffices hsome : (s.gate.advance k : Option (Gate κ × List (Event ι β κ))).isSome = true by
    obtain ⟨⟨g, evs⟩, hadv⟩ := Option.isSome_iff_exists.mp hsome
    by_cases hc : s.gate.closed = false ∧ g.closed = true
    · exact ⟨.closer k, { s.broadcast with gate := g }, evs, rfl, by simp [step, hadv, hc]⟩
    · exact ⟨.closer k, { s with gate := g }, evs, rfl, by simp [step, hadv, hc]⟩
  cases hcl : s.gate.closer k with
  | idle => exact absurd hcl hk
  | entering =>
    simp only [Gate.advance, hcl]
    split <;> rfl
  | awaiting => simp [Gate.advance, hcl, hdone hcl]
  | syncing => simp [Gate.advance, hcl]
  | closing => simp [Gate.advance, hcl]
  | leaving => simp [Gate.advance, hcl]

theorem ring_moves {capacity : Int} {C : State ι β κ → Act ι β κ → Prop}
    (h : (machine capacity policy).Exec C log s) (hu : Unfinished s) : Moves policy s := by
  obtain ⟨woken, hw⟩ := ring_wakeup h
  obtain ⟨f, -, hrel⟩ := ring_accepted h
  have hstops := ring_stops h
  have hfront : s.count ≠ 0 → s.front ≠ none := fun hz => by
    obtain ⟨y, -, -, hy⟩ := hrel.front_cons hz
    rw [hy]
    exact Option.some_ne_none y
  rcases hu with ⟨i, hi⟩ | ⟨k, hk⟩
  · cases hp : (s.producer i).parked with
    | false => exact moves_producer hi hp
    | true =>
      have hmem := (hw.parked i).mpr hp
      have hopen : s.gate.closed = false := Bool.eq_false_iff.mpr fun hc => by
        rw [hw.released hc] at hmem
        cases hmem
      have hslots := hw.slots (List.ne_nil_of_mem hmem) hopen
      cases woken with
      | nil =>
        have hz : s.count ≠ 0 := by
          have hlen := hrel.size ▸ ringLen_ge_two capacity
          rw [List.length_nil] at hslots
          omega
        refine moves_worker hfront (fun hx => ?_) fun hx => hz (hw.asleep hx).1
        exact Bool.false_ne_true (hopen.symm.trans (hstops.drained (.inr hx)).2)
      | cons j woken =>
        have hj := (hw.signalled j).mp List.mem_cons_self
        refine moves_producer (i := j) (fun hidle => ?_) ?_
        · rw [hidle] at hj
          cases hj
        · cases hp' : s.producer j <;> simp_all [Producer.parked, Producer.signalled]
  · by_cases hdone : s.gate.closer k = .awaiting → s.gate.done = true
    · exact moves_closer hk hdone
    · obtain ⟨hawait, hnot⟩ := Classical.not_imp.mp hdone
      refine moves_worker hfront (fun hx => hnot (hw.finished hx)) fun hx => ?_
      exact Bool.false_ne_true ((hw.asleep hx).2.symm.trans ((ring_joined h).shut k hawait))

theorem ring_no_lost_wakeup (capacity : Int) (policy : OverflowPolicy) (log : List (Event ι β κ))
    (s : State ι β κ) (h : (machine capacity policy).Run log s) :
    ((∃ i, (s.producer i).parked = true) → s.gate.closed = false →
      ∃ woken : List ι, woken.Nodup ∧ (∀ i, i ∈ woken ↔ (s.producer i).signalled = true) ∧
        s.free ≤ woken.length) ∧
    (s.worker = .waiting → s.count = 0 ∧ s.gate.closed = false) ∧
    (Unfinished s → ∃ a s' evs, continues a = true ∧
      (machine capacity policy).step s a = some (s', evs)) := by
  obtain ⟨woken, hw⟩ := ring_wakeup h
  refine ⟨?_, hw.asleep, ring_moves h⟩
  rintro ⟨i, hi⟩ hopen
  refine ⟨woken, hw.signalledOnce, hw.signalled, ?_⟩
  have hslots := hw.slots (List.ne_nil_of_mem ((hw.parked i).mpr hi)) hopen
  rw [State.free]
  omega

theorem ring_no_lost_wakeup_parked :
    ∃ (log : List (Event Nat Nat Unit)) (s : State Nat Nat Unit),
      (machine 2 .block).Run log s ∧ (s.producer 3).parked = true ∧ s.free = 1 ∧
        (∃ woken : List Nat, woken.Nodup ∧ (∀ i, i ∈ woken ↔ (s.producer i).signalled = true) ∧
          s.free ≤ woken.length) ∧
        ∃ a s' evs, continues a = true ∧ (machine 2 .block).step s a = some (s', evs) := by
  obtain ⟨log, s, hrun, hgood⟩ := Machine.exists_exec (M := machine 2 .block) (C := fun _ _ => True)
    [.dispatch 0 10, .produce 0, .produce 0, .dispatch 1 11, .produce 1, .produce 1, .dispatch 2 12,
      .produce 2, .dispatch 3 13, .produce 3, .work 0]
    (fun (_ : List (Event Nat Nat Unit)) (s : State Nat Nat Unit) =>
      decide ((s.producer 3).parked = true ∧ s.gate.closed = false ∧ s.free = 1)) (by decide +kernel)
  obtain ⟨hparked, hopen, hfree⟩ := of_decide_eq_true hgood
  obtain ⟨hslots, -, hmoves⟩ := ring_no_lost_wakeup 2 .block log s hrun
  have hbusy : s.producer 3 ≠ .idle := fun hidle => by
    rw [hidle] at hparked
    cases hparked
  exact ⟨log, s, hrun, hparked, hfree, hslots ⟨3, hparked⟩ hopen, hmoves (.inl ⟨3, hbusy⟩)⟩

end UbgoLogger.Transport.Ring
