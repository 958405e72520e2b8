import UbgoLogger.Transport.Ring

namespace UbgoLogger.Transport.Ring
open Foundation

variable {ι β κ : Type}

def Worker.hand : Worker ι β → Option (Item ι β)
  | .emitting x => some x
  | _ => none

def Producer.client : Producer ι β → Client ι β
  | .idle => .idle
  | .entering x => .pending x false
  | .waiting x => .pending x false
  | .woken x => .pending x false
  | .refusing x => .pending x false
  | .leaving x => .settled x

theorem Worker.hand_wake (w : Worker ι β) : w.wake.hand = w.hand := by
  cases w <;> rfl

theorem Producer.client_wake (p : Producer ι β) : p.wake.client = p.client := by
  cases p <;> rfl

theorem Producer.refusing_of_wake {p : Producer ι β} {x : Item ι β} (h : p.wake = .refusing x) :
    p = .refusing x := by
  cases p <;> simp_all [Producer.wake]

structure Rel (cap : Nat) (policy : OverflowPolicy) (s : State ι β κ) (f : Flow ι β) : Prop where
  size : s.buf.length = cap
  holds : Circular.Holds s.buf s.head s.tail s.count f.queue
  calls : f.calls = s.calls
  dropped : s.dropped = .ofNat f.dropped
  hand : f.hand = s.worker.hand
  client : ∀ i, f.client i = (s.producer i).client
  refusing : ∀ i x, s.producer i = .refusing x → policy = .dropNewest

variable {cap : Nat} {policy : OverflowPolicy} {s s' : State ι β κ} {f : Flow ι β}
  {a : Act ι β κ} {evs log : List (Event ι β κ)}

theorem Rel.front_cons (h : Rel cap policy s f) (hz : s.count ≠ 0) :
    ∃ y rest, f.queue = y :: rest ∧ s.front = some y := by
  have hlen := h.holds.length
  cases hq : f.queue with
  | nil =>
    rw [hq, List.length_nil] at hlen
    exact absurd hlen.symm hz
  | cons y rest =>
    refine ⟨y, rest, rfl, ?_⟩
    rw [State.front, h.holds.front, hq]
    rfl

def State.view (s : State ι β κ) : List (Item ι β) := Circular.contents s.buf s.head s.count

structure WellFormed (s : State ι β κ) : Prop where
  bound : s.count ≤ s.buf.length
  tail : s.tail = (s.head + s.count) % s.buf.length
  filled : ∀ k, k < s.count → ∃ x, s.buf[(s.head + k) % s.buf.length]? = some (some x)
  empty : ∀ k, s.count ≤ k → k < s.buf.length → s.buf[(s.head + k) % s.buf.length]? = some none

theorem Rel.view_eq (h : Rel cap policy s f) : s.view = f.queue := h.holds.stores.contents_eq

theorem Rel.wellFormed (h : Rel cap policy s f) : WellFormed s := by
  have hlen := h.holds.length
  have hfits := h.holds.fits
  refine ⟨hfits, h.holds.tail_eq, fun k hk => ?_, fun k hk hlt => ?_⟩
  · refine ⟨f.queue[k], ?_⟩
    rw [h.holds.slots k (by omega), List.getElem?_eq_getElem]
  · rw [h.holds.slots k hlt, List.getElem?_eq_none (by omega)]

theorem Rel.owes_nothing (h : Rel cap policy s f) (i : ι) : (f.client i).owed = 0 := by
  rw [h.client i]
  cases s.producer i <;> rfl

theorem Rel.pop (h : Rel cap policy s f) {y : Item ι β} {rest : List (Item ι β)}
    (hq : f.queue = y :: rest) : Rel cap policy s.pop { f with queue := rest } :=
  ⟨(List.length_set ..).trans h.size, (hq ▸ h.holds).pop, h.calls, h.dropped, h.hand, h.client,
    h.refusing⟩

theorem Rel.push (h : Rel cap policy s f) (x : Item ι β) (hroom : s.count < s.buf.length) :
    Rel cap policy (s.push x) { f with queue := f.queue ++ [x] } :=
  ⟨(List.length_set ..).trans h.size, h.holds.push x hroom, h.calls, h.dropped,
    h.hand.trans (Worker.hand_wake _).symm, h.client, h.refusing⟩

inductive FifoStep (cap : Nat) (policy : OverflowPolicy) :
    List (Item ι β) → List (Event ι β κ) → List (Item ι β) → Prop
  | take (x : Item ι β) (q : List (Item ι β)) : FifoStep cap policy (x :: q) [.take x] q
  | accept (x : Item ι β) (q : List (Item ι β)) (room : q.length < cap) :
      FifoStep cap policy q [.accept x] (q ++ [x])
  | replace (i : ι) (x y : Item ι β) (q : List (Item ι β)) (hp : policy = .dropOldest)
      (full : (y :: q).length = cap) :
      FifoStep cap policy (y :: q) [.evict i y, .count i, .accept x] (q ++ [x])
  | other (q : List (Item ι β)) (evs : List (Event ι β κ)) (ha : accepted evs = [])
      (hr : removed evs = []) : FifoStep cap policy q evs q

theorem FifoStep.of_replace {q q' : List (Item ι β)} {i : ι} {x y : Item ι β}
    (h : FifoStep cap policy q ([.evict i y, .count i, .accept x] : List (Event ι β κ)) q') :
    ∃ rest, q = y :: rest ∧ q' = rest ++ [x] := by
  cases h with
  | replace _ _ _ rest => exact ⟨rest, rfl, rfl⟩
  | other _ _ ha => cases ha

section Simulation

variable [DecidableEq ι]

theorem signal_client (s : State ι β κ) (pick : Nat) (i : ι) :
    ((s.signal pick).producer i).client = (s.producer i).client := by
  rw [State.signal]
  split
  · rfl
  · simp only [State.setProducer_producer]
    split
    next hi =>
      subst hi
      exact Producer.client_wake _
    next => rfl

theorem signal_refusing {s : State ι β κ} {pick : Nat} {i : ι} {x : Item ι β}
    (h : (s.signal pick).producer i = .refusing x) : s.producer i = .refusing x := by
  rw [State.signal] at h
  split at h
  · exact h
  · simp only [State.setProducer_producer] at h
    split at h
    next hi =>
      subst hi
      exact Producer.refusing_of_wake h
    next => exact h

theorem refusing_set (h : ∀ i x, s.producer i = .refusing x → policy = .dropNewest) {i : ι}
    {p : Producer ι β} (hp : ∀ x, p = .refusing x → policy = .dropNewest) (j : ι) (x : Item ι β)
    (hj : (s.setProducer i p).producer j = .refusing x) : policy = .dropNewest := by
  simp only [State.setProducer_producer] at hj
  split at hj
  · exact hp x hj
  · exact h j x hj

theorem Rel.signal (h : Rel cap policy s f) (pick : Nat) : Rel cap policy (s.signal pick) f := by
  have hclient := fun i => (h.client i).trans (signal_client s pick i).symm
  have hrefusing : ∀ i x, (s.signal pick).producer i = .refusing x → policy = .dropNewest :=
    fun i x hx => h.refusing i x (signal_refusing hx)
  revert hclient hrefusing
  rw [State.signal]
  split
  · exact fun _ _ => h
  · exact fun hclient hrefusing =>
      ⟨h.size, h.holds, h.calls, h.dropped, h.hand, hclient, hrefusing⟩

theorem Rel.replace (h : Rel cap policy s f) (hn : 0 < cap) {x : Item ι β}
    (hp : policy = .dropOldest) (hx : (s.producer x.producer).client = .pending x false)
    (hfull : s.count = s.buf.length) :
    ∃ f', (flow κ cap policy).Path f
        (s.front.toList.map (.evict x.producer) ++ [.count x.producer, .accept x]) f' ∧
      Rel cap policy
        { (s.pop.push x).setProducer x.producer (.leaving x) with dropped := s.dropped + 1 } f' := by
  have hsize := h.size
  have hlen := h.holds.length
  obtain ⟨y, rest, hq, hfront⟩ := h.front_cons (by omega)
  have hroom : s.pop.count < s.pop.buf.length := by
    simp only [State.pop, List.length_set]
    omega
  have hpushed := (h.pop hq).push x hroom
  rw [hfront]
  refine ⟨_, .cons (.evict x.producer x y rest hp ((h.client _).trans hx) hq)
    (.cons (.count x.producer x ?_) (.single (.accept x ?_ ?_))), ?_⟩
  · simp [Flow.setClient]
  · simp [Flow.setClient]
  · have hrest := congrArg List.length hq
    rw [List.length_cons] at hrest
    simp only [Flow.setClient]
    omega
  · refine ⟨hpushed.size, hpushed.holds, h.calls, Counter.succ h.dropped, hpushed.hand,
      fun j => ?_, refusing_set h.refusing (by simp)⟩
    simp only [Flow.setClient, Function.update_idem]
    exact Flow.client_set h.client x.producer (.leaving x) j

variable [DecidableEq κ]

theorem Rel.step (h : Rel cap policy s f) (hl : Ledger cap policy log f) (hn : 0 < cap)
    (hs : Step policy s a s' evs) :
    ∃ f', (flow κ cap policy).Path f evs f' ∧ Rel cap policy s' f' := by
  have hsize := h.size
  have hlen := h.holds.length
  have hbelongs : ∀ {i x}, (s.producer i).client = .pending x false → x.producer = i := by
    intro i x hx
    refine hl.belongs i x ?_
    rw [h.client i, hx]
    rfl
  have hset : ∀ {i : ι} {p : Producer ι β}, (∀ x, p ≠ .refusing x) → ∀ j x,
      (s.setProducer i p).producer j = .refusing x → policy = .dropNewest := fun hp =>
    refusing_set h.refusing fun x hx => absurd hx (hp x)
  cases hs with
  | call i b hi =>
    refine ⟨_, .single (.call ⟨i, s.calls, b⟩ ?_ h.calls.symm), ?_⟩
    · rw [h.client i, hi]
      rfl
    · exact ⟨hsize, h.holds, congrArg (· + 1) h.calls, h.dropped, h.hand,
        Flow.client_set h.client i (.entering _), hset nofun⟩
  | discard i x hi hc =>
    have hx : (s.producer i).client = .pending x false := by rcases hi with hi | hi <;> rw [hi] <;> rfl
    obtain rfl := hbelongs hx
    refine ⟨_, .single (.discard x ((h.client _).trans hx)), ?_⟩
    exact ⟨hsize, h.holds, h.calls, h.dropped, h.hand, Flow.client_set h.client _ (.leaving x),
      hset nofun⟩
  | wait i x hi hc hfull =>
    have hx : (s.producer i).client = .pending x false := by
      rcases hi with ⟨hi, -⟩ | hi <;> rw [hi] <;> rfl
    exact ⟨f, .nil f, hsize, h.holds, h.calls, h.dropped, h.hand,
      Flow.client_keep h.client (p := .waiting x) hx.symm, hset nofun⟩
  | refusal i x hi hp hc hfull =>
    exact ⟨f, .nil f, hsize, h.holds, h.calls, h.dropped, h.hand,
      Flow.client_keep h.client (by rw [hi]; rfl), refusing_set h.refusing fun _ _ => hp⟩
  | replace i x hi hp hc hfull =>
    have hx : (s.producer i).client = .pending x false := by rw [hi]; rfl
    obtain rfl := hbelongs hx
    exact h.replace hn hp hx hfull
  | accept i x hi hc hroom =>
    have hx : (s.producer i).client = .pending x false := by rcases hi with hi | hi <;> rw [hi] <;> rfl
    obtain rfl := hbelongs hx
    have hfits := h.holds.fits
    have hpushed := h.push x (by omega)
    refine ⟨_, .single (.accept x ((h.client _).trans hx) (by omega)), ?_⟩
    exact ⟨hpushed.size, hpushed.holds, h.calls, h.dropped, hpushed.hand,
      Flow.client_set h.client _ (.leaving x), hset nofun⟩
  | refuse i x hi =>
    have hx : (s.producer i).client = .pending x false := by rw [hi]; rfl
    have hp := h.refusing i x hi
    obtain rfl := hbelongs hx
    refine ⟨_, .single (.refuse x hp ((h.client _).trans hx)), ?_⟩
    exact ⟨hsize, h.holds, h.calls, Counter.succ h.dropped, h.hand,
      Flow.client_set h.client _ (.leaving x), hset nofun⟩
  | ret i x hi =>
    have hx : (s.producer i).client = .settled x := by rw [hi]; rfl
    obtain rfl : x.producer = i := hl.belongs i x (by rw [h.client i, hx]; rfl)
    refine ⟨_, .single (.ret x ((h.client _).trans hx)), ?_⟩
    exact ⟨hsize, h.holds, h.calls, h.dropped, h.hand, Flow.client_set h.client _ .idle, hset nofun⟩
  | sleep pick hw hz hc =>
    refine ⟨f, .nil f, hsize, h.holds, h.calls, h.dropped, ?_, h.client, h.refusing⟩
    rw [h.hand, hw]
    rfl
  | stop pick hw hz hc =>
    refine ⟨f, .nil f, hsize, h.holds, h.calls, h.dropped, ?_, h.client, h.refusing⟩
    rw [h.hand, hw]
    rfl
  | take pick x hw hz hx =>
    obtain ⟨y, rest, hq, hfront⟩ := h.front_cons hz
    obtain rfl : y = x := Option.some.inj (hfront.symm.trans hx)
    have hsig := (h.pop hq).signal pick
    refine ⟨_, .single (.take y rest ?_ hq), hsig.size, hsig.holds, hsig.calls, hsig.dropped, rfl,
      hsig.client, hsig.refusing⟩
    rw [h.hand, hw]
    rfl
  | emit pick x hw =>
    refine ⟨_, .single (.emit x ?_), hsize, h.holds, h.calls, h.dropped, rfl, h.client, h.refusing⟩
    rw [h.hand, hw]
    rfl
  | exit pick hw =>
    refine ⟨f, .single .exit, hsize, h.holds, h.calls, h.dropped, ?_, h.client, h.refusing⟩
    rw [h.hand, hw]
    rfl
  | gate a hg hc =>
    exact ⟨f, gate_path hg, hsize, h.holds, h.calls, h.dropped, h.hand, h.client, h.refusing⟩
  | shut a hg hc =>
    refine ⟨f, gate_path hg, hsize, h.holds, h.calls, h.dropped, ?_, fun i => ?_, fun i x hx => ?_⟩
    · exact h.hand.trans (Worker.hand_wake _).symm
    · exact (h.client i).trans (Producer.client_wake _).symm
    · exact h.refusing i x (Producer.refusing_of_wake hx)

theorem init_rel (capacity : Int) :
    Rel (ringLen capacity) policy (machine capacity policy : Machine (State ι β κ) _ _).init
      (flow κ (ringLen capacity) policy).init where
  size := List.length_replicate
  holds := Circular.holds_empty (by have := ringLen_ge_two capacity; omega)
  calls := rfl
  dropped := rfl
  hand := rfl
  client := fun _ => rfl
  refusing := nofun

theorem ring_accepted {capacity : Int} {C : State ι β κ → Act ι β κ → Prop}
    (h : (machine capacity policy).Exec C log s) :
    ∃ f, (flow κ (ringLen capacity) policy).Accepts log f ∧ Rel (ringLen capacity) policy s f := by
  refine h.accepted (R := fun _ => Rel (ringLen capacity) policy) (init_rel capacity) ?_
  intro log s a s' evs f _ hacc hrel _ hstep
  exact hrel.step (ledger hacc) (by have := ringLen_ge_two capacity; omega) (step_cases hstep)

theorem ring_counted {capacity : Int} {C : State ι β κ → Act ι β κ → Prop}
    (h : (machine capacity policy).Exec C log s) : s.dropped = .ofNat (spilled log) := by
  obtain ⟨f, hacc, hrel⟩ := ring_accepted h
  rw [hrel.dropped, (ledger hacc).lost]

theorem Rel.fifo {f' : Flow ι β} (h : Rel cap policy s f) (h' : Rel cap policy s' f')
    (hn : 0 < cap) (hqueue : f.queue ++ accepted evs = removed evs ++ f'.queue)
    (hs : Step policy s a s' evs) : FifoStep cap policy f.queue evs f'.queue := by
  have hother : accepted evs = [] → removed evs = [] → FifoStep cap policy f.queue evs f'.queue := by
    intro ha hr
    rw [ha, hr, List.append_nil, List.nil_append] at hqueue
    rw [← hqueue]
    exact .other f.queue evs ha hr
  have hlen := h.holds.length
  have hsize := h.size
  cases hs with
  | replace i x hi hp hc hfull =>
    obtain ⟨y, rest, hq, hfront⟩ := h.front_cons (by omega)
    rw [hq, hfront] at hqueue
    obtain ⟨-, htail⟩ := List.cons.inj hqueue
    rw [hfront, hq, ← show rest ++ [x] = f'.queue from htail]
    refine .replace i x y rest hp ?_
    rw [← hq]
    omega
  | accept i x hi hc hroom =>
    rw [← show f.queue ++ [x] = f'.queue from hqueue]
    have hfits := h.holds.fits
    exact .accept x f.queue (by omega)
  | take pick x hw hz hx =>
    rw [show f.queue = x :: f'.queue from (List.append_nil _).symm.trans hqueue]
    exact .take x f'.queue
  | gate a hg hc => exact hother hg.queue_quiet.1 hg.queue_quiet.2
  | shut a hg hc => exact hother hg.queue_quiet.1 hg.queue_quiet.2
  | _ => exact hother rfl rfl

theorem ring_refines_fifo (capacity : Int) (policy : OverflowPolicy) {log : List (Event ι β κ)}
    {s : State ι β κ} (h : (machine capacity policy).Run log s) :
    s.buf.length = ringLen capacity ∧ WellFormed s ∧
    s.dropped = .ofNat ((evictors log).length + (refused log).length) ∧
    (∀ a s' evs, step policy s a = some (s', evs) →
      FifoStep (ringLen capacity) policy s.view evs s'.view) ∧
    (∀ i x s' evs, s.producer i = .entering x → s.gate.closed = false → s.count = s.buf.length →
      step policy s (.produce i) = some (s', evs) →
      (policy = .dropNewest → s'.view = s.view ∧ s'.producer i = .refusing x) ∧
      (policy = .dropOldest → ∃ y q, s.view = y :: q ∧ s'.view = q ++ [x] ∧
        evs = [.evict i y, .count i, .accept x])) := by
  obtain ⟨f, hacc, hrel⟩ := ring_accepted h
  have hled := ledger hacc
  have hn : 0 < ringLen capacity := by have := ringLen_ge_two capacity; omega
  have hfifo : ∀ a s' evs, step policy s a = some (s', evs) →
      FifoStep (ringLen capacity) policy s.view evs s'.view := by
    intro a s' evs hstep
    obtain ⟨f', hpath, hrel'⟩ := hrel.step hled hn (step_cases hstep)
    rw [hrel.view_eq, hrel'.view_eq]
    exact hrel.fifo hrel' hn (hled.queue_step (ledger (hacc.append hpath))) (step_cases hstep)
  refine ⟨hrel.size, hrel.wellFormed, ?_, hfifo, ?_⟩
  · have hperm : (evictors log).Perm (counters log) := List.perm_iff_count.mpr fun i => by
      rw [hled.owing i, hrel.owes_nothing i, Nat.add_zero]
    rw [hrel.dropped, hled.lost, spilled, hperm.length_eq]
  · intro i x s' evs hi hc hfull hstep
    have hstep' := hstep
    simp only [step, hi, enter, hc, hfull, if_true, Option.some.injEq] at hstep'
    refine ⟨fun hp => ?_, fun hp => ?_⟩
    · subst hp
      obtain ⟨rfl, rfl⟩ := Prod.mk.inj hstep'
      exact ⟨rfl, by simp⟩
    · subst hp
      obtain ⟨y, rest, hq, hfront⟩ := hrel.front_cons (by rw [hfull, hrel.size]; omega)
      have hf := hfifo _ _ _ hstep
      obtain ⟨rfl, rfl⟩ := Prod.mk.inj hstep'
      rw [hfront] at hf ⊢
      obtain ⟨q, hview, hview'⟩ := hf.of_replace
      exact ⟨y, q, hview, hview', rfl⟩

theorem ring_refines_fifo_evicting :
    ∃ (log : List (Event Unit Nat Unit)) (s : State Unit Nat Unit),
      (machine 2 .dropOldest).Run log s ∧ s.dropped = 1 ∧ WellFormed s ∧
        s.dropped = .ofNat ((evictors log).length + (refused log).length) := by
  obtain ⟨log, s, hrun, hone⟩ := Machine.exists_exec (M := machine 2 .dropOldest)
    (C := fun _ _ => True)
    [.dispatch () 10, .produce (), .produce (), .dispatch () 11, .produce (), .produce (),
      .dispatch () 12, .produce ()]
    (fun _ (s : State Unit Nat Unit) => s.dropped = 1) (by decide +kernel)
  obtain ⟨-, hwf, hdropped, -⟩ := ring_refines_fifo 2 .dropOldest hrun
  exact ⟨log, s, hrun, of_decide_eq_true hone, hwf, hdropped⟩

end Simulation

end UbgoLogger.Transport.Ring
