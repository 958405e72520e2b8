import UbgoLogger.Transport.DisruptorFlow
import Mathlib.Data.Fintype.Defs

namespace UbgoLogger.Transport.Disruptor
open Foundation

variable {ι β κ : Type} {policy : OverflowPolicy} {capacity : Int} {cap : Nat}
  {s s' : State ι β κ} {f : Flow ι β} {a : Act ι β κ} {evs log : List (Event ι β κ)}

def Producer.publishing (pos : Nat) : Producer ι β → Bool
  | .enqueuing _ (.enqWrite _ p) => p == pos
  | .enqueuing _ (.enqStore _ p) => p == pos
  | _ => false

def Consumer.draining : Consumer ι β → Bool
  | .dequeuing draining _ => draining
  | .emitting draining _ => draining
  | .checking => false
  | .exiting => true
  | .exited => true

def Consumer.decided : Consumer ι β → Bool
  | .dequeuing draining (.deqRet _ ok) => draining && !ok
  | .exiting => true
  | .exited => true
  | _ => false

def overtakes (s : State ι β κ) (a : Act ι β κ) (i : ι) : Bool :=
  match a, s.consumer with
  | .work _, .dequeuing true (.deqSeq pos) => (s.producer i).publishing pos
  | _, _ => false

def ReadsPublished (s : State ι β κ) (a : Act ι β κ) : Prop := ∀ i, overtakes s a i = false

def outlives (s : State ι β κ) (a : Act ι β κ) : Bool :=
  match a with
  | .produce i =>
      match s.producer i with
      | .enqueuing _ (.enqCas _ pos) => pos == s.q.enq && s.consumer.decided
      | _ => false
  | _ => false

def EnqueuesInTime (s : State ι β κ) (a : Act ι β κ) : Prop := outlives s a = false

structure Stops (s : State ι β κ) : Prop where
  exited : s.gate.done = true → s.consumer = .exited
  closed : s.consumer.draining = true → s.gate.closed = true

theorem Consumer.draining_of_decided {c : Consumer ι β} (h : c.decided = true) :
    c.draining = true := by
  cases c with
  | dequeuing draining pc => cases pc <;> simp_all [Consumer.decided, Consumer.draining]
  | emitting draining x => cases h
  | checking => cases h
  | exiting => rfl
  | exited => rfl

theorem Producer.idle_of_client {p : Producer ι β} (h : p.client = .idle) : p = .idle := by
  cases p with
  | idle => rfl
  | enqueuing x pc => cases hp : Mpmc.placed pc <;> simp [Producer.client, hp] at h
  | _ => cases h

theorem Producer.not_publishing {p : Producer ι β} {pos : Nat} (hok : p.ok policy)
    (h : p.publishing pos = false) (v : Item ι β) :
    p.pc ≠ .enqWrite v pos ∧ p.pc ≠ .enqStore v pos := by
  cases p with
  | enqueuing x pc => cases pc <;> simp_all [Producer.pc, Producer.publishing]
  | evicting x pc => cases pc <;> simp_all [Producer.pc, Producer.ok, Mpmc.dequeuing]
  | _ => simp [Producer.pc]

theorem queue_events :
    (∀ e e', (acceptEvent e : Option (Event ι β κ)) = some e' → e'.outward = false) ∧
    (∀ i e e', (evictEvent i e : Option (Event ι β κ)) = some e' → e'.outward = false) ∧
    ∀ e e', (takeEvent e : Option (Event ι β κ)) = some e' → e'.outward = false := by
  refine ⟨fun e => ?_, fun i e => ?_, fun e => ?_⟩
  · cases e <;> simp [acceptEvent]
  · cases e with
    | claimDeq pos v => cases v <;> simp [evictEvent]
    | _ => simp [evictEvent]
  · cases e with
    | claimDeq pos v => cases v <;> simp [takeEvent]
    | _ => simp [takeEvent]

theorem queue_inward {mevs : List (Mpmc.Event (Item ι β))}
    {g : Mpmc.Event (Item ι β) → Option (Event ι β κ)}
    (h : ∀ e e', g e = some e' → e'.outward = false) :
    ∀ e ∈ mevs.filterMap g, e.outward = false := by
  intro e he
  obtain ⟨m, -, hm⟩ := List.mem_filterMap.mp he
  exact h m e hm

section Steps

variable [DecidableEq ι] [DecidableEq κ]

theorem Stops.step (h : Stops s) (hs : Step policy s a s' evs) : Stops s' := by
  have hexited := h.exited
  have hclosed := h.closed
  have hrunning : ∀ {c}, s.consumer = c → c ≠ .exited → s.gate.done = true → False :=
    fun hc hne hd => hne (hc.symm.trans (hexited hd))
  cases hs with
  | dequeue pick draining hc hop =>
    rw [hc] at hclosed
    exact ⟨fun hd => (hrunning hc nofun hd).elim, hclosed⟩
  | dequeued pick draining x hc =>
    rw [hc] at hclosed
    exact ⟨fun hd => (hrunning hc nofun hd).elim, hclosed⟩
  | empty pick v hc => exact ⟨fun hd => (hrunning hc nofun hd).elim, nofun⟩
  | stop pick v hc =>
    rw [hc] at hclosed
    exact ⟨fun hd => (hrunning hc nofun hd).elim, hclosed⟩
  | emit pick draining x hc =>
    rw [hc] at hclosed
    exact ⟨fun hd => (hrunning hc nofun hd).elim, hclosed⟩
  | check pick hc => exact ⟨fun hd => (hrunning hc nofun hd).elim, id⟩
  | exit pick hc =>
    rw [hc] at hclosed
    exact ⟨fun _ => rfl, hclosed⟩
  | gate a hg => exact ⟨fun hd => hexited (hg.done_eq ▸ hd), fun hd => hg.closed_mono (hclosed hd)⟩
  | _ => exact ⟨hexited, hclosed⟩

theorem decides (hs : Step policy s a s' evs) (hold : s.consumer.decided = false)
    (hnew : s'.consumer.decided = true) :
    ∃ pick pos, a = .work pick ∧ s.consumer = .dequeuing true (.deqSeq pos) ∧
      (s.q.cell pos).seq < pos + 1 ∧ evs = [] := by
  cases hs with
  | dequeue pick draining hc hop =>
    cases hop with
    | deqEmpty pos hseq =>
      obtain rfl : draining = true := by simpa [Consumer.decided] using hnew
      exact ⟨pick, pos, rfl, hc, hseq, rfl⟩
    | _ => simp_all [Consumer.decided]
  | dequeued => cases hnew
  | empty => cases hnew
  | emit => cases hnew
  | check => cases hnew
  | stop pick v hc =>
    rw [hc] at hold
    cases hold
  | exit pick hc =>
    rw [hc] at hold
    cases hold
  | _ => exact absurd (hold.symm.trans hnew) Bool.false_ne_true

theorem accepted_step (hs : Step policy s a s' evs) :
    accepted evs = [] ∨ ∃ i x v, a = .produce i ∧ s.producer i = .enqueuing x (.enqCas v s.q.enq) := by
  cases hs with
  | enqueue i x hi hop =>
    cases hop with
    | enqClaim v => exact .inr ⟨i, x, v, rfl, hi⟩
    | _ => exact .inl rfl
  | evict i x hi hop =>
    cases hop with
    | deqClaim => cases hv : (s.q.cell s.q.deq).val <;> exact .inl rfl
    | _ => exact .inl rfl
  | dequeue pick draining hc hop =>
    cases hop with
    | deqClaim => cases hv : (s.q.cell s.q.deq).val <;> exact .inl rfl
    | _ => exact .inl rfl
  | gate a hg => exact .inl hg.queue_quiet.1
  | _ => exact .inl rfl

theorem discarded_step (hs : Step policy s a s' evs) : discarded evs = [] := by
  cases hs with
  | enqueue i x hi hop => cases hop <;> rfl
  | evict i x hi hop =>
    cases hop with
    | deqClaim => cases hv : (s.q.cell s.q.deq).val <;> rfl
    | _ => rfl
  | dequeue pick draining hc hop =>
    cases hop with
    | deqClaim => cases hv : (s.q.cell s.q.deq).val <;> rfl
    | _ => rfl
  | gate a hg => cases hg <;> rfl
  | _ => rfl

theorem Rel.empty_of_decides (h : Rel cap policy log s f) (hs : Step policy s a s' evs)
    (hread : ReadsPublished s a) (hold : s.consumer.decided = false)
    (hnew : s'.consumer.decided = true) : f.queue = [] ∧ f.hand = none ∧ evs = [] := by
  obtain ⟨pick, pos, rfl, hc, hseq, hevs⟩ := decides hs hold hnew
  have hpc : s.pcs none = .deqSeq pos := by simp only [State.pcs, hc, Consumer.pc]
  have hpos := h.inv.facts none
  rw [hpc] at hpos
  have hpub : ∀ t v, s.pcs t ≠ .enqWrite v pos ∧ s.pcs t ≠ .enqStore v pos := by
    intro t v
    cases t with
    | none =>
      rw [hpc]
      simp
    | some i =>
      have hover := hread i
      simp only [overtakes, hc] at hover
      exact Producer.not_publishing (h.produces i) hover v
  have hempty := h.inv.empty_read hpos hseq hpub
  refine ⟨?_, ?_, hevs⟩
  · rw [h.queue, hempty]
    exact List.drop_eq_nil_of_le h.inv.length.le
  · rw [h.hand, hc]
    rfl

variable {C : State ι β κ → Act ι β κ → Prop}

theorem disruptor_stops (h : (machine capacity policy).Exec C log s) : Stops s := by
  refine h.invariant (P := fun _ => Stops) ⟨fun hd => ?_, fun hd => ?_⟩ ?_
  · cases hd
  · cases hd
  · exact fun _ hp _ hs => hp.step (step_cases hs)

theorem Stops.tick (h : Stops s) (hs : Step policy s a s' evs) :
    s.gate.Tick False s'.gate evs := by
  cases hs with
  | gate a hg => exact .gate hg
  | exit pick hc => exact .finish
  | emit pick draining x hc =>
    refine .emit x (Bool.eq_false_iff.mpr fun hd => ?_)
    cases hc.symm.trans (h.exited hd)
  | enqueue i x hi hop => exact .inward (queue_inward queue_events.1)
  | evict i x hi hop => exact .inward (queue_inward (queue_events.2.1 i))
  | dequeue pick draining hc hop => exact .inward (queue_inward queue_events.2.2)
  | _ => exact .inward (by simp)

theorem disruptor_tick (h : (machine capacity policy).Exec C log s)
    (hs : (machine capacity policy).step s a = some (s', evs)) : s.gate.Tick False s'.gate evs :=
  (disruptor_stops h).tick (step_cases hs)

theorem disruptor_gate [Subsingleton κ] (h : (machine capacity policy).Exec C log s) :
    s.gate.Inv log :=
  h.invariant (P := fun log s => s.gate.Inv log) Gate.inv_fresh
    fun hexec hp _ hs => hp.tick (disruptor_tick hexec hs)

theorem disruptor_discarded (h : (machine capacity policy).Exec C log s) : discarded log = [] := by
  refine h.invariant (P := fun log _ => discarded log = []) rfl ?_
  intro log s a s' evs _ hp _ hstep
  rw [discarded_append, List.append_eq_nil_iff]
  exact ⟨hp, discarded_step (step_cases hstep)⟩

theorem emptied_step (hacc : (flow κ cap policy).Accepts log f) (hrel : Rel cap policy log s f)
    (hs : Step policy s a s' evs) (hread : ReadsPublished s a) (htime : EnqueuesInTime s a)
    (hold : s.consumer.decided = true → accepted log = removed log)
    (hnew : s'.consumer.decided = true) : accepted (log ++ evs) = removed (log ++ evs) := by
  have hled := ledger hacc
  cases hdec : s.consumer.decided with
  | false =>
    obtain ⟨hq, -, rfl⟩ := hrel.empty_of_decides hs hread hdec hnew
    rw [List.append_nil, hled.queued, hq, List.append_nil]
  | true =>
    have hquiet : accepted evs = [] := by
      rcases accepted_step hs with hnil | ⟨i, x, v, rfl, hi⟩
      · exact hnil
      · simp [EnqueuesInTime, outlives, hi, hdec] at htime
    have hq : f.queue = [] := by
      have hqueued := hled.queued
      rwa [hold hdec, List.self_eq_append_right] at hqueued
    obtain ⟨f', hpath, -⟩ := hrel.step hled hs
    have hstep := hled.queue_step (ledger (hacc.append hpath))
    rw [hq, hquiet] at hstep
    rw [accepted_append, removed_append, hquiet, (List.append_eq_nil_iff.mp hstep.symm).1, hold hdec]

theorem disruptor_exited [Subsingleton κ] (h : (machine capacity policy).Exec C log s) {k : κ}
    (hk : .closeRet k ∈ log) : s.consumer = .exited :=
  (disruptor_stops h).exited ((disruptor_gate h).returned k hk)

theorem disruptor_emptied
    (h : (machine capacity policy).Exec (fun s a => ReadsPublished s a ∧ EnqueuesInTime s a) log s) :
    s.consumer.decided = true → accepted log = removed log := by
  refine h.invariant (P := fun log s => s.consumer.decided = true → accepted log = removed log) ?_ ?_
  · intro hd
    cases hd
  · intro log s a s' evs hexec hp hc hstep
    obtain ⟨f, hacc, hrel⟩ := disruptor_accepted hexec
    exact emptied_step hacc hrel (step_cases hstep) hc.1 hc.2 hp

theorem quiet_of_orderly [Subsingleton κ] (h : (machine capacity policy).Run log s)
    (ho : Orderly log) (a : Act ι β κ) : ReadsPublished s a ∧ EnqueuesInTime s a := by
  obtain ⟨f, hacc, hrel⟩ := disruptor_accepted h
  have hidle : s.consumer.draining = true → ∀ i, s.producer i = .idle := by
    intro hd i
    obtain ⟨k, hk⟩ := (disruptor_gate h).shut ((disruptor_stops h).closed hd)
    exact Producer.idle_of_client ((hrel.client i).symm.trans (ho.idle hk (ledger hacc) i))
  refine ⟨fun i => ?_, ?_⟩
  · unfold overtakes
    split
    next pick pos hc =>
      rw [hidle (by rw [hc]; rfl) i]
      rfl
    next => rfl
  · unfold EnqueuesInTime outlives
    split
    next i =>
      split
      next x v pos hi =>
        rw [Bool.and_eq_false_iff]
        refine .inr (Bool.eq_false_iff.mpr fun hd => ?_)
        rw [hidle (Consumer.draining_of_decided hd) i] at hi
        cases hi
      next => rfl
    next => rfl

theorem disruptor_settled [Subsingleton κ] (h : (machine capacity policy).Run log s)
    (ho : Orderly log) {k : κ} (hk : .closeRet k ∈ log) :
    Settled policy (calls log) (emitted log) (spilled log) := by
  have hemptied : s.consumer.decided = true → accepted log = removed log := by
    refine h.invariant (P := fun log s => Orderly log → s.consumer.decided = true →
      accepted log = removed log) ?_ ?_ ho
    · intro _ hd
      cases hd
    · intro log s a s' evs hexec hp _ hstep ho'
      obtain ⟨f, hacc, hrel⟩ := disruptor_accepted hexec
      obtain ⟨hread, htime⟩ := quiet_of_orderly hexec ho'.of_append a
      exact emptied_step hacc hrel (step_cases hstep) hread htime (hp ho'.of_append)
  obtain ⟨f, hacc, hrel⟩ := disruptor_accepted h
  have hled := ledger hacc
  have hexit := disruptor_exited h hk
  obtain ⟨j, hj⟩ := (disruptor_gate h).shut ((disruptor_stops h).closed (by rw [hexit]; rfl))
  have hq : f.queue = [] := by
    have hqueued := hled.queued
    rwa [hemptied (by rw [hexit]; rfl), List.self_eq_append_right] at hqueued
  refine hled.settled hq ?_ (ho.idle hj hled) (disruptor_discarded h)
  rw [hrel.hand, hexit]
  rfl

end Steps

instance [Fintype ι] (s : State ι β κ) (a : Act ι β κ) : Decidable (ReadsPublished s a) :=
  inferInstanceAs (Decidable (∀ i, overtakes s a i = false))

instance (s : State ι β κ) (a : Act ι β κ) : Decidable (EnqueuesInTime s a) :=
  inferInstanceAs (Decidable (outlives s a = false))

section Close

variable [DecidableEq ι]

theorem emitted_of_decides [DecidableEq κ] (hled : Ledger cap .block log f)
    (hd : discarded log = []) (hq : f.queue = []) (hh : f.hand = none) {x : Item ι β}
    (hx : x ∈ returns log) : x ∈ emitted log := by
  have haccepted : x ∈ accepted log := by
    rw [← resolved_eq_accepted (hled.keepsNewest (by decide)) hd]
    exact hled.resolved_of_returned hx
  rwa [hled.accepted_of_block, hq, hh, List.append_nil, Option.toList_none, List.append_nil]
    at haccepted

theorem emitted_before_exit {log : List (Event ι β Unit)} {s : State ι β Unit}
    (h : (machine capacity .block).Exec ReadsPublished log s) :
    s.consumer.decided = true → ∀ x ∈ returns (beforeClose log), x ∈ emitted log := by
  refine h.invariant (P := fun log s => s.consumer.decided = true →
    ∀ x ∈ returns (beforeClose log), x ∈ emitted log) ?_ ?_
  · intro hd
    cases hd
  · intro log s a s' evs hexec hp hread hstep hnew x hx
    obtain ⟨f, hacc, hrel⟩ := disruptor_accepted hexec
    rw [emitted_append]
    refine List.mem_append_left _ ?_
    cases hdec : s.consumer.decided with
    | false =>
      obtain ⟨hq, hh, rfl⟩ := hrel.empty_of_decides (step_cases hstep) hread hdec hnew
      rw [List.append_nil] at hx
      exact emitted_of_decides (ledger hacc) (disruptor_discarded hexec) hq hh
        (returns_beforeClose hx)
    | true =>
      have hclosed := (disruptor_stops hexec).closed (Consumer.draining_of_decided hdec)
      obtain ⟨k, hk⟩ := (disruptor_gate hexec).shut hclosed
      rw [beforeClose_append hk] at hx
      exact hp hdec x hx

theorem disruptor_close_drains [DecidableEq β] (capacity : Int) {log : List (Event ι β Unit)}
    {s : State ι β Unit} (h : (machine capacity .block).Exec ReadsPublished log s)
    (hk : .closeRet () ∈ log) (x : Item ι β) (hx : x ∈ returns (beforeClose log)) :
    (emitted log).count x = 1 := by
  obtain ⟨f, hacc, -⟩ := disruptor_accepted h
  have hexit := disruptor_exited h hk
  exact List.count_eq_one_of_mem (ledger hacc).emitted_nodup
    (emitted_before_exit h (by rw [hexit]; rfl) x hx)

theorem disruptor_close_drains_two :
    ∃ (log : List (Event Bool Nat Unit)) (s : State Bool Nat Unit),
      (machine 2 .block).Exec ReadsPublished log s ∧ .closeRet () ∈ log ∧
        (⟨false, 1, 11⟩ : Item Bool Nat) ∉ returns log ∧
        (⟨true, 0, 10⟩ : Item Bool Nat) ∈ returns (beforeClose log) ∧
        (emitted log).count ⟨true, 0, 10⟩ = 1 := by
  obtain ⟨log, s, hrun, hgood⟩ := Machine.exists_exec (M := machine 2 .block) (C := ReadsPublished)
    ([Act.dispatch true 10] ++ List.replicate 7 (Act.produce true) ++
      [Act.dispatch false 11, Act.produce false, Act.close (), Act.closer ()] ++
      List.replicate 16 (Act.work 0) ++ List.replicate 4 (Act.closer ()))
    (fun (log : List (Event Bool Nat Unit)) (_ : State Bool Nat Unit) =>
      decide (.closeRet () ∈ log ∧ (⟨false, 1, 11⟩ : Item Bool Nat) ∉ returns log ∧
        (⟨true, 0, 10⟩ : Item Bool Nat) ∈ returns (beforeClose log))) (by decide +kernel)
  obtain ⟨hclose, hinside, hreturned⟩ := of_decide_eq_true hgood
  exact ⟨log, s, hrun, hclose, hinside, hreturned,
    disruptor_close_drains 2 hrun hclose _ hreturned⟩

theorem stalled_claim_hides_record :
    ∃ (log : List (Event Bool Nat Unit)) (s : State Bool Nat Unit),
      (machine 2 .block).Run log s ∧ .closeRet () ∈ log ∧
        (⟨false, 1, 11⟩ : Item Bool Nat) ∈ returns (beforeClose log) ∧
        (emitted log).count ⟨false, 1, 11⟩ = 0 := by
  obtain ⟨log, s, hrun, hgood⟩ := Machine.exists_exec (M := machine 2 .block) (C := fun _ _ => True)
    ([Act.dispatch true 10] ++ List.replicate 3 (Act.produce true) ++ [Act.dispatch false 11] ++
      List.replicate 7 (Act.produce false) ++ [Act.close (), Act.closer ()] ++
      List.replicate 8 (Act.work 0) ++ List.replicate 4 (Act.closer ()))
    (fun (log : List (Event Bool Nat Unit)) (_ : State Bool Nat Unit) =>
      decide (.closeRet () ∈ log ∧ (⟨false, 1, 11⟩ : Item Bool Nat) ∈ returns (beforeClose log) ∧
        (emitted log).count ⟨false, 1, 11⟩ = 0)) (by decide +kernel)
  exact ⟨log, s, hrun, of_decide_eq_true hgood⟩

end Close

end UbgoLogger.Transport.Disruptor
