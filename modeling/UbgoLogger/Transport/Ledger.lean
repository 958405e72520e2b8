import UbgoLogger.Transport.Flow

namespace UbgoLogger.Transport
open Foundation

variable {ι β κ : Type} [DecidableEq ι]

structure Ledger (cap : Nat) (policy : OverflowPolicy) (log : List (Event ι β κ))
    (f : Flow ι β) : Prop where
  numbered : (calls log).map Item.call = List.range f.calls
  queued : accepted log = removed log ++ f.queue
  bounded : f.queue.length ≤ cap
  inHand : taken log = emitted log ++ f.hand.toList
  decided : ∀ i, fibre Item.producer i (calls log) =
    fibre Item.producer i (resolved log) ++ (f.client i).item.toList
  returned : ∀ i, fibre Item.producer i (calls log) =
    fibre Item.producer i (returns log) ++ (f.client i).current.toList
  belongs : ∀ i x, (f.client i).current = some x → x.producer = i
  owing : ∀ i, (evictors log).count i = (counters log).count i + (f.client i).owed
  lost : f.dropped = spilled log
  keepsOldest : policy ≠ .dropOldest → evictors log = []
  keepsNewest : policy ≠ .dropNewest → refused log = []

section Next

variable {cap : Nat} {policy : OverflowPolicy} {log : List (Event ι β κ)} {f f' : Flow ι β}
  {e : Event ι β κ}

theorem Ledger.numbered_next (h : Ledger cap policy log f) (hn : Flow.Next cap policy f e f') :
    (calls (log ++ [e])).map Item.call = List.range f'.calls := by
  have hold := h.numbered
  rw [calls, filterMap_concat]
  cases hn <;> simp_all [calls, Flow.setClient, List.range_succ]

theorem Ledger.queued_next (h : Ledger cap policy log f) (hn : Flow.Next cap policy f e f') :
    accepted (log ++ [e]) = removed (log ++ [e]) ++ f'.queue := by
  have hold := h.queued
  rw [accepted, removed, filterMap_concat, filterMap_concat]
  cases hn <;> simp_all [accepted, removed, Flow.setClient]

theorem Ledger.bounded_next (h : Ledger cap policy log f) (hn : Flow.Next cap policy f e f') :
    f'.queue.length ≤ cap := by
  have hold := h.bounded
  cases hn <;> simp_all [Flow.setClient] <;> omega

theorem Ledger.inHand_next (h : Ledger cap policy log f) (hn : Flow.Next cap policy f e f') :
    taken (log ++ [e]) = emitted (log ++ [e]) ++ f'.hand.toList := by
  have hold := h.inHand
  rw [taken, emitted, filterMap_concat, filterMap_concat]
  cases hn <;> simp_all [taken, emitted, Flow.setClient]

theorem Ledger.decided_next (h : Ledger cap policy log f) (hn : Flow.Next cap policy f e f') (i : ι) :
    fibre Item.producer i (calls (log ++ [e])) =
      fibre Item.producer i (resolved (log ++ [e])) ++ (f'.client i).item.toList := by
  have hold := h.decided i
  rw [calls, resolved, filterMap_concat, filterMap_concat]
  simp only [calls, resolved, fibre_append] at hold ⊢
  cases hn <;> grind [fibre_nil, fibre_singleton, Client.item, Event.callItem, Event.resolveItem]

theorem Ledger.returned_next (h : Ledger cap policy log f) (hn : Flow.Next cap policy f e f') (i : ι) :
    fibre Item.producer i (calls (log ++ [e])) =
      fibre Item.producer i (returns (log ++ [e])) ++ (f'.client i).current.toList := by
  have hold := h.returned i
  rw [calls, returns, filterMap_concat, filterMap_concat]
  simp only [calls, returns, fibre_append] at hold ⊢
  cases hn <;> grind [fibre_nil, fibre_singleton, Client.current, Event.callItem, Event.returnItem]

theorem Ledger.belongs_next (h : Ledger cap policy log f) (hn : Flow.Next cap policy f e f') (i : ι)
    (x : Item ι β) : (f'.client i).current = some x → x.producer = i := by
  have hb := h.belongs i
  cases hn <;> grind [Client.current]

theorem Ledger.owing_next (h : Ledger cap policy log f) (hn : Flow.Next cap policy f e f') (i : ι) :
    (evictors (log ++ [e])).count i = (counters (log ++ [e])).count i + (f'.client i).owed := by
  have hold := h.owing i
  rw [evictors, counters, filterMap_concat, filterMap_concat]
  simp only [evictors, counters, List.count_append] at hold ⊢
  cases hn <;> grind [List.count_singleton, Client.owed, Event.evictor, Event.counter]

theorem Ledger.lost_next (h : Ledger cap policy log f) (hn : Flow.Next cap policy f e f') :
    f'.dropped = spilled (log ++ [e]) := by
  have hold := h.lost
  rw [spilled, counters, refused] at hold ⊢
  rw [filterMap_concat, filterMap_concat]
  cases hn <;> simp_all [Flow.setClient] <;> omega

theorem Ledger.next (h : Ledger cap policy log f) (hn : Flow.Next cap policy f e f') :
    Ledger cap policy (log ++ [e]) f' where
  numbered := h.numbered_next hn
  queued := h.queued_next hn
  bounded := h.bounded_next hn
  inHand := h.inHand_next hn
  decided := h.decided_next hn
  returned := h.returned_next hn
  belongs := h.belongs_next hn
  owing := h.owing_next hn
  lost := h.lost_next hn
  keepsOldest := fun hp => by
    have hold := h.keepsOldest hp
    rw [evictors, filterMap_concat]
    cases hn <;> simp_all [evictors]
  keepsNewest := fun hp => by
    have hold := h.keepsNewest hp
    rw [refused, filterMap_concat]
    cases hn <;> simp_all [refused]

end Next

theorem ledger {cap : Nat} {policy : OverflowPolicy} {log : List (Event ι β κ)} {f : Flow ι β}
    (h : (flow κ cap policy).Accepts log f) : Ledger cap policy log f := by
  refine h.accepted_invariant ?_ Ledger.next
  refine ⟨rfl, rfl, Nat.zero_le cap, rfl, fun _ => rfl, fun _ => rfl, ?_, fun _ => rfl, rfl,
    fun _ => rfl, fun _ => rfl⟩
  intro i x hx
  cases hx

namespace Ledger

variable {cap : Nat} {policy : OverflowPolicy} {log : List (Event ι β κ)} {f : Flow ι β}

theorem calls_nodup (h : Ledger cap policy log f) : (calls log).Nodup := by
  refine List.Nodup.of_map Item.call ?_
  rw [h.numbered]
  exact List.nodup_range

theorem fibre_accepted_sublist (h : Ledger cap policy log f) (i : ι) :
    (fibre Item.producer i (accepted log)).Sublist (fibre Item.producer i (calls log)) := by
  rw [h.decided i]
  exact ((accepted_sublist_resolved log).filter _).trans (List.sublist_append_left _ _)

theorem emitted_sublist_accepted (h : Ledger cap policy log f) :
    (emitted log).Sublist (accepted log) := by
  have htaken : (emitted log).Sublist (taken log) := h.inHand ▸ List.sublist_append_left _ _
  have hremoved : (removed log).Sublist (accepted log) := h.queued ▸ List.sublist_append_left _ _
  exact htaken.trans ((taken_sublist_removed log).trans hremoved)

theorem emitted_in_order (h : Ledger cap policy log f) (i : ι) :
    (fibre Item.producer i (emitted log)).Sublist (fibre Item.producer i (calls log)) :=
  (h.emitted_sublist_accepted.filter _).trans (h.fibre_accepted_sublist i)

theorem accepted_nodup (h : Ledger cap policy log f) : (accepted log).Nodup :=
  nodup_of_fibre Item.producer fun i =>
    (h.calls_nodup.sublist (fibre_sublist _ i _)).sublist (h.fibre_accepted_sublist i)

theorem emitted_nodup (h : Ledger cap policy log f) : (emitted log).Nodup :=
  h.accepted_nodup.sublist h.emitted_sublist_accepted

theorem emitted_called (h : Ledger cap policy log f) {x : Item ι β} (hx : x ∈ emitted log) :
    x ∈ calls log := by
  have hfib := (h.emitted_in_order x.producer).subset ((mem_fibre _).mpr ⟨hx, rfl⟩)
  exact ((mem_fibre _).mp hfib).1

theorem emitted_once (h : Ledger cap policy log f) : ((emitted log).map Item.call).Nodup := by
  have hcalls : ((calls log).map Item.call).Nodup := by
    rw [h.numbered]
    exact List.nodup_range
  refine h.emitted_nodup.map_on fun x hx y hy hxy => ?_
  exact List.inj_on_of_nodup_map hcalls (h.emitted_called hx) (h.emitted_called hy) hxy

theorem current_fresh (h : Ledger cap policy log f) {i : ι} {x : Item ι β}
    (hx : (f.client i).current = some x) : x ∈ calls log ∧ x ∉ returns log := by
  have hret := h.returned i
  have hnodup : (fibre Item.producer i (calls log)).Nodup := h.calls_nodup.sublist (fibre_sublist _ i _)
  rw [hx] at hret
  refine ⟨?_, fun hmem => ?_⟩
  · have : x ∈ fibre Item.producer i (calls log) := by rw [hret]; simp
    exact ((mem_fibre _).mp this).1
  · rw [hret, List.nodup_append] at hnodup
    exact hnodup.2.2 x ((mem_fibre _).mpr ⟨hmem, h.belongs i x hx⟩) x (by simp) rfl

theorem idle_of_returned (h : Ledger cap policy log f)
    (hall : ∀ x ∈ calls log, x ∈ returns log) (i : ι) : f.client i = .idle := by
  cases hc : f.client i with
  | idle => rfl
  | pending x owed =>
    have hfresh := h.current_fresh (i := i) (x := x) (by rw [hc]; rfl)
    exact absurd (hall x hfresh.1) hfresh.2
  | settled x =>
    have hfresh := h.current_fresh (i := i) (x := x) (by rw [hc]; rfl)
    exact absurd (hall x hfresh.1) hfresh.2

theorem resolved_of_returned (h : Ledger cap policy log f) {x : Item ι β} (hx : x ∈ returns log) :
    x ∈ resolved log := by
  have hcall : x ∈ fibre Item.producer x.producer (calls log) := by
    rw [h.returned x.producer]
    exact List.mem_append_left _ ((mem_fibre _).mpr ⟨hx, rfl⟩)
  rw [h.decided x.producer] at hcall
  rcases List.mem_append.mp hcall with hres | hpend
  · exact ((mem_fibre _).mp hres).1
  · have hcur : (f.client x.producer).current = some x := by
      cases hc : f.client x.producer <;> simp_all [Client.item, Client.current]
    exact absurd hx (h.current_fresh hcur).2

theorem calls_perm_resolved (h : Ledger cap policy log f) (hidle : ∀ i, f.client i = .idle) :
    (calls log).Perm (resolved log) :=
  perm_of_fibre Item.producer fun i => by
    rw [h.decided i, hidle i]
    exact List.append_nil _

theorem evictors_perm_counters (h : Ledger cap policy log f) (hidle : ∀ i, f.client i = .idle) :
    (evictors log).Perm (counters log) := by
  refine List.perm_iff_count.mpr fun i => ?_
  rw [h.owing i, hidle i]
  rfl

theorem balance (h : Ledger cap policy log f) (hidle : ∀ i, f.client i = .idle) :
    (calls log).length = (emitted log).length + f.dropped + (discarded log).length +
      f.hand.toList.length + f.queue.length := by
  have hcalls := (h.calls_perm_resolved hidle).length_eq
  have hevict := (h.evictors_perm_counters hidle).length_eq
  have hqueue := congrArg List.length h.queued
  have hhand := congrArg List.length h.inHand
  rw [resolved_length] at hcalls
  rw [List.length_append, removed_length] at hqueue
  rw [List.length_append] at hhand
  have hlost := h.lost
  rw [spilled] at hlost
  omega

theorem queue_step {evs : List (Event ι β κ)} {f' : Flow ι β} (h : Ledger cap policy log f)
    (h' : Ledger cap policy (log ++ evs) f') :
    f.queue ++ accepted evs = removed evs ++ f'.queue := by
  have hnext := h'.queued
  rw [accepted_append, removed_append, h.queued, List.append_assoc, List.append_assoc,
    List.append_right_inj] at hnext
  exact hnext

theorem accepted_of_block (h : Ledger cap .block log f) :
    accepted log = emitted log ++ f.hand.toList ++ f.queue := by
  rw [h.queued, ← taken_eq_removed (h.keepsOldest (by decide)), h.inHand]

theorem dropped_of_block (h : Ledger cap .block log f) : f.dropped = 0 := by
  have hrefused := h.keepsNewest (by decide)
  have hcounted : counters log = [] := by
    refine List.eq_nil_iff_forall_not_mem.mpr fun i hi => ?_
    have howing := h.owing i
    rw [h.keepsOldest (by decide), List.count_nil] at howing
    have hpos := List.count_pos_iff.mpr hi
    omega
  rw [h.lost, spilled, hcounted, hrefused]
  rfl

end Ledger

section Orderly

variable {log : List (Event ι β κ)}

theorem Orderly.idle {cap : Nat} {policy : OverflowPolicy} {f : Flow ι β} (h : Orderly log) {k : κ}
    (hk : .closeCall k ∈ log) (hl : Ledger cap policy log f) (i : ι) : f.client i = .idle :=
  hl.idle_of_returned (h.all_returned hk) i

end Orderly

structure Settled (policy : OverflowPolicy) (sent got : List (Item ι β)) (lost : Nat) : Prop where
  balance : got.length + lost = sent.length
  once : (got.map Item.call).Nodup
  called : ∀ x ∈ got, x ∈ sent
  ordered : ∀ i, (fibre Item.producer i got).Sublist (fibre Item.producer i sent)
  lossless : policy = .block → lost = 0 ∧
    ∀ i, fibre Item.producer i got = fibre Item.producer i sent

theorem Ledger.settled {cap : Nat} {policy : OverflowPolicy} {log : List (Event ι β κ)} {f : Flow ι β}
    (h : Ledger cap policy log f) (hq : f.queue = []) (hh : f.hand = none)
    (hidle : ∀ i, f.client i = .idle) (hd : discarded log = []) :
    Settled policy (calls log) (emitted log) (spilled log) where
  balance := by
    have hbalance := h.balance hidle
    rw [hq, hh, hd, h.lost] at hbalance
    exact hbalance.symm
  once := h.emitted_once
  called := fun _ => h.emitted_called
  ordered := h.emitted_in_order
  lossless := by
    rintro rfl
    refine ⟨h.lost.symm.trans h.dropped_of_block, fun i => ?_⟩
    have hemitted : emitted log = accepted log := by
      rw [h.accepted_of_block, hq, hh, List.append_nil]
      exact (List.append_nil _).symm
    rw [h.decided i, hidle i, hemitted, resolved_eq_accepted (h.keepsNewest (by decide)) hd]
    exact (List.append_nil _).symm

end UbgoLogger.Transport
