import UbgoLogger.Transport.Disruptor

namespace UbgoLogger.Mpmc

variable {α : Type}

def carries (x : α) : Pc α → Prop
  | .enqLoad v => v = x
  | .enqSeq v _ => v = x
  | .enqCas v _ => v = x
  | .enqWrite v _ => v = x
  | .enqStore v _ => v = x
  | .enqRet _ => True
  | _ => False

def dequeuing : Pc α → Prop
  | .deqLoad => True
  | .deqSeq _ => True
  | .deqCas _ => True
  | .deqRead _ => True
  | .deqClear _ _ => True
  | .deqStore _ _ => True
  | .deqRet _ _ => True
  | _ => False

def placed : Pc α → Bool
  | .enqWrite _ _ => true
  | .enqStore _ _ => true
  | .enqRet ok => ok
  | _ => false

def grabbed : Pc α → Bool
  | .deqRead _ => true
  | .deqClear _ _ => true
  | .deqStore _ _ => true
  | .deqRet _ ok => ok
  | _ => false

def held (hist : List α) : Pc α → Option α
  | .deqRead pos => hist[pos]?
  | .deqClear _ v => v
  | .deqStore _ v => v
  | .deqRet v ok => if ok then v else none
  | _ => none

variable {q q' : Queue α} {pc pc' : Pc α} {evs : List (Event α)}

theorem OpStep.enqueue_kind {x : α} (h : OpStep q pc q' pc' evs) (hx : carries x pc) :
    carries x pc' ∧ q'.size = q.size ∧ q'.deq = q.deq ∧
      (placed pc = false ∧ placed pc' = true ∧ evs = [.claimEnq q.enq x] ∨
        placed pc' = placed pc ∧ evs.filterMap Event.claimed = []) := by
  cases h <;> simp_all [carries, placed, Event.claimed, Queue.size, Queue.setVal, Queue.setSeq]

theorem OpStep.dequeue_kind (h : OpStep q pc q' pc' evs) (hd : dequeuing pc) :
    dequeuing pc' ∧ q'.size = q.size ∧ evs.filterMap Event.claimed = [] ∧
      (pc = .deqCas q.deq ∧ pc' = .deqRead q.deq ∧ q'.deq = q.deq + 1 ∧
          evs = [.claimDeq q.deq (q.cell q.deq).val] ∨
        q'.deq = q.deq ∧ grabbed pc' = grabbed pc ∧
          (∀ hist wr rd, Facts q hist wr rd pc → held hist pc' = held hist pc) ∧
          ∀ pos v, .claimDeq pos v ∉ evs) := by
  cases h <;>
    simp_all [dequeuing, grabbed, held, Facts, Event.claimed, Queue.size, Queue.setVal,
      Queue.setSeq]

theorem held_append {hist : List α} {wr rd : Nat → Prop} (hf : Facts q hist wr rd pc)
    (hlen : q.deq ≤ hist.length) (v : α) : held (hist ++ [v]) pc = held hist pc := by
  cases pc with
  | deqRead pos => exact List.getElem?_append_left (lt_of_lt_of_le hf.1 hlen)
  | _ => rfl

theorem Inv.stored_some {τ : Type} {pcs : τ → Pc α} {hist : List α} {wr rd : Nat → Prop}
    (h : Inv q pcs hist wr rd) {t : τ} {pos : Nat} {v : Option α} (ht : pcs t = .deqStore pos v) :
    v ≠ none := by
  obtain ⟨hpos, -, -, hv, -⟩ : Facts q hist wr rd (.deqStore pos v) := ht ▸ h.facts t
  rw [hv, List.getElem?_eq_getElem (by rw [h.length]; exact lt_of_lt_of_le hpos h.low)]
  exact Option.some_ne_none _

end UbgoLogger.Mpmc

namespace UbgoLogger.Transport.Disruptor
open Foundation

variable {ι β κ : Type}

def Consumer.pc : Consumer ι β → Mpmc.Pc (Item ι β)
  | .dequeuing _ pc => pc
  | _ => .idle

def Producer.pc : Producer ι β → Mpmc.Pc (Item ι β)
  | .enqueuing _ pc => pc
  | .evicting _ pc => pc
  | _ => .idle

def Consumer.hand (hist : List (Item ι β)) : Consumer ι β → Option (Item ι β)
  | .dequeuing _ pc => Mpmc.held hist pc
  | .emitting _ x => some x
  | _ => none

def Producer.client : Producer ι β → Client ι β
  | .idle => .idle
  | .enqueuing x pc => if Mpmc.placed pc then .settled x else .pending x false
  | .evicting x pc => .pending x (Mpmc.grabbed pc)
  | .counting x => .pending x true
  | .refusing x => .pending x false
  | .leaving x => .settled x

def Consumer.ok : Consumer ι β → Prop
  | .dequeuing _ pc => Mpmc.dequeuing pc
  | _ => True

def Producer.ok (policy : OverflowPolicy) : Producer ι β → Prop
  | .enqueuing x pc => Mpmc.carries x pc
  | .evicting _ pc => Mpmc.dequeuing pc ∧ policy = .dropOldest
  | .counting _ => policy = .dropOldest
  | .refusing _ => policy = .dropNewest
  | _ => True

def State.pcs (s : State ι β κ) : Option ι → Mpmc.Pc (Item ι β)
  | none => s.consumer.pc
  | some i => (s.producer i).pc

def always : Nat → Prop := fun _ => True

structure Rel (cap : Nat) (policy : OverflowPolicy) (log : List (Event ι β κ)) (s : State ι β κ)
    (f : Flow ι β) : Prop where
  size : s.q.size = cap
  inv : Mpmc.Inv s.q s.pcs (accepted log) always always
  queue : f.queue = (accepted log).drop s.q.deq
  calls : f.calls = s.calls
  dropped : s.dropped = .ofNat f.dropped
  hand : f.hand = s.consumer.hand (accepted log)
  client : ∀ i, f.client i = (s.producer i).client
  consumes : s.consumer.ok
  produces : ∀ i, (s.producer i).ok policy

variable {cap : Nat} {policy : OverflowPolicy} {s s' : State ι β κ} {f : Flow ι β}
  {a : Act ι β κ} {evs log : List (Event ι β κ)} {hist : List (Item ι β)} {wr rd : Nat → Prop}

theorem acceptEvent_nil {mevs : List (Mpmc.Event (Item ι β))}
    (h : mevs.filterMap Mpmc.Event.claimed = []) :
    (mevs.filterMap acceptEvent : List (Event ι β κ)) = [] := by
  rw [List.filterMap_eq_nil_iff] at h ⊢
  intro e he
  have hnone := h e he
  cases e <;> simp_all [Mpmc.Event.claimed, acceptEvent]

theorem takeEvent_nil {mevs : List (Mpmc.Event (Item ι β))} (h : ∀ pos v, .claimDeq pos v ∉ mevs) :
    (mevs.filterMap takeEvent : List (Event ι β κ)) = [] := by
  rw [List.filterMap_eq_nil_iff]
  intro e he
  cases e with
  | claimDeq pos v => exact absurd he (h pos v)
  | _ => rfl

theorem evictEvent_nil {mevs : List (Mpmc.Event (Item ι β))} (h : ∀ pos v, .claimDeq pos v ∉ mevs)
    (i : ι) : (mevs.filterMap (evictEvent i) : List (Event ι β κ)) = [] := by
  rw [List.filterMap_eq_nil_iff]
  intro e he
  cases e with
  | claimDeq pos v => exact absurd he (h pos v)
  | _ => rfl

theorem Rel.front (h : Rel cap policy log s f) {t : Option ι} (ht : s.pcs t = .deqCas s.q.deq) :
    ∃ y, (s.q.cell s.q.deq).val = some y ∧ (accepted log)[s.q.deq]? = some y ∧
      f.queue = y :: (accepted log).drop (s.q.deq + 1) := by
  obtain ⟨hlt, -, hval, -⟩ := h.inv.claimed_value ht
  have hlen : s.q.deq < (accepted log).length := h.inv.length ▸ hlt
  have hget := List.getElem?_eq_getElem hlen
  exact ⟨_, hval.trans hget, hget, h.queue.trans (List.drop_eq_getElem_cons hlen)⟩

theorem Rel.hand_append (h : Rel cap policy log s f) (x : Item ι β) :
    s.consumer.hand (accepted log ++ [x]) = s.consumer.hand (accepted log) := by
  have hf := h.inv.facts none
  have hlen : s.q.deq ≤ (accepted log).length := h.inv.length ▸ h.inv.low
  have hpc : s.pcs none = s.consumer.pc := rfl
  cases hc : s.consumer with
  | dequeuing draining pc =>
    rw [hpc, hc] at hf
    exact Mpmc.held_append hf hlen x
  | _ => rfl

theorem Rel.extend (h : Rel cap policy log s f) (ha : accepted evs = []) :
    Rel cap policy (log ++ evs) s f := by
  have hacc : accepted (log ++ evs) = accepted log := by
    rw [accepted_append, ha, List.append_nil]
  exact ⟨h.size, hacc.symm ▸ h.inv, hacc.symm ▸ h.queue, h.calls, h.dropped, hacc.symm ▸ h.hand,
    h.client, h.consumes, h.produces⟩

structure Resting (pc : Mpmc.Pc (Item ι β)) : Prop where
  owns : ∀ n, Mpmc.own n pc = none
  facts : ∀ (q : Mpmc.Queue (Item ι β)) hist wr rd, Mpmc.Facts q hist wr rd pc

theorem resting_idle : Resting (.idle : Mpmc.Pc (Item ι β)) := ⟨fun _ => rfl, fun _ _ _ _ => trivial⟩

theorem resting_enqLoad (x : Item ι β) : Resting (.enqLoad x) :=
  ⟨fun _ => rfl, fun _ _ _ _ => trivial⟩

theorem resting_enqRet (ok : Bool) : Resting (.enqRet ok : Mpmc.Pc (Item ι β)) :=
  ⟨fun _ => rfl, fun _ _ _ _ => trivial⟩

theorem resting_deqLoad : Resting (.deqLoad : Mpmc.Pc (Item ι β)) :=
  ⟨fun _ => rfl, fun _ _ _ _ => trivial⟩

theorem resting_deqRet (v : Option (Item ι β)) (ok : Bool) : Resting (.deqRet v ok) :=
  ⟨fun _ => rfl, fun _ _ _ _ => trivial⟩

section Simulation

variable [DecidableEq ι]

theorem pcs_setProducer (s : State ι β κ) (i : ι) (p : Producer ι β) :
    (s.setProducer i p).pcs = Function.update s.pcs (some i) p.pc := by
  funext t
  cases t with
  | none => rfl
  | some j =>
    simp only [State.pcs, State.setProducer_producer, Function.update_apply, Option.some.injEq]
    split <;> rfl

theorem pcs_setConsumer (s : State ι β κ) (c : Consumer ι β) :
    ({ s with consumer := c } : State ι β κ).pcs = Function.update s.pcs none c.pc := by
  funext t
  cases t with
  | none => rfl
  | some j => rfl

theorem ok_set (h : ∀ i, (s.producer i).ok policy) {i : ι} {p : Producer ι β} (hp : p.ok policy)
    (j : ι) : ((s.setProducer i p).producer j).ok policy := by
  simp only [State.setProducer_producer]
  split
  · exact hp
  · exact h j

theorem inv_setProducer (h : Mpmc.Inv s.q s.pcs hist wr rd) {i : ι} {p : Producer ι β}
    (hold : Resting (s.producer i).pc) (hnew : Resting p.pc) :
    Mpmc.Inv s.q (s.setProducer i p).pcs hist wr rd := by
  rw [pcs_setProducer]
  exact h.setPc (hnew.facts _ _ _ _) ((hnew.owns _).trans (hold.owns _).symm)

theorem inv_setConsumer (h : Mpmc.Inv s.q s.pcs hist wr rd) {c : Consumer ι β}
    (hold : Resting s.consumer.pc) (hnew : Resting c.pc) :
    Mpmc.Inv s.q ({ s with consumer := c } : State ι β κ).pcs hist wr rd := by
  rw [pcs_setConsumer]
  exact h.setPc (hnew.facts _ _ _ _) ((hnew.owns _).trans (hold.owns _).symm)

theorem Rel.enqueue (h : Rel cap policy log s f) (hl : Ledger cap policy log f) {i : ι}
    {x : Item ι β} {pc pc' : Mpmc.Pc (Item ι β)} {q : Mpmc.Queue (Item ι β)}
    {mevs : List (Mpmc.Event (Item ι β))} (hi : s.producer i = .enqueuing x pc)
    (hop : Mpmc.OpStep s.q pc q pc' mevs) :
    ∃ f', (flow κ cap policy).Path f (mevs.filterMap acceptEvent) f' ∧
      Rel cap policy (log ++ mevs.filterMap acceptEvent)
        ({ s with q := q }.setProducer i (.enqueuing x pc')) f' := by
  have hpc : s.pcs (some i) = pc := by simp only [State.pcs, hi, Producer.pc]
  have hinv := h.inv.opStep (t := some i) (hpc.symm ▸ hop) (fun _ _ => trivial) fun _ _ => trivial
  have hpcs := pcs_setProducer ({ s with q := q } : State ι β κ) i (.enqueuing x pc')
  have hok := h.produces i
  rw [hi] at hok
  obtain ⟨hcarry, hsize, hdeq, ⟨hp, hp', rfl⟩ | ⟨hp, hnone⟩⟩ := hop.enqueue_kind hok
  · have hacc : accepted (log ++ ([.accept x] : List (Event ι β κ))) = accepted log ++ [x] := by
      simp [accepted]
    have hclient : f.client i = .pending x false := by
      rw [h.client i, hi, Producer.client, hp]
      rfl
    obtain rfl : x.producer = i := hl.belongs i x (by rw [hclient]; rfl)
    have hlen := hinv.length
    have hhigh := hinv.high
    have hlow := h.inv.low
    have hold := h.inv.length
    rw [List.length_append] at hlen
    refine ⟨_, .single (.accept x hclient ?_), ?_⟩
    · rw [h.queue, List.length_drop]
      have hsz := h.size
      simp only [List.filterMap_cons, List.filterMap_nil, Mpmc.Event.claimed, List.length_cons,
        List.length_nil] at hlen
      omega
    · refine ⟨hsize.trans h.size, ?_, ?_, h.calls, h.dropped, ?_, ?_, h.consumes,
        ok_set h.produces hcarry⟩
      · rw [hpcs]
        exact hacc ▸ hinv
      · change f.queue ++ [x] = (accepted (log ++ [.accept x])).drop q.deq
        rw [hacc, hdeq, h.queue, List.drop_append_of_le_length (hold ▸ hlow)]
      · change f.hand = s.consumer.hand (accepted (log ++ [.accept x]))
        rw [hacc, h.hand_append x]
        exact h.hand
      · have hset := Flow.client_set h.client x.producer (.enqueuing x pc')
        rw [Producer.client, hp'] at hset
        exact hset
  · rw [acceptEvent_nil hnone, List.append_nil]
    rw [hnone, List.append_nil] at hinv
    refine ⟨f, .nil f, hsize.trans h.size, ?_, ?_, h.calls, h.dropped, h.hand, ?_, h.consumes,
      ok_set h.produces hcarry⟩
    · rw [hpcs]
      exact hinv
    · rw [h.queue, ← hdeq]
      rfl
    · refine Flow.client_keep h.client ?_
      rw [hi, Producer.client, Producer.client, hp]

theorem Rel.evict (h : Rel cap policy log s f) {i : ι} {x : Item ι β}
    {pc pc' : Mpmc.Pc (Item ι β)} {q : Mpmc.Queue (Item ι β)}
    {mevs : List (Mpmc.Event (Item ι β))} (hi : s.producer i = .evicting x pc)
    (hop : Mpmc.OpStep s.q pc q pc' mevs) :
    ∃ f', (flow κ cap policy).Path f (mevs.filterMap (evictEvent i)) f' ∧
      Rel cap policy (log ++ mevs.filterMap (evictEvent i))
        ({ s with q := q }.setProducer i (.evicting x pc')) f' := by
  have hpc : s.pcs (some i) = pc := by simp only [State.pcs, hi, Producer.pc]
  have hinv := h.inv.opStep (t := some i) (hpc.symm ▸ hop) (fun _ _ => trivial) fun _ _ => trivial
  have hpcs := pcs_setProducer ({ s with q := q } : State ι β κ) i (.evicting x pc')
  obtain ⟨hdeq', hp⟩ : Mpmc.dequeuing pc ∧ policy = .dropOldest := by
    have hok := h.produces i
    rwa [hi] at hok
  obtain ⟨hd, hsize, hnone, ⟨rfl, rfl, hdeq, rfl⟩ | ⟨hdeq, hgrab, -, hno⟩⟩ := hop.dequeue_kind hdeq'
  · obtain ⟨y, hval, -, hq⟩ := h.front hpc
    rw [hnone, List.append_nil] at hinv
    have hacc : accepted (log ++ ([.evict i y] : List (Event ι β κ))) = accepted log := by
      simp [accepted]
    have hclient : f.client i = .pending x false := by
      rw [h.client i, hi]
      rfl
    rw [hval]
    refine ⟨_, .single (.evict i x y _ hp hclient hq), ?_⟩
    refine ⟨hsize.trans h.size, ?_, ?_, h.calls, h.dropped, ?_,
      Flow.client_set h.client i (.evicting x (.deqRead s.q.deq)), h.consumes,
      ok_set h.produces ⟨hd, hp⟩⟩
    · rw [hpcs]
      exact hacc.symm ▸ hinv
    · change (accepted log).drop (s.q.deq + 1) = (accepted (log ++ [.evict i y])).drop q.deq
      rw [hacc, hdeq]
    · change f.hand = s.consumer.hand (accepted (log ++ [.evict i y]))
      rw [hacc]
      exact h.hand
  · rw [evictEvent_nil hno i, List.append_nil]
    rw [hnone, List.append_nil] at hinv
    refine ⟨f, .nil f, hsize.trans h.size, ?_, ?_, h.calls, h.dropped, h.hand, ?_, h.consumes,
      ok_set h.produces ⟨hd, hp⟩⟩
    · rw [hpcs]
      exact hinv
    · rw [h.queue, ← hdeq]
      rfl
    · refine Flow.client_keep h.client ?_
      rw [hi, Producer.client, Producer.client, hgrab]

theorem Rel.dequeue (h : Rel cap policy log s f) {draining : Bool}
    {pc pc' : Mpmc.Pc (Item ι β)} {q : Mpmc.Queue (Item ι β)}
    {mevs : List (Mpmc.Event (Item ι β))} (hc : s.consumer = .dequeuing draining pc)
    (hop : Mpmc.OpStep s.q pc q pc' mevs) :
    ∃ f', (flow κ cap policy).Path f (mevs.filterMap takeEvent) f' ∧
      Rel cap policy (log ++ mevs.filterMap takeEvent)
        { s with q := q, consumer := .dequeuing draining pc' } f' := by
  have hpc : s.pcs none = pc := by simp only [State.pcs, hc, Consumer.pc]
  have hinv := h.inv.opStep (t := none) (hpc.symm ▸ hop) (fun _ _ => trivial) fun _ _ => trivial
  have hpcs := pcs_setConsumer ({ s with q := q } : State ι β κ) (.dequeuing draining pc')
  have hfacts := h.inv.facts none
  rw [hpc] at hfacts
  have hdeq' : Mpmc.dequeuing pc := by
    have hok := h.consumes
    rwa [hc] at hok
  have hhand := h.hand
  rw [hc] at hhand
  obtain ⟨hd, hsize, hnone, ⟨rfl, rfl, hdeq, rfl⟩ | ⟨hdeq, -, hheld, hno⟩⟩ := hop.dequeue_kind hdeq'
  · obtain ⟨y, hval, hget, hq⟩ := h.front hpc
    rw [hnone, List.append_nil] at hinv
    have hacc : accepted (log ++ ([.take y] : List (Event ι β κ))) = accepted log := by
      simp [accepted]
    rw [hval]
    refine ⟨_, .single (.take y _ hhand hq), ?_⟩
    refine ⟨hsize.trans h.size, ?_, ?_, h.calls, h.dropped, ?_, h.client, hd, h.produces⟩
    · rw [hpcs]
      exact hacc.symm ▸ hinv
    · change (accepted log).drop (s.q.deq + 1) = (accepted (log ++ [.take y])).drop q.deq
      rw [hacc, hdeq]
    · change some y = (accepted (log ++ [.take y]))[s.q.deq]?
      rw [hacc, hget]
  · rw [takeEvent_nil hno, List.append_nil]
    rw [hnone, List.append_nil] at hinv
    refine ⟨f, .nil f, hsize.trans h.size, ?_, ?_, h.calls, h.dropped, ?_, h.client, hd, h.produces⟩
    · rw [hpcs]
      exact hinv
    · rw [h.queue, ← hdeq]
    · exact hhand.trans (hheld _ _ _ hfacts).symm

theorem Rel.rest (h : Rel cap policy log s f) {i : ι} {p : Producer ι β}
    (hold : Resting (s.producer i).pc) (hnew : Resting p.pc)
    (hc : p.client = (s.producer i).client) (hok : p.ok policy) :
    Rel cap policy log (s.setProducer i p) f :=
  ⟨h.size, inv_setProducer h.inv hold hnew, h.queue, h.calls, h.dropped, h.hand,
    Flow.client_keep h.client hc, h.consumes, ok_set h.produces hok⟩

theorem Rel.consume (h : Rel cap policy log s f) {f' : Flow ι β} {c : Consumer ι β}
    (hold : Resting s.consumer.pc) (hnew : Resting c.pc) (hok : c.ok) (ha : accepted evs = [])
    (hf : f' = { f with hand := c.hand (accepted log) }) :
    Rel cap policy (log ++ evs) { s with consumer := c } f' := by
  subst hf
  have hr := h.extend ha
  have hacc : accepted (log ++ evs) = accepted log := by
    rw [accepted_append, ha, List.append_nil]
  exact ⟨hr.size, inv_setConsumer hr.inv hold hnew, hr.queue, h.calls, h.dropped, by rw [hacc],
    h.client, hok, h.produces⟩

variable [DecidableEq κ]

theorem Rel.step (h : Rel cap policy log s f) (hl : Ledger cap policy log f)
    (hs : Step policy s a s' evs) :
    ∃ f', (flow κ cap policy).Path f evs f' ∧ Rel cap policy (log ++ evs) s' f' := by
  have hbelongs : ∀ {i x}, (s.producer i).client.current = some x → x.producer = i := by
    intro i x hx
    refine hl.belongs i x ?_
    rw [h.client i, hx]
  have hmove : ∀ {i : ι} {p : Producer ι β}, Resting (s.producer i).pc → Resting p.pc →
      p.client = (s.producer i).client → p.ok policy →
      ∃ f', (flow κ cap policy).Path f [] f' ∧ Rel cap policy (log ++ []) (s.setProducer i p) f' :=
    fun hold hnew hc hok => ⟨f, .nil f, (h.rest hold hnew hc hok).extend rfl⟩
  have hturn : ∀ {c : Consumer ι β}, Resting s.consumer.pc → Resting c.pc → c.ok →
      f.hand = c.hand (accepted log) →
      ∃ f', (flow κ cap policy).Path f [] f' ∧
        Rel cap policy (log ++ []) { s with consumer := c } f' := fun hold hnew hok hh =>
    ⟨f, .nil f, h.consume hold hnew hok rfl (by rw [← hh])⟩
  cases hs with
  | call i b hi =>
    have hr : Rel cap policy (log ++ [.call ⟨i, s.calls, b⟩]) s f := h.extend rfl
    refine ⟨_, .single (.call ⟨i, s.calls, b⟩ (by rw [h.client i, hi]; rfl) h.calls.symm), hr.size,
      inv_setProducer hr.inv (by rw [hi]; exact resting_idle) (resting_enqLoad _), hr.queue,
      congrArg (· + 1) h.calls, h.dropped, hr.hand,
      Flow.client_set h.client i (.enqueuing _ (.enqLoad _)), h.consumes, ok_set h.produces rfl⟩
  | enqueue i x hi hop => exact h.enqueue hl hi hop
  | enqueued i x hi =>
    exact hmove (by rw [hi]; exact resting_enqRet _) resting_idle (by rw [hi]; rfl) trivial
  | retry i x hi =>
    exact hmove (by rw [hi]; exact resting_enqRet _) (resting_enqLoad _) (by rw [hi]; rfl) rfl
  | refusal i x hi hp =>
    exact hmove (by rw [hi]; exact resting_enqRet _) resting_idle (by rw [hi]; rfl) hp
  | overflow i x hi hp =>
    exact hmove (by rw [hi]; exact resting_enqRet _) resting_deqLoad (by rw [hi]; rfl) ⟨trivial, hp⟩
  | evict i x hi hop => exact h.evict hi hop
  | evicted i x v hi =>
    have hp := h.produces i
    rw [hi] at hp
    exact hmove (by rw [hi]; exact resting_deqRet _ _) resting_idle (by rw [hi]; rfl) hp.2
  | again i x v hi =>
    exact hmove (by rw [hi]; exact resting_deqRet _ _) (resting_enqLoad _) (by rw [hi]; rfl) rfl
  | count i x hi =>
    have hr : Rel cap policy (log ++ [.count i]) s f := h.extend rfl
    exact ⟨_, .single (.count i x (by rw [h.client i, hi]; rfl)), hr.size,
      inv_setProducer hr.inv (by rw [hi]; exact resting_idle) (resting_enqLoad _), hr.queue, h.calls,
      Counter.succ h.dropped, hr.hand, Flow.client_set h.client i (.enqueuing x (.enqLoad x)),
      h.consumes, ok_set h.produces rfl⟩
  | refuse i x hi =>
    have hr : Rel cap policy (log ++ [.refuse x]) s f := h.extend rfl
    have hp := h.produces i
    rw [hi] at hp
    obtain rfl : x.producer = i := hbelongs (by rw [hi]; rfl)
    exact ⟨_, .single (.refuse x hp (by rw [h.client, hi]; rfl)), hr.size,
      inv_setProducer hr.inv (by rw [hi]; exact resting_idle) resting_idle, hr.queue, h.calls,
      Counter.succ h.dropped, hr.hand, Flow.client_set h.client _ (.leaving x), h.consumes,
      ok_set h.produces trivial⟩
  | ret i x hi =>
    have hr : Rel cap policy (log ++ [.ret x]) s f := h.extend rfl
    obtain rfl : x.producer = i := hbelongs (by rw [hi]; rfl)
    exact ⟨_, .single (.ret x (by rw [h.client, hi]; rfl)), hr.size,
      inv_setProducer hr.inv (by rw [hi]; exact resting_idle) resting_idle, hr.queue, h.calls,
      h.dropped, hr.hand, Flow.client_set h.client _ .idle, h.consumes, ok_set h.produces trivial⟩
  | dequeue pick draining hc hop => exact h.dequeue hc hop
  | dequeued pick draining x hc =>
    exact hturn (by rw [hc]; exact resting_deqRet _ _) resting_idle trivial (by rw [h.hand, hc]; rfl)
  | empty pick v hc =>
    exact hturn (by rw [hc]; exact resting_deqRet _ _) resting_idle trivial (by rw [h.hand, hc]; rfl)
  | stop pick v hc =>
    exact hturn (by rw [hc]; exact resting_deqRet _ _) resting_idle trivial (by rw [h.hand, hc]; rfl)
  | emit pick draining x hc =>
    exact ⟨_, .single (.emit x (by rw [h.hand, hc]; rfl)),
      h.consume (by rw [hc]; exact resting_idle) resting_deqLoad trivial rfl rfl⟩
  | check pick hc =>
    exact hturn (by rw [hc]; exact resting_idle) resting_deqLoad trivial (by rw [h.hand, hc]; rfl)
  | exit pick hc =>
    have hexit : Rel cap policy (log ++ [.exit]) { s with consumer := .exited }
        { f with hand := none } :=
      h.consume (by rw [hc]; exact resting_idle) resting_idle trivial rfl rfl
    have hhand : f.hand = none := by
      rw [h.hand, hc]
      rfl
    refine ⟨f, .single .exit, hexit.size, hexit.inv, hexit.queue, h.calls, h.dropped, hhand, h.client,
      trivial, h.produces⟩
  | gate a hg =>
    have hr := h.extend hg.queue_quiet.1
    exact ⟨f, gate_path hg, hr.size, hr.inv, hr.queue, hr.calls, hr.dropped, hr.hand, hr.client,
      hr.consumes, hr.produces⟩

theorem disruptor_accepted {capacity : Int} {C : State ι β κ → Act ι β κ → Prop}
    (h : (machine capacity policy).Exec C log s) :
    ∃ f, (flow κ (Mpmc.capacity (ringSize capacity)) policy).Accepts log f ∧
      Rel (Mpmc.capacity (ringSize capacity)) policy log s f := by
  refine h.accepted (R := Rel (Mpmc.capacity (ringSize capacity)) policy) ?_ ?_
  · refine ⟨Mpmc.size_newMPMC _, Mpmc.inv_newMPMC _ (fun t _ => ?_) fun t => ?_, rfl, rfl, rfl, rfl,
      fun _ => rfl, trivial, fun _ => trivial⟩
    · cases t <;> rfl
    · cases t <;> trivial
  · exact fun _ hacc hrel _ hstep => hrel.step (ledger hacc) (step_cases hstep)

theorem disruptor_counted {capacity : Int} {C : State ι β κ → Act ι β κ → Prop}
    (h : (machine capacity policy).Exec C log s) : s.dropped = .ofNat (spilled log) := by
  obtain ⟨f, hacc, hrel⟩ := disruptor_accepted h
  rw [hrel.dropped, (ledger hacc).lost]

theorem disruptor_never_nil {capacity : Int} {C : State ι β κ → Act ι β κ → Prop}
    (h : (machine capacity policy).Exec C log s) :
    ∀ draining, s.consumer ≠ .dequeuing draining (.deqRet none true) := by
  refine h.invariant (P := fun _ s => ∀ draining, s.consumer ≠ .dequeuing draining (.deqRet none true))
    nofun ?_
  intro log s a s' evs hexec hp _ hstep
  obtain ⟨f, -, hrel⟩ := disruptor_accepted hexec
  cases step_cases hstep with
  | dequeue pick draining hc hop =>
    intro b hb
    obtain ⟨-, hpc⟩ := Consumer.dequeuing.inj hb
    cases hop with
    | deqStore pos v =>
      have hstored : s.pcs none = .deqStore pos v := by
        rw [State.pcs, hc]
        rfl
      exact hrel.inv.stored_some hstored (Mpmc.Pc.deqRet.inj hpc).1
    | _ => cases hpc
  | dequeued pick draining x hc => exact nofun
  | empty pick v hc => exact nofun
  | stop pick v hc => exact nofun
  | emit pick draining x hc => exact nofun
  | check pick hc =>
    intro b hb
    cases (Consumer.dequeuing.inj hb).2
  | exit pick hc => exact nofun
  | _ => exact hp

end Simulation

end UbgoLogger.Transport.Disruptor
