import UbgoLogger.Foundation.Machine
import UbgoLogger.Sink.FingersCrossed

namespace UbgoLogger.Sink.EmitOrder
open Foundation

-- One Emit call: its number counts the critical sections entered before it.
structure Call (β : Type) where
  number : Nat
  record : β
  deriving DecidableEq

inductive Act (ι β : Type) where
  | emit (i : ι) (b : β)
  | send (i : ι)

inductive Event (ι β : Type) where
  | locked (i : ι) (c : Call β) (v : Verdict) (out : List (Call β))
  | received (c : Call β)
  deriving DecidableEq

-- The buffer of one scope and, for each goroutine inside Emit, the records it still hands to inner.
structure State (ι β : Type) where
  buffer : FcBuffer (Call β)
  todo : ι → List (Call β)
  calls : Nat

variable {ι β : Type}

section Lists

variable {α : Type} {a b : α} {xs ys : List α}

theorem pair_of_suffix (h : [a, b].Sublist ys) (hs : xs <:+ ys) (hn : ys.Nodup) (ha : a ∈ xs) :
    [a, b].Sublist xs := by
  obtain ⟨front, rfl⟩ := hs
  obtain ⟨l, r, hlr, hl, hr⟩ := List.sublist_append_iff.mp h
  cases l with
  | nil => exact (show r = [a, b] from hlr.symm) ▸ hr
  | cons x l =>
    obtain ⟨rfl, -⟩ := List.cons.inj hlr
    have hdisjoint := (List.nodup_append'.mp hn).2.2
    exact absurd ha fun hmem => hdisjoint (hl.subset List.mem_cons_self) hmem

end Lists

structure Placed (s : State ι β) (xs : List (Call β)) (log : List (Event ι β)) : Prop where
  kept : xs.Nodup
  taken : ∀ i, (s.todo i).Nodup
  apart : ∀ i j c, c ∈ s.todo i → c ∈ s.todo j → i = j
  away : ∀ c ∈ xs, ∀ i, c ∉ s.todo i
  passedOn : ∀ c, .received c ∈ log → c ∉ xs ∧ ∀ i, c ∉ s.todo i
  known : ∀ c, c ∈ xs ∨ (∃ i, c ∈ s.todo i) ∨ .received c ∈ log → c.number < s.calls
  outstanding : ∀ i, ∀ c ∈ s.todo i, ∃ j d v out, .locked j d v out ∈ log ∧ c ∈ out
  numbered : ∀ i c v out, .locked i c v out ∈ log → c.number < s.calls

theorem Placed.fresh {s : State ι β} {xs : List (Call β)} {log : List (Event ι β)}
    (h : Placed s xs log) {c : Call β} (hc : c.number = s.calls) :
    c ∉ xs ∧ (∀ i, c ∉ s.todo i) ∧ .received c ∉ log := by
  have hknown := h.known c
  refine ⟨fun hm => ?_, fun i hm => ?_, fun hm => ?_⟩
  · exact absurd (hknown (.inl hm)) (by omega)
  · exact absurd (hknown (.inr (.inl ⟨i, hm⟩))) (by omega)
  · exact absurd (hknown (.inr (.inr hm))) (by omega)

section Steps

variable [DecidableEq ι]

def step (f : FingersCrossed) (level : β → Level) (s : State ι β) :
    Act ι β → Option (State ι β × List (Event ι β))
  | .emit i b =>
      match s.todo i with
      | [] =>
          let c : Call β := ⟨s.calls, b⟩
          let p := f.locked (fun c => level c.record) s.buffer c
          some (⟨p.1, Function.update s.todo i p.2, s.calls + 1⟩,
            [.locked i c (f.verdict s.buffer.activated (level b)) p.2])
      | _ :: _ => none
  | .send i =>
      match s.todo i with
      | [] => none
      | c :: rest => some ({ s with todo := Function.update s.todo i rest }, [.received c])

def machine (f : FingersCrossed) (level : β → Level) (capacity : Int) :
    Machine (State ι β) (Act ι β) (Event ι β) where
  init := ⟨newFCBuffer capacity, fun _ => [], 0⟩
  step := step f level

-- What a step does to the records in the buffer, xs, and to those in some goroutine's hands.
inductive Step (s : State ι β) (xs : List (Call β)) :
    State ι β → List (Call β) → Event ι β → Prop
  | opened (i : ι) (c : Call β) (hc : c.number = s.calls) (hi : s.todo i = []) (hx : xs = [])
      {b : FcBuffer (Call β)} :
      Step s xs ⟨b, Function.update s.todo i [c], s.calls + 1⟩ xs (.locked i c .opened [c])
  | activating (i : ι) (c : Call β) (hc : c.number = s.calls) (hi : s.todo i = [])
      {b : FcBuffer (Call β)} :
      Step s xs ⟨b, Function.update s.todo i (xs ++ [c]), s.calls + 1⟩ []
        (.locked i c .activating (xs ++ [c]))
  | passed (i : ι) (c : Call β) (hc : c.number = s.calls) (hi : s.todo i = [])
      {b : FcBuffer (Call β)} :
      Step s xs ⟨b, Function.update s.todo i [c], s.calls + 1⟩ xs (.locked i c .passed [c])
  | buffered (i : ι) (c : Call β) (hc : c.number = s.calls) (hi : s.todo i = [])
      {b : FcBuffer (Call β)} :
      Step s xs ⟨b, Function.update s.todo i [], s.calls + 1⟩ ((xs ++ [c]).rtake s.buffer.cap)
        (.locked i c .buffered [])
  | send (i : ι) (c : Call β) (rest : List (Call β)) (hi : s.todo i = c :: rest) :
      Step s xs { s with todo := Function.update s.todo i rest } xs (.received c)

variable {f : FingersCrossed} {level : β → Level} {s s' : State ι β} {xs xs' : List (Call β)}
  {a : Act ι β} {evs log : List (Event ι β)} {e : Event ι β}

structure Holding (s : State ι β) (xs : List (Call β)) : Prop where
  keeps : s.buffer.Keeps xs
  opened : s.buffer.activated = true → xs = []

theorem Holding.locked (h : Holding s xs) (f : FingersCrossed) (level : β → Level) {i : ι}
    (hi : s.todo i = []) (c : Call β) (hc : c.number = s.calls) :
    let p := f.locked (fun c => level c.record) s.buffer c
    ∃ xs', Holding ⟨p.1, Function.update s.todo i p.2, s.calls + 1⟩ xs' ∧
      Step s xs ⟨p.1, Function.update s.todo i p.2, s.calls + 1⟩ xs'
        (.locked i c (f.verdict s.buffer.activated (level c.record)) p.2) := by
  have hopened := @FingersCrossed.verdict_opened f s.buffer.activated (level c.record)
  unfold FingersCrossed.locked
  cases hv : f.verdict s.buffer.activated (level c.record) with
  | opened => exact ⟨xs, ⟨h.keeps, h.opened⟩, .opened i c hc hi (h.opened (hopened.mp hv))⟩
  | activating =>
    obtain ⟨hempty, hdrained⟩ := h.keeps.drain
    rw [hdrained]
    exact ⟨[], ⟨⟨hempty.cap_eq, hempty.stores⟩, fun _ => rfl⟩, .activating i c hc hi⟩
  | passed => exact ⟨xs, ⟨h.keeps, h.opened⟩, .passed i c hc hi⟩
  | buffered =>
    refine ⟨_, ⟨h.keeps.push c, fun ha => ?_⟩, .buffered i c hc hi⟩
    cases hv.symm.trans (hopened.mpr (FcBuffer.push_activated _ c ▸ ha))

theorem step_cases (hs : step f level s a = some (s', evs)) (h : Holding s xs) :
    ∃ xs' e, evs = [e] ∧ Holding s' xs' ∧ Step s xs s' xs' e := by
  cases a with
  | emit i b =>
    simp only [step] at hs
    split at hs
    next hi =>
      cases hs
      obtain ⟨xs', hnext, hstep⟩ := h.locked f level hi ⟨s.calls, b⟩ rfl
      exact ⟨xs', _, rfl, hnext, hstep⟩
    next => cases hs
  | send i =>
    simp only [step] at hs
    split at hs
    next => cases hs
    next c rest hi =>
      cases hs
      exact ⟨xs, .received c, rfl, ⟨h.keeps, h.opened⟩, .send i c rest hi⟩

theorem placed_fresh {capacity : Int} :
    Placed (machine f level capacity : Machine (State ι β) _ _).init [] [] where
  kept := List.nodup_nil
  taken := fun _ => List.nodup_nil
  apart := nofun
  away := nofun
  passedOn := nofun
  known := fun c hc => by simp [machine] at hc
  outstanding := nofun
  numbered := nofun

theorem nodup_update {todo : ι → List (Call β)} (h : ∀ j, (todo j).Nodup) {i : ι}
    {out : List (Call β)} (hout : out.Nodup) (j : ι) : (Function.update todo i out j).Nodup := by
  rw [Function.update_apply]
  split
  · exact hout
  · exact h j

theorem Placed.lock (h : Placed s xs log) {i : ι} {c : Call β}
    (hc : c.number = s.calls) {v : Verdict} {out : List (Call β)} {b : FcBuffer (Call β)}
    (hsub : (out ++ xs').Subperm (xs ++ [c])) :
    Placed ⟨b, Function.update s.todo i out, s.calls + 1⟩ xs' (log ++ [.locked i c v out]) := by
  obtain ⟨hxs, htodo, hreceived⟩ := h.fresh hc
  have hnodup : (out ++ xs').Nodup := by
    obtain ⟨l, hperm, hl⟩ := hsub
    have hall : (xs ++ [c]).Nodup := List.concat_eq_append ▸ h.kept.concat hxs
    exact hperm.nodup_iff.mp (hall.sublist hl)
  obtain ⟨hout, hxs', hdisjoint⟩ := List.nodup_append'.mp hnodup
  have hold : ∀ y, y ∈ out ∨ y ∈ xs' → y ∈ xs ∨ y = c := by
    intro y hy
    have hmem := hsub.subset (List.mem_append.mpr hy)
    simpa using hmem
  have haway := h.away
  have hapart := h.apart
  have hpassed := h.passedOn
  have hknown := h.known
  have hupdate := Function.update_apply s.todo i out
  refine ⟨hxs', fun j => ?_, fun j k y hj hk => ?_, fun y hy j hj => ?_, fun y hy => ?_,
    fun y hy => ?_, fun j y hj => ?_, fun j y w o hy => ?_⟩
  · exact nodup_update h.taken hout j
  · grind
  · grind
  · grind
  · grind
  · grind [h.outstanding]
  · grind [h.numbered]

theorem Placed.send (h : Placed s xs log) {i : ι} {c : Call β} {rest : List (Call β)}
    (hi : s.todo i = c :: rest) :
    Placed { s with todo := Function.update s.todo i rest } xs (log ++ [.received c]) := by
  have haway := h.away
  have hapart := h.apart
  have hpassed := h.passedOn
  have hknown := h.known
  have hupdate := Function.update_apply s.todo i rest
  obtain ⟨hc, hrest⟩ := List.nodup_cons.mp (hi ▸ h.taken i)
  have hown : ∀ y ∈ rest, y ∈ s.todo i := fun y hy => hi ▸ List.mem_cons_of_mem c hy
  have hmine : c ∈ s.todo i := hi ▸ List.mem_cons_self
  refine ⟨h.kept, fun j => ?_, fun j k y hj hk => ?_, fun y hy j hj => ?_, fun y hy => ?_,
    fun y hy => ?_, fun j y hj => ?_, fun j y w o hy => ?_⟩
  · exact nodup_update h.taken hrest j
  · grind
  · grind
  · grind
  · grind
  · grind [h.outstanding]
  · grind [h.numbered]

theorem Placed.step (h : Placed s xs log) (hs : Step s xs s' xs' e) :
    Placed s' xs' (log ++ [e]) := by
  cases hs with
  | opened i c hc hi hx => exact h.lock hc (by simp [hx])
  | activating i c hc hi => exact h.lock hc (by rw [List.append_nil])
  | passed i c hc hi => exact h.lock hc (List.perm_append_comm.subperm)
  | buffered i c hc hi => exact h.lock hc (List.drop_sublist _ _).subperm
  | send i c rest hi => exact h.send hi

def Outstanding (log : List (Event ι β)) (a : Call β) : Prop :=
  (∃ i c v out, .locked i c v out ∈ log ∧ a ∈ out) ∧ .received a ∉ log

structure Gone (s : State ι β) (xs : List (Call β)) (log : List (Event ι β)) (a : Call β) : Prop where
  known : a.number < s.calls
  buffer : a ∉ xs
  todo : ∀ i, a ∉ s.todo i
  received : .received a ∉ log

-- Where two calls stand once the later one has left its critical section.
inductive Ordered (s : State ι β) (xs : List (Call β)) (log : List (Event ι β)) (a b : Call β) : Prop
  | received (ha : .received a ∈ log) (h : Preceded log (.received a) (.received b))
  | buffer (h : [a, b].Sublist xs)
  | todo (i : ι) (h : [a, b].Sublist (s.todo i))
  | gone (h : Gone s xs log a)

theorem Gone.step {x : Call β} (h : Gone s xs log x) (hs : Step s xs s' xs' e) :
    Gone s' xs' (log ++ [e]) x := by
  obtain ⟨hknown, hbuffer, htodo, hreceived⟩ := h
  have hdrop : ∀ {c : Call β} {n : Nat}, x ∈ (xs ++ [c]).rtake n → x ∈ xs ++ [c] :=
    fun hm => List.mem_of_mem_drop hm
  have hupdate := Function.update_apply s.todo
  refine ⟨?_, ?_, fun j => ?_, ?_⟩
  all_goals cases hs <;> grind

theorem Ordered.buffered {x y c : Call β} (h : [x, y].Sublist (xs ++ [c])) (hp : Placed s xs log)
    (hc : c.number = s.calls) (hx : x ∈ xs) {i : ι} {b : FcBuffer (Call β)} {n : Nat}
    {v : Verdict} :
    Ordered ⟨b, Function.update s.todo i [], s.calls + 1⟩ ((xs ++ [c]).rtake n)
      (log ++ [.locked i c v []]) x y := by
  have hall : (xs ++ [c]).Nodup := List.concat_eq_append ▸ hp.kept.concat (hp.fresh hc).1
  by_cases hmem : x ∈ (xs ++ [c]).rtake n
  · exact .buffer (pair_of_suffix h (List.drop_suffix _ _) hall hmem)
  · have haway := hp.away x hx
    have hpassed := hp.passedOn x
    have hknown := hp.known x (.inl hx)
    refine .gone ⟨Nat.lt_succ_of_lt hknown, hmem, fun j hj => ?_, fun hm => ?_⟩
    · change x ∈ Function.update s.todo i [] j at hj
      rw [Function.update_apply] at hj
      split at hj
      · cases hj
      · exact haway j hj
    · exact (List.mem_append.mp hm).elim (fun hm => (hpassed hm).1 hx) (by simp)

theorem Ordered.step {x y : Call β} (h : Ordered s xs log x y) (hp : Placed s xs log)
    (hs : Step s xs s' xs' e) : Ordered s' xs' (log ++ [e]) x y := by
  cases h with
  | received hx hpre => exact .received (List.mem_append_left _ hx) (hpre.append fun _ => hx)
  | buffer hxy =>
    have hlater : ∀ c, [x, y].Sublist (xs ++ [c]) :=
      fun c => hxy.trans (List.sublist_append_left xs [c])
    cases hs with
    | opened i c hc hi hx =>
      rw [hx] at hxy
      cases hxy
    | activating i c hc hi => exact .todo i (by simpa using hlater c)
    | passed i c hc hi => exact .buffer hxy
    | buffered i c hc hi => exact .buffered (hlater c) hp hc (hxy.subset List.mem_cons_self)
    | send i c rest hi => exact .buffer hxy
  | todo j hxy =>
    have hbusy : ∀ {i}, s.todo i = [] → j ≠ i := by
      rintro i hi rfl
      rw [hi] at hxy
      cases hxy
    cases hs with
    | opened i c hc hi | activating i c hc hi | passed i c hc hi | buffered i c hc hi =>
      exact .todo j (by simpa [Function.update_of_ne (hbusy hi)] using hxy)
    | send i c rest hi =>
      rcases eq_or_ne j i with rfl | hne
      · rw [hi] at hxy
        have hnodup := hi ▸ hp.taken j
        cases hxy with
        | cons _ hrest => exact .todo j (by simpa using hrest)
        | cons_cons _ hrest =>
          have hy : y ∈ s.todo j := hi ▸ List.mem_cons_of_mem _ (hrest.subset List.mem_cons_self)
          refine .received (by simp) (preceded_of_not_mem _ fun hm => ?_)
          rcases List.mem_append.mp hm with hm | hm
          · exact (hp.passedOn y hm).2 j hy
          · obtain rfl : y = x := by simpa using hm
            exact (List.nodup_cons.mp hnodup).1 (hrest.subset List.mem_cons_self)
      · exact .todo j (by simpa [Function.update_of_ne hne] using hxy)
  | gone hgone => exact .gone (hgone.step hs)

theorem Step.locked_number {i : ι} {y : Call β} {v : Verdict} {out : List (Call β)}
    (hs : Step s xs s' xs' (.locked i y v out)) : y.number = s.calls := by
  cases hs <;> assumption

theorem Ordered.lock {x y : Call β} {i : ι} {v : Verdict} {out : List (Call β)}
    (hp : Placed s xs log) (hknown : x.number < s.calls) (hsettled : ¬Outstanding log x)
    (hpassed : v = .passed → .received x ∈ log) (hs : Step s xs s' xs' (.locked i y v out)) :
    Ordered s' xs' (log ++ [.locked i y v out]) x y := by
  by_cases hrec : .received x ∈ log
  · refine .received (List.mem_append_left _ hrec) (preceded_of_not_mem _ fun hm => ?_)
    exact (List.mem_append.mp hm).elim (hp.fresh hs.locked_number).2.2 (by simp)
  · have htodo : ∀ j, x ∉ s.todo j := fun j hj => hsettled ⟨hp.outstanding j x hj, hrec⟩
    by_cases hx : x ∈ xs
    · have hxy : [x, y].Sublist (xs ++ [y]) :=
        (List.singleton_sublist.mpr hx).append (List.Sublist.refl [y])
      cases hs with
      | opened _ _ hc hi hempty =>
        rw [hempty] at hx
        cases hx
      | activating _ _ hc hi => exact .todo i (by simpa using hxy)
      | passed _ _ hc hi => exact absurd (hpassed rfl) hrec
      | buffered _ _ hc hi => exact .buffered hxy hp hc hx
    · exact .gone (Gone.step ⟨hknown, hx, htodo, hrec⟩ hs)

structure Kept (s : State ι β) (xs : List (Call β)) (log : List (Event ι β)) : Prop where
  holding : Holding s xs
  placed : Placed s xs log
  ordered : ∀ before after i y v out, log = before ++ .locked i y v out :: after →
    ∀ j x w o, .locked j x w o ∈ before → ¬Outstanding before x →
      (v = .passed → .received x ∈ before) → Ordered s xs log x y

theorem Kept.step (h : Kept s xs log) (hs : step f level s a = some (s', evs)) :
    ∃ xs', Kept s' xs' (log ++ evs) := by
  obtain ⟨xs', e, rfl, hholding, hstep⟩ := step_cases hs h.holding
  refine ⟨xs', hholding, h.placed.step hstep, ?_⟩
  intro before after i y v out hlog j x w o hx hsettled hpassed
  rcases List.eq_nil_or_concat after with rfl | ⟨rest, e', rfl⟩
  · obtain ⟨rfl, he⟩ := List.append_inj' hlog rfl
    obtain rfl := List.singleton_inj.mp he
    exact .lock h.placed (h.placed.numbered j x w o hx) hsettled hpassed hstep
  · rw [List.concat_eq_append, ← List.cons_append, ← List.append_assoc] at hlog
    obtain ⟨rfl, -⟩ := List.append_inj' hlog rfl
    exact (h.ordered before rest i y v out rfl j x w o hx hsettled hpassed).step h.placed hstep

theorem kept_run {capacity : Int} (h : (machine f level capacity).Run log s) :
    ∃ xs, Kept s xs log := by
  refine h.invariant (P := fun log s => ∃ xs, Kept s xs log)
    ⟨[], ⟨newFCBuffer_keeps capacity, fun _ => rfl⟩, placed_fresh, ?_⟩ ?_
  · intro before after i y v out hlog
    simp at hlog
  · rintro log s a s' evs - ⟨xs, hkept⟩ - hs
    exact hkept.step hs

theorem emit_order (f : FingersCrossed) (level : β → Level) (capacity : Int)
    (log : List (Event ι β)) (s : State ι β) (h : (machine f level capacity).Run log s)
    (before after : List (Event ι β)) (i : ι) (y : Call β) (v : Verdict) (out : List (Call β))
    (hlog : log = before ++ .locked i y v out :: after) (j : ι) (x : Call β) (w : Verdict)
    (o : List (Call β)) (hx : .locked j x w o ∈ before) (hsettled : ¬Outstanding before x)
    (hpassed : v = .passed → .received x ∈ before) (hreceived : .received x ∈ log) :
    Preceded log (.received x) (.received y) := by
  obtain ⟨xs, hkept⟩ := kept_run h
  cases hkept.ordered before after i y v out hlog j x w o hx hsettled hpassed with
  | received _ hpre => exact hpre
  | buffer hxy =>
    refine preceded_of_not_mem _ fun hm => ?_
    exact (hkept.placed.passedOn y hm).1 (hxy.subset (by simp))
  | todo k hxy =>
    refine preceded_of_not_mem _ fun hm => ?_
    exact (hkept.placed.passedOn y hm).2 k (hxy.subset (by simp))
  | gone hgone => exact absurd hreceived hgone.received

end Steps

def trailLog : List (Event Nat Level) :=
  [.locked 0 ⟨0, .debug⟩ .buffered [], .locked 1 ⟨1, .info⟩ .buffered [],
    .locked 0 ⟨2, .error⟩ .activating [⟨0, .debug⟩, ⟨1, .info⟩, ⟨2, .error⟩],
    .received ⟨0, .debug⟩, .received ⟨1, .info⟩, .received ⟨2, .error⟩]

theorem emit_order_trail :
    ∃ s, (machine newFingersCrossed id 256).Run trailLog s ∧
      Preceded trailLog (.received ⟨0, .debug⟩) (.received ⟨1, .info⟩) := by
  obtain ⟨log, s, hrun, hgood⟩ := Machine.exists_exec (M := machine newFingersCrossed id 256)
    (C := fun _ _ => True)
    [.emit 0 .debug, .emit 1 .info, .emit 0 .error, .send 0, .send 0, .send 0]
    (fun log (_ : State Nat Level) => decide (log = trailLog)) (by decide +kernel)
  obtain rfl := of_decide_eq_true hgood
  refine ⟨s, hrun, emit_order newFingersCrossed id 256 trailLog s hrun
    [.locked 0 ⟨0, .debug⟩ .buffered []] _ 1 _ .buffered [] rfl 0 _ .buffered [] (by simp) ?_ nofun
    (by decide)⟩
  rintro ⟨⟨i, c, v, out, hm, hout⟩, -⟩
  simp_all

def overtakenLog : List (Event Nat Level) :=
  [.locked 0 ⟨0, .debug⟩ .buffered [], .locked 0 ⟨1, .warn⟩ .passed [⟨1, .warn⟩],
    .received ⟨1, .warn⟩, .locked 0 ⟨2, .error⟩ .activating [⟨0, .debug⟩, ⟨2, .error⟩],
    .received ⟨0, .debug⟩, .received ⟨2, .error⟩]

theorem passThrough_overtakes :
    ∃ s, (machine { newFingersCrossed with passThrough := .warn } id 256).Run overtakenLog s ∧
      .received ⟨0, .debug⟩ ∈ overtakenLog ∧ .received ⟨1, .warn⟩ ∈ overtakenLog ∧
        ¬Preceded overtakenLog (.received ⟨0, .debug⟩) (.received ⟨1, .warn⟩) := by
  obtain ⟨log, s, hrun, hgood⟩ := Machine.exists_exec
    (M := machine { newFingersCrossed with passThrough := .warn } id 256) (C := fun _ _ => True)
    [.emit 0 .debug, .emit 0 .warn, .send 0, .emit 0 .error, .send 0, .send 0]
    (fun log (_ : State Nat Level) => decide (log = overtakenLog)) (by decide +kernel)
  obtain rfl := of_decide_eq_true hgood
  refine ⟨s, hrun, by decide, by decide, fun h => ?_⟩
  exact absurd (h (overtakenLog.take 2) (overtakenLog.drop 3) rfl) (by decide)

-- The goroutine that activates has unlocked and not flushed yet when another one finds the scope
-- open.
def unlockedLog : List (Event Nat Level) :=
  [.locked 0 ⟨0, .debug⟩ .buffered [],
    .locked 0 ⟨1, .error⟩ .activating [⟨0, .debug⟩, ⟨1, .error⟩],
    .locked 1 ⟨2, .info⟩ .opened [⟨2, .info⟩], .received ⟨2, .info⟩, .received ⟨0, .debug⟩,
    .received ⟨1, .error⟩]

theorem flush_overtaken :
    ∃ s, (machine newFingersCrossed id 256).Run unlockedLog s ∧
      .received ⟨0, .debug⟩ ∈ unlockedLog ∧ .received ⟨2, .info⟩ ∈ unlockedLog ∧
        ¬Preceded unlockedLog (.received ⟨0, .debug⟩) (.received ⟨2, .info⟩) ∧
        ¬Preceded unlockedLog (.received ⟨1, .error⟩) (.received ⟨2, .info⟩) := by
  obtain ⟨log, s, hrun, hgood⟩ := Machine.exists_exec (M := machine newFingersCrossed id 256)
    (C := fun _ _ => True)
    [.emit 0 .debug, .emit 0 .error, .emit 1 .info, .send 1, .send 0, .send 0]
    (fun log (_ : State Nat Level) => decide (log = unlockedLog)) (by decide +kernel)
  obtain rfl := of_decide_eq_true hgood
  refine ⟨s, hrun, by decide, by decide, fun h => ?_, fun h => ?_⟩
  · exact absurd (h (unlockedLog.take 3) (unlockedLog.drop 4) rfl) (by decide)
  · exact absurd (h (unlockedLog.take 3) (unlockedLog.drop 4) rfl) (by decide)

end UbgoLogger.Sink.EmitOrder
