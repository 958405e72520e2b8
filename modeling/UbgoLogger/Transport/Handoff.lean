import UbgoLogger.Core.Pool
import UbgoLogger.Transport.Engine
import Mathlib.Data.Fintype.Basic

namespace UbgoLogger.Transport
open Foundation

namespace Sync

variable {ρ : Type}

def dispatch (sink : List ρ) (r : ρ) : List ρ := sink ++ [r]

def deliver (rs : List ρ) : List ρ := rs.foldl dispatch []

theorem foldl_dispatch (sink rs : List ρ) : rs.foldl dispatch sink = sink ++ rs := by
  induction rs generalizing sink with
  | nil => exact (List.append_nil sink).symm
  | cons r rs ih =>
    rw [List.foldl_cons, ih, dispatch, List.append_assoc]
    rfl

theorem deliver_eq (rs : List ρ) : deliver rs = rs := foldl_dispatch [] rs

end Sync

abbrev Snapshot (χ γ : Type) := Record χ (Option γ)

-- The transport carries addresses of clones; clones are the records only the transport can reach.
structure World (σ χ γ : Type) where
  heap : Heap χ γ
  clones : List Nat
  transport : σ

inductive Move (ι χ γ κ : Type) where
  | client (op : ClientOp χ γ)
  | transport (a : Act ι Nat κ)

structure Entry (ι χ γ κ : Type) where
  event : Event ι Nat κ
  seen : Option (Snapshot χ γ)

variable {ι κ χ γ σ : Type}

def Item.view {β ρ : Type} (f : β → ρ) (x : Item ι β) : Item ι ρ := ⟨x.producer, x.call, f x.record⟩

def Entry.dispatchedItem (e : Entry ι χ γ κ) : Option (Item ι (Snapshot χ γ)) :=
  match e.event, e.seen with
  | .call x, some r => some (x.view fun _ => r)
  | _, _ => none

def Entry.sunkItem (e : Entry ι χ γ κ) : Option (Item ι (Snapshot χ γ)) :=
  match e.event, e.seen with
  | .emit x, some r => some (x.view fun _ => r)
  | _, _ => none

def events (log : List (Entry ι χ γ κ)) : List (Event ι Nat κ) := log.map Entry.event

def dispatched (log : List (Entry ι χ γ κ)) : List (Item ι (Snapshot χ γ)) :=
  log.filterMap Entry.dispatchedItem

def sunk (log : List (Entry ι χ γ κ)) : List (Item ι (Snapshot χ γ)) := log.filterMap Entry.sunkItem

def releaseAll (h : Heap χ γ) (xs : List (Item ι Nat)) : Heap χ γ :=
  xs.foldl (fun h x => h.release x.record) h

def World.reaches (w : World σ χ γ) (op : ClientOp χ γ) : Bool :=
  op.target.all fun a => decide (a < w.heap.objects ∧ a ∉ w.clones)

def World.step (M : Machine σ (Act ι Nat κ) (Event ι Nat κ)) (w : World σ χ γ) :
    Move ι χ γ κ → Option (World σ χ γ × List (Entry ι χ γ κ))
  | .client op =>
      if w.reaches op then some ({ w with heap := op.apply w.heap }, []) else none
  | .transport (.dispatch i src) =>
      if src < w.heap.objects then
        match M.step w.transport (.dispatch i (w.heap.clone src).2) with
        | none => none
        | some (t, evs) =>
            some (⟨(w.heap.clone src).1, (w.heap.clone src).2 :: w.clones, t⟩,
              evs.map fun e => ⟨e, some (w.heap.read src)⟩)
      else none
  | .transport a =>
      match M.step w.transport a with
      | none => none
      | some (t, evs) =>
          some ({ w with heap := releaseAll w.heap (emitted evs), transport := t },
            evs.map fun e => ⟨e, e.emitItem.map fun x => w.heap.read x.record⟩)

def handoff (M : Machine σ (Act ι Nat κ) (Event ι Nat κ)) :
    Machine (World σ χ γ) (Move ι χ γ κ) (Entry ι χ γ κ) where
  init := ⟨.empty, [], M.init⟩
  step := World.step M

inductive World.Step (M : Machine σ (Act ι Nat κ) (Event ι Nat κ)) (w : World σ χ γ) :
    World σ χ γ → List (Entry ι χ γ κ) → Prop
  | client (op : ClientOp χ γ)
      (hop : ∀ a, op.target = some a → a < w.heap.objects ∧ a ∉ w.clones) :
      Step M w { w with heap := op.apply w.heap } []
  | dispatch (i : ι) (src : Nat) {t : σ} {evs : List (Event ι Nat κ)}
      (h : M.step w.transport (.dispatch i (w.heap.clone src).2) = some (t, evs)) :
      Step M w ⟨(w.heap.clone src).1, (w.heap.clone src).2 :: w.clones, t⟩
        (evs.map fun e => ⟨e, some (w.heap.read src)⟩)
  | inner (a : Act ι Nat κ) {t : σ} {evs : List (Event ι Nat κ)} (ha : ∀ i b, a ≠ .dispatch i b)
      (h : M.step w.transport a = some (t, evs)) :
      Step M w { w with heap := releaseAll w.heap (emitted evs), transport := t }
        (evs.map fun e => ⟨e, e.emitItem.map fun x => w.heap.read x.record⟩)

section Runs

variable {M : Machine σ (Act ι Nat κ) (Event ι Nat κ)} {w w' : World σ χ γ} {m : Move ι χ γ κ}
  {log entries : List (Entry ι χ γ κ)} {evs : List (Event ι Nat κ)}

theorem World.step_cases (h : World.step M w m = some (w', entries)) : World.Step M w w' entries := by
  unfold World.step at h
  split at h
  next op =>
    split at h
    next hop =>
      cases h
      refine .client op fun a ha => ?_
      rw [World.reaches, ha] at hop
      exact of_decide_eq_true hop
    next => cases h
  next i src =>
    split at h
    next =>
      split at h
      next => cases h
      next t evs hs =>
        cases h
        exact .dispatch i src hs
    next => cases h
  next a ha =>
    split at h
    next => cases h
    next t evs hs =>
      cases h
      exact .inner a (fun i b he => ha i b he) hs

theorem events_append (xs ys : List (Entry ι χ γ κ)) : events (xs ++ ys) = events xs ++ events ys :=
  List.map_append

theorem events_map (evs : List (Event ι Nat κ)) (f : Event ι Nat κ → Option (Snapshot χ γ)) :
    events (evs.map fun e => ⟨e, f e⟩) = evs := by
  rw [events, List.map_map]
  exact List.map_id evs

theorem handoff_run (h : (handoff M).Run log w) : M.Run (events log) w.transport := by
  refine h.invariant (P := fun log w => M.Run (events log) w.transport) .start ?_
  intro log w m w' entries _ hp _ hstep
  rw [events_append]
  cases World.step_cases hstep with
  | client op hop => rwa [show events ([] : List (Entry ι χ γ κ)) = [] from rfl, List.append_nil]
  | dispatch i src hs =>
    rw [events_map]
    exact hp.step trivial hs
  | inner a ha hs =>
    rw [events_map]
    exact hp.step trivial hs

theorem sunk_map (h : Heap χ γ) (evs : List (Event ι Nat κ)) :
    sunk (evs.map fun e => ⟨e, e.emitItem.map fun x => h.read x.record⟩) =
      (emitted evs).map (Item.view h.read) := by
  rw [sunk, emitted, List.filterMap_map, List.map_filterMap]
  refine congrArg (fun f => evs.filterMap f) (funext fun e => ?_)
  cases e <;> rfl

theorem dispatched_map (h : Heap χ γ) (evs : List (Event ι Nat κ)) :
    dispatched (evs.map fun e => ⟨e, e.emitItem.map fun x => h.read x.record⟩) = [] := by
  rw [dispatched, List.filterMap_map, List.filterMap_eq_nil_iff]
  intro e _
  cases e <;> rfl

theorem releaseAll_clones {h : Heap χ γ} {clones : List Nat} (hs : Separate h clones)
    {xs : List (Item ι Nat)} (hx : ∀ x ∈ xs, x.record ∈ clones) : releaseAll h xs = h := by
  induction xs with
  | nil => rfl
  | cons x xs ih =>
    rw [releaseAll, List.foldl_cons, release_clone hs (hx x List.mem_cons_self)]
    exact ih fun y hy => hx y (List.mem_cons_of_mem x hy)

theorem view_keeps {h h' : Heap χ γ} {clones : List Nat} (hk : Keeps h h' clones)
    {xs : List (Item ι Nat)} (hx : ∀ x ∈ xs, x.record ∈ clones) :
    xs.map (Item.view h'.read) = xs.map (Item.view h.read) :=
  List.map_congr_left fun x hmem => congrArg (Item.mk x.producer x.call) (hk.read_eq (hx x hmem))

structure Frozen (log : List (Entry ι χ γ κ)) (w : World σ χ γ) : Prop where
  separate : Separate w.heap w.clones
  owned : ∀ x ∈ calls (events log), x.record ∈ w.clones
  emitted : ∀ x ∈ emitted (events log), x.record ∈ w.clones
  dispatched : dispatched log = (calls (events log)).map (Item.view w.heap.read)
  sunk : sunk log = (Transport.emitted (events log)).map (Item.view w.heap.read)

theorem frozen_init : Frozen ([] : List (Entry ι χ γ κ)) (handoff (χ := χ) (γ := γ) M).init where
  separate := separate_empty
  owned := nofun
  emitted := nofun
  dispatched := rfl
  sunk := rfl

theorem Frozen.client (h : Frozen log w) (op : ClientOp χ γ)
    (hop : ∀ a, op.target = some a → a < w.heap.objects ∧ a ∉ w.clones) :
    Frozen log { w with heap := op.apply w.heap } := by
  obtain ⟨b, hb, hc⟩ := op.changes h.separate hop
  have hkeeps := h.separate.keeps hb hc
  exact ⟨h.separate.change hb hc, h.owned, h.emitted,
    h.dispatched.trans (view_keeps hkeeps h.owned).symm,
    h.sunk.trans (view_keeps hkeeps h.emitted).symm⟩

theorem Frozen.dispatch (h : Frozen log w) (i : ι) (n src : Nat) (t : σ) :
    Frozen (log ++ [⟨.call ⟨i, n, (w.heap.clone src).2⟩, some (w.heap.read src)⟩])
      ⟨(w.heap.clone src).1, (w.heap.clone src).2 :: w.clones, t⟩ := by
  have hkeeps := keeps_clone h.separate src
  have hcalls : calls (events (log ++
      [⟨.call ⟨i, n, (w.heap.clone src).2⟩, some (w.heap.read src)⟩])) =
      calls (events log) ++ [⟨i, n, (w.heap.clone src).2⟩] := by
    rw [events_append, calls_append]
    rfl
  have hemitted : Transport.emitted (events (log ++
      [⟨.call ⟨i, n, (w.heap.clone src).2⟩, some (w.heap.read src)⟩])) =
      Transport.emitted (events log) := by
    rw [events_append, emitted_append]
    exact List.append_nil _
  refine ⟨h.separate.clone src, fun x hx => ?_, fun x hx => ?_, ?_, ?_⟩
  · rw [hcalls] at hx
    rcases List.mem_append.mp hx with hold | hnew
    · exact List.mem_cons_of_mem _ (h.owned x hold)
    · rw [List.mem_singleton.mp hnew]
      exact List.mem_cons_self
  · rw [hemitted] at hx
    exact List.mem_cons_of_mem _ (h.emitted x hx)
  · rw [hcalls, List.map_append, view_keeps hkeeps h.owned, ← h.dispatched, Transport.dispatched,
      List.filterMap_append]
    refine congrArg (Transport.dispatched log ++ ·) (congrArg (fun r => [Item.mk i n r]) ?_)
    exact (read_clone w.heap src).symm
  · rw [hemitted, view_keeps hkeeps h.emitted, ← h.sunk, Transport.sunk, List.filterMap_append]
    exact List.append_nil _

theorem Frozen.inner (h : Frozen log w) (hcalls : calls evs = [])
    (hemit : ∀ x ∈ Transport.emitted (events log ++ evs), x ∈ calls (events log ++ evs)) (t : σ) :
    Frozen (log ++ evs.map fun e => ⟨e, e.emitItem.map fun x => w.heap.read x.record⟩)
      { w with heap := releaseAll w.heap (Transport.emitted evs), transport := t } := by
  have hsame : calls (events log ++ evs) = calls (events log) := by
    rw [calls_append]
    exact (congrArg _ hcalls).trans (List.append_nil _)
  have howned : ∀ x ∈ Transport.emitted (events log ++ evs), x.record ∈ w.clones := fun x hx =>
    h.owned x (hsame ▸ hemit x hx)
  have hrelease : releaseAll w.heap (Transport.emitted evs) = w.heap := by
    refine releaseAll_clones h.separate fun x hx => howned x ?_
    rw [emitted_append]
    exact List.mem_append_right _ hx
  rw [hrelease]
  refine ⟨h.separate, ?_, ?_, ?_, ?_⟩
  · rw [events_append, events_map, hsame]
    exact h.owned
  · rw [events_append, events_map]
    exact howned
  · rw [events_append, events_map, hsame, ← h.dispatched, Transport.dispatched, List.filterMap_append]
    exact (congrArg _ (dispatched_map w.heap evs)).trans (List.append_nil _)
  · rw [events_append, events_map, emitted_append, List.map_append,
      Transport.sunk, List.filterMap_append]
    exact congrArg₂ (· ++ ·) h.sunk (sunk_map w.heap evs)

end Runs

section Carrier

variable [DecidableEq ι] {M : Machine σ (Act ι Nat κ) (Event ι Nat κ)} {w : World σ χ γ}
  {log : List (Entry ι χ γ κ)} {policy : OverflowPolicy} {dropped : σ → UInt64}

theorem Carrier.frozen (hM : Carrier M policy dropped) (h : (handoff M).Run log w) :
    Orderly (events log) → Frozen log w := by
  refine h.invariant (P := fun log w => Orderly (events log) → Frozen log w)
    (fun _ => frozen_init) ?_
  intro log w m w' entries hexec hp _ hstep ho
  have hrun := handoff_run (hexec.step trivial hstep)
  rw [events_append] at ho hrun
  have hfrozen := hp ho.of_append
  cases World.step_cases hstep with
  | client op hop =>
    rw [List.append_nil]
    exact hfrozen.client op hop
  | dispatch i src hs =>
    obtain ⟨n, rfl⟩ := hM.dispatch hs
    exact hfrozen.dispatch i n src _
  | inner a ha hs =>
    rw [events_map] at ho hrun
    exact hfrozen.inner (hM.inner hs ha) (hM.called hrun ho) _

theorem fibre_view {β ρ : Type} (f : β → ρ) (i : ι) (xs : List (Item ι β)) :
    fibre Item.producer i (xs.map (Item.view f)) = (fibre Item.producer i xs).map (Item.view f) :=
  List.filter_map

theorem Settled.view {β ρ : Type} {sent got : List (Item ι β)} {n : Nat}
    (h : Settled policy sent got n) (f : β → ρ) :
    Settled policy (sent.map (Item.view f)) (got.map (Item.view f)) n where
  balance := by
    rw [List.length_map, List.length_map]
    exact h.balance
  once := by
    rw [List.map_map]
    exact h.once
  called := fun x hx => by
    obtain ⟨y, hy, rfl⟩ := List.mem_map.mp hx
    exact List.mem_map_of_mem (h.called y hy)
  ordered := fun i => by
    rw [fibre_view, fibre_view]
    exact (h.ordered i).map _
  lossless := fun hp => by
    obtain ⟨hzero, hfibre⟩ := h.lossless hp
    exact ⟨hzero, fun i => by rw [fibre_view, fibre_view, hfibre i]⟩

theorem Carrier.delivered (hM : Carrier M policy dropped) (h : (handoff M).Run log w)
    (ho : Orderly (events log)) {k : κ} (hk : .closeRet k ∈ events log) :
    Settled policy (dispatched log) (sunk log) (spilled (events log)) := by
  have hfrozen := hM.frozen h ho
  rw [hfrozen.dispatched, hfrozen.sunk]
  exact (hM.settled (handoff_run h) ho hk).view _

theorem Settled.single {β : Type} {sent got : List (Item ι β)} {n : Nat}
    (h : Settled .block sent got n) {i : ι} (hi : ∀ x ∈ sent, x.producer = i) : got = sent := by
  have hall : ∀ xs : List (Item ι β), (∀ x ∈ xs, x.producer = i) → fibre Item.producer i xs = xs :=
    fun xs hxs => List.filter_eq_self.mpr fun x hx => decide_eq_true (hxs x hx)
  have hfibre := (h.lossless rfl).2 i
  rwa [hall got fun x hx => hi x (h.called x hx), hall sent hi] at hfibre

end Carrier

theorem async_interchangeable [DecidableEq ι] (t : Async) (capacity : Int) (policy : OverflowPolicy)
    (log : List (Entry ι χ γ Unit)) (w : World (t.State ι Nat) χ γ)
    (h : (handoff (t.machine capacity policy)).Run log w) (ho : Orderly (events log))
    (hk : .closeRet () ∈ events log) :
    (sunk log).length ≤ (dispatched log).length ∧
      t.dropped w.transport = .ofNat ((dispatched log).length - (sunk log).length) ∧
      ((sunk log).map Item.call).Nodup ∧
      (∀ x ∈ sunk log, x ∈ dispatched log) ∧
      (∀ i, (fibre Item.producer i (sunk log)).Sublist (fibre Item.producer i (dispatched log))) ∧
      (policy = .block → (sunk log).length = (dispatched log).length ∧ t.dropped w.transport = 0 ∧
        ∀ i, (∀ x ∈ dispatched log, x.producer = i) →
          (sunk log).map Item.record = Sync.deliver ((dispatched log).map Item.record)) := by
  have hcarrier := (t.engine (ι := ι) (β := Nat) capacity policy).toCarrier
  have hdelivered := hcarrier.delivered h ho hk
  have hbalance := hdelivered.balance
  have hcounted := hcarrier.counted (handoff_run h) ho
  refine ⟨hbalance ▸ Nat.le_add_right _ _, ?_, hdelivered.once, hdelivered.called,
    hdelivered.ordered, ?_⟩
  · rw [hcounted, ← hbalance, Nat.add_sub_cancel_left]
  rintro rfl
  obtain ⟨hlost, -⟩ := hdelivered.lossless rfl
  refine ⟨by omega, ?_, fun i hi => ?_⟩
  · rw [hcounted, hlost]
    rfl
  rw [Sync.deliver_eq, hdelivered.single hi]

theorem async_interchangeable_reusing :
    ∃ (log : List (Entry Unit Unit Unit Unit)) (w : World (Async.ring.State Unit Nat) Unit Unit),
      (handoff (Async.ring.machine 2 .block)).Run log w ∧
        (sunk log).map (fun x => x.record.message) = [[97], [98]] ∧
        (sunk log).map Item.record = Sync.deliver ((dispatched log).map Item.record) := by
  obtain ⟨log, w, hrun, hgood⟩ := Machine.exists_exec
    (M := handoff (χ := Unit) (γ := Unit) (Async.ring.machine (ι := Unit) (β := Nat) 2 .block))
    (C := fun _ _ => True)
    ([Move.client (.newRecord none), .client (.setHeader 0 { Header.zero with message := [97] }),
      .client (.addField 0 ⟨[107], .int64, 7, [], .nil⟩ []), .transport (.dispatch () 0),
      .client (.release 0), .client (.newRecord (some 0)),
      .client (.setHeader 0 { Header.zero with message := [98] }),
      .client (.addField 0 ⟨[107], .int64, 8, [], .nil⟩ []), .transport (.produce ()),
      .transport (.produce ()), .transport (.dispatch () 0), .client (.release 0),
      .transport (.produce ()), .transport (.produce ()), .transport (.close ()),
      .transport (.closer ())] ++ List.replicate 6 (Move.transport (.work 0)) ++
      List.replicate 4 (Move.transport (.closer ())))
    (fun log _ => decide ((∀ x ∈ calls (beforeClose (events log)),
      x ∈ returns (beforeClose (events log))) ∧ calls (afterClose (events log)) = [] ∧
      .closeRet () ∈ events log ∧ (sunk log).map (fun x => x.record.message) = [[97], [98]]))
    (by decide +kernel)
  obtain ⟨hret, hcalls, hclose, hsunk⟩ := of_decide_eq_true hgood
  have hall := async_interchangeable .ring 2 .block log w hrun (orderly_of_split hret hcalls) hclose
  exact ⟨log, w, hrun, hsunk, (hall.2.2.2.2.2 rfl).2.2 () fun _ _ => rfl⟩

end UbgoLogger.Transport
