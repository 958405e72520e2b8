import UbgoLogger.Foundation.History
import UbgoLogger.Transport.MpmcInvariant
import Mathlib.Data.List.Range

namespace UbgoLogger.Mpmc
open Foundation

variable {α τ : Type}

structure State (α τ : Type) where
  queue : Queue α
  pcs : τ → Pc α

inductive Act (α τ : Type) where
  | enqueue (t : τ) (v : α)
  | dequeue (t : τ)
  | run (t : τ)
  | finish (t : τ)

def Event.enqPos : Event α → Option Nat
  | .claimEnq pos _ => some pos
  | _ => none

def Event.deqPos : Event α → Option Nat
  | .claimDeq pos _ => some pos
  | _ => none

def Event.returned : Event α → Option Nat
  | .dequeued pos _ => some pos
  | _ => none

def releasing : Pc α → Option Nat
  | .deqRead pos => some pos
  | .deqClear pos _ => some pos
  | .deqStore pos _ => some pos
  | _ => none

section Events

variable {q q' : Queue α} {pc pc' : Pc α} {evs : List (Event α)}

theorem OpStep.size_eq (h : OpStep q pc q' pc' evs) : q'.size = q.size := by
  cases h <;> rfl

theorem OpStep.enqPos_eq (h : OpStep q pc q' pc' evs) :
    List.range q.enq ++ evs.filterMap Event.enqPos = List.range q'.enq := by
  cases h <;>
    simp [Event.enqPos, List.filterMap_cons, List.range_succ, Queue.setVal, Queue.setSeq]

theorem OpStep.deqPos_eq (h : OpStep q pc q' pc' evs) :
    List.range q.deq ++ evs.filterMap Event.deqPos = List.range q'.deq := by
  cases h <;>
    simp [Event.deqPos, List.filterMap_cons, List.range_succ, Queue.setVal, Queue.setSeq]

theorem OpStep.deq_mono (h : OpStep q pc q' pc' evs) : q.deq ≤ q'.deq := by
  cases h <;> simp [Queue.setVal, Queue.setSeq]

theorem OpStep.claimed_eq (h : OpStep q pc q' pc' evs) :
    evs.filterMap Event.claimed = [] ∨ ∃ v, evs = [.claimEnq q.enq v] := by
  cases h <;> simp [Event.claimed, List.filterMap_cons]

theorem OpStep.of_wrote (h : OpStep q pc q' pc' evs) {p : Nat} (he : .wrote p ∈ evs) :
    ∃ v, pc = .enqWrite v p := by
  cases h <;> simp_all

theorem OpStep.of_read (h : OpStep q pc q' pc' evs) {p : Nat} (he : .read p ∈ evs) :
    pc = .deqRead p := by
  cases h <;> simp_all

theorem OpStep.of_cleared (h : OpStep q pc q' pc' evs) {p : Nat} (he : .cleared p ∈ evs) :
    ∃ v, pc = .deqClear p v := by
  cases h <;> simp_all

theorem OpStep.of_dequeued (h : OpStep q pc q' pc' evs) {p : Nat} {v : Option α}
    (he : .dequeued p v ∈ evs) : pc = .deqStore p v ∧ releasing pc' = none := by
  cases h <;> simp_all [releasing]

theorem OpStep.returned_eq (h : OpStep q pc q' pc' evs) :
    evs.filterMap Event.returned = [] ∨
      ∃ p v, pc = .deqStore p v ∧ evs = [.dequeued p v] := by
  cases h <;> simp [Event.returned, List.filterMap_cons]

theorem OpStep.releasing_eq (h : OpStep q pc q' pc' evs) {p : Nat}
    (hr : releasing pc' = some p) : releasing pc = some p ∨ p = q.deq := by
  cases h <;> simp_all [releasing]

end Events

structure History (n : Nat) (log : List (Event α)) (s : State α τ) : Prop where
  inv : Inv s.queue s.pcs (log.filterMap Event.claimed) (.wrote · ∈ log) (.read · ∈ log)
  size : s.queue.size = n
  enqPos : log.filterMap Event.enqPos = List.range s.queue.enq
  deqPos : log.filterMap Event.deqPos = List.range s.queue.deq
  claimed : ∀ p x, (log.filterMap Event.claimed)[p]? = some x → .claimEnq p x ∈ log
  wrote_read : ∀ p, Preceded log (.wrote p) (.read p)
  read_wrote : ∀ p, Preceded log (.read p) (.wrote (p + n))
  read_cleared : ∀ p, Preceded log (.read p) (.cleared p)
  value : ∀ p v, .dequeued p v ∈ log →
    p < s.queue.deq ∧ ∃ x, v = some x ∧ (log.filterMap Event.claimed)[p]? = some x
  fresh : ∀ t p, releasing (s.pcs t) = some p → p ∉ log.filterMap Event.returned
  once : (log.filterMap Event.returned).Nodup

variable {n : Nat} {log : List (Event α)} {s : State α τ}

theorem History.returned_lt (h : History n log s) {p : Nat}
    (hp : p ∈ log.filterMap Event.returned) : p < s.queue.deq := by
  obtain ⟨e, he, hr⟩ := List.mem_filterMap.mp hp
  cases e with
  | dequeued pos v =>
    obtain rfl : pos = p := Option.some.inj hr
    exact (h.value pos v he).1
  | _ => cases hr

theorem own_of_releasing {pc : Pc α} {p : Nat} (h : releasing pc = some p) (n : Nat) :
    own n pc = some (p + n) := by
  cases pc <;> simp_all [releasing, own]

section System

variable [DecidableEq τ]

def State.setPc (s : State α τ) (t : τ) (pc : Pc α) : State α τ :=
  { s with pcs := Function.update s.pcs t pc }

def step (s : State α τ) : Act α τ → Option (State α τ × List (Event α))
  | .enqueue t v =>
      match s.pcs t with
      | .idle => some (s.setPc t (.enqLoad v), [])
      | _ => none
  | .dequeue t =>
      match s.pcs t with
      | .idle => some (s.setPc t .deqLoad, [])
      | _ => none
  | .run t =>
      match opStep s.queue (s.pcs t) with
      | some (q, pc, evs) => some ({ s with queue := q }.setPc t pc, evs)
      | none => none
  | .finish t =>
      match s.pcs t with
      | .enqRet _ => some (s.setPc t .idle, [])
      | .deqRet _ _ => some (s.setPc t .idle, [])
      | _ => none

def system (size : Nat) : Machine (State α τ) (Act α τ) (Event α) where
  init := { queue := newMPMC size, pcs := fun _ => .idle }
  step := step

inductive Step (s : State α τ) : State α τ → List (Event α) → Prop
  | call (t : τ) (pc : Pc α) (hown : ∀ n, own n (s.pcs t) = none) (hpc : ∀ n, own n pc = none)
      (hfacts : ∀ hist wr rd, Facts s.queue hist wr rd pc) : Step s (s.setPc t pc) []
  | run (t : τ) {q : Queue α} {pc : Pc α} {evs : List (Event α)}
      (h : OpStep s.queue (s.pcs t) q pc evs) : Step s ({ s with queue := q }.setPc t pc) evs

theorem step_cases {s s' : State α τ} {a : Act α τ} {evs : List (Event α)}
    (h : step s a = some (s', evs)) : Step s s' evs := by
  cases a with
  | enqueue t v =>
    simp only [step] at h
    split at h
    next hpc =>
      cases h
      exact .call t _ (fun n => by rw [hpc]; rfl) (fun _ => rfl) fun _ _ _ => trivial
    next => cases h
  | dequeue t =>
    simp only [step] at h
    split at h
    next hpc =>
      cases h
      exact .call t _ (fun n => by rw [hpc]; rfl) (fun _ => rfl) fun _ _ _ => trivial
    next => cases h
  | run t =>
    simp only [step] at h
    split at h
    next q pc evs' hop =>
      cases h
      exact .run t (opStep_cases hop)
    next => cases h
  | finish t =>
    simp only [step] at h
    split at h
    next ok hpc =>
      cases h
      exact .call t _ (fun n => by rw [hpc]; rfl) (fun _ => rfl) fun _ _ _ => trivial
    next v ok hpc =>
      cases h
      exact .call t _ (fun n => by rw [hpc]; rfl) (fun _ => rfl) fun _ _ _ => trivial
    next => cases h

theorem History.call (h : History n log s) (t : τ) {pc : Pc α}
    (hown : ∀ n, own n (s.pcs t) = none) (hpc : ∀ n, own n pc = none)
    (hfacts : ∀ hist wr rd, Facts s.queue hist wr rd pc) : History n log (s.setPc t pc) := by
  refine { h with inv := h.inv.setPc (hfacts _ _ _) ((hpc _).trans (hown _).symm), fresh := ?_ }
  intro u p hu
  rcases eq_or_ne u t with rfl | hut
  · have hidle := hpc 0
    simp only [State.setPc, Function.update_self] at hu
    cases pc <;> simp_all [releasing, own]
  · simp only [State.setPc, Function.update_of_ne hut] at hu
    exact h.fresh u p hu

theorem History.opStep (h : History n log s) (t : τ) {q : Queue α} {pc : Pc α}
    {evs : List (Event α)} (hs : OpStep s.queue (s.pcs t) q pc evs) :
    History n (log ++ evs) ({ s with queue := q }.setPc t pc) := by
  have hf := h.inv.facts t
  have hlen := h.inv.length
  refine ⟨?_, ?_, ?_, ?_, ?_, ?_, ?_, ?_, ?_, ?_, ?_⟩
  · rw [List.filterMap_append]
    refine (h.inv.mono ?_ ?_).opStep hs ?_ ?_
    · exact fun p => List.mem_append_left evs
    · exact fun p => List.mem_append_left evs
    · exact fun p => List.mem_append_right log
    · exact fun p => List.mem_append_right log
  · exact hs.size_eq.trans h.size
  · rw [List.filterMap_append, h.enqPos]
    exact hs.enqPos_eq
  · rw [List.filterMap_append, h.deqPos]
    exact hs.deqPos_eq
  · intro p x hx
    rw [List.filterMap_append] at hx
    rcases hs.claimed_eq with he | ⟨v, rfl⟩
    · rw [he, List.append_nil] at hx
      exact List.mem_append_left evs (h.claimed p x hx)
    · rcases lt_or_ge p (log.filterMap Event.claimed).length with hp | hp
      · rw [List.getElem?_append_left hp] at hx
        exact List.mem_append_left _ (h.claimed p x hx)
      · rw [List.getElem?_append_right hp, List.getElem?_eq_some_iff] at hx
        obtain ⟨hlt, rfl⟩ := hx
        have hzero : p = s.queue.enq := by
          simp only [List.filterMap_cons, List.filterMap_nil, Event.claimed, List.length_cons,
            List.length_nil] at hlt
          omega
        simp [Event.claimed, hzero]
  · intro p
    refine (h.wrote_read p).append fun he => ?_
    rw [hs.of_read he] at hf
    exact hf.2.2.2.2
  · intro p
    refine (h.read_wrote p).append fun he => ?_
    obtain ⟨v, hv⟩ := hs.of_wrote he
    rw [hv] at hf
    have hrd := hf.2.2.2.2.2
    rw [h.size, Nat.add_sub_cancel] at hrd
    exact hrd (Nat.le_add_left n p)
  · intro p
    refine (h.read_cleared p).append fun he => ?_
    obtain ⟨v, hv⟩ := hs.of_cleared he
    rw [hv] at hf
    exact hf.2.2.2.2.1
  · intro p v he
    rw [List.filterMap_append]
    rcases List.mem_append.mp he with hold | hnew
    · obtain ⟨hlt, x, hv, hx⟩ := h.value p v hold
      refine ⟨lt_of_lt_of_le hlt hs.deq_mono, x, hv, ?_⟩
      rwa [List.getElem?_append_left (List.getElem?_eq_some_iff.mp hx).1]
    · rw [(hs.of_dequeued hnew).1] at hf
      have hlt : p < (log.filterMap Event.claimed).length := by
        have := h.inv.low
        have := hf.1
        omega
      refine ⟨lt_of_lt_of_le hf.1 hs.deq_mono, _, hf.2.2.2.1.trans (List.getElem?_eq_getElem hlt), ?_⟩
      rw [List.getElem?_append_left hlt, List.getElem?_eq_getElem hlt]
  · intro u p hu
    rw [List.filterMap_append]
    rcases eq_or_ne u t with rfl | hut
    · simp only [State.setPc, Function.update_self] at hu
      rcases hs.returned_eq with he | ⟨r, v, -, rfl⟩
      · rw [he, List.append_nil]
        rcases hs.releasing_eq hu with hold | rfl
        · exact h.fresh u p hold
        · exact fun hmem => lt_irrefl _ (h.returned_lt hmem)
      · rw [(hs.of_dequeued (List.mem_singleton_self _)).2] at hu
        cases hu
    · simp only [State.setPc, Function.update_of_ne hut] at hu
      rcases hs.returned_eq with he | ⟨r, v, hpc, rfl⟩
      · rw [he, List.append_nil]
        exact h.fresh u p hu
      · have hpr : p ≠ r := by
          rintro rfl
          refine hut (h.inv.owner u t _ (own_of_releasing hu _) ?_)
          rw [hpc]
          rfl
        simpa [Event.returned, List.filterMap_cons, hpr] using h.fresh u p hu
  · rw [List.filterMap_append]
    rcases hs.returned_eq with he | ⟨r, v, hpc, rfl⟩
    · rw [he, List.append_nil]
      exact h.once
    · have hr := h.fresh t r (by rw [hpc]; rfl)
      exact List.concat_eq_append ▸ h.once.concat hr

theorem history {size : Nat} (h : (system size).Run log s) :
    History (capacity size) log s := by
  refine Machine.Exec.invariant (P := History (capacity size)) ?_ ?_ h
  · refine ⟨inv_newMPMC size (fun _ _ => rfl) fun _ => trivial, size_newMPMC size, rfl, rfl,
      ?_, ?_, ?_, ?_, ?_, ?_, ?_⟩
    · intro p x hx
      cases hx
    · exact fun p => preceded_nil _ _
    · exact fun p => preceded_nil _ _
    · exact fun p => preceded_nil _ _
    · intro p v hv
      cases hv
    · intro t p hp
      cases hp
    · exact List.nodup_nil
  · intro log s a s' evs _ hist _ hstep
    cases step_cases hstep with
    | call t pc hown hpc hfacts =>
      rw [List.append_nil]
      exact hist.call t hown hpc hfacts
    | run t hop => exact hist.opStep t hop

structure BoundedFifo (n : Nat) (log : List (Event α)) (s : State α τ) : Prop where
  size : s.queue.size = n
  bounds : s.queue.deq ≤ s.queue.enq ∧ s.queue.enq ≤ s.queue.deq + n
  free_before_write : ∀ t v p, s.pcs t = .enqWrite v p → (s.queue.cell p).val = none
  full_before_read : ∀ t p, s.pcs t = .deqRead p →
    ∃ x, (s.queue.cell p).val = some x ∧ .claimEnq p x ∈ log
  read_before_clear : ∀ t p v, s.pcs t = .deqClear p v → (s.queue.cell p).val = v
  wrote_read : ∀ p, Preceded log (.wrote p) (.read p)
  read_wrote : ∀ p, Preceded log (.read p) (.wrote (p + n))
  read_cleared : ∀ p, Preceded log (.read p) (.cleared p)
  enqueues : log.filterMap Event.enqPos = List.range s.queue.enq
  dequeues : log.filterMap Event.deqPos = List.range s.queue.deq
  returned_claimed : ∀ p, p ∈ log.filterMap Event.returned → p ∈ log.filterMap Event.deqPos
  once : (log.filterMap Event.returned).Nodup
  same_value : ∀ p v, .dequeued p v ∈ log → ∃ x, v = some x ∧ .claimEnq p x ∈ log

theorem mpmc_bounded_fifo (size : Nat) {log : List (Event α)} {s : State α τ}
    (h : (system size).Run log s) : BoundedFifo (capacity size) log s := by
  have hist := history h
  have hlen := hist.inv.length
  refine ⟨hist.size, ⟨hist.inv.low, hist.size ▸ hist.inv.high⟩, ?_, ?_, ?_, hist.wrote_read,
    hist.read_wrote, hist.read_cleared, hist.enqPos, hist.deqPos, ?_, hist.once, ?_⟩
  · intro t v p hpc
    have hf := hist.inv.facts t
    rw [hpc] at hf
    exact hf.2.2.2.2.1
  · intro t p hpc
    have hf := hist.inv.facts t
    rw [hpc] at hf
    have hlt : p < (log.filterMap Event.claimed).length := by
      have := hist.inv.low
      have := hf.1
      omega
    have hx := List.getElem?_eq_getElem hlt
    exact ⟨_, hf.2.2.2.1.trans hx, hist.claimed p _ hx⟩
  · intro t p v hpc
    have hf := hist.inv.facts t
    rw [hpc] at hf
    exact hf.2.2.2.2.2
  · intro p hp
    rw [hist.deqPos]
    exact List.mem_range.mpr (hist.returned_lt hp)
  · intro p v he
    obtain ⟨-, x, hv, hx⟩ := hist.value p v he
    exact ⟨x, hv, hist.claimed p x hx⟩

theorem mpmc_bounded_fifo_two :
    ∃ (log : List (Event Nat)) (s : State Nat Bool),
      (system 2).Run log s ∧ .dequeued 0 (some 7) ∈ log ∧ BoundedFifo (capacity 2) log s := by
  obtain ⟨log, s, hrun, hmem⟩ := Machine.exists_exec (M := system 2) (C := fun _ _ => True)
    [.enqueue true 7, .run true, .run true, .dequeue false, .run true, .run false, .run true,
      .run true, .run false, .run false, .run false, .run false, .run false]
    (fun log _ => decide (Event.dequeued 0 (some 7) ∈ log)) (by decide +kernel)
  exact ⟨log, s, hrun, of_decide_eq_true hmem, mpmc_bounded_fifo 2 hrun⟩

end System

end UbgoLogger.Mpmc
