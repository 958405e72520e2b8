import UbgoLogger.Transport.MpmcFifo

namespace UbgoLogger.Mpmc
open Foundation

variable {α τ : Type}

def Pc.inside : Pc α → Bool
  | .idle => false
  | .enqRet _ => false
  | .deqRet _ _ => false
  | _ => true

def Pc.returned : Pc α → Bool
  | .enqRet _ => true
  | .deqRet _ _ => true
  | _ => false

-- The thread alone reaches the return of its call.
inductive Returns : Queue α → Pc α → Prop
  | done {q : Queue α} {pc : Pc α} (h : pc.returned = true) : Returns q pc
  | step {q q' : Queue α} {pc pc' : Pc α} {evs : List (Event α)}
      (h : OpStep q pc q' pc' evs) (hr : Returns q' pc') : Returns q pc

-- The position of the loop has been claimed, and the sequence number does not show it yet.
def Overtaken (q : Queue α) : Pc α → Prop
  | .enqSeq _ pos => q.enq ≠ pos ∧ (q.cell pos).seq = pos
  | .enqCas _ pos => q.enq ≠ pos ∧ (q.cell pos).seq = pos
  | .deqSeq pos => q.deq ≠ pos ∧ (q.cell pos).seq = pos + 1
  | .deqCas pos => q.deq ≠ pos ∧ (q.cell pos).seq = pos + 1
  | _ => False

variable {q q' : Queue α} {pc pc' : Pc α} {evs : List (Event α)}

-- A failed CompareAndSwap keeps pos, so the thread comes back to the same test for ever.
theorem Overtaken.step (h : Overtaken q pc) (hs : OpStep q pc q' pc' evs) : Overtaken q' pc' := by
  cases hs with
  | enqFree v pos _ => exact h
  | enqFull v pos hseq => exact absurd h.2 hseq.ne
  | enqLate v pos hseq => exact absurd h.2 hseq.ne'
  | enqClaim v => exact absurd rfl h.1
  | enqLost v pos _ => exact h
  | deqReady pos _ => exact h
  | deqEmpty pos hseq => exact absurd h.2 hseq.ne
  | deqLate pos hseq => exact absurd h.2 hseq.ne'
  | deqClaim => exact absurd rfl h.1
  | deqLost pos _ => exact h
  | enqLoad | enqWrite | enqStore | deqLoad | deqRead | deqClear | deqStore => exact h.elim

theorem Overtaken.exists_step (h : Overtaken q pc) : ∃ q' pc' evs, OpStep q pc q' pc' evs := by
  cases pc with
  | enqSeq v pos => exact ⟨_, _, _, .enqFree v pos h.2⟩
  | enqCas v pos => exact ⟨_, _, _, .enqLost v pos h.1⟩
  | deqSeq pos => exact ⟨_, _, _, .deqReady pos h.2⟩
  | deqCas pos => exact ⟨_, _, _, .deqLost pos h.1⟩
  | _ => exact h.elim

theorem Overtaken.inside (h : Overtaken q pc) : pc.inside = true := by
  cases pc <;> first | rfl | exact h.elim

theorem Returns.not_overtaken (h : Returns q pc) : ¬ Overtaken q pc := by
  induction h with
  | @done q pc hpc => cases pc <;> simp_all [Overtaken, Pc.returned]
  | step hs _ ih => exact fun ho => ih (ho.step hs)

section Alone

variable {pos : Nat}

theorem returns_enqWrite (v : α) : Returns q (.enqWrite v pos) :=
  .step (.enqWrite v pos) (.step (.enqStore v pos) (.done rfl))

theorem returns_enqLoad (v : α) (hseq : (q.cell q.enq).seq ≤ q.enq) : Returns q (.enqLoad v) := by
  refine .step (.enqLoad v) ?_
  rcases hseq.lt_or_eq with hfull | hfree
  · exact .step (.enqFull v q.enq hfull) (.done rfl)
  · exact .step (.enqFree v q.enq hfree) (.step (.enqClaim v) (returns_enqWrite v))

theorem returns_enqSeq (v : α) (hseq : (q.cell q.enq).seq ≤ q.enq)
    (h : ¬ Overtaken q (.enqSeq v pos)) : Returns q (.enqSeq v pos) := by
  rcases lt_trichotomy (q.cell pos).seq pos with hfull | hfree | hlate
  · exact .step (.enqFull v pos hfull) (.done rfl)
  · obtain rfl : q.enq = pos := not_not.mp fun hne => h ⟨hne, hfree⟩
    exact .step (.enqFree v _ hfree) (.step (.enqClaim v) (returns_enqWrite v))
  · exact .step (.enqLate v pos hlate) (returns_enqLoad v hseq)

theorem returns_deqRead : Returns q (.deqRead pos) :=
  .step (.deqRead pos) (.step (.deqClear pos _) (.step (.deqStore pos _) (.done rfl)))

theorem returns_deqLoad (hseq : (q.cell q.deq).seq ≤ q.deq + 1) : Returns q .deqLoad := by
  refine .step .deqLoad ?_
  rcases hseq.lt_or_eq with hempty | hready
  · exact .step (.deqEmpty q.deq hempty) (.done rfl)
  · exact .step (.deqReady q.deq hready) (.step .deqClaim returns_deqRead)

theorem returns_deqSeq (hseq : (q.cell q.deq).seq ≤ q.deq + 1) (h : ¬ Overtaken q (.deqSeq pos)) :
    Returns q (.deqSeq pos) := by
  rcases lt_trichotomy (q.cell pos).seq (pos + 1) with hempty | hready | hlate
  · exact .step (.deqEmpty pos hempty) (.done rfl)
  · obtain rfl : q.deq = pos := not_not.mp fun hne => h ⟨hne, hready⟩
    exact .step (.deqReady _ hready) (.step .deqClaim returns_deqRead)
  · exact .step (.deqLate pos hlate) (returns_deqLoad hseq)

theorem returns_of_not_overtaken (henq : (q.cell q.enq).seq ≤ q.enq)
    (hdeq : (q.cell q.deq).seq ≤ q.deq + 1) (hpc : pc ≠ .idle) (h : ¬ Overtaken q pc) :
    Returns q pc := by
  cases pc with
  | idle => exact absurd rfl hpc
  | enqLoad v => exact returns_enqLoad v henq
  | enqSeq v pos => exact returns_enqSeq v henq h
  | enqCas v pos =>
    by_cases he : q.enq = pos
    · subst he
      exact .step (.enqClaim v) (returns_enqWrite v)
    · exact .step (.enqLost v pos he) (returns_enqSeq v henq h)
  | enqWrite v pos => exact returns_enqWrite v
  | enqStore v pos => exact .step (.enqStore v pos) (.done rfl)
  | enqRet ok => exact .done rfl
  | deqLoad => exact returns_deqLoad hdeq
  | deqSeq pos => exact returns_deqSeq hdeq h
  | deqCas pos =>
    by_cases he : q.deq = pos
    · subst he
      exact .step .deqClaim returns_deqRead
    · exact .step (.deqLost pos he) (returns_deqSeq hdeq h)
  | deqRead pos => exact returns_deqRead
  | deqClear pos v => exact .step (.deqClear pos v) (.step (.deqStore pos v) (.done rfl))
  | deqStore pos v => exact .step (.deqStore pos v) (.done rfl)
  | deqRet v ok => exact .done rfl

end Alone

section Suspended

variable {pcs : τ → Pc α} {hist : List α} {wr rd : Nat → Prop} {pos : Nat}

theorem Inv.seq_enq_le (h : Inv q pcs hist wr rd) : (q.cell q.enq).seq ≤ q.enq := by
  have hn := size_ge_two q
  rcases h.high.lt_or_eq with hroom | hfull
  · rcases h.vacant q.enq le_rfl hroom with ⟨hs, -⟩ | ⟨hs, -⟩ <;> omega
  · rw [hfull, cell_add_size]
    rcases h.filled q.deq le_rfl (by omega) with ⟨hs, -⟩ | ⟨hs, -⟩ <;> omega

theorem Inv.seq_deq_le (h : Inv q pcs hist wr rd) : (q.cell q.deq).seq ≤ q.deq + 1 := by
  have hn := size_ge_two q
  rcases h.low.lt_or_eq with hlt | he
  · rcases h.filled q.deq le_rfl hlt with ⟨hs, -⟩ | ⟨hs, -⟩ <;> omega
  · rcases h.vacant q.deq he.ge (by omega) with ⟨hs, -⟩ | ⟨hs, -⟩ <;> omega

theorem Inv.suspended_enq (h : Inv q pcs hist wr rd) (hpos : pos ≤ q.enq) :
    (q.enq ≠ pos ∧ (q.cell pos).seq = pos) ↔
      ∃ u v, pcs u = .enqWrite v pos ∨ pcs u = .enqStore v pos := by
  constructor
  · rintro ⟨hne, hseq⟩
    have hlt : pos < q.enq := lt_of_le_of_ne hpos (Ne.symm hne)
    have hdeq : q.deq ≤ pos := not_lt.mp fun hgone => (h.seq_gt hgone).ne' hseq
    rcases h.filled pos hdeq hlt with ⟨hs, -⟩ | ⟨-, u, hu⟩
    · omega
    · exact ⟨u, own_enqueue (h.facts u) hu hlt⟩
  · rintro ⟨u, v, hu | hu⟩
    · have hf := h.facts u
      rw [hu] at hf
      exact ⟨hf.2.1.ne', hf.2.2.1⟩
    · have hf := h.facts u
      rw [hu] at hf
      exact ⟨hf.2.1.ne', hf.2.2.1⟩

theorem own_dequeue {w : Nat} (hf : Facts q hist wr rd pc) (h : own q.size pc = some w)
    (hw : q.enq ≤ w) : ∃ p, releasing pc = some p ∧ p + q.size = w := by
  cases pc with
  | enqWrite v p => exact absurd (Option.some.inj h ▸ hf.2.1) (not_lt.mpr hw)
  | enqStore v p => exact absurd (Option.some.inj h ▸ hf.2.1) (not_lt.mpr hw)
  | deqRead p => exact ⟨p, rfl, Option.some.inj h⟩
  | deqClear p v => exact ⟨p, rfl, Option.some.inj h⟩
  | deqStore p v => exact ⟨p, rfl, Option.some.inj h⟩
  | _ => cases h

theorem releasing_facts (hf : Facts q hist wr rd pc) (h : releasing pc = some pos) :
    pos < q.deq ∧ (q.cell pos).seq = pos + 1 := by
  cases pc with
  | deqRead p => exact Option.some.inj h ▸ ⟨hf.1, hf.2.2.1⟩
  | deqClear p v => exact Option.some.inj h ▸ ⟨hf.1, hf.2.2.1⟩
  | deqStore p v => exact Option.some.inj h ▸ ⟨hf.1, hf.2.2.1⟩
  | _ => cases h

theorem Inv.suspended_deq (h : Inv q pcs hist wr rd) (hpos : pos ≤ q.deq) :
    (q.deq ≠ pos ∧ (q.cell pos).seq = pos + 1) ↔ ∃ u, releasing (pcs u) = some pos := by
  constructor
  · rintro ⟨hne, hseq⟩
    have hn := size_ge_two q
    have hlt : pos < q.deq := lt_of_le_of_ne hpos (Ne.symm hne)
    obtain ⟨k, h1, h2, h3⟩ := window_position (n := q.size) (by omega) hlt
    have hcell : q.cell (pos + k * q.size) = q.cell pos := by
      rw [Queue.cell, Queue.cell, slot_eq_mod, slot_eq_mod, Nat.add_mul_mod_self_right]
    rw [← hcell] at hseq
    rcases lt_or_ge (pos + k * q.size) q.enq with hin | hout
    · rcases h.filled _ h1 hin with ⟨hs, -⟩ | ⟨hs, -⟩ <;> omega
    · rcases h.vacant _ hout h2 with ⟨hs, -⟩ | ⟨hs, u, hu⟩
      · omega
      · obtain ⟨p, hp, hw⟩ := own_dequeue (h.facts u) hu hout
        obtain rfl : p = pos := by omega
        exact ⟨u, hp⟩
  · rintro ⟨u, hu⟩
    obtain ⟨hlt, hseq⟩ := releasing_facts (h.facts u) hu
    exact ⟨hlt.ne', hseq⟩

end Suspended

-- The thread t is in its loop at a position that another thread has claimed, and that thread has
-- not stored the new sequence number yet.
def Blocked (s : State α τ) (t : τ) : Prop :=
  match s.pcs t with
  | .enqSeq _ pos => ∃ u v, s.pcs u = .enqWrite v pos ∨ s.pcs u = .enqStore v pos
  | .enqCas _ pos => ∃ u v, s.pcs u = .enqWrite v pos ∨ s.pcs u = .enqStore v pos
  | .deqSeq pos => ∃ u, releasing (s.pcs u) = some pos
  | .deqCas pos => ∃ u, releasing (s.pcs u) = some pos
  | _ => False

theorem History.overtaken_iff {n : Nat} {log : List (Event α)} {s : State α τ} (h : History n log s)
    (t : τ) : Overtaken s.queue (s.pcs t) ↔ Blocked s t := by
  have hf := h.inv.facts t
  unfold Blocked
  generalize s.pcs t = pc at hf
  cases pc with
  | enqSeq v pos => exact h.inv.suspended_enq hf
  | enqCas v pos => exact h.inv.suspended_enq hf.1
  | deqSeq pos => exact h.inv.suspended_deq hf
  | deqCas pos => exact h.inv.suspended_deq hf.1
  | _ => exact Iff.rfl

section Solo

variable [DecidableEq τ] {size : Nat} {s s' : State α τ} {t : τ} {log log' : List (Event α)}

theorem opStep_of_cases (h : OpStep q pc q' pc' evs) : opStep q pc = some (q', pc', evs) := by
  cases h with
  | enqFull v pos hseq =>
    have hdif : ((q.cell pos).seq : Int) - pos < 0 := by omega
    simp [opStep, hdif, hdif.ne]
  | enqLate v pos hseq =>
    have hdif : 0 < ((q.cell pos).seq : Int) - pos := by omega
    simp [opStep, hdif.ne', hdif.not_gt]
  | deqEmpty pos hseq =>
    have hdif : ((q.cell pos).seq : Int) - (pos + 1) < 0 := by omega
    simp [opStep, hdif, hdif.ne]
  | deqLate pos hseq =>
    have hdif : 0 < ((q.cell pos).seq : Int) - (pos + 1) := by omega
    simp [opStep, hdif.ne', hdif.not_gt]
  | _ => simp_all [opStep]

theorem step_run (h : OpStep s.queue (s.pcs t) q' pc' evs) :
    step s (.run t) = some ({ s with queue := q' }.setPc t pc', evs) := by
  simp [step, opStep_of_cases h]

theorem Returns.perform (h : Returns q pc) (hq : s.queue = q) (hpc : s.pcs t = pc) (log : List (Event α)) :
    ∃ n log' s', (system size).perform log s (List.replicate n (.run t)) = some (log', s') ∧
      (s'.pcs t).returned = true := by
  induction h generalizing s log with
  | done hdone => exact ⟨0, log, s, rfl, hpc ▸ hdone⟩
  | @step q q' pc pc' evs hs _ ih =>
    subst hq hpc
    obtain ⟨n, log', s', hperform, hreturned⟩ :=
      ih (s := { s with queue := q' }.setPc t pc') rfl (by simp [State.setPc]) (log ++ evs)
    refine ⟨n + 1, log', s', ?_, hreturned⟩
    simpa [Machine.perform, Machine.performIf, system, step_run hs, List.replicate_succ] using hperform

theorem Overtaken.perform (size : Nat) (h : Overtaken s.queue (s.pcs t)) (n : Nat) (log : List (Event α)) :
    ∃ log' s', (system size).perform log s (List.replicate n (.run t)) = some (log', s') ∧
      Overtaken s'.queue (s'.pcs t) := by
  induction n generalizing s log with
  | zero => exact ⟨log, s, rfl, h⟩
  | succ n ih =>
    obtain ⟨q', pc', evs, hs⟩ := h.exists_step
    obtain ⟨log', s', hperform, hover⟩ :=
      ih (s := { s with queue := q' }.setPc t pc') (by simpa [State.setPc] using h.step hs) (log ++ evs)
    refine ⟨log', s', ?_, hover⟩
    simpa [Machine.perform, Machine.performIf, system, step_run hs, List.replicate_succ] using hperform

theorem returns_of_perform {n : Nat}
    (h : (system size).perform log s (List.replicate n (.run t)) = some (log', s'))
    (hreturned : (s'.pcs t).returned = true) : Returns s.queue (s.pcs t) := by
  induction n generalizing s log with
  | zero =>
    cases h
    exact .done hreturned
  | succ n ih =>
    simp only [Machine.perform, List.replicate_succ, Machine.performIf, if_true] at h
    split at h
    next => cases h
    next s₁ evs hs =>
      simp only [system, step] at hs
      split at hs
      next q pc evs' hop =>
        cases hs
        refine .step (opStep_cases hop) ?_
        simpa [State.setPc] using ih h
      next => cases hs

theorem returns_alone_iff (size : Nat) {log : List (Event α)} {s : State α τ}
    (h : (system size).Run log s) (t : τ) (ht : (s.pcs t).inside = true) :
    (∃ n log' s', (system size).perform log s (List.replicate n (.run t)) = some (log', s') ∧
      (s'.pcs t).returned = true) ↔ ¬ Blocked s t := by
  have hist := history h
  rw [← hist.overtaken_iff t]
  constructor
  · rintro ⟨n, log', s', hperform, hreturned⟩
    exact (returns_of_perform hperform hreturned).not_overtaken
  · intro hfree
    have hidle : s.pcs t ≠ .idle := by
      intro hpc
      rw [hpc] at ht
      cases ht
    exact (returns_of_not_overtaken hist.inv.seq_enq_le hist.inv.seq_deq_le hidle hfree).perform
      rfl rfl log

theorem returns_alone_iff_fresh :
    ∃ (log : List (Event Nat)) (s : State Nat Bool), (system 2).Run log s ∧
      s.pcs true = .enqWrite 7 0 ∧ s.pcs false = .enqLoad 8 ∧
      ∃ n log' s', (system 2).perform log s (List.replicate n (.run false)) = some (log', s') ∧
        (s'.pcs false).returned = true := by
  obtain ⟨log, s, hrun, hgood⟩ := Machine.exists_exec (M := system 2) (C := fun _ _ => True)
    [.enqueue true 7, .run true, .run true, .run true, .enqueue false 8]
    (fun (_ : List (Event Nat)) (s : State Nat Bool) =>
      decide (s.pcs true = .enqWrite 7 0 ∧ s.pcs false = .enqLoad 8)) (by decide +kernel)
  obtain ⟨htrue, hfalse⟩ := of_decide_eq_true hgood
  have hfree : ¬ Blocked s false := by
    rw [Blocked, hfalse]
    exact id
  exact ⟨log, s, hrun, htrue, hfalse,
    (returns_alone_iff 2 hrun false (by rw [hfalse]; rfl)).mpr hfree⟩

-- The thread false has loaded position 0, the thread true has claimed it and is suspended.
theorem enqueue_spins_on_suspended_thread :
    ∃ (log : List (Event Nat)) (s : State Nat Bool), (system 2).Run log s ∧
      s.pcs true = .enqWrite 7 0 ∧ s.pcs false = .enqSeq 8 0 ∧
      ∀ n, ∃ log' s', (system 2).perform log s (List.replicate n (.run false)) = some (log', s') ∧
        (s'.pcs false).inside = true := by
  obtain ⟨log, s, hrun, hgood⟩ := Machine.exists_exec (M := system 2) (C := fun _ _ => True)
    [.enqueue true 7, .run true, .enqueue false 8, .run false, .run true, .run true]
    (fun (_ : List (Event Nat)) (s : State Nat Bool) =>
      decide (s.pcs true = .enqWrite 7 0 ∧ s.pcs false = .enqSeq 8 0)) (by decide +kernel)
  obtain ⟨htrue, hfalse⟩ := of_decide_eq_true hgood
  refine ⟨log, s, hrun, htrue, hfalse, fun n => ?_⟩
  have hover : Overtaken s.queue (s.pcs false) := by
    rw [(history hrun).overtaken_iff, Blocked, hfalse]
    exact ⟨true, 7, .inl htrue⟩
  obtain ⟨log', s', hperform, hover'⟩ := hover.perform 2 n log
  exact ⟨log', s', hperform, hover'.inside⟩

end Solo

end UbgoLogger.Mpmc
