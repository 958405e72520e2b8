import UbgoLogger.Audit.Agreement

namespace UbgoLogger.Audit
open Foundation Foundation.Text Foundation.Lines

variable {χ κ : Type} {sha : Sha256}

def FaultsLast (ws : List (Bytes × Bool)) : Prop := ws.Pairwise fun v w => w.2 = true → v.2 = true

instance (ws : List (Bytes × Bool)) : Decidable (FaultsLast ws) :=
  inferInstanceAs (Decidable (List.Pairwise _ ws))

-- The lines of cs from a on, each with the fate of its Write.
def attempts (sha : Sha256) : AuditSink → List (Bytes × Bool) → List (Bytes × Bool)
  | _, [] => []
  | a, (c, ok) :: cs => (a.line sha c, ok) :: attempts sha (a.advance sha c) cs

theorem attempts_eq_zip (a : AuditSink) (cs : List (Bytes × Bool)) :
    attempts sha a cs = (entries sha a (cs.map (·.1))).zip (cs.map (·.2)) := by
  induction cs generalizing a with
  | nil => rfl
  | cons c cs ih => simp [attempts, entries, ih]

theorem mem_written {ws : List (Bytes × Bool)} {l : Bytes} :
    l ∈ written ws ↔ (l, true) ∈ ws := by
  simp [written]

theorem written_cons_true (l : Bytes) (ws : List (Bytes × Bool)) :
    written ((l, true) :: ws) = l :: written ws := rfl

theorem written_cons_false (l : Bytes) (ws : List (Bytes × Bool)) :
    written ((l, false) :: ws) = written ws := rfl

theorem passes_seq {a : AuditSink} (ha : a.Linked sha) {prev c d : Bytes} {n : UInt64}
    (h : Passes sha prev n (a.line sha c) d) : n = a.seq := by
  obtain ⟨seqStr, hsplit, hseq⟩ := h
  have hline : splitN space 4 (a.line sha c) = [a.sum sha c, a.prev, decimal a.seq.toNat, c] :=
    splitN_four.mpr ⟨space_notMem_hashHex _, ha.space_notMem, space_notMem_decimal _, rfl⟩
  rw [hline] at hsplit
  simp only [List.cons.injEq] at hsplit
  rw [parseUint_eq_some, ← hsplit.2.2.1, parse_decimal] at hseq
  exact (UInt64.toNat_inj.mp (Option.some.inj hseq)).symm

theorem AuditSink.advance_seq (sha : Sha256) (a : AuditSink) (c : Bytes)
    (h : a.seq.toNat + 1 < 2 ^ 64) :
    (a.advance sha c).seq.toNat = a.seq.toNat + 1 :=
  (UInt64.toNat_add a.seq 1).trans (Nat.mod_eq_of_lt h)

-- While seq does not wrap it stays above the count of a verifier that has missed an entry.
theorem verifyLoop_skewed {a : AuditSink} (ha : a.Linked sha) {cs : List (Bytes × Bool)}
    (prev : Bytes) {n : UInt64} (hn : n.toNat < a.seq.toNat)
    (hlen : a.seq.toNat + cs.length < 2 ^ 64) (hne : written (attempts sha a cs) ≠ []) :
    Broken (verifyLoop sha false (written (attempts sha a cs)) prev n).1 n := by
  induction cs generalizing a with
  | nil => exact absurd rfl hne
  | cons c cs ih =>
    obtain ⟨c, ok⟩ := c
    cases ok with
    | true =>
      rw [attempts, written_cons_true]
      apply verifyLoop_stop
      rintro ⟨d, hd⟩
      exact hn.ne (congrArg UInt64.toNat (passes_seq ha hd))
    | false =>
      rw [attempts, written_cons_false] at hne ⊢
      rw [List.length_cons] at hlen
      have hseq := a.advance_seq sha c (by omega)
      exact ih (a.advance_linked c) (by omega) (by omega) hne

theorem faultsLast_cons_false {l : Bytes} {ws : List (Bytes × Bool)} :
    FaultsLast ((l, false) :: ws) ↔ written ws = [] := by
  rw [FaultsLast, List.pairwise_cons]
  constructor
  · rintro ⟨h, -⟩
    rw [written, List.map_eq_nil_iff, List.filter_eq_nil_iff]
    exact fun w hw hok => absurd (h w hw hok) (by simp)
  · intro h
    have hno : ∀ w ∈ ws, ¬ w.2 = true := by
      rw [written, List.map_eq_nil_iff, List.filter_eq_nil_iff] at h
      exact h
    exact ⟨fun w hw hok => absurd hok (hno w hw),
      List.pairwise_iff_forall_sublist.mpr fun hs hok =>
        absurd hok (hno _ (hs.subset (by simp)))⟩

theorem faultsLast_cons_true {l : Bytes} {ws : List (Bytes × Bool)} :
    FaultsLast ((l, true) :: ws) ↔ FaultsLast ws := by
  simp [FaultsLast, List.pairwise_cons]

theorem verifyLoop_attempts {a : AuditSink} (ha : a.Linked sha) {cs : List (Bytes × Bool)}
    (hlen : a.seq.toNat + cs.length < 2 ^ 64) :
    Intact (verifyLoop sha false (written (attempts sha a cs)) a.prev a.seq).1
        (a.seq + .ofNat (written (attempts sha a cs)).length) ↔
      FaultsLast (attempts sha a cs) := by
  induction cs generalizing a with
  | nil =>
    refine ⟨fun _ => List.Pairwise.nil, fun _ => ?_⟩
    exact (intact_intact a.seq).imp_right fun h => ⟨h.1, h.2.trans (UInt64.add_zero a.seq).symm⟩
  | cons c cs ih =>
    obtain ⟨c, ok⟩ := c
    rw [List.length_cons] at hlen
    have hseq := a.advance_seq sha c (by omega)
    cases ok with
    | true =>
      rw [attempts, written_cons_true, faultsLast_cons_true, ← ih (a.advance_linked c) (by omega),
        verifyLoop_pass (passes_line ha c), List.length_cons, UInt64.ofNat_add,
        UInt64.add_comm (.ofNat _), ← UInt64.add_assoc]
      rfl
    | false =>
      rw [attempts, written_cons_false, faultsLast_cons_false]
      constructor
      · intro hi
        by_contra hne
        have hb := verifyLoop_skewed (a.advance_linked c) a.prev (n := a.seq) (by omega) (by omega)
          hne
        exact hb.not_intact hi
      · intro h
        rw [h]
        exact (intact_intact a.seq).imp_right fun h =>
          ⟨h.1, h.2.trans (UInt64.add_zero a.seq).symm⟩

theorem attempts_oneLine {a : AuditSink} (ha : a.Linked sha) {cs : List (Bytes × Bool)}
    (hcs : ∀ c ∈ cs.map (·.1), OneLine c) : ∀ l ∈ written (attempts sha a cs), OneLine l := by
  intro l hl
  have hmem : l ∈ (attempts sha a cs).map (·.1) := List.mem_map_of_mem (mem_written.mp hl)
  rw [attempts_eq_zip, zip_map_fst (by simp [entries_length])] at hmem
  exact oneLine_entries ha hcs l hmem

theorem verifyAudit_after_faults (sha : Sha256) {rt : Runtime χ} (hrt : rt.Compact)
    (e : JSONEncoder) {log : List (Event (Record χ κ))} {s : State}
    (hrun : (machine sha (e.encode rt)).Run log s)
    (hlen : (writes log).length < 2 ^ 64) (hfit : ∀ w ∈ writes log, w.1.length < maxTokenSize)
    (hclean : ∀ r ∈ emitted log, r.CallerClean rt) :
    (Intact (verifyAudit sha s.out) (.ofNat (written (writes log)).length) ↔
      FaultsLast (writes log)) ∧
    ∀ (k : Nat) (s' : State) (evs : List (Event (Record χ κ))),
      (machine sha (e.encode rt)).step s (.locked k false) = some (s', evs) →
      s'.sink ≠ s.sink := by
  obtain ⟨cs, hs⟩ := exec_shape hrun
  have hone := oneLine_payloads hrt e hs hclean
  have hatt : writes log = attempts sha newAuditSink cs := by
    rw [hs.wrote, attempts_eq_zip]
  constructor
  · have hfit' : ∀ l ∈ written (writes log), l.length < maxTokenSize := by
      intro l hl
      exact hfit (l, true) (mem_written.mp hl)
    rw [hatt] at hfit' ⊢
    obtain ⟨hany, htake⟩ := takeWhile_fit hfit'
    have hone' := attempts_oneLine (newAuditSink_linked sha) hone
    have hcount : newAuditSink.seq.toNat + cs.length < 2 ^ 64 := by
      simpa [hs.wrote, entries_length, newAuditSink] using hlen
    rw [verifyAudit, hs.out, hatt, verifyTrace_unlines hone', hany, htake,
      ← verifyLoop_attempts (newAuditSink_linked sha) hcount]
    simp [newAuditSink]
  · intro k s' evs hstep heq
    simp only [machine, step] at hstep
    cases hk : s.waiting[k]? with
    | none => simp [hk] at hstep
    | some c =>
      rw [hk] at hstep
      simp only [Option.some.injEq, Prod.mk.injEq] at hstep
      rw [← hstep.1] at heq
      have := congrArg AuditSink.seq heq
      simp [AuditSink.advance] at this

theorem verifyAudit_after_faults_last :
    plainMachine.Run (emitTwo true false).1 (emitTwo true false).2 ∧
      Intact (verifyAudit zeroSha (emitTwo true false).2.out) 1 :=
  ⟨emitTwo_run true false,
    (verifyAudit_after_faults zeroSha plainRuntime_compact JSONEncoder.new (emitTwo_run true false)
      (by decide +kernel) (by decide +kernel) (emitTwo_clean true false)).1.mpr
      (by decide +kernel)⟩

theorem failed_write_breaks_chain :
    plainMachine.Run (emitTwo false true).1 (emitTwo false true).2 ∧
      (∀ w ∈ writes (emitTwo false true).1, w.1.length < maxTokenSize) ∧
      (written (writes (emitTwo false true).1)).length = 1 ∧
      Broken (verifyAudit zeroSha (emitTwo false true).2.out) 0 := by
  refine ⟨emitTwo_run false true, ?_, ?_, ?_, ?_, ?_⟩ <;> decide +kernel

end UbgoLogger.Audit
