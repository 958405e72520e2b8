import UbgoLogger.Audit.Faults

namespace UbgoLogger.Audit
open Foundation Foundation.Text Foundation.Lines Foundation.HashChain

variable {χ κ : Type} {sha : Sha256}

structure Accepted (sha : Sha256) (rd : Bytes) : Prop where
  fits : ∀ l ∈ lines rd, l.length < maxTokenSize
  tokens : (scanLines maxTokenSize rd).1 = (lines rd).map dropCR
  chained : Chained sha genesisHash 0 ((lines rd).map dropCR) (payloads rd)
  records : (verifyAudit sha rd).records = .ofNat (lines rd).length
  inputs : hashInputs sha rd = (chain sha).inputs genesisHash (payloads rd)

theorem accepted_of_ok {rd : Bytes} (h : (verifyAudit sha rd).ok = true) : Accepted sha rd := by
  have hloop : (verifyLoop sha (scanLines maxTokenSize rd).2 (scanLines maxTokenSize rd).1
      genesisHash 0).1.ok = true := h
  obtain ⟨herr, hchain, hres, hin⟩ := verifyLoop_ok hloop
  have hfits : ∀ l ∈ lines rd, l.length < maxTokenSize := by
    intro l hl
    have := List.any_eq_false.mp herr l hl
    simpa using this
  have htokens : (scanLines maxTokenSize rd).1 = (lines rd).map dropCR := by
    rw [scanLines, List.takeWhile_eq_self_iff.mpr (by simpa using hfits)]
  refine ⟨hfits, htokens, ?_, ?_, hin⟩
  · rw [← htokens]
    exact hchain
  · have hrec : (verifyAudit sha rd).records = 0 + .ofNat (scanLines maxTokenSize rd).1.length :=
      congrArg AuditResult.records hres
    rw [hrec, htokens, List.length_map, UInt64.zero_add]

theorem Accepted.lastHash_eq {rd : Bytes} (h : Accepted sha rd) (hne : lines rd ≠ []) :
    lastHash rd = some ((chain sha).tip (payloads rd)) := by
  rw [lastHash, h.tokens]
  exact chained_last h.chained (by simpa using hne)

theorem Accepted.payloads_length {rd : Bytes} (h : Accepted sha rd) :
    (payloads rd).length = (lines rd).length := by
  simpa using (chained_length h.chained).symm

theorem verifyAudit_binds (sha : Sha256) {S T : Bytes} (hS : (verifyAudit sha S).ok = true)
    (hT : (verifyAudit sha T).ok = true) (hlS : (lines S).length < 2 ^ 64)
    (hlT : (lines T).length < 2 ^ 64)
    (hn : (verifyAudit sha S).records = (verifyAudit sha T).records)
    (h0 : (verifyAudit sha S).records ≠ 0) (hlast : lastHash S = lastHash T) :
    payloads S = payloads T ∨
      ∃ x ∈ hashInputs sha S, ∃ y ∈ hashInputs sha T, x ≠ y ∧ sha x = sha y := by
  have aS := accepted_of_ok hS
  have aT := accepted_of_ok hT
  rw [aS.records] at h0
  have hn : (lines S).length = (lines T).length := by
    rw [aS.records, aT.records] at hn
    have hnat := congrArg UInt64.toNat hn
    rwa [UInt64.toNat_ofNat_of_lt' hlS, UInt64.toNat_ofNat_of_lt' hlT] at hnat
  have hneS : lines S ≠ [] := by
    intro h
    simp [h] at h0
  have hneT : lines T ≠ [] := by
    intro h
    rw [hn, h] at h0
    simp at h0
  have htip : (chain sha).tip (payloads S) = (chain sha).tip (payloads T) := by
    rw [aS.lastHash_eq hneS, aT.lastHash_eq hneT] at hlast
    exact Option.some.inj hlast
  have hlen : (payloads S).length = (payloads T).length := by
    rw [aS.payloads_length, aT.payloads_length, hn]
  rw [aS.inputs, aT.inputs]
  rcases (chain sha).binding hlen htip with heq | ⟨x, hx, y, hy, hne, hcol⟩
  · exact .inl heq
  · exact .inr ⟨x, hx, y, hy, hne, hashHex_inj.mp hcol⟩

def night : Bytes := stream zeroSha [ascii "open", ascii "login", ascii "close"]

def rewritten : Bytes := stream zeroSha [ascii "open", ascii "logout", ascii "close"]

theorem verifyAudit_binds_stream :
    (verifyAudit zeroSha night).records = 3 ∧
      (payloads night = payloads rewritten ∨
        ∃ x ∈ hashInputs zeroSha night, ∃ y ∈ hashInputs zeroSha rewritten,
          x ≠ y ∧ zeroSha x = zeroSha y) :=
  ⟨by decide +kernel, verifyAudit_binds zeroSha (by decide +kernel) (by decide +kernel)
    (by decide +kernel) (by decide +kernel) (by decide +kernel) (by decide +kernel)
    (by decide +kernel)⟩

section OwnFormat

theorem dropCR_line {a : AuditSink} {c : Bytes}
    (h : (a.line sha c).getLast? = some carriageReturn) :
    c ≠ [] ∧ dropCR (a.line sha c) =
      entry (a.sum sha c) a.prev (decimal a.seq.toNat) c.dropLast := by
  have hs : space ≠ carriageReturn := by decide
  cases c with
  | nil =>
    exact absurd h (getLast_entry (by simp))
  | cons b c =>
    refine ⟨by simp, ?_⟩
    rw [dropCR, if_pos h]
    simp [AuditSink.line, entry, List.dropLast_append_of_ne_nil, List.dropLast_cons_of_ne_nil]

theorem line_eq_iff {a : AuditSink} (ha : a.Linked sha) {l c : Bytes}
    (h : Passes sha a.prev a.seq (dropCR l) c) :
    l = a.line sha c ↔ l.getLast? ≠ some carriageReturn ∧ ¬ padded (column 2 l) := by
  constructor
  · rintro rfl
    have hcr : (a.line sha c).getLast? ≠ some carriageReturn := by
      intro hcr
      obtain ⟨hne, hdrop⟩ := dropCR_line hcr
      have hsplit : splitN space 4 (dropCR (a.line sha c)) =
          [a.sum sha c, a.prev, decimal a.seq.toNat, c.dropLast] := by
        rw [hdrop]
        exact splitN_four.mpr
          ⟨space_notMem_hashHex _, ha.space_notMem, space_notMem_decimal _, rfl⟩
      have hcol := h.column_three
      rw [column, hsplit] at hcol
      have hlen := congrArg List.length hcol
      have hpos := List.length_pos_of_ne_nil hne
      simp at hlen
      omega
    rw [dropCR_of_not hcr] at h
    exact ⟨hcr, (passes_eq_line h).mp rfl⟩
  · rintro ⟨hcr, hpad⟩
    rw [dropCR_of_not hcr] at h
    exact (passes_eq_line h).mpr hpad

theorem lines_eq_entries_iff {a : AuditSink} (ha : a.Linked sha) {ls cs : List Bytes}
    (h : Chained sha a.prev a.seq (ls.map dropCR) cs) :
    ls = entries sha a cs ↔
      ∀ l ∈ ls, l.getLast? ≠ some carriageReturn ∧ ¬ padded (column 2 l) := by
  induction ls generalizing a cs with
  | nil =>
    obtain rfl : cs = [] := h
    simp [entries]
  | cons l ls ih =>
    obtain ⟨c, ds, rfl, hc, hrest⟩ := h
    rw [entries, List.cons.injEq, List.forall_mem_cons, line_eq_iff ha hc,
      ih (a.advance_linked c) hrest]

theorem entry_ne_nil (hash prev seqStr c : Bytes) : entry hash prev seqStr c ≠ [] := by
  simp [entry]

theorem nil_notMem_entries (a : AuditSink) (cs : List Bytes) : [] ∉ entries sha a cs := by
  induction cs generalizing a with
  | nil => simp [entries]
  | cons c cs ih =>
    rw [entries, List.mem_cons, not_or]
    exact ⟨fun h => entry_ne_nil _ _ _ _ h.symm, ih _⟩

theorem newline_notMem_payloads {rd c : Bytes} (h : Accepted sha rd) (hc : c ∈ payloads rd) :
    newline ∉ c := by
  rw [payloads, h.tokens, List.map_map] at hc
  obtain ⟨l, hl, rfl⟩ := List.mem_map.mp hc
  have hclean := newline_notMem_dropCR (newline_notMem_lines hl)
  exact fun hm => hclean (mem_of_mem_splitN hm)

def SameButFinalNewline (rd s : Bytes) : Prop := rd = s ∨ rd ++ [newline] = s

instance (rd s : Bytes) : Decidable (SameButFinalNewline rd s) := inferInstanceAs (Decidable (_ ∨ _))

theorem same_stream_iff {rd : Bytes} (h : Accepted sha rd) :
    SameButFinalNewline rd (stream sha (payloads rd)) ↔
      lines rd = entries sha newAuditSink (payloads rd) := by
  have hE : ∀ l ∈ entries sha newAuditSink (payloads rd), newline ∉ l := fun l hl =>
    newline_notMem_entries (newAuditSink_linked sha) (fun _ hc => newline_notMem_payloads h hc) hl
  constructor
  · rintro (heq | heq)
    · exact (congrArg lines heq).trans (lines_unlines hE)
    · rcases unlines_lines rd with hr | hr
      · -- rd already ends a line, so one more newline would be an empty entry
        have hlast : unlines (lines rd ++ [[]]) =
            unlines (entries sha newAuditSink (payloads rd)) := by
          rw [unlines_append, hr]
          exact heq
        have heq' := unlines_injective (by
          intro l hl
          rcases List.mem_append.mp hl with hl | hl
          · exact newline_notMem_lines hl
          · simp_all) hE hlast
        exact absurd (heq' ▸ List.mem_append_right _ (by simp))
          (nil_notMem_entries newAuditSink (payloads rd))
      · exact unlines_injective (fun _ hl => newline_notMem_lines hl) hE (hr.trans heq)
  · intro heq
    rcases unlines_lines rd with hr | hr
    · exact .inl (by rw [stream, ← heq, hr])
    · exact .inr (by rw [stream, ← heq, hr])

theorem verifyAudit_own_format (sha : Sha256) {rd : Bytes} (h : (verifyAudit sha rd).ok = true) :
    SameButFinalNewline rd (stream sha (payloads rd)) ↔
      ∀ l ∈ lines rd, l.getLast? ≠ some carriageReturn ∧ ¬ padded (column 2 l) := by
  have hacc := accepted_of_ok h
  rw [same_stream_iff hacc]
  exact lines_eq_entries_iff (newAuditSink_linked sha) hacc.chained

-- Three entries, and the same without the final newline.
theorem verifyAudit_own_format_stream :
    SameButFinalNewline night (stream zeroSha (payloads night)) ∧
      SameButFinalNewline night.dropLast (stream zeroSha (payloads night.dropLast)) :=
  ⟨(verifyAudit_own_format zeroSha (by decide +kernel)).mpr (by decide +kernel),
    (verifyAudit_own_format zeroSha (by decide +kernel)).mpr (by decide +kernel)⟩

def forged (seqStr tail : Bytes) : Bytes :=
  unlines [entry (hashHex zeroSha (genesisHash ++ ascii "x")) genesisHash seqStr (ascii "x") ++ tail]

theorem forged_accepted :
    (verifyAudit zeroSha (forged (ascii "00") [])).ok = true ∧
      ¬ SameButFinalNewline (forged (ascii "00") [])
        (stream zeroSha (payloads (forged (ascii "00") []))) ∧
      (verifyAudit zeroSha (forged (ascii "0") [carriageReturn])).ok = true ∧
      ¬ SameButFinalNewline (forged (ascii "0") [carriageReturn])
        (stream zeroSha (payloads (forged (ascii "0") [carriageReturn]))) := by
  decide +kernel

end OwnFormat

section Localise

theorem exists_first_difference {xs ys : List Bytes} (h : ¬ xs <+: ys) :
    ∃ k < xs.length, xs.take k = ys.take k ∧ xs[k]? ≠ ys[k]? := by
  induction xs generalizing ys with
  | nil => exact absurd (List.nil_prefix) h
  | cons x xs ih =>
    cases ys with
    | nil => exact ⟨0, by simp, by simp, by simp⟩
    | cons y ys =>
      by_cases hxy : x = y
      · subst hxy
        obtain ⟨k, hk, htake, hne⟩ := ih (fun hp => h (List.cons_prefix_cons.mpr ⟨rfl, hp⟩))
        exact ⟨k + 1, by simpa using hk, by simpa using htake, by simpa using hne⟩
      · exact ⟨0, by simp, by simp, by simpa using hxy⟩

def replacePayload (l p : Bytes) : Bytes := entry (column 0 l) (column 1 l) (column 2 l) p

-- m is the line l with another one-line payload, whose hash input does not collide with l's.
def Edited (sha : Sha256) (l m : Bytes) : Prop :=
  ∃ p, OneLine p ∧ p ≠ column 3 l ∧ m = replacePayload l p ∧
    sha (column 1 l ++ p) ≠ sha (column 1 l ++ column 3 l)

theorem columns_line {a : AuditSink} (ha : a.Linked sha) (c : Bytes) :
    splitN space 4 (a.line sha c) = [a.sum sha c, a.prev, decimal a.seq.toNat, c] :=
  splitN_four.mpr ⟨space_notMem_hashHex _, ha.space_notMem, space_notMem_decimal _, rfl⟩

theorem not_passes_edited {a : AuditSink} (ha : a.Linked sha) {c m : Bytes}
    (h : Edited sha (a.line sha c) m) : ¬ ∃ d, Passes sha a.prev a.seq m d := by
  obtain ⟨p, -, -, rfl, hcol⟩ := h
  simp only [replacePayload, column, columns_line ha] at hcol ⊢
  simp only [List.getD_cons_zero, List.getD_cons_succ] at hcol ⊢
  rintro ⟨d, hd⟩
  have hsplit : splitN space 4 (entry (a.sum sha c) a.prev (decimal a.seq.toNat) p) =
      [a.sum sha c, a.prev, decimal a.seq.toNat, p] :=
    splitN_four.mpr ⟨space_notMem_hashHex _, ha.space_notMem, space_notMem_decimal _, rfl⟩
  obtain ⟨seqStr, hd, -⟩ := hd
  rw [hsplit] at hd
  simp only [List.cons.injEq] at hd
  obtain ⟨hhash, -, -, rfl, -⟩ := hd
  exact hcol (hashHex_inj.mp hhash).symm

theorem oneLine_edited {a : AuditSink} (ha : a.Linked sha) {c m : Bytes}
    (h : Edited sha (a.line sha c) m) : OneLine m := by
  obtain ⟨p, hp, -, rfl, -⟩ := h
  simp only [replacePayload, column, columns_line ha]
  exact ⟨newline_notMem_entry (newline_notMem_hashHex _) ha.newline_notMem
    (newline_notMem_decimal _) hp.newline_notMem, getLast_entry hp.getLast_ne⟩

theorem mem_entries {a : AuditSink} {cs : List Bytes} {l : Bytes} (h : l ∈ entries sha a cs) :
    ∃ j c, cs[j]? = some c ∧ l = (after sha a (cs.take j)).line sha c := by
  obtain ⟨j, hj⟩ := List.mem_iff_getElem?.mp h
  rw [entries_getElem] at hj
  obtain ⟨c, hc, rfl⟩ := Option.map_eq_some_iff.mp hj
  exact ⟨j, c, hc, rfl⟩

theorem after_take_seq (sha : Sha256) {cs : List Bytes} {k : Nat} (hk : k ≤ cs.length) :
    (after sha newAuditSink (cs.take k)).seq = .ofNat k := by
  rw [after_new_seq, List.length_take, Nat.min_eq_left hk]

-- Each line of ms is one of the log's, or at its own place an edit of the line that stood there.
def Tampered (sha : Sha256) (ls ms : List Bytes) : Prop :=
  ∀ (k : Nat) (m : Bytes), ms[k]? = some m → m ∈ ls ∨ ∃ l, ls[k]? = some l ∧ Edited sha l m

theorem tampered_oneLine {cs ms : List Bytes} (hcs : ∀ c ∈ cs, OneLine c)
    (h : Tampered sha (entries sha newAuditSink cs) ms) : ∀ m ∈ ms, OneLine m := by
  intro m hm
  obtain ⟨k, hk⟩ := List.mem_iff_getElem?.mp hm
  rcases h k m hk with hmem | ⟨l, hl, hedit⟩
  · exact oneLine_entries (newAuditSink_linked sha) hcs m hmem
  · rw [entries_getElem] at hl
    obtain ⟨c, -, rfl⟩ := Option.map_eq_some_iff.mp hl
    exact oneLine_edited (after_linked (newAuditSink_linked sha) _) hedit

theorem tampered_not_passes {cs ms : List Bytes} (hlen : cs.length < 2 ^ 64) {k : Nat} {m : Bytes}
    (h : Tampered sha (entries sha newAuditSink cs) ms) (hk : k ≤ cs.length)
    (hm : ms[k]? = some m) (hne : (entries sha newAuditSink cs)[k]? ≠ some m) :
    ¬ ∃ d, Passes sha (after sha newAuditSink (cs.take k)).prev (.ofNat k) m d := by
  have hseq := after_take_seq sha hk
  rcases h k m hm with hmem | ⟨l, hl, hedit⟩
  · -- a line of the log carries its own index, so it can only pass where it stood
    obtain ⟨j, c, hc, rfl⟩ := mem_entries hmem
    rintro ⟨d, hd⟩
    have hj : j < cs.length := (List.getElem?_eq_some_iff.mp hc).1
    have hkj := passes_seq (after_linked (newAuditSink_linked sha) _) hd
    rw [after_take_seq sha hj.le] at hkj
    obtain rfl : k = j := by
      have hnat := congrArg UInt64.toNat hkj
      rwa [UInt64.toNat_ofNat_of_lt' (hk.trans_lt hlen),
        UInt64.toNat_ofNat_of_lt' (hj.trans hlen)] at hnat
    exact hne (by rw [entries_getElem, hc]; rfl)
  · rw [entries_getElem] at hl
    obtain ⟨c, -, rfl⟩ := Option.map_eq_some_iff.mp hl
    have := not_passes_edited (after_linked (newAuditSink_linked sha) (cs.take k)) hedit
    rwa [hseq] at this

theorem verify_first_difference {cs ms : List Bytes} (hlen : cs.length < 2 ^ 64)
    (hcs : ∀ c ∈ cs, OneLine c)
    (hfit : ∀ l ∈ entries sha newAuditSink cs, l.length < maxTokenSize)
    (h : Tampered sha (entries sha newAuditSink cs) ms) {k : Nat} (hk : k < ms.length)
    (htake : ms.take k = (entries sha newAuditSink cs).take k)
    (hne : ms[k]? ≠ (entries sha newAuditSink cs)[k]?) :
    Broken (verifyAudit sha (unlines ms)) (.ofNat k) := by
  have hkcs : k ≤ cs.length := by
    have htakes := congrArg List.length htake
    rw [List.length_take, List.length_take, entries_length] at htakes
    omega
  have hm : ms[k]? = some ms[k] := List.getElem?_eq_getElem hk
  have hsplit : ms = entries sha newAuditSink (cs.take k) ++ ms[k] :: ms.drop (k + 1) := by
    rw [← entries_take, ← htake, List.getElem_cons_drop, List.take_append_drop]
  have hstop := tampered_not_passes hlen h hkcs hm (fun he => hne (hm.trans he.symm))
  have hhead : ∀ l ∈ entries sha newAuditSink (cs.take k), (!tooLong l) = true := by
    rw [← entries_take]
    intro l hl
    simpa [tooLong] using hfit l (List.mem_of_mem_take hl)
  have hloop := fun err rest => verifyLoop_entries (newAuditSink_linked sha) err
    (cs.take k) rest
  rw [verifyAudit, verifyTrace_unlines (tampered_oneLine hcs h)]
  generalize herr : ms.any tooLong = err
  rw [hsplit, List.takeWhile_append_of_pos hhead]
  refine (congrArg (Broken · (.ofNat k)) (hloop err _)).mpr ?_
  rw [after_take_seq sha hkcs]
  by_cases hlong : tooLong ms[k] = true
  · -- the edit made the line too long: the scanner stops here instead of the chain
    have hany : err = true := by
      rw [← herr]
      exact List.any_eq_true.mpr ⟨_, List.getElem_mem hk, hlong⟩
    rw [List.takeWhile_cons_of_neg (by simpa using hlong), hany]
    exact ⟨rfl, rfl, rfl⟩
  · rw [List.takeWhile_cons_of_pos (by simpa using hlong)]
    exact verifyLoop_stop hstop

theorem verifyAudit_localises (sha : Sha256) {rt : Runtime χ} (hrt : rt.Compact) (e : JSONEncoder)
    {log : List (Event (Record χ κ))} {s : State} (hrun : (machine sha (e.encode rt)).Run log s)
    (hlen : (writes log).length < 2 ^ 64) (hok : ∀ w ∈ writes log, w.2 = true)
    (hfit : ∀ w ∈ writes log, w.1.length < maxTokenSize)
    (hclean : ∀ r ∈ emitted log, r.CallerClean rt) {ms : List Bytes}
    (hms : Tampered sha (written (writes log)) ms) :
    ((verifyAudit sha (unlines ms)).ok = true ↔ ms <+: written (writes log)) ∧
    (¬ ms <+: written (writes log) → ∃ k < ms.length,
      ms.take k = (written (writes log)).take k ∧ ms[k]? ≠ (written (writes log))[k]? ∧
      Broken (verifyAudit sha (unlines ms)) (.ofNat k)) := by
  obtain ⟨cs, hs⟩ := exec_shape hrun
  have hone := oneLine_payloads hrt e hs hclean
  have hL : written (writes log) = entries sha newAuditSink (cs.map (·.1)) := by
    rw [written_of_all hok, hs.lines_eq]
  have hfit' : ∀ l ∈ entries sha newAuditSink (cs.map (·.1)), l.length < maxTokenSize := by
    rw [← hL]
    intro l hl
    exact hfit (l, true) (mem_written.mp hl)
  have hcount : (cs.map (·.1)).length < 2 ^ 64 := by
    simpa [hs.wrote, entries_length] using hlen
  rw [hL] at hms ⊢
  have hdiff : ¬ ms <+: entries sha newAuditSink (cs.map (·.1)) → ∃ k < ms.length,
      ms.take k = (entries sha newAuditSink (cs.map (·.1))).take k ∧
      ms[k]? ≠ (entries sha newAuditSink (cs.map (·.1)))[k]? ∧
      Broken (verifyAudit sha (unlines ms)) (.ofNat k) := by
    intro hp
    obtain ⟨k, hk, htake, hne⟩ := exists_first_difference hp
    exact ⟨k, hk, htake, hne, verify_first_difference hcount hone hfit' hms hk htake hne⟩
  refine ⟨⟨?_, ?_⟩, hdiff⟩
  · intro hv
    by_contra hp
    obtain ⟨k, -, -, -, hb⟩ := hdiff hp
    exact absurd (hv.symm.trans hb.1) (by simp)
  · intro hp
    have hms' : ms = entries sha newAuditSink ((cs.map (·.1)).take ms.length) := by
      rw [← entries_take]
      exact List.prefix_iff_eq_take.mp hp
    have hv : verifyAudit sha (stream sha ((cs.map (·.1)).take ms.length)) = intact _ :=
      verify_entries_fit (fun c hc => hone c (List.mem_of_mem_take hc))
        (fun l hl => hfit' l (hp.subset (hms' ▸ hl)))
    rw [stream, ← hms'] at hv
    rw [hv]
    rfl

theorem verifyAudit_localises_deletion :
    (verifyAudit zeroSha (unlines ((written (writes (emitTwo true true).1)).drop 1))).ok = false ∧
      (verifyAudit zeroSha
        (unlines ((written (writes (emitTwo true true).1)).drop 1))).brokenAtSeq.toInt = 0 := by
  have hms : Tampered zeroSha (written (writes (emitTwo true true).1))
      ((written (writes (emitTwo true true).1)).drop 1) :=
    fun k m hm => .inl (List.mem_of_mem_drop (List.mem_of_getElem? hm))
  have h := (verifyAudit_localises zeroSha plainRuntime_compact JSONEncoder.new
    (emitTwo_run true true) (by decide +kernel) (by decide +kernel) (by decide +kernel)
    (emitTwo_clean true true) hms).2 (by decide +kernel)
  obtain ⟨k, hk, -, -, hb⟩ := h
  obtain rfl : k = 0 := Nat.lt_one_iff.mp hk
  exact ⟨hb.1, (hb.exact (by decide)).2⟩

end Localise

end UbgoLogger.Audit
