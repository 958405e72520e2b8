import UbgoLogger.Audit.Verify
import UbgoLogger.Encode.Json
import Mathlib.Data.List.TakeWhile

namespace UbgoLogger.Audit
open Foundation Foundation.Text Foundation.Lines Foundation.HashChain

variable {χ κ : Type} {sha : Sha256} {rt : Runtime χ}

def Intact (res : AuditResult) (n : UInt64) : Prop :=
  res.ok = true ∧ res.brokenAtSeq = -1 ∧ res.records = n

theorem intact_intact (n : UInt64) : Intact (intact n) n := ⟨rfl, rfl, rfl⟩

theorem Broken.not_intact {res : AuditResult} {k n : UInt64} (h : Broken res k) :
    ¬ Intact res n := by
  intro hi
  exact absurd (hi.1.symm.trans h.1) (by simp)

def tooLong (l : Bytes) : Bool := decide (maxTokenSize ≤ l.length)

-- A text the scanner hands back unchanged: it neither breaks the line nor loses a final CR.
structure OneLine (l : Bytes) : Prop where
  newline_notMem : newline ∉ l
  getLast_ne : l.getLast? ≠ some carriageReturn

theorem verifyTrace_unlines {ls : List Bytes} (h : ∀ l ∈ ls, OneLine l) :
    verifyTrace sha (unlines ls) =
      verifyLoop sha (ls.any tooLong) (ls.takeWhile fun l => !tooLong l) genesisHash 0 := by
  have hlines : lines (unlines ls) = ls := lines_unlines fun l hl => (h l hl).newline_notMem
  have hfit : (fun l : Bytes => decide (l.length < maxTokenSize)) = fun l => !tooLong l := by
    funext l
    by_cases hl : l.length < maxTokenSize
    · simp [tooLong, hl]
    · simp [tooLong, hl, Nat.le_of_not_lt hl]
  have hcr : ((ls.takeWhile fun l => !tooLong l)).map dropCR = ls.takeWhile fun l => !tooLong l := by
    conv_rhs => rw [← List.map_id (ls.takeWhile _)]
    apply List.map_congr_left
    intro l hl
    exact dropCR_of_not (h l ((List.takeWhile_sublist _).mem hl)).getLast_ne
  simp only [verifyTrace, scanLines, hlines, hfit, hcr]
  rfl

theorem any_of_findIdx {ls : List Bytes} {k : Nat} (h : ls.findIdx? tooLong = some k) :
    ls.any tooLong = true ∧ (ls.takeWhile fun l => !tooLong l) = ls.take k := by
  obtain ⟨hk, hp, -⟩ := List.findIdx?_eq_some_iff_getElem.mp h
  constructor
  · exact List.any_eq_true.mpr ⟨_, List.getElem_mem hk, hp⟩
  · rw [List.takeWhile_eq_take_findIdx_not]
    simp only [Bool.not_not]
    rw [List.findIdx?_eq_some_iff_findIdx_eq] at h
    rw [h.2]

theorem takeWhile_fit {ls : List Bytes} (h : ∀ l ∈ ls, l.length < maxTokenSize) :
    ls.any tooLong = false ∧ (ls.takeWhile fun l => !tooLong l) = ls := by
  have hno : ∀ l ∈ ls, tooLong l = false := by
    intro l hl
    simpa [tooLong] using h l hl
  constructor
  · rw [List.any_eq_false]
    intro l hl
    simp [hno l hl]
  · rw [List.takeWhile_eq_self_iff]
    intro l hl
    simp [hno l hl]

theorem oneLine_line {a : AuditSink} (ha : a.Linked sha) {c : Bytes} (hc : OneLine c) :
    OneLine (a.line sha c) :=
  ⟨newline_notMem_line ha hc.newline_notMem, getLast_entry hc.getLast_ne⟩

theorem oneLine_entries {a : AuditSink} (ha : a.Linked sha) {cs : List Bytes}
    (hcs : ∀ c ∈ cs, OneLine c) : ∀ l ∈ entries sha a cs, OneLine l := by
  induction cs generalizing a with
  | nil => simp [entries]
  | cons c cs ih =>
    intro l hl
    rcases List.mem_cons.mp hl with rfl | hl
    · exact oneLine_line ha (hcs c (by simp))
    · exact ih (a.advance_linked c) (fun d hd => hcs d (by simp [hd])) l hl

theorem verify_entries_fit {cs : List Bytes} (hcs : ∀ c ∈ cs, OneLine c)
    (hfit : ∀ l ∈ entries sha newAuditSink cs, l.length < maxTokenSize) :
    verifyAudit sha (stream sha cs) = intact (.ofNat cs.length) := by
  have hone := oneLine_entries (newAuditSink_linked sha) hcs
  obtain ⟨hany, htake⟩ := takeWhile_fit hfit
  have hloop := verifyLoop_entries (newAuditSink_linked sha) false cs []
  rw [List.append_nil] at hloop
  rw [verifyAudit, stream, verifyTrace_unlines hone, hany, htake]
  refine hloop.trans ?_
  rw [after_new_seq]
  rfl

theorem verify_entries_tooLong {cs : List Bytes} (hcs : ∀ c ∈ cs, OneLine c) {k : Nat}
    (hk : (entries sha newAuditSink cs).findIdx? tooLong = some k) :
    Broken (verifyAudit sha (stream sha cs)) (.ofNat k) := by
  have hone := oneLine_entries (newAuditSink_linked sha) hcs
  obtain ⟨hany, htake⟩ := any_of_findIdx hk
  have hlen : k < cs.length := by
    obtain ⟨hlt, -⟩ := List.findIdx?_eq_some_iff_getElem.mp hk
    rwa [entries_length] at hlt
  have hloop := verifyLoop_entries (newAuditSink_linked sha) true (cs.take k) []
  rw [List.append_nil] at hloop
  have hres : verifyAudit sha (stream sha cs) = (verifyLoop sha true []
      (after sha newAuditSink (cs.take k)).prev (after sha newAuditSink (cs.take k)).seq).1 := by
    rw [verifyAudit, stream, verifyTrace_unlines hone, hany, htake, entries_take]
    exact hloop
  rw [hres, after_new_seq, List.length_take, Nat.min_eq_left hlen.le]
  exact ⟨rfl, rfl, rfl⟩

theorem trimNewlines_append {s : Bytes} {b : Byte} (hb : b ≠ newline) :
    trimNewlines (s ++ [b, newline]) = s ++ [b] := by
  simp [trimNewlines, hb]

theorem oneLine_canonical (hrt : rt.Compact) (e : JSONEncoder) {r : Record χ κ}
    (hr : r.CallerClean rt) : OneLine (canonical (e.encode rt) r) := by
  rw [canonical, encode_eq, trimNewlines_append (by decide)]
  exact ⟨notMem_append (encodeBody_clean hrt e hr (by simp)) (by decide), by simp; decide⟩

theorem oneLine_payloads (hrt : rt.Compact) (e : JSONEncoder) {log : List (Event (Record χ κ))}
    {s : State} {cs : List (Bytes × Bool)} (hs : Shape sha (e.encode rt) log s cs)
    (hclean : ∀ r ∈ emitted log, r.CallerClean rt) : ∀ c ∈ cs.map (·.1), OneLine c := by
  intro c hc
  have hmem := hs.calls.subset (List.mem_append_left s.waiting hc)
  obtain ⟨r, hr, rfl⟩ := List.mem_map.mp hmem
  exact oneLine_canonical hrt e (hclean r hr)

theorem Shape.length_calls {ρ : Type} {enc : Bytes → ρ → Bytes} {log : List (Event ρ)} {s : State}
    {cs : List (Bytes × Bool)} (hs : Shape sha enc log s cs) (hdone : s.waiting = []) :
    cs.length = (emitted log).length := by
  have h := hs.calls.length_eq
  simpa [hdone] using h

theorem zip_map_fst {ls : List Bytes} {oks : List Bool} (h : ls.length = oks.length) :
    (ls.zip oks).map (·.1) = ls :=
  List.map_fst_zip h.le

theorem Shape.lines_eq {ρ : Type} {enc : Bytes → ρ → Bytes} {log : List (Event ρ)} {s : State}
    {cs : List (Bytes × Bool)} (hs : Shape sha enc log s cs) :
    (writes log).map (·.1) = entries sha newAuditSink (cs.map (·.1)) := by
  rw [hs.wrote, zip_map_fst (by simp [entries_length])]

theorem written_of_all {ws : List (Bytes × Bool)} (h : ∀ w ∈ ws, w.2 = true) :
    written ws = ws.map (·.1) := by
  rw [written, List.filter_eq_self.mpr h]

theorem verifyAudit_agrees (sha : Sha256) {rt : Runtime χ} (hrt : rt.Compact) (e : JSONEncoder)
    {log : List (Event (Record χ κ))} {s : State} (hrun : (machine sha (e.encode rt)).Run log s)
    (hdone : s.waiting = []) (hok : ∀ w ∈ writes log, w.2 = true)
    (hclean : ∀ r ∈ emitted log, r.CallerClean rt) :
    (Intact (verifyAudit sha s.out) (.ofNat (emitted log).length) ↔
      ∀ w ∈ writes log, w.1.length < maxTokenSize) ∧
    ∀ k, ((writes log).map (·.1)).findIdx? tooLong = some k →
      Broken (verifyAudit sha s.out) (.ofNat k) := by
  obtain ⟨cs, hs⟩ := exec_shape hrun
  have hone := oneLine_payloads hrt e hs hclean
  have hout : s.out = stream sha (cs.map (·.1)) := by
    rw [hs.out, written_of_all hok, hs.lines_eq, stream]
  have hlong : ∀ k, ((writes log).map (·.1)).findIdx? tooLong = some k →
      Broken (verifyAudit sha s.out) (.ofNat k) := by
    intro k hk
    rw [hs.lines_eq] at hk
    rw [hout]
    exact verify_entries_tooLong hone hk
  refine ⟨⟨?_, ?_⟩, hlong⟩
  · -- an over-long line would have a first one, where the verifier stops
    intro hi w hw
    by_contra hcon
    have hex : ∃ l ∈ (writes log).map (·.1), tooLong l = true :=
      ⟨w.1, List.mem_map_of_mem hw, by simpa [tooLong] using hcon⟩
    cases hk : ((writes log).map (·.1)).findIdx? tooLong with
    | none =>
      obtain ⟨l, hl, ht⟩ := hex
      exact absurd ht (by simpa using List.findIdx?_eq_none_iff.mp hk l hl)
    | some k => exact (hlong k hk).not_intact hi
  · intro hfit
    have hfit' : ∀ l ∈ entries sha newAuditSink (cs.map (·.1)), l.length < maxTokenSize := by
      rw [← hs.lines_eq]
      intro l hl
      obtain ⟨w, hw, rfl⟩ := List.mem_map.mp hl
      exact hfit w hw
    rw [hout, verify_entries_fit hone hfit', List.length_map, hs.length_calls hdone]
    exact intact_intact _

def zeroSha : Sha256 := fun _ => ⟨List.replicate 32 0, rfl⟩

def plainRuntime : Runtime Unit where
  marshal := fun _ => .ok (ascii "[]")
  sprint := fun _ => ascii "[]"
  quote := fun s => 0x22 :: s ++ [0x22]
  frame := fun _ => { file := [], line := 0, function := [] }
  localOffset := fun _ => 0

def plainRecord (message : String) : Record Unit Unit where
  time := Time.epoch
  level := Level.info
  message := ascii message
  pc := 0
  eventName := []
  fields := []
  ctx := ()

theorem plainRuntime_compact : plainRuntime.Compact := by
  rintro v raw h
  obtain rfl : ascii "[]" = raw := Except.ok.inj h
  decide

theorem plainRecord_clean (message : String) : (plainRecord message).CallerClean plainRuntime := by
  intro src h
  simp [Record.source, plainRecord] at h

def plainMachine : Machine State (Act (Record Unit Unit)) (Event (Record Unit Unit)) :=
  machine zeroSha (JSONEncoder.new.encode plainRuntime)

def emitTwoActs (first second : Bool) : List (Act (Record Unit Unit)) :=
  [.call (plainRecord "a"), .call (plainRecord "b"), .locked 1 first, .locked 0 second]

def emitTwo (first second : Bool) : List (Event (Record Unit Unit)) × State :=
  (plainMachine.perform [] plainMachine.init (emitTwoActs first second)).getD
    ([], plainMachine.init)

theorem emitTwo_run (first second : Bool) :
    plainMachine.Run (emitTwo first second).1 (emitTwo first second).2 := by
  have h : plainMachine.perform [] plainMachine.init (emitTwoActs first second) =
      some (emitTwo first second) := by
    cases first <;> cases second <;> rfl
  exact Machine.run_of_perform h

theorem emitTwo_clean (first second : Bool) :
    ∀ r ∈ emitted (emitTwo first second).1, r.CallerClean plainRuntime := by
  have : emitted (emitTwo first second).1 = [plainRecord "a", plainRecord "b"] := by
    cases first <;> cases second <;> rfl
  rw [this]
  intro r hr
  simp only [List.mem_cons, List.not_mem_nil, or_false] at hr
  rcases hr with rfl | rfl <;> exact plainRecord_clean _

theorem verifyAudit_agrees_two :
    plainMachine.Run (emitTwo true true).1 (emitTwo true true).2 ∧
      Intact (verifyAudit zeroSha (emitTwo true true).2.out) 2 :=
  ⟨emitTwo_run true true,
    (verifyAudit_agrees zeroSha plainRuntime_compact JSONEncoder.new (emitTwo_run true true)
      (by decide +kernel) (by decide +kernel) (emitTwo_clean true true)).1.mpr (by decide +kernel)⟩

end UbgoLogger.Audit
