import UbgoLogger.Audit.Sink

namespace UbgoLogger.Audit
open Foundation Foundation.Text Foundation.Lines Foundation.HashChain

structure AuditResult where
  records : UInt64
  ok : Bool
  brokenAtSeq : Int64
  reason : String
  deriving DecidableEq, Repr

def broken (n : UInt64) (brokenAtSeq : Int64) (reason : String) : AuditResult :=
  { records := n, ok := false, brokenAtSeq := brokenAtSeq, reason := reason }

def intact (n : UInt64) : AuditResult :=
  { records := n, ok := true, brokenAtSeq := -1, reason := "" }

-- strconv.ParseUint(s, 10, 64): a value out of range is an error too.
def parseUint (s : Bytes) : Option UInt64 :=
  match parseDecimal s with
  | none => none
  | some v => if v < 2 ^ 64 then some (.ofNat v) else none

theorem parseUint_eq_some {s : Bytes} {n : UInt64} :
    parseUint s = some n ↔ parseDecimal s = some n.toNat := by
  unfold parseUint
  cases parseDecimal s with
  | none => simp
  | some v =>
    dsimp only
    split
    next hlt =>
      rw [Option.some.injEq, Option.some.injEq, UInt64.ofNat_eq_iff_mod_eq_toNat, Nat.mod_eq_of_lt hlt]
    next hge =>
      have hne : v ≠ n.toNat := by
        rintro rfl
        exact hge n.toNat_lt
      simp [hne]

def maxTokenSize : Nat := 8 * 1024 * 1024

-- The loop of VerifyAudit over the scanner's tokens; err says that the scanner stopped at a line
-- above the cap. The second component lists the inputs handed to sha256.
def verifyLoop (sha : Sha256) (err : Bool) : List Bytes → Bytes → UInt64 → AuditResult × List Bytes
  | [], _, n =>
      (if err then broken n n.toInt64 ("read error: " ++ "bufio.Scanner: token too long")
        else intact n, [])
  | line :: rest, prev, n =>
      match splitN space 4 line with
      | [gotHash, gotPrev, seqStr, canonical] =>
          match parseUint seqStr with
          | none => (broken n n.toInt64 "seq not contiguous (deletion/reorder)", [])
          | some seq =>
              if seq ≠ n then (broken n n.toInt64 "seq not contiguous (deletion/reorder)", [])
              else if gotPrev ≠ prev then
                (broken n seq.toInt64 "prev hash mismatch (chain break)", [])
              else if hashHex sha (prev ++ canonical) ≠ gotHash then
                (broken n seq.toInt64 "hash mismatch (record tampered)", [prev ++ canonical])
              else
                let (res, inputs) := verifyLoop sha err rest gotHash (n + 1)
                (res, (prev ++ canonical) :: inputs)
      | _ => (broken n n.toInt64 "malformed line", [])

def verifyTrace (sha : Sha256) (rd : Bytes) : AuditResult × List Bytes :=
  let (tokens, err) := scanLines maxTokenSize rd
  verifyLoop sha err tokens genesisHash 0

def verifyAudit (sha : Sha256) (rd : Bytes) : AuditResult := (verifyTrace sha rd).1

def hashInputs (sha : Sha256) (rd : Bytes) : List Bytes := (verifyTrace sha rd).2

def column (i : Nat) (token : Bytes) : Bytes := (splitN space 4 token).getD i []

def payloads (rd : Bytes) : List Bytes := (scanLines maxTokenSize rd).1.map (column 3)

def lastHash (rd : Bytes) : Option Bytes := (scanLines maxTokenSize rd).1.getLast?.map (column 0)

variable {sha : Sha256}

-- What one iteration lets pass: the four columns, with prev, seq and hash as the chain demands.
def Passes (sha : Sha256) (prev : Bytes) (n : UInt64) (token c : Bytes) : Prop :=
  ∃ seqStr, splitN space 4 token = [hashHex sha (prev ++ c), prev, seqStr, c] ∧
    parseUint seqStr = some n

theorem verifyLoop_pass {err : Bool} {token prev c : Bytes} {n : UInt64} {rest : List Bytes}
    (h : Passes sha prev n token c) :
    verifyLoop sha err (token :: rest) prev n =
      ((verifyLoop sha err rest (hashHex sha (prev ++ c)) (n + 1)).1,
        (prev ++ c) :: (verifyLoop sha err rest (hashHex sha (prev ++ c)) (n + 1)).2) := by
  obtain ⟨seqStr, hsplit, hseq⟩ := h
  simp [verifyLoop, hsplit, hseq]

def Broken (res : AuditResult) (n : UInt64) : Prop :=
  res.ok = false ∧ res.records = n ∧ res.brokenAtSeq = n.toInt64

-- Both numbers are the index itself while it fits an int64.
theorem Broken.exact {res : AuditResult} {k : Nat} (h : Broken res (.ofNat k)) (hk : k < 2 ^ 63) :
    res.records.toNat = k ∧ res.brokenAtSeq.toInt = k := by
  obtain ⟨-, hrecords, hseq⟩ := h
  rw [hrecords, hseq, UInt64.toInt64_ofNat', Int64.toInt_ofNat_of_lt hk]
  exact ⟨UInt64.toNat_ofNat_of_lt' (hk.trans (by decide)), rfl⟩

theorem verifyLoop_stop {err : Bool} {token prev : Bytes} {n : UInt64} {rest : List Bytes}
    (h : ¬ ∃ c, Passes sha prev n token c) :
    Broken (verifyLoop sha err (token :: rest) prev n).1 n := by
  simp only [verifyLoop]
  split
  · rename_i gotHash gotPrev seqStr c hsplit
    cases hseq : parseUint seqStr with
    | none => exact ⟨rfl, rfl, rfl⟩
    | some seq =>
      dsimp only
      by_cases hn : seq = n
      · subst hn
        by_cases hp : gotPrev = prev
        · by_cases hh : hashHex sha (prev ++ c) = gotHash
          · exact absurd ⟨c, seqStr, by rw [hh, hsplit, hp], hseq⟩ h
          · rw [if_neg (not_not.mpr rfl), if_neg (not_not.mpr hp), if_pos hh]
            exact ⟨rfl, rfl, rfl⟩
        · rw [if_neg (not_not.mpr rfl), if_pos hp]
          exact ⟨rfl, rfl, rfl⟩
      · rw [if_pos hn]
        exact ⟨rfl, rfl, rfl⟩
  · exact ⟨rfl, rfl, rfl⟩

theorem Passes.column_three {prev token c : Bytes} {n : UInt64} (h : Passes sha prev n token c) :
    column 3 token = c := by
  obtain ⟨_, h, -⟩ := h
  simp [column, h]

theorem Passes.column_zero {prev token c : Bytes} {n : UInt64} (h : Passes sha prev n token c) :
    column 0 token = hashHex sha (prev ++ c) := by
  obtain ⟨_, h, -⟩ := h
  simp [column, h]

theorem passes_entry {a : AuditSink} (ha : a.Linked sha) {hash seqStr c : Bytes}
    (hh : space ∉ hash) (hs : parseUint seqStr = some a.seq) :
    Passes sha a.prev a.seq (entry hash a.prev seqStr c) c ↔ hash = hashHex sha (a.prev ++ c) := by
  have hseq : space ∉ seqStr := by
    intro hm
    exact absurd (List.all_eq_true.mp (parse_isDigit (parseUint_eq_some.mp hs)).2 _ hm) (by decide)
  have hsplit : splitN space 4 (entry hash a.prev seqStr c) = [hash, a.prev, seqStr, c] :=
    splitN_four.mpr ⟨hh, ha.space_notMem, hseq, rfl⟩
  constructor
  · rintro ⟨s, h, -⟩
    rw [hsplit] at h
    exact (List.cons.inj h).1
  · rintro rfl
    exact ⟨seqStr, hsplit, hs⟩

theorem passes_line {a : AuditSink} (ha : a.Linked sha) (c : Bytes) :
    Passes sha a.prev a.seq (a.line sha c) c :=
  (passes_entry ha (space_notMem_hashHex _) (parseUint_eq_some.mpr (parse_decimal _))).mpr rfl

theorem verifyLoop_entries {a : AuditSink} (ha : a.Linked sha) (err : Bool) (cs rest : List Bytes) :
    (verifyLoop sha err (entries sha a cs ++ rest) a.prev a.seq).1 =
      (verifyLoop sha err rest (after sha a cs).prev (after sha a cs).seq).1 := by
  induction cs generalizing a with
  | nil => rfl
  | cons c cs ih =>
    rw [entries, List.cons_append, verifyLoop_pass (passes_line ha c)]
    exact ih (a.advance_linked c)

def Chained (sha : Sha256) : Bytes → UInt64 → List Bytes → List Bytes → Prop
  | _, _, [], cs => cs = []
  | prev, n, token :: rest, cs =>
      ∃ c ds, cs = c :: ds ∧ Passes sha prev n token c ∧
        Chained sha (hashHex sha (prev ++ c)) (n + 1) rest ds

theorem verifyLoop_ok {err : Bool} {tokens : List Bytes} {prev : Bytes} {n : UInt64}
    (h : (verifyLoop sha err tokens prev n).1.ok = true) :
    err = false ∧ Chained sha prev n tokens (tokens.map (column 3)) ∧
      (verifyLoop sha err tokens prev n).1 = intact (n + .ofNat tokens.length) ∧
      (verifyLoop sha err tokens prev n).2 =
        (chain sha).inputs prev (tokens.map (column 3)) := by
  induction tokens generalizing prev n with
  | nil =>
    cases err with
    | true => simp [verifyLoop, broken] at h
    | false => exact ⟨rfl, rfl, congrArg intact (UInt64.add_zero n).symm, rfl⟩
  | cons token rest ih =>
    by_cases hp : ∃ c, Passes sha prev n token c
    · obtain ⟨c, hc⟩ := hp
      rw [verifyLoop_pass hc] at h ⊢
      obtain ⟨herr, hchain, hres, hin⟩ := ih h
      refine ⟨herr, ⟨c, _, by rw [List.map_cons, hc.column_three], hc, hchain⟩, ?_, ?_⟩
      · rw [hres, List.length_cons, UInt64.ofNat_add, UInt64.add_assoc, UInt64.add_comm 1]
        rfl
      · rw [hin, List.map_cons, hc.column_three]
        rfl
    · exact absurd h (by simp [(verifyLoop_stop hp).1])

theorem chained_length {prev : Bytes} {n : UInt64} {tokens cs : List Bytes}
    (h : Chained sha prev n tokens cs) : tokens.length = cs.length := by
  induction tokens generalizing prev n cs with
  | nil =>
    subst h
    rfl
  | cons token rest ih =>
    obtain ⟨c, ds, rfl, -, hrest⟩ := h
    simp [ih hrest]

theorem chained_last {prev : Bytes} {n : UInt64} {tokens cs : List Bytes}
    (h : Chained sha prev n tokens cs) (hne : tokens ≠ []) :
    tokens.getLast?.map (column 0) = some (cs.foldl (chain sha).next prev) := by
  induction tokens generalizing prev n cs with
  | nil => exact absurd rfl hne
  | cons token rest ih =>
    obtain ⟨c, ds, rfl, hc, hrest⟩ := h
    cases rest with
    | nil =>
      obtain rfl : ds = [] := hrest
      simp [hc.column_zero, Scheme.next, chain]
    | cons token' rest =>
      rw [List.getLast?_cons_cons, ih hrest (by simp)]
      rfl

theorem passes_eq_line {a : AuditSink} {token c : Bytes}
    (h : Passes sha a.prev a.seq token c) :
    token = a.line sha c ↔ ¬ padded (column 2 token) := by
  obtain ⟨seqStr, hsplit, hseq⟩ := h
  have hcol : column 2 token = seqStr := by simp [column, hsplit]
  obtain ⟨-, -, -, htok⟩ := splitN_four.mp hsplit
  rw [hcol, ← eq_decimal_iff (parseUint_eq_some.mp hseq), htok]
  constructor
  · intro h
    simp only [AuditSink.line, AuditSink.sum, entry] at h
    have h₁ := (List.cons.inj (List.append_cancel_left h)).2
    have h₂ := (List.cons.inj (List.append_cancel_left h₁)).2
    exact List.append_cancel_right h₂
  · rintro rfl
    rfl

end UbgoLogger.Audit
