import UbgoLogger.Foundation.HashChain
import UbgoLogger.Foundation.Lines
import UbgoLogger.Foundation.Machine

namespace UbgoLogger.Audit
open Foundation Foundation.Text Foundation.Lines Foundation.HashChain

abbrev Sha256 := Bytes → { d : Bytes // d.length = 32 }

def genesisHash : Bytes := List.replicate 64 48

def hashHex (sha : Sha256) (x : Bytes) : Bytes := encodeHex (sha x).val

theorem hashHex_length (sha : Sha256) (x : Bytes) : (hashHex sha x).length = 64 := by
  rw [hashHex, encodeHex_length, (sha x).property]

theorem hashHex_inj {sha : Sha256} {x y : Bytes} : hashHex sha x = hashHex sha y ↔ sha x = sha y :=
  ⟨fun h => Subtype.ext (encodeHex_injective h), fun h => by rw [hashHex, h, hashHex]⟩

def chain (sha : Sha256) : Scheme Bytes Bytes Bytes where
  genesis := genesisHash
  digest := hashHex sha
  glue := (· ++ ·)
  separable := by
    have hlen : ∀ {h : Bytes}, (h = genesisHash ∨ ∃ x, h = hashHex sha x) → h.length = 64 := by
      rintro h (rfl | ⟨x, rfl⟩)
      · rfl
      · exact hashHex_length sha x
    intro h h' p p' hh hh' heq
    exact List.append_inj heq ((hlen hh).trans (hlen hh').symm)

structure AuditSink where
  seq : UInt64
  prev : Bytes
  deriving DecidableEq

def newAuditSink : AuditSink := { seq := 0, prev := genesisHash }

def trimNewlines (s : Bytes) : Bytes := (s.reverse.dropWhile (· = newline)).reverse

def entry (hash prev seqStr canonical : Bytes) : Bytes :=
  hash ++ space :: (prev ++ space :: (seqStr ++ space :: canonical))

namespace AuditSink

variable (sha : Sha256)

def sum (a : AuditSink) (canonical : Bytes) : Bytes := hashHex sha (a.prev ++ canonical)

def line (a : AuditSink) (canonical : Bytes) : Bytes :=
  entry (a.sum sha canonical) a.prev (decimal a.seq.toNat) canonical

-- prev and seq advance whatever Write returned
def advance (a : AuditSink) (canonical : Bytes) : AuditSink :=
  { seq := a.seq + 1, prev := a.sum sha canonical }

end AuditSink

def entries (sha : Sha256) : AuditSink → List Bytes → List Bytes
  | _, [] => []
  | a, c :: cs => a.line sha c :: entries sha (a.advance sha c) cs

def stream (sha : Sha256) (cs : List Bytes) : Bytes := unlines (entries sha newAuditSink cs)

def after (sha : Sha256) (a : AuditSink) (cs : List Bytes) : AuditSink :=
  cs.foldl (AuditSink.advance sha) a

section Chain

variable {sha : Sha256}

theorem space_notMem_hashHex (x : Bytes) : space ∉ hashHex sha x := by
  intro h
  exact absurd (encodeHex_graphic h) (by decide)

theorem space_notMem_decimal (n : Nat) : space ∉ decimal n := by
  intro h
  exact absurd (decimal_isDigit h) (by decide)

def AuditSink.Linked (sha : Sha256) (a : AuditSink) : Prop :=
  a.prev = genesisHash ∨ ∃ x, a.prev = hashHex sha x

theorem newAuditSink_linked (sha : Sha256) : newAuditSink.Linked sha := .inl rfl

theorem AuditSink.advance_linked (a : AuditSink) (c : Bytes) : (a.advance sha c).Linked sha :=
  .inr ⟨_, rfl⟩

theorem after_linked {a : AuditSink} (h : a.Linked sha) (cs : List Bytes) :
    (after sha a cs).Linked sha := by
  induction cs generalizing a with
  | nil => exact h
  | cons c cs ih => exact ih (a.advance_linked c)

theorem AuditSink.Linked.space_notMem {a : AuditSink} (h : a.Linked sha) : space ∉ a.prev := by
  rcases h with h | ⟨x, h⟩
  · rw [h]
    decide
  · rw [h]
    exact space_notMem_hashHex x

theorem after_seq (a : AuditSink) (cs : List Bytes) :
    (after sha a cs).seq = a.seq + .ofNat cs.length := by
  induction cs generalizing a with
  | nil => exact (UInt64.add_zero a.seq).symm
  | cons c cs ih =>
    have h := ih (a.advance sha c)
    simp only [after, AuditSink.advance, List.foldl_cons, List.length_cons] at h ⊢
    rw [h, UInt64.ofNat_add, UInt64.add_assoc, UInt64.add_comm 1]
    rfl

theorem after_new_seq (sha : Sha256) (cs : List Bytes) :
    (after sha newAuditSink cs).seq = .ofNat cs.length :=
  (after_seq newAuditSink cs).trans (UInt64.zero_add _)

theorem entries_append (a : AuditSink) (cs ds : List Bytes) :
    entries sha a (cs ++ ds) = entries sha a cs ++ entries sha (after sha a cs) ds := by
  induction cs generalizing a with
  | nil => rfl
  | cons c cs ih =>
    rw [List.cons_append, entries, ih]
    rfl

theorem entries_length (a : AuditSink) (cs : List Bytes) :
    (entries sha a cs).length = cs.length := by
  induction cs generalizing a with
  | nil => rfl
  | cons c cs ih => simp [entries, ih]

theorem entries_take (a : AuditSink) (cs : List Bytes) (k : Nat) :
    (entries sha a cs).take k = entries sha a (cs.take k) := by
  induction cs generalizing a k with
  | nil => simp [entries]
  | cons c cs ih =>
    cases k with
    | zero => simp [entries]
    | succ k => simp [entries, ih]

theorem entries_getElem (a : AuditSink) (cs : List Bytes) (k : Nat) :
    (entries sha a cs)[k]? = cs[k]?.map fun c => (after sha a (cs.take k)).line sha c := by
  induction cs generalizing a k with
  | nil => simp [entries]
  | cons c cs ih =>
    cases k with
    | zero => simp [entries, after]
    | succ k => simpa [entries, after] using ih (a.advance sha c) k

theorem newline_notMem_entry {hash prev seqStr c : Bytes} (hh : newline ∉ hash)
    (hp : newline ∉ prev) (hs : newline ∉ seqStr) (hc : newline ∉ c) :
    newline ∉ entry hash prev seqStr c := by
  have : newline ≠ space := by decide
  simp [entry, hh, hp, hs, hc, this]

theorem newline_notMem_hashHex (x : Bytes) : newline ∉ hashHex sha x := by
  intro h
  exact absurd (encodeHex_graphic h) (by decide)

theorem newline_notMem_decimal (n : Nat) : newline ∉ decimal n := by
  intro h
  exact absurd (decimal_isDigit h) (by decide)

theorem AuditSink.Linked.newline_notMem {a : AuditSink} (h : a.Linked sha) : newline ∉ a.prev := by
  rcases h with h | ⟨x, h⟩
  · rw [h]
    decide
  · rw [h]
    exact newline_notMem_hashHex x

theorem newline_notMem_line {a : AuditSink} (h : a.Linked sha) {c : Bytes} (hc : newline ∉ c) :
    newline ∉ a.line sha c :=
  newline_notMem_entry (newline_notMem_hashHex _) h.newline_notMem (newline_notMem_decimal _) hc

theorem newline_notMem_entries {a : AuditSink} (h : a.Linked sha) {cs : List Bytes}
    (hc : ∀ c ∈ cs, newline ∉ c) {l : Bytes} (hl : l ∈ entries sha a cs) : newline ∉ l := by
  induction cs generalizing a with
  | nil => simp [entries] at hl
  | cons c cs ih =>
    rcases List.mem_cons.mp hl with rfl | hl
    · exact newline_notMem_line h (hc c (by simp))
    · exact ih (a.advance_linked c) (fun d hd => hc d (by simp [hd])) hl

theorem getLast_entry {hash prev seqStr c : Bytes} (hc : c.getLast? ≠ some carriageReturn) :
    (entry hash prev seqStr c).getLast? ≠ some carriageReturn := by
  have hs : space ≠ carriageReturn := by decide
  cases c with
  | nil => simpa [entry, List.getLast?_append, List.getLast?_cons] using hs
  | cons b c =>
    simpa [entry, List.getLast?_append, List.getLast?_cons] using hc

end Chain

section Emit

variable {ρ : Type} (sha : Sha256) (enc : Bytes → ρ → Bytes)

structure State where
  sink : AuditSink
  out : Bytes
  waiting : List Bytes
  deriving DecidableEq

inductive Act (ρ : Type) where
  | call (r : ρ)
  | locked (k : Nat) (ok : Bool)

inductive Event (ρ : Type) where
  | emit (r : ρ)
  | write (line : Bytes) (ok : Bool)
  deriving DecidableEq

def canonical (r : ρ) : Bytes := trimNewlines (enc [] r)

-- Emit encodes outside the mutex; any of the calls waiting for it may enter next. A failing
-- Write leaves no byte behind.
def step (s : State) : Act ρ → Option (State × List (Event ρ))
  | .call r => some ({ s with waiting := s.waiting ++ [canonical enc r] }, [.emit r])
  | .locked k ok =>
      match s.waiting[k]? with
      | none => none
      | some c =>
          let line := s.sink.line sha c
          some ({ sink := s.sink.advance sha c
                  out := if ok then s.out ++ (line ++ [newline]) else s.out
                  waiting := s.waiting.eraseIdx k },
            [.write line ok])

def machine : Machine State (Act ρ) (Event ρ) where
  init := { sink := newAuditSink, out := [], waiting := [] }
  step := step sha enc

def emitted (log : List (Event ρ)) : List ρ :=
  log.filterMap fun | .emit r => some r | .write .. => none

def writes (log : List (Event ρ)) : List (Bytes × Bool) :=
  log.filterMap fun | .emit _ => none | .write l ok => some (l, ok)

def written (ws : List (Bytes × Bool)) : List Bytes := (ws.filter (·.2)).map (·.1)

end Emit

section Runs

variable {ρ : Type} {sha : Sha256} {enc : Bytes → ρ → Bytes} {C : State → Act ρ → Prop}

-- cs lists the payloads in the order the mutex admitted them, each with the fate of its Write.
structure Shape (sha : Sha256) (enc : Bytes → ρ → Bytes) (log : List (Event ρ)) (s : State)
    (cs : List (Bytes × Bool)) : Prop where
  sink : s.sink = after sha newAuditSink (cs.map (·.1))
  wrote : writes log = (entries sha newAuditSink (cs.map (·.1))).zip (cs.map (·.2))
  out : s.out = unlines (written (writes log))
  calls : (cs.map (·.1) ++ s.waiting).Perm ((emitted log).map (canonical enc))

theorem exec_shape {log : List (Event ρ)} {s : State} (h : (machine sha enc).Exec C log s) :
    ∃ cs, Shape sha enc log s cs := by
  induction h with
  | start => exact ⟨[], rfl, rfl, rfl, by simp [machine, emitted]⟩
  | @step log s s' a evs _ _ hstep ih =>
    obtain ⟨cs, hsink, hwrites, hout, hcalls⟩ := ih
    cases a with
    | call r =>
      simp only [machine, step, Option.some.injEq, Prod.mk.injEq] at hstep
      obtain ⟨rfl, rfl⟩ := hstep
      refine ⟨cs, hsink, by simpa [writes] using hwrites, ?_, ?_⟩
      · simpa [writes] using hout
      · simpa [emitted, ← List.append_assoc] using hcalls.append_right [canonical enc r]
    | locked k ok =>
      simp only [machine, step] at hstep
      cases hk : s.waiting[k]? with
      | none => simp [hk] at hstep
      | some c =>
        rw [hk] at hstep
        simp only [Option.some.injEq, Prod.mk.injEq] at hstep
        obtain ⟨rfl, rfl⟩ := hstep
        have hw : writes (log ++ [.write (s.sink.line sha c) ok]) =
            writes log ++ [(s.sink.line sha c, ok)] := by
          simp [writes]
        refine ⟨cs ++ [(c, ok)], ?_, ?_, ?_, ?_⟩
        · simp [hsink, after]
        · rw [hw, hwrites, List.map_append, List.map_append, entries_append, hsink]
          rw [List.zip_append (by simp [entries_length])]
          rfl
        · rw [hw]
          cases ok <;> simp [written, hout]
        · have hperm : (c :: s.waiting.eraseIdx k).Perm s.waiting := by
            obtain ⟨hlt, rfl⟩ := List.getElem?_eq_some_iff.mp hk
            exact List.getElem_cons_eraseIdx_perm hlt
          have he : emitted (log ++ [.write (s.sink.line sha c) ok]) = emitted log := by
            simp [emitted]
          rw [he]
          refine List.Perm.trans ?_ hcalls
          simpa using hperm.append_left (cs.map (·.1))

end Runs

end UbgoLogger.Audit
