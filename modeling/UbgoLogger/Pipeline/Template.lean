import UbgoLogger.Encode.Float
import UbgoLogger.Pipeline.Redact

namespace UbgoLogger
open Foundation.Text

variable {π χ υ : Type}

def sprintAny (rt : Runtime χ) : AnyVal χ → Bytes
  | .nil => ascii "<nil>"
  | .string s => s
  | .bool v => if v then ascii "true" else ascii "false"
  | .int v => formatInt v.toInt
  | .int64 v => formatInt v.toInt
  | .uint64 v => decimal v.toNat
  | .float64 bits => Float.format bits
  | .error text => text
  | .stringer text => text
  | .other v => rt.sprint v

namespace Template

-- The loop over tmpl[i:]; skip counts the bytes that i still jumps over.
def parseLoop (rt : Runtime χ) (args : List (AnyVal χ)) :
    Bytes → Nat → Nat → Bytes → List (Field χ) → Bytes × List (Field χ)
  | [], _, _, sb, fields => (sb, fields)
  | _ :: tail, skip + 1, ai, sb, fields => parseLoop rt args tail skip ai sb fields
  | c :: tail, 0, ai, sb, fields =>
      if c = 0x7b then
        if tail.head? = some 0x7b then parseLoop rt args tail 1 ai (sb ++ [0x7b]) fields
        else
          match tail.idxOf? 0x7d with
          | none => (sb ++ c :: tail, fields)
          | some j =>
              let val := (args[ai]?).getD .nil
              parseLoop rt args tail (j + 1) (if ai < args.length then ai + 1 else ai)
                (sb ++ sprintAny rt val) (fields ++ [anyField (tail.take j) val])
      else if c = 0x7d ∧ tail.head? = some 0x7d then
        parseLoop rt args tail 1 ai (sb ++ [0x7d]) fields
      else parseLoop rt args tail 0 ai (sb ++ [c]) fields

def parseTemplate (rt : Runtime χ) (tmpl : Bytes) (args : List (AnyVal χ)) :
    Bytes × List (Field χ) :=
  let (msg, fields) := parseLoop rt args tmpl 0 0 [] []
  (msg, fields ++ [stringField (ascii "msg_template") tmpl])

inductive Piece where
  | text (s : Bytes)
  | hole (name : Bytes)
  deriving DecidableEq

def pieces : Bytes → Nat → List Piece
  | [], _ => []
  | _ :: tail, skip + 1 => pieces tail skip
  | c :: tail, 0 =>
      if c = 0x7b then
        if tail.head? = some 0x7b then .text [0x7b] :: pieces tail 1
        else
          match tail.idxOf? 0x7d with
          | none => [.text (c :: tail)]
          | some j => .hole (tail.take j) :: pieces tail (j + 1)
      else if c = 0x7d ∧ tail.head? = some 0x7d then .text [0x7d] :: pieces tail 1
      else .text [c] :: pieces tail 0

def holes (ps : List Piece) : List Bytes :=
  ps.filterMap fun
    | .text _ => none
    | .hole name => some name

def spell : List Piece → List Bytes → Bytes
  | [], _ => []
  | .text s :: ps, ts => s ++ spell ps ts
  | .hole _ :: ps, [] => ascii "<nil>" ++ spell ps []
  | .hole _ :: ps, t :: ts => t ++ spell ps ts

def bindHoles : List Piece → List (AnyVal χ) → List (Field χ)
  | [], _ => []
  | .text _ :: ps, vs => bindHoles ps vs
  | .hole name :: ps, [] => anyField name .nil :: bindHoles ps []
  | .hole name :: ps, v :: vs => anyField name v :: bindHoles ps vs

theorem parseLoop_eq (rt : Runtime χ) (args : List (AnyVal χ)) (s : Bytes) (skip ai : Nat)
    (sb : Bytes) (fields : List (Field χ)) :
    parseLoop rt args s skip ai sb fields =
      (sb ++ spell (pieces s skip) ((args.drop ai).map (sprintAny rt)),
        fields ++ bindHoles (pieces s skip) (args.drop ai)) := by
  induction s generalizing skip ai sb fields with
  | nil => simp [parseLoop, pieces, spell, bindHoles]
  | cons c tail ih =>
    cases skip with
    | succ skip => exact ih skip ai sb fields
    | zero =>
      unfold parseLoop pieces
      split
      next =>
        split
        next => simp [ih, spell, bindHoles]
        next =>
          split
          next => simp [spell, bindHoles]
          next j hj =>
            rw [ih]
            rcases Nat.lt_or_ge ai args.length with hlt | hge
            · rw [if_pos hlt, List.drop_eq_getElem_cons hlt, List.getElem?_eq_getElem hlt,
                List.map_cons, spell, bindHoles]
              simp
            · rw [if_neg (not_lt.mpr hge), List.drop_eq_nil_of_le hge, List.getElem?_eq_none hge]
              simp [spell, bindHoles, sprintAny]
      next =>
        split
        next => simp [ih, spell, bindHoles]
        next => simp [ih, spell, bindHoles]

theorem parseTemplate_eq (rt : Runtime χ) (tmpl : Bytes) (args : List (AnyVal χ)) :
    parseTemplate rt tmpl args =
      (spell (pieces tmpl 0) (args.map (sprintAny rt)),
        bindHoles (pieces tmpl 0) args ++ [stringField (ascii "msg_template") tmpl]) := by
  rw [parseTemplate, parseLoop_eq]
  rfl

end Template

def Logger.logt (l : Logger π χ υ) (rt : Runtime χ) (st : π) (site : Logger.Site)
    (ctx : Option (Context χ υ)) (level : Level) (tmpl : Bytes) (args : List (AnyVal χ)) :
    π × Option (Rec χ υ) :=
  if l.level ≤ level then
    let (msg, fields) := Template.parseTemplate rt tmpl args
    l.log st site ctx level msg fields
  else (st, none)

namespace Template

-- The two argument lists agree but where the name of the hole is redacted.
structure DifferRedacted (pr : PathRedactor) (ps : List Piece) (args args' : List (AnyVal χ)) :
    Prop where
  length : args.length = args'.length
  redacted : ∀ k : Nat, args[k]? ≠ args'[k]? →
    ∃ name, (holes ps)[k]? = some name ∧ pr.matchesKey name = true

variable {pr : PathRedactor} {hashValue : Field χ → Bytes}

theorem bindHoles_redacted (hs : pr.strategy ≠ .hash) {ps : List Piece} {args args' : List (AnyVal χ)}
    (h : DifferRedacted pr ps args args') :
    (bindHoles ps args).filterMap (pr.redactField hashValue) =
      (bindHoles ps args').filterMap (pr.redactField hashValue) := by
  induction ps generalizing args args' with
  | nil => rfl
  | cons p ps ih =>
    cases p with
    | text s => exact ih ⟨h.length, h.redacted⟩
    | hole name =>
      cases args with
      | nil =>
        obtain rfl := List.eq_nil_of_length_eq_zero h.length.symm
        rfl
      | cons v vs =>
        cases args' with
        | nil => cases h.length
        | cons w ws =>
          have htail : DifferRedacted pr ps vs ws :=
            ⟨Nat.succ.inj h.length, fun k hk => h.redacted (k + 1) (by simpa using hk)⟩
          have hhead : pr.redactField hashValue (anyField name v) =
              pr.redactField hashValue (anyField name w) := by
            by_cases hvw : v = w
            · rw [hvw]
            · obtain ⟨n, hn, hm⟩ := h.redacted 0 (by simpa using hvw)
              obtain rfl : name = n := by simpa [holes] using hn
              exact PathRedactor.redactField_eq_of_key hs rfl hm
          rw [bindHoles, bindHoles, List.filterMap_cons, List.filterMap_cons, hhead, ih htail]

theorem spell_set (ps : List Piece) (ts : List Bytes) (k : Nat) (hk : k < ts.length)
    (hh : k < (holes ps).length) (t : Bytes) : spell ps (ts.set k t) = spell ps ts ↔ t = ts[k] := by
  induction ps generalizing ts k with
  | nil => simp [holes] at hh
  | cons p ps ih =>
    cases p with
    | text s => simpa [spell] using ih ts k hk (by simpa [holes] using hh)
    | hole name =>
      cases ts with
      | nil => simp at hk
      | cons u ts =>
        cases k with
        | zero => simp [spell]
        | succ k =>
          simpa [spell] using ih ts k (by simpa using hk) (by simpa [holes] using hh)

theorem logt_eq (l : Logger π χ υ) (hl : l.processors = [pr.process hashValue]) (rt : Runtime χ)
    (st : π) (site : Logger.Site) (ctx : Option (Context χ υ)) (level : Level)
    (hlevel : l.level ≤ level) (tmpl : Bytes) (args : List (AnyVal χ)) :
    l.logt rt st site ctx level tmpl args =
      (st, some { l.record site ctx level (spell (pieces tmpl 0) (args.map (sprintAny rt))) [] with
        fields := l.withFields.filterMap (pr.redactField hashValue) ++
          (bindHoles (pieces tmpl 0) args).filterMap (pr.redactField hashValue) ++
          [stringField (ascii "msg_template") tmpl].filterMap (pr.redactField hashValue) }) := by
  rw [Logger.logt, if_pos hlevel, parseTemplate_eq]
  simp only [Logger.log, not_lt.mpr hlevel, if_false, hl, runPipeline, PathRedactor.process,
    Logger.record, List.filterMap_append, List.append_assoc]

theorem logt_congr (hs : pr.strategy ≠ .hash) {l : Logger π χ υ}
    (hl : l.processors = [pr.process hashValue]) (rt : Runtime χ) (st : π) (site : Logger.Site)
    (ctx : Option (Context χ υ)) (level : Level) {tmpl : Bytes} {args args' : List (AnyVal χ)}
    (h : DifferRedacted pr (pieces tmpl 0) args args') :
    (l.logt rt st site ctx level tmpl args).2 = (l.logt rt st site ctx level tmpl args').2 ↔
      level < l.level ∨ spell (pieces tmpl 0) (args.map (sprintAny rt)) =
        spell (pieces tmpl 0) (args'.map (sprintAny rt)) := by
  rcases lt_or_ge level l.level with hlt | hge
  · simp [Logger.logt, not_le.mpr hlt, hlt]
  · rw [logt_eq l hl rt st site ctx level hge, logt_eq l hl rt st site ctx level hge,
      bindHoles_redacted hs h]
    simp [Logger.record, not_lt.mpr hge]

theorem DifferRedacted.set {ps : List Piece} {args : List (AnyVal χ)} {k : Nat} {name : Bytes}
    (hname : (holes ps)[k]? = some name) (hm : pr.matchesKey name = true) (w : AnyVal χ) :
    DifferRedacted pr ps args (args.set k w) where
  length := by simp
  redacted j hj := by
    by_cases hkj : k = j
    · exact ⟨name, hkj ▸ hname, hm⟩
    · exact absurd (by rw [List.getElem?_set_ne hkj]) hj

theorem logt_redacted (pr : PathRedactor) (hs : pr.strategy ≠ .hash)
    (hashValue : Field χ → Bytes) (l : Logger π χ υ) (hl : l.processors = [pr.process hashValue])
    (rt : Runtime χ) (st : π) (site : Logger.Site) (ctx : Option (Context χ υ)) (level : Level)
    (tmpl : Bytes) (args : List (AnyVal χ)) :
    (∀ args', DifferRedacted pr (pieces tmpl 0) args args' →
      ((l.logt rt st site ctx level tmpl args).2 = (l.logt rt st site ctx level tmpl args').2 ↔
        level < l.level ∨ spell (pieces tmpl 0) (args.map (sprintAny rt)) =
          spell (pieces tmpl 0) (args'.map (sprintAny rt)))) ∧
    ∀ (k : Nat) (v w : AnyVal χ) (name : Bytes), args[k]? = some v →
      (holes (pieces tmpl 0))[k]? = some name → pr.matchesKey name = true →
      ((l.logt rt st site ctx level tmpl args).2 =
          (l.logt rt st site ctx level tmpl (args.set k w)).2 ↔
        level < l.level ∨ sprintAny rt v = sprintAny rt w) := by
  refine ⟨fun args' h => logt_congr hs hl rt st site ctx level h, ?_⟩
  intro k v w name hv hname hm
  obtain ⟨hk, rfl⟩ := List.getElem?_eq_some_iff.mp hv
  obtain ⟨hhole, -⟩ := List.getElem?_eq_some_iff.mp hname
  have htexts := spell_set (pieces tmpl 0) (args.map (sprintAny rt)) k (by simpa using hk) hhole
    (sprintAny rt w)
  rw [List.getElem_map] at htexts
  rw [logt_congr hs hl rt st site ctx level (DifferRedacted.set hname hm w), List.map_set, eq_comm,
    htexts, eq_comm]

def loginTemplate : Bytes := ascii "login \x7bpassword\x7d"

def loginLogger (pr : PathRedactor) : Logger Unit Unit Unit where
  level := Level.info
  processors := [pr.process fun _ => []]
  withFields := []
  addCaller := false

def loginSite : Logger.Site where
  now := Time.epoch
  pc := 0

def login (pr : PathRedactor) (password : AnyVal Unit) : Option (Rec Unit Unit) :=
  ((loginLogger pr).logt bareRuntime () loginSite none Level.info loginTemplate [password]).2

def maskPassword : PathRedactor := newPathRedactor .mask [] [ascii "password"]

theorem logt_redacted_login :
    (holes (pieces loginTemplate 0))[0]? = some (ascii "password") ∧
    maskPassword.matchesKey (ascii "password") = true ∧
    login maskPassword (.int 7) = login maskPassword (.string (ascii "7")) :=
  ⟨by decide, by decide,
    ((logt_redacted maskPassword (by decide) (fun _ => []) (loginLogger maskPassword) rfl
      bareRuntime () loginSite none Level.info loginTemplate [.int 7]).2 0 (.int 7)
      (.string (ascii "7")) (ascii "password") rfl (by decide) (by decide)).mpr
      (.inr (by decide))⟩

theorem login_leaks_password :
    maskPassword.strategy = .mask ∧
    DifferRedacted maskPassword (pieces loginTemplate 0) [AnyVal.string (ascii "hunter2")]
      [(AnyVal.string (ascii "12345") : AnyVal Unit)] ∧
    (login maskPassword (.string (ascii "hunter2"))).map Record.message =
      some (ascii "login hunter2") ∧
    (login maskPassword (.string (ascii "12345"))).map Record.message =
      some (ascii "login 12345") ∧
    login maskPassword (.string (ascii "hunter2")) ≠
      login maskPassword (.string (ascii "12345")) := by
  have hname : (holes (pieces loginTemplate 0))[0]? = some (ascii "password") := by decide
  exact ⟨rfl, DifferRedacted.set hname (by decide) _, by decide, by decide, by decide⟩

end Template

end UbgoLogger
