import UbgoLogger.Encode.Logfmt

namespace UbgoLogger

open Foundation Foundation.Text Foundation.Lines Buffer

variable {χ κ : Type}

def AnyVal.text (rt : Runtime χ) : AnyVal χ → Bytes
  | .nil => ascii "null"
  | .string s => s
  | .bool v => if v then ascii "true" else ascii "false"
  | .int v => formatInt v.toInt
  | .int64 v => formatInt v.toInt
  | .uint64 v => decimal v.toNat
  | .float64 bits => Float.format bits
  | .error text => text
  | .stringer text => text
  | .other v => rt.sprint v

-- The text a value has on its own.
def Field.text (rt : Runtime χ) (f : Field χ) : Bytes :=
  match f.knd with
  | .string => f.str
  | .int64 => formatInt f.int64.toInt
  | .uint64 => decimal f.num.toNat
  | .float64 => Float.format f.num
  | .bool => if f.num ≠ 0 then ascii "true" else ascii "false"
  | .duration => Duration.string f.int64.toInt
  | .time => (f.time rt.localOffset).formatRFC3339Nano
  | .error => f.errVal.getD (ascii "null")
  | .any => f.any.text rt

def isKeyByte (b : Byte) : Bool :=
  isDigit b || (decide (97 ≤ b) && decide (b ≤ 122)) || (decide (65 ≤ b) && decide (b ≤ 90)) ||
    decide (b ∈ ascii "_.-")

-- Letters, digits, underscores, dots and dashes only.
def Words (s : Bytes) : Prop := ∀ b ∈ s, isKeyByte b = true

structure Wordlike (s : Bytes) : Prop where
  ne_nil : s ≠ []
  words : Words s

def isControl (b : Byte) : Bool := decide (b < 0x20) || decide (b = 0x7f)

-- A control byte comes with a byte that makes the encoder quote.
def ControlQuoted (s : Bytes) : Prop :=
  (∃ b ∈ s, isControl b = true) → ∃ b ∈ s, b ∈ ascii " =\"\n\t"

instance (s : Bytes) : Decidable (ControlQuoted s) := inferInstanceAs (Decidable (_ → _))

def AnyVal.Contained (p : Strconv.PrintTable) (rt : Runtime χ) : AnyVal χ → Prop
  | .string s => Logfmt.Bare s
  | .error text => Logfmt.Bare text
  | .stringer text => Logfmt.Bare text
  | .other v => ∀ x ∈ Strconv.runes (rt.sprint v), Strconv.JsonSafe p x
  | _ => True

def Field.Contained (p : Strconv.PrintTable) (rt : Runtime χ) (f : Field χ) : Prop :=
  match f.knd with
  | .string => ControlQuoted f.str
  | .error => ∀ text, f.errVal = some text → ControlQuoted text
  | .any => f.any.Contained p rt
  | _ => True

-- t is written for the value v, and is v in the grammar exactly under the condition C.
structure Renders (t v : Bytes) (C : Prop) : Prop where
  honest : ∀ {rest r : Bytes}, Logfmt.Stops rest →
    Logfmt.scanValue Logfmt.jsonString (t ++ rest) = some (v, r) → Logfmt.Value t v
  value_iff : Logfmt.Value t v ↔ C

theorem renders_of_value {t v : Bytes} (h : Logfmt.Value t v) : Renders t v True :=
  ⟨fun _ _ => h, iff_true_intro h⟩

theorem renders_raw (t : Bytes) : Renders t t (Logfmt.Bare t) :=
  ⟨(Logfmt.written_raw (List.forall_mem_nil _)).honest, Logfmt.value_raw_iff⟩

theorem renders_bare {t : Bytes} (h : Logfmt.Bare t) : Renders t t True :=
  renders_of_value (.bare h)

theorem value_quoted (s : Bytes) : Logfmt.Value (quoted s) s := by
  obtain ⟨cs, hcs, hdecode⟩ := chars_quoted s []
  have h := Logfmt.Value.quoted hcs
  rwa [hdecode] at h

theorem logfmtNeedsQuote_iff {s : Bytes} :
    logfmtNeedsQuote s = true ↔ s = [] ∨ ∃ b ∈ s, b ∈ ascii " =\"\n\t" := by
  simp [logfmtNeedsQuote]

theorem bare_iff {b : Byte} :
    Logfmt.bare b = true ↔ ¬ isControl b = true ∧ b ∉ [0x20, 0x3d, 0x22] := by
  simp only [Logfmt.bare, isControl, Bool.and_eq_true, Bool.or_eq_true, decide_eq_true_eq,
    List.mem_cons, List.not_mem_nil, or_false, not_or, UInt8.not_lt]
  constructor
  · rintro ⟨⟨⟨hlt, heq⟩, hquote⟩, hdel⟩
    exact ⟨⟨UInt8.le_of_lt hlt, hdel⟩, (UInt8.ne_of_lt hlt).symm, heq, hquote⟩
  · rintro ⟨⟨hle, hdel⟩, hspace, heq, hquote⟩
    exact ⟨⟨⟨UInt8.lt_of_le_of_ne hle (Ne.symm hspace), heq⟩, hquote⟩, hdel⟩

theorem renders_logfmtText (s : Bytes) : Renders (logfmtText s) s (ControlQuoted s) := by
  unfold logfmtText
  split
  next hquote =>
    have hcontrol : ControlQuoted s := by
      rintro ⟨b, hb, -⟩
      exact (logfmtNeedsQuote_iff.mp hquote).resolve_left (List.ne_nil_of_mem hb)
    exact ⟨fun _ _ => value_quoted s, iff_of_true (value_quoted s) hcontrol⟩
  next hraw =>
    have hbytes : ∀ b ∈ s, b ∉ ascii " =\"\n\t" := fun b hb hmem =>
      hraw (logfmtNeedsQuote_iff.mpr (.inr ⟨b, hb, hmem⟩))
    refine ⟨(renders_raw s).honest, (renders_raw s).value_iff.trans ⟨fun hbare => ?_, fun hc b hb => ?_⟩⟩
    · rintro ⟨b, hb, hctl⟩
      exact absurd hctl (bare_iff.mp (hbare b hb)).1
    · refine bare_iff.mpr ⟨fun hctl => ?_, fun hmem => hbytes b hb ?_⟩
      · obtain ⟨c, hc, hmem⟩ := hc ⟨b, hb, hctl⟩
        exact hbytes c hc hmem
      · exact List.all_iff_forall_prop.mp
          (by decide : ([0x20, 0x3d, 0x22] : Bytes).all fun c => c ∈ ascii " =\"\n\t") b hmem

theorem renders_quote (p : Strconv.PrintTable) (s : Bytes) :
    Renders (Strconv.quote p s) s (∀ x ∈ Strconv.runes s, Strconv.JsonSafe p x) := by
  have hvalue (h : ∀ x ∈ Strconv.runes s, Strconv.JsonSafe p x) :
      Logfmt.Value (Strconv.quote p s) s := by
    obtain ⟨cs, hcs, hdecode⟩ := (Strconv.chars_quote_iff p s []).mpr ⟨h, rfl, rfl⟩
    have hv := Logfmt.Value.quoted hcs
    rwa [hdecode] at hv
  have hsafe {rest r : Bytes} (h : Logfmt.scanValue Logfmt.jsonString (Strconv.quote p s ++ rest) = some (s, r)) :
      ∀ x ∈ Strconv.runes s, Strconv.JsonSafe p x := by
    rw [Strconv.quote, List.cons_append, Logfmt.scanValue, if_pos rfl] at h
    obtain ⟨q, hq, heq⟩ := Option.map_eq_some_iff.mp h
    have hchars := Json.scanChars_sound hq
    rw [List.append_assoc] at hchars
    exact ((Strconv.chars_quote_iff p s rest).mp ⟨_, hchars, rfl⟩).1
  have hstops : Logfmt.Stops [] := by simp [Logfmt.Stops]
  exact ⟨fun _ h => hvalue (hsafe h), fun h => hsafe (h.scan hstops), hvalue⟩

theorem bare_of_isDigit {b : Byte} (h : isDigit b = true) : Logfmt.bare b = true := by
  have hb := isDigit_iff.mp h
  have hne (c : Byte) (hc : isDigit c = false) : b ≠ c := by
    rintro rfl
    simp [hc] at h
  have hlt : 0x20 < b := UInt8.lt_iff_toNat_lt.mpr (by simp only [UInt8.reduceToNat]; omega)
  simp [Logfmt.bare, hlt, hne 0x3d rfl, hne 0x22 rfl, hne 0x7f rfl]

theorem bare_of_isClock {b : Byte} (h : isClock b = true) : Logfmt.bare b = true := by
  simp only [isClock, Bool.or_eq_true, decide_eq_true_eq] at h
  rcases h with h | h
  · exact bare_of_isDigit h
  · exact List.all_eq_true.mp (by decide : (ascii "+-.:TZ").all Logfmt.bare = true) b h

theorem bare_of_numeric {b : Byte} (h : Json.Numeric b) : Logfmt.bare b = true := by
  rcases h with h | h
  · exact bare_of_isDigit h
  · exact List.all_eq_true.mp (by decide : (ascii "+-.eE").all Logfmt.bare = true) b h

theorem bare_append {s t : Bytes} (hs : Logfmt.Bare s) (ht : Logfmt.Bare t) : Logfmt.Bare (s ++ t) :=
  List.forall_mem_append.mpr ⟨hs, ht⟩

theorem bare_formatInt (x : Int) : Logfmt.Bare (formatInt x) :=
  fun b hb => bare_of_numeric (Json.spells_numeric (formatInt_spells x) b hb)

theorem bare_decimal (n : Nat) : Logfmt.Bare (decimal n) :=
  fun _ hb => bare_of_isDigit (decimal_isDigit hb)

theorem bare_float (bits : UInt64) : Logfmt.Bare (Float.format bits) := by
  by_cases h : Float.Finite bits
  · obtain ⟨n, hspells, -⟩ := Float.format_spells h
    exact fun b hb => bare_of_numeric (Json.spells_numeric hspells b hb)
  · rcases Float.format_of_not_finite h with hf | hf | hf <;> rw [hf] <;> decide

theorem bare_clock (t : Time) : Logfmt.Bare t.formatRFC3339Nano :=
  fun _ hb => bare_of_isClock (isClock_formatRFC3339Nano hb)

theorem bare_fraction (u prec : Nat) : Logfmt.Bare (Duration.fraction u prec) := by
  unfold Duration.fraction
  dsimp only
  split
  · exact List.forall_mem_nil _
  · refine List.forall_mem_cons.mpr ⟨by decide, fun b hb => ?_⟩
    exact bare_of_isClock (isClock_formatIntWidth (mem_trimZeros hb))

theorem bare_duration (d : Int) : Logfmt.Bare (Duration.string d) :=
  Duration.string_of_parts (List.forall_mem_nil _) bare_append bare_decimal bare_fraction
    (List.all_iff_forall_prop.mp (by decide)) d

theorem bare_lower (l : Level) : Logfmt.Bare l.lower := by
  unfold Level.lower
  repeat' split
  all_goals decide

theorem bare_bool (v : Bool) : Logfmt.Bare (if v then ascii "true" else ascii "false") := by
  cases v <;> decide

theorem bare_null : Logfmt.Bare (ascii "null") := by decide

namespace LogfmtEncoder

variable {rt : Runtime χ} {p : Strconv.PrintTable}

theorem renders_any (hquote : rt.quote = Strconv.quote p) (v : AnyVal χ) :
    Renders (appendAny rt false [] v) (v.text rt) (v.Contained p rt) := by
  cases v with
  | nil => exact renders_bare bare_null
  | string s => exact renders_raw s
  | bool v => exact renders_bare (bare_bool v)
  | int v => exact renders_bare (bare_formatInt _)
  | int64 v => exact renders_bare (bare_formatInt _)
  | uint64 v => exact renders_bare (bare_decimal _)
  | float64 bits => exact renders_bare (bare_float bits)
  | error text => exact renders_raw text
  | stringer text => exact renders_raw text
  | other v =>
    change Renders (rt.quote (rt.sprint v)) (rt.sprint v) _
    rw [hquote]
    exact renders_quote p _

theorem renders_field (hquote : rt.quote = Strconv.quote p) (f : Field χ) :
    Renders (fieldText rt f) (f.text rt) (f.Contained p rt) := by
  unfold fieldText encodeValue Field.text Field.Contained appendFieldValue
  cases hk : f.knd with
  | string =>
    simp only [writeLogfmtValue_eq, List.nil_append]
    exact renders_logfmtText f.str
  | error =>
    cases f.errVal with
    | none =>
      simp only [reduceCtorEq, false_implies, implies_true]
      exact renders_bare bare_null
    | some text =>
      simp only [writeLogfmtValue_eq, List.nil_append, Option.some.injEq, forall_eq']
      exact renders_logfmtText text
  | any => exact renders_any hquote f.any
  | int64 => simpa [writeInt] using renders_bare (bare_formatInt _)
  | uint64 => simpa [writeUint] using renders_bare (bare_decimal _)
  | float64 => simpa [writeFloat] using renders_bare (bare_float _)
  | bool => simpa [writeBool] using renders_bare (bare_bool (f.num ≠ 0))
  | duration => simpa [writeText, writeString] using renders_bare (bare_duration f.int64.toInt)
  | time => simpa [writeTimeRFC3339] using renders_bare (bare_clock (f.time rt.localOffset))

-- The pairs a line stands for.
def headRendered (r : Record χ κ) : List (Bytes × Bytes) :=
  (if r.time.isZero then [] else [(ascii "time", r.time.formatRFC3339Nano)]) ++
    [(ascii "level", r.level.lower), (ascii "msg", r.message)]

def callerRendered (rt : Runtime χ) (r : Record χ κ) : List (Bytes × Bytes) :=
  match r.source rt with
  | none => []
  | some src => [(ascii "caller", JSONEncoder.callerText src)]

def fieldRendered (rt : Runtime χ) (f : Field χ) : Bytes × Bytes := (f.key, f.text rt)

def rendered (rt : Runtime χ) (r : Record χ κ) : List (Bytes × Bytes) :=
  headRendered r ++ callerRendered rt r ++ r.fields.map (fieldRendered rt)

-- What the writer of a pair guarantees, and when the grammar reads it back.
structure Pairing (ps qs : List (Bytes × Bytes)) (C : Prop) : Prop where
  written : List.Forall₂ Logfmt.Written ps qs
  values_iff : List.Forall₂ (fun p q => Logfmt.Value p.2 q.2) ps qs ↔ C

theorem Pairing.nil : Pairing [] [] True := ⟨.nil, iff_true_intro .nil⟩

theorem Pairing.single {k t v : Bytes} {C : Prop} (hk : Logfmt.Bare k) (h : Renders t v C) :
    Pairing [(k, t)] [(k, v)] C :=
  ⟨.cons ⟨rfl, hk, h.honest⟩ .nil, by simpa using h.value_iff⟩

theorem Pairing.append {ps qs ps' qs' : List (Bytes × Bytes)} {C D : Prop} (h : Pairing ps qs C)
    (h' : Pairing ps' qs' D) : Pairing (ps ++ ps') (qs ++ qs') (C ∧ D) := by
  refine ⟨List.rel_append h.written h'.written, ?_⟩
  rw [← h.values_iff, ← h'.values_iff]
  exact forall₂_append_iff h.written.length_eq

theorem Pairing.congr {ps qs : List (Bytes × Bytes)} {C D : Prop} (h : Pairing ps qs C)
    (hcd : C ↔ D) : Pairing ps qs D :=
  ⟨h.written, h.values_iff.trans hcd⟩

theorem pairing_head (r : Record χ κ) :
    Pairing (headPairs r) (headRendered r) (ControlQuoted r.message) := by
  have htime : Pairing (timePair r)
      (if r.time.isZero then [] else [(ascii "time", r.time.formatRFC3339Nano)]) True := by
    unfold timePair
    split
    · exact .nil
    · exact .single (by decide) (renders_of_value (value_quoted _))
  have hlevel := Pairing.single (by decide : Logfmt.Bare (ascii "level"))
    (renders_bare (bare_lower r.level))
  have hmsg := Pairing.single (by decide : Logfmt.Bare (ascii "msg")) (renders_logfmtText r.message)
  exact (htime.append (hlevel.append hmsg)).congr (by simp)

theorem pairing_caller {r : Record χ κ} (hcaller : r.CallerPlain rt) :
    Pairing (callerPair rt r) (callerRendered rt r) True := by
  unfold callerPair callerRendered
  cases hs : r.source rt with
  | none => exact .nil
  | some src =>
    dsimp only
    rw [← quoted_of_plain (JSONEncoder.callerText_plain (hcaller src hs))]
    exact .single (by decide) (renders_of_value (value_quoted _))

theorem pairing_fields (hquote : rt.quote = Strconv.quote p) {fs : List (Field χ)}
    (hkeys : ∀ f ∈ fs, Logfmt.Bare f.key) :
    Pairing (fs.map (fieldPair rt)) (fs.map (fieldRendered rt)) (∀ f ∈ fs, f.Contained p rt) := by
  induction fs with
  | nil => exact Pairing.nil.congr (by simp)
  | cons f fs ih =>
    obtain ⟨hkey, hkeys⟩ := List.forall_mem_cons.mp hkeys
    exact ((Pairing.single hkey (renders_field hquote f)).append (ih hkeys)).congr
      List.forall_mem_cons.symm

theorem lt_of_isKeyByte {b : Byte} (h : isKeyByte b = true) : 0x20 < b := by
  have hrange {lo : Byte} (hlo : 0x20 < lo) (hle : lo ≤ b) : 0x20 < b := UInt8.lt_of_lt_of_le hlo hle
  simp only [isKeyByte, isDigit, Bool.or_eq_true, Bool.and_eq_true, decide_eq_true_eq] at h
  rcases h with ((h | h) | h) | h
  · exact hrange (by decide) h.1
  · exact hrange (by decide) h.1
  · exact hrange (by decide) h.1
  · exact List.all_iff_forall_prop.mp (by decide : (ascii "_.-").all fun c => 0x20 < c) b h

theorem ne_of_isKeyByte {b c : Byte} (h : isKeyByte b = true) (hc : isKeyByte c = false) : b ≠ c := by
  rintro rfl
  simp [hc] at h

theorem bare_of_isKeyByte {b : Byte} (h : isKeyByte b = true) : Logfmt.bare b = true := by
  simp [Logfmt.bare, lt_of_isKeyByte h, ne_of_isKeyByte h (c := 0x3d) (by decide),
    ne_of_isKeyByte h (c := 0x22) (by decide), ne_of_isKeyByte h (c := 0x7f) (by decide)]

theorem line_pairs_iff (rt : Runtime χ) {p : Strconv.PrintTable} (hquote : rt.quote = Strconv.quote p)
    (r : Record χ κ) (hcaller : r.CallerPlain rt) (hkeys : ∀ f ∈ r.fields, Wordlike f.key)
    (buf : Bytes) :
    (∃ line, encode rt buf r = buf ++ (line ++ [newline]) ∧ newline ∉ line ∧
        Logfmt.parse line = some (rendered rt r)) ↔
      ControlQuoted r.message ∧ ∀ f ∈ r.fields, f.Contained p rt := by
  have hpairing := ((pairing_head r).append (pairing_caller hcaller)).append
    (pairing_fields hquote fun f hf b hb => bare_of_isKeyByte ((hkeys f hf).words b hb))
  have hne : pairs rt r ≠ [] := by simp [pairs, headPairs]
  have hparse := Logfmt.parse_joined_iff hpairing.written hne
  have hcond := hpairing.values_iff
  rw [and_true] at hcond
  rw [← hcond, encode_line]
  constructor
  · rintro ⟨line, hline, -, hparsed⟩
    have heq := List.append_cancel_right (List.append_cancel_left hline)
    exact hparse.mp (heq ▸ hparsed)
  · intro hvalues
    exact ⟨_, rfl, newline_notMem (Logfmt.joined_noControl hpairing.written hvalues),
      hparse.mpr hvalues⟩

def asciiPrint : Strconv.PrintTable := ⟨fun c => decide (0x20 ≤ c.toNat ∧ c.toNat < 0x7f), fun _ _ => rfl⟩

def quotingRuntime : Runtime Unit := { bareRuntime with quote := Strconv.quote asciiPrint }

theorem bareRecord_quoting (message : Bytes) (fields : List (Field Unit)) :
    (bareRecord message fields).CallerPlain quotingRuntime := by
  intro src hs
  simp [Record.source, bareRecord] at hs

theorem wordlike_of_all {s : Bytes} (hne : s ≠ []) (h : s.all isKeyByte = true) : Wordlike s :=
  ⟨hne, List.all_eq_true.mp h⟩

def mixedFields : List (Field Unit) :=
  [stringField (ascii "path") (ascii "a b"), anyField (ascii "v") (.string (ascii "plain")),
    anyField (ascii "w") (.other ())]

theorem line_pairs_iff_mixed :
    ∃ line, encode quotingRuntime [] (bareRecord (ascii "two\nlines") mixedFields) =
        [] ++ (line ++ [newline]) ∧ newline ∉ line ∧
      Logfmt.parse line = some (rendered quotingRuntime (bareRecord (ascii "two\nlines") mixedFields)) := by
  have hkeys : ∀ f ∈ mixedFields, Wordlike f.key := by
    simp only [mixedFields, List.forall_mem_cons]
    exact ⟨wordlike_of_all (by decide) (by decide), wordlike_of_all (by decide) (by decide),
      wordlike_of_all (by decide) (by decide), List.forall_mem_nil _⟩
  refine (line_pairs_iff quotingRuntime rfl _ (bareRecord_quoting _ _) hkeys []).mpr ⟨by decide, ?_⟩
  change ∀ f ∈ mixedFields, _
  simp only [mixedFields, List.forall_mem_cons]
  exact ⟨(by decide : ControlQuoted (ascii "a b")), (by decide : Logfmt.Bare (ascii "plain")),
    List.forall_mem_nil _, List.forall_mem_nil _⟩

def forgedFields : List (Field Unit) :=
  [anyField (ascii "x") (.string (ascii "1\nlevel=error"))]

-- The text of the Any field is copied as it is: it ends the line and starts one of its own.
theorem any_text_forges_line :
    encode quotingRuntime [] (bareRecord (ascii "m") forgedFields) =
        ascii "level=info msg=m x=1\nlevel=error\n" ∧
      ¬ ∃ line, encode quotingRuntime [] (bareRecord (ascii "m") forgedFields) =
          [] ++ (line ++ [newline]) ∧ newline ∉ line ∧
        Logfmt.parse line = some (rendered quotingRuntime (bareRecord (ascii "m") forgedFields)) := by
  have hline : encode quotingRuntime [] (bareRecord (ascii "m") forgedFields) =
      ascii "level=info msg=m x=1\nlevel=error" ++ [newline] := by decide
  refine ⟨hline, ?_⟩
  rintro ⟨line, heq, hnewline, -⟩
  rw [hline, List.nil_append] at heq
  rw [← List.append_cancel_right heq] at hnewline
  exact absurd hnewline (by decide)

end LogfmtEncoder

end UbgoLogger
