import UbgoLogger.Encode.JsonValid
import UbgoLogger.Encode.LogfmtPairs
import UbgoLogger.Foundation.JsonMembers

namespace UbgoLogger

open Foundation Foundation.Text Foundation.Lines Buffer

variable {χ κ : Type} {rt : Runtime χ}

theorem rawMember_memberText {m : Bytes × Bytes} (h : Json.Closed m.2) {c : Byte} (t : Bytes)
    (hc : c = 0x2c ∨ c = 0x7d) :
    Json.rawMember (memberText m ++ c :: t) = some (m, c :: t) := by
  obtain ⟨cs, hcs, hdecode⟩ := chars_quoted m.1 (0x3a :: (m.2 ++ c :: t))
  have hscan := Json.scanChars_complete hcs
  have htext : memberText m ++ c :: t =
      0x22 :: (m.1.flatMap escapeByte ++ 0x22 :: 0x3a :: (m.2 ++ c :: t)) := by
    simp [memberText, quoted]
  rw [htext]
  simp [Json.rawMember, Json.eat, hscan, hdecode, h c t hc]

theorem rawMembers_joined {ms : List (Bytes × Bytes)} (hne : ms ≠ [])
    (h : ∀ m ∈ ms, Json.Closed m.2) {n : Nat} (hn : ms.length ≤ n) :
    Json.rawMembers n (joined ms ++ [0x7d]) = some ms := by
  induction ms generalizing n with
  | nil => exact absurd rfl hne
  | cons m ms ih =>
    obtain ⟨n, rfl⟩ : ∃ k, n = k + 1 := Nat.exists_eq_succ_of_ne_zero (by rintro rfl; simp at hn)
    obtain ⟨hm, hms⟩ := List.forall_mem_cons.mp h
    rw [joined, List.append_assoc, Json.rawMembers]
    cases ms with
    | nil =>
      rw [separated_nil, List.nil_append, rawMember_memberText hm [] (.inr rfl)]
      simp [Json.eat]
    | cons m' ms =>
      have hrest := ih (by simp) hms (Nat.le_of_succ_le_succ hn)
      rw [separated_cons, List.cons_append, rawMember_memberText hm _ (.inl rfl)]
      simpa [Json.eat, joined] using hrest

theorem length_le_separated (ms : List (Bytes × Bytes)) : ms.length ≤ (separated ms).length := by
  induction ms with
  | nil => simp
  | cons m ms ih =>
    rw [separated_cons, List.length_cons, List.length_cons, List.length_append]
    omega

theorem readMembers_joined {ms : List (Bytes × Bytes)} (hne : ms ≠ [])
    (h : ∀ m ∈ ms, Json.Closed m.2) : Json.readMembers (0x7b :: (joined ms ++ [0x7d])) = some ms := by
  have hlen : ms.length ≤ (joined ms ++ [0x7d]).length := by
    obtain ⟨m, ms, rfl⟩ := List.exists_cons_of_ne_nil hne
    have := length_le_separated ms
    simp only [joined, List.length_append, List.length_cons, List.length_nil]
    omega
  simpa [Json.readMembers, Json.eat] using rawMembers_joined hne h hlen

theorem closed_of_value {w : Bytes} {j : Json} (h : ∀ r, Json.Value (w ++ r) j r) : Json.Closed w :=
  Json.closed_of_passes fun r => (h r).passes 0

theorem closed_valueText (hrt : rt.Marshals) (f : Field χ) : Json.Closed (valueText rt f) := by
  by_cases hf : f.Finite
  · obtain ⟨j, -, hvalue⟩ := valueText_value hrt hf
    exact closed_of_value hvalue
  · simp only [Field.Finite, not_forall] at hf
    obtain ⟨bits, hbits, hinf⟩ := hf
    rw [valueText_float hbits]
    refine Json.closed_inert (List.all_iff_forall_prop.mp ?_)
    rcases Float.format_of_not_finite hinf with h | h | h <;> rw [h] <;> decide

theorem closed_of_denotes {ms : List (Bytes × Bytes)} {vs : List (Bytes × Json)}
    (h : List.Forall₂ Denotes ms vs) : ∀ m ∈ ms, Json.Closed m.2 := by
  induction h with
  | nil => exact List.forall_mem_nil _
  | cons hm _ ih => exact List.forall_mem_cons.mpr ⟨closed_of_value hm.2, ih⟩

theorem closed_members (hrt : rt.Marshals) (e : JSONEncoder) {r : Record χ κ} (hr : r.CallerPlain rt) :
    ∀ m ∈ e.members rt r, Json.Closed m.2 := by
  rw [JSONEncoder.members, List.forall_mem_append]
  refine ⟨closed_of_denotes (JSONEncoder.head_denotes e hr), fun m hm => ?_⟩
  obtain ⟨f, -, rfl⟩ := List.mem_map.mp hm
  exact closed_valueText hrt f

theorem plain_of_isKeyByte {b : Byte} (h : isKeyByte b = true) : plain b = true := by
  simp [plain, UInt8.le_of_lt (LogfmtEncoder.lt_of_isKeyByte h),
    LogfmtEncoder.ne_of_isKeyByte h (c := 0x22) (by decide),
    LogfmtEncoder.ne_of_isKeyByte h (c := 0x5c) (by decide)]

theorem reads_bare {k t : Bytes} (hk : Logfmt.Bare k) (ht : Logfmt.Bare t) :
    Logfmt.Reads Strconv.scanLiteral (k, t) (k, t) :=
  ⟨rfl, hk, Logfmt.scanValue_bare _ ht⟩

theorem reads_plain {k s : Bytes} (hk : Logfmt.Bare k) (hs : ∀ b ∈ s, plain b = true) :
    Logfmt.Reads Strconv.scanLiteral (k, quoted s) (k, s) := by
  refine ⟨rfl, hk, fun {rest} _ => ?_⟩
  have hbytes : ∀ b ∈ s, b ≠ 0x22 ∧ b ≠ 0x5c := by
    intro b hb
    have hplain := hs b hb
    simp only [plain, Bool.and_eq_true, decide_eq_true_eq] at hplain
    exact ⟨hplain.1.2, hplain.2⟩
  have hscan := Strconv.scanLiteral_bytes hbytes (0x22 :: rest)
  rw [Strconv.scanLiteral_close] at hscan
  rw [quoted_of_plain hs]
  simpa [Logfmt.scanValue, Strconv.before] using hscan

theorem reads_quote {k : Bytes} (hk : Logfmt.Bare k) (p : Strconv.PrintTable) (s : Bytes) :
    Logfmt.Reads Strconv.scanLiteral (k, Strconv.quote p s) (k, s) := by
  refine ⟨rfl, hk, fun {rest} _ => ?_⟩
  have hscan := Strconv.scanLiteral_quote p s rest
  simpa [Logfmt.scanValue, Strconv.quote] using hscan

def AnyVal.Wordy : AnyVal χ → Prop
  | .string s => Words s
  | .error text => Words text
  | .stringer text => Words text
  | _ => True

structure Field.Wordy (f : Field χ) : Prop where
  key : Words f.key
  str : f.knd = .string → Words f.str
  error : f.knd = .error → ∀ text, f.errVal = some text → Words text
  any : f.knd = .any → f.any.Wordy

structure Record.Wordy (r : Record χ κ) : Prop where
  message : Words r.message
  eventName : Words r.eventName
  fields : ∀ f ∈ r.fields, f.Wordy

-- fmt.Sprint prints the text of the JSON member, if that is a string, an integer or a bool.
def AnyVal.SprintsAlike (rt : Runtime χ) : AnyVal χ → Prop
  | .other v =>
      match rt.marshal v with
      | .error err => rt.sprint v = ascii "!ERR:" ++ err
      | .ok raw => ∀ t, Json.scalarText raw = some t → rt.sprint v = t
  | _ => True

def Field.SprintsAlike (rt : Runtime χ) (f : Field χ) : Prop := f.knd = .any → f.any.SprintsAlike rt

-- The same key, and the same text where the JSON member is a string, an integer or a bool.
structure Agree (m q : Bytes × Bytes) : Prop where
  key : q.1 = m.1
  text : ∀ t, Json.scalarText m.2 = some t → q.2 = t

namespace LogfmtEncoder

variable {p : Strconv.PrintTable}

theorem bare_of_words {s : Bytes} (h : Words s) : Logfmt.Bare s :=
  fun b hb => bare_of_isKeyByte (h b hb)

theorem reads_logfmtText {k s : Bytes} (hk : Logfmt.Bare k) (hs : Words s) :
    Logfmt.Reads Strconv.scanLiteral (k, logfmtText s) (k, s) := by
  unfold logfmtText
  split
  · exact reads_plain hk fun b hb => plain_of_isKeyByte (hs b hb)
  · exact reads_bare hk (bare_of_words hs)

theorem reads_any (hquote : rt.quote = Strconv.quote p) {k : Bytes} (hk : Logfmt.Bare k)
    {v : AnyVal χ} (hv : v.Wordy) :
    Logfmt.Reads Strconv.scanLiteral (k, appendAny rt false [] v) (k, v.text rt) := by
  cases v with
  | nil => exact reads_bare hk bare_null
  | string s => exact reads_bare hk (bare_of_words hv)
  | bool v => exact reads_bare hk (bare_bool v)
  | int v => exact reads_bare hk (bare_formatInt _)
  | int64 v => exact reads_bare hk (bare_formatInt _)
  | uint64 v => exact reads_bare hk (bare_decimal _)
  | float64 bits => exact reads_bare hk (bare_float bits)
  | error text => exact reads_bare hk (bare_of_words hv)
  | stringer text => exact reads_bare hk (bare_of_words hv)
  | other v =>
    change Logfmt.Reads _ (k, rt.quote (rt.sprint v)) (k, rt.sprint v)
    rw [hquote]
    exact reads_quote hk p _

theorem reads_field (hquote : rt.quote = Strconv.quote p) {f : Field χ} (hf : f.Wordy) :
    Logfmt.Reads Strconv.scanLiteral (fieldPair rt f) (fieldRendered rt f) := by
  have hk := bare_of_words hf.key
  unfold fieldPair fieldRendered fieldText encodeValue Field.text appendFieldValue
  cases h : f.knd with
  | string =>
    simp only [writeLogfmtValue_eq, List.nil_append]
    exact reads_logfmtText hk (hf.str h)
  | error =>
    cases herr : f.errVal with
    | none => exact reads_bare hk bare_null
    | some text =>
      simp only [writeLogfmtValue_eq, List.nil_append]
      exact reads_logfmtText hk (hf.error h text herr)
  | any => exact reads_any hquote hk (hf.any h)
  | int64 => simpa [writeInt] using reads_bare hk (bare_formatInt _)
  | uint64 => simpa [writeUint] using reads_bare hk (bare_decimal _)
  | float64 => simpa [writeFloat] using reads_bare hk (bare_float _)
  | bool => simpa [writeBool] using reads_bare hk (bare_bool (f.num ≠ 0))
  | duration => simpa [writeText, writeString] using reads_bare hk (bare_duration f.int64.toInt)
  | time => simpa [writeTimeRFC3339] using reads_bare hk (bare_clock (f.time rt.localOffset))

theorem reads_head {r : Record χ κ} (hr : Words r.message) :
    List.Forall₂ (Logfmt.Reads Strconv.scanLiteral) (headPairs r) (headRendered r) := by
  refine List.rel_append ?_ (.cons ?_ (.cons ?_ .nil))
  · unfold timePair
    split
    · exact .nil
    · exact .cons (reads_plain (by decide) fun b hb => isClock_plain (isClock_formatRFC3339Nano hb)) .nil
  · exact reads_bare (by decide) (bare_lower r.level)
  · exact reads_logfmtText (by decide) hr

theorem reads_caller {r : Record χ κ} (hcaller : r.CallerPlain rt) :
    List.Forall₂ (Logfmt.Reads Strconv.scanLiteral) (callerPair rt r) (callerRendered rt r) := by
  unfold callerPair callerRendered
  cases hs : r.source rt with
  | none => exact .nil
  | some src =>
    have hplain := JSONEncoder.callerText_plain (hcaller src hs)
    have hreads := reads_plain (by decide : Logfmt.Bare (ascii "caller")) hplain
    rw [quoted_of_plain hplain] at hreads
    exact .cons hreads .nil

theorem parse_rendered (hquote : rt.quote = Strconv.quote p) {r : Record χ κ}
    (hcaller : r.CallerPlain rt) (hr : r.Wordy) :
    Logfmt.parseWith Strconv.scanLiteral (Logfmt.joined (pairs rt r)) = some (rendered rt r) := by
  have hfields : List.Forall₂ (Logfmt.Reads Strconv.scanLiteral) (r.fields.map (fieldPair rt))
      (r.fields.map (fieldRendered rt)) := by
    rw [List.forall₂_map_left_iff, List.forall₂_map_right_iff, List.forall₂_same]
    exact fun f hf => reads_field hquote (hr.fields f hf)
  refine Logfmt.parseWith_joined ?_ (by simp [pairs, headPairs])
  exact List.rel_append (List.rel_append (reads_head hr.message) (reads_caller hcaller)) hfields

theorem agree_quoted_iff {k s t : Bytes} : Agree (k, quoted s) (k, t) ↔ t = s := by
  have hvalue := quoted_value s []
  rw [List.append_nil] at hvalue
  have hscalar := Json.scalarText_string hvalue
  refine ⟨fun h => h.text s hscalar, ?_⟩
  rintro rfl
  exact ⟨rfl, fun u hu => Option.some.inj (hscalar.symm.trans hu)⟩

theorem agree_quoted (k s : Bytes) : Agree (k, quoted s) (k, s) := agree_quoted_iff.mpr rfl

theorem agree_text (k s : Bytes) : Agree (k, writeText true [] s) (k, s) := by
  rw [writeText, if_pos rfl, writeJSONString_quoted]
  exact agree_quoted k s

theorem agree_bare (k : Bytes) {t : Bytes} (h : Logfmt.Bare t) : Agree (k, t) (k, t) := by
  refine ⟨rfl, fun u hu => Json.scalarText_unquoted (fun hmem => ?_) hu⟩
  exact absurd (h _ hmem) (by decide)

theorem agree_any_iff (k : Bytes) (v : AnyVal χ) :
    Agree (k, anyText rt v) (k, v.text rt) ↔ v.SprintsAlike rt := by
  cases v with
  | nil => exact iff_true_intro (agree_bare k bare_null)
  | string s => exact iff_true_intro (agree_text k s)
  | bool v => exact iff_true_intro (agree_bare k (bare_bool v))
  | int v => exact iff_true_intro (agree_bare k (bare_formatInt _))
  | int64 v => exact iff_true_intro (agree_bare k (bare_formatInt _))
  | uint64 v => exact iff_true_intro (agree_bare k (bare_decimal _))
  | float64 bits => exact iff_true_intro (agree_bare k (bare_float bits))
  | error text => exact iff_true_intro (agree_text k text)
  | stringer text => exact iff_true_intro (agree_text k text)
  | other v =>
    simp only [AnyVal.SprintsAlike, AnyVal.text, anyText, appendAny, if_true]
    cases rt.marshal v with
    | error err =>
      dsimp only
      rw [writeJSONString_quoted]
      exact agree_quoted_iff
    | ok raw => exact ⟨fun h => h.text, fun h => ⟨rfl, h⟩⟩

theorem agree_field_iff (f : Field χ) :
    Agree (JSONEncoder.fieldMember rt f) (fieldRendered rt f) ↔ f.SprintsAlike rt := by
  unfold JSONEncoder.fieldMember fieldRendered valueText appendFieldValue Field.text Field.SprintsAlike
  cases f.knd with
  | any => exact (agree_any_iff f.key f.any).trans ⟨fun h _ => h, fun h => h rfl⟩
  | string => exact iff_of_true (agree_text _ _) (by simp)
  | int64 => exact iff_of_true (agree_bare _ (bare_formatInt _)) (by simp)
  | uint64 => exact iff_of_true (agree_bare _ (bare_decimal _)) (by simp)
  | float64 => exact iff_of_true (agree_bare _ (bare_float _)) (by simp)
  | bool =>
    refine iff_of_true ?_ (by simp)
    simpa [writeBool] using agree_bare f.key (bare_bool (f.num ≠ 0))
  | duration => exact iff_of_true (agree_text _ _) (by simp)
  | time =>
    refine iff_of_true ?_ (by simp)
    simpa [writeByte, writeTimeRFC3339, clock_quoted] using
      agree_quoted f.key (f.time rt.localOffset).formatRFC3339Nano
  | error =>
    cases f.errVal with
    | none => exact iff_of_true (agree_bare _ bare_null) (by simp)
    | some text => exact iff_of_true (agree_text _ _) (by simp)

theorem agree_fields_iff (fs : List (Field χ)) :
    List.Forall₂ Agree (fs.map (JSONEncoder.fieldMember rt)) (fs.map (fieldRendered rt)) ↔
      ∀ f ∈ fs, f.SprintsAlike rt := by
  rw [List.forall₂_map_left_iff, List.forall₂_map_right_iff, List.forall₂_same]
  exact forall₂_congr fun f _ => agree_field_iff f

theorem agree_head (r : Record χ κ) :
    List.Forall₂ Agree (JSONEncoder.timeMember .new r ++
      [JSONEncoder.levelMember .new r, JSONEncoder.messageMember .new r]) (headRendered r) := by
  refine List.rel_append ?_ (.cons (agree_quoted _ _) (.cons (agree_quoted _ _) .nil))
  unfold JSONEncoder.timeMember
  split
  · exact .nil
  · rw [clock_quoted]
    exact .cons (agree_quoted _ _) .nil

theorem agree_caller {r : Record χ κ} (hcaller : r.CallerPlain rt) :
    List.Forall₂ Agree (JSONEncoder.callerMember rt r) (callerRendered rt r) := by
  unfold JSONEncoder.callerMember callerRendered
  cases hs : r.source rt with
  | none => exact .nil
  | some src =>
    dsimp only
    rw [← quoted_of_plain (JSONEncoder.callerText_plain (hcaller src hs))]
    exact .cons (agree_quoted _ _) .nil

theorem agree_members_iff {r : Record χ κ} (hcaller : r.CallerPlain rt) :
    List.Forall₂ Agree (JSONEncoder.members rt .new r) (rendered rt r) ↔
      r.eventName = [] ∧ ∀ f ∈ r.fields, f.SprintsAlike rt := by
  have hhead := agree_head r
  have htail := agree_caller hcaller
  by_cases hevent : r.eventName = []
  · have hlen := (List.rel_append hhead htail).length_eq
    rw [JSONEncoder.members, JSONEncoder.headMembers, JSONEncoder.eventMember, if_pos hevent,
      List.append_nil, rendered, forall₂_append_iff hlen, agree_fields_iff]
    exact ⟨fun h => ⟨hevent, h.2⟩, fun h => ⟨List.rel_append hhead htail, h.2⟩⟩
  · refine iff_of_false (fun h => ?_) fun h => hevent h.1
    have hlen := h.length_eq
    have hheadLen := hhead.length_eq
    have htailLen := htail.length_eq
    simp only [JSONEncoder.members, JSONEncoder.headMembers, JSONEncoder.eventMember, if_neg hevent,
      rendered, List.length_append, List.length_map, List.length_cons, List.length_nil] at hlen hheadLen
    omega

end LogfmtEncoder

-- The lines hold members of the same keys in the same order, and their scalar texts agree.
def SameMembers (json logfmt : Bytes) : Prop :=
  ∃ ms qs, Json.readMembers json = some ms ∧
    Logfmt.parseWith Strconv.scanLiteral logfmt = some qs ∧ List.Forall₂ Agree ms qs

theorem same_members_iff (rt : Runtime χ) {p : Strconv.PrintTable}
    (hquote : rt.quote = Strconv.quote p) (hmarshal : rt.Marshals) (r : Record χ κ)
    (hcaller : r.CallerPlain rt) (hr : r.Wordy) (buf : Bytes) :
    (∃ json logfmt, JSONEncoder.new.encode rt buf r = buf ++ (json ++ [newline]) ∧
        LogfmtEncoder.encode rt buf r = buf ++ (logfmt ++ [newline]) ∧ SameMembers json logfmt) ↔
      r.eventName = [] ∧ ∀ f ∈ r.fields, f.SprintsAlike rt := by
  have hjson := readMembers_joined (JSONEncoder.members_ne_nil .new)
    (closed_members hmarshal .new hcaller)
  have hlogfmt := LogfmtEncoder.parse_rendered hquote hcaller hr
  rw [JSONEncoder.encode_append, JSONEncoder.encode_line, LogfmtEncoder.encode_line,
    ← LogfmtEncoder.agree_members_iff hcaller]
  constructor
  · rintro ⟨json, logfmt, hj, hl, ms, qs, hms, hqs, hagree⟩
    rw [← List.append_cancel_right (List.append_cancel_left hj), hjson] at hms
    rw [← List.append_cancel_right (List.append_cancel_left hl), hlogfmt] at hqs
    cases hms
    cases hqs
    exact hagree
  · intro hagree
    exact ⟨_, _, rfl, rfl, _, _, hjson, hlogfmt, hagree⟩

theorem quotingRuntime_marshals : LogfmtEncoder.quotingRuntime.Marshals := bareRuntime_marshals

def scalarFields : List (Field Unit) :=
  [stringField (ascii "path") (ascii "v1.2-rc"), boolField (ascii "ok") true,
    anyField (ascii "user_id") (.int 7), anyField (ascii "extra") (.other ())]

theorem wordy_scalarFields : ∀ f ∈ scalarFields, f.Wordy := by
  have words {s : Bytes} (h : s.all isKeyByte = true) : Words s := List.all_eq_true.mp h
  simp only [scalarFields, List.forall_mem_cons]
  exact ⟨⟨words (by decide), fun _ => words (by decide), nofun, nofun⟩,
    ⟨words (by decide), nofun, nofun, nofun⟩, ⟨words (by decide), nofun, nofun, fun _ => trivial⟩,
    ⟨words (by decide), nofun, nofun, fun _ => trivial⟩, List.forall_mem_nil _⟩

theorem same_members_iff_scalar :
    ∃ json logfmt,
      JSONEncoder.new.encode LogfmtEncoder.quotingRuntime [] (bareRecord (ascii "served") scalarFields) =
        [] ++ (json ++ [newline]) ∧
      LogfmtEncoder.encode LogfmtEncoder.quotingRuntime [] (bareRecord (ascii "served") scalarFields) =
        [] ++ (logfmt ++ [newline]) ∧ SameMembers json logfmt := by
  have hr : (bareRecord (ascii "served") scalarFields).Wordy :=
    ⟨List.all_eq_true.mp (by decide), nofun, wordy_scalarFields⟩
  refine (same_members_iff LogfmtEncoder.quotingRuntime rfl quotingRuntime_marshals _
    (LogfmtEncoder.bareRecord_quoting _ _) hr []).mpr ⟨rfl, ?_⟩
  change ∀ f ∈ scalarFields, _
  simp only [scalarFields, List.forall_mem_cons]
  have hnull : Json.scalarText (ascii "null") = none := by decide +kernel
  refine ⟨nofun, nofun, fun _ => trivial, fun _ t ht => ?_, List.forall_mem_nil _⟩
  cases hnull.symm.trans ht

def loginRecord : Record Unit Unit := { bareRecord (ascii "m") [] with eventName := ascii "login" }

-- The JSON line has the event name, the logfmt line does not.
theorem event_missing_from_logfmt :
    loginRecord.Wordy ∧
      JSONEncoder.new.encode LogfmtEncoder.quotingRuntime [] loginRecord =
        ascii "\x7b\"level\":\"info\",\"msg\":\"m\",\"event\":\"login\"\x7d\n" ∧
      LogfmtEncoder.encode LogfmtEncoder.quotingRuntime [] loginRecord = ascii "level=info msg=m\n" ∧
      ¬ ∃ json logfmt,
        JSONEncoder.new.encode LogfmtEncoder.quotingRuntime [] loginRecord = json ++ [newline] ∧
        LogfmtEncoder.encode LogfmtEncoder.quotingRuntime [] loginRecord = logfmt ++ [newline] ∧
        SameMembers json logfmt := by
  have hjson : JSONEncoder.new.encode LogfmtEncoder.quotingRuntime [] loginRecord =
      ascii "\x7b\"level\":\"info\",\"msg\":\"m\",\"event\":\"login\"\x7d" ++ [newline] := by
    decide
  have hlogfmt : LogfmtEncoder.encode LogfmtEncoder.quotingRuntime [] loginRecord =
      ascii "level=info msg=m" ++ [newline] := by decide
  have hwordy : loginRecord.Wordy :=
    ⟨List.all_eq_true.mp (by decide), List.all_eq_true.mp (by decide), List.forall_mem_nil _⟩
  refine ⟨hwordy, hjson, hlogfmt, ?_⟩
  rintro ⟨json, logfmt, hj, hl, ms, qs, hms, hqs, hagree⟩
  rw [hjson] at hj
  rw [hlogfmt] at hl
  rw [← List.append_cancel_right hj] at hms
  rw [← List.append_cancel_right hl] at hqs
  have hthree : some ms.length = some 3 :=
    (congrArg (Option.map List.length) hms).symm.trans (by decide +kernel)
  have htwo : some qs.length = some 2 :=
    (congrArg (Option.map List.length) hqs).symm.trans (by decide +kernel)
  have hlen := hagree.length_eq
  simp only [Option.some.injEq] at hthree htwo
  omega

end UbgoLogger
