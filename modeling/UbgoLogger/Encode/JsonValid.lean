import UbgoLogger.Encode.JsonLine

namespace UbgoLogger
open Foundation Foundation.Text Foundation.Lines Buffer

def OneObject (out : Bytes) : Prop :=
  ∃ line ms, out = line ++ [newline] ∧ newline ∉ line ∧ Json.Value line (.object ms) []

section Escaping

theorem escapeByte_ascii {c : Byte} (hc : c.toNat < 128) :
    ∃ b t, escapeByte c = b :: t ∧ b.toNat < 128 ∧ IsAscii t := by
  have hall : ∀ n < 128, escapeByte (UInt8.ofNat n) ≠ [] ∧ IsAscii (escapeByte (UInt8.ofNat n)) := by
    decide
  obtain ⟨hne, hascii⟩ := hall c.toNat hc
  rw [UInt8.ofNat_toNat] at hne hascii
  obtain ⟨b, t, hbt⟩ := List.exists_cons_of_ne_nil hne
  rw [hbt] at hascii
  obtain ⟨hb, ht⟩ := List.forall_mem_cons.mp hascii
  exact ⟨b, t, hbt, hb, ht⟩

theorem escapeByte_high {c : Byte} (hc : ¬ c.toNat < 128) : escapeByte c = [c] := by
  have hne : ∀ d : Byte, d.toNat < 128 → c ≠ d := by
    rintro d hd rfl
    exact hc hd
  have hle : 0x20 ≤ c := UInt8.le_iff_toNat_le.mpr (by simp only [UInt8.reduceToNat]; omega)
  simp [escapeByte, plain, hle, hne 0x22 (by decide), hne 0x5c (by decide)]

theorem utf8_escape (u s : Bytes) : Utf8 (u ++ s.flatMap escapeByte) ↔ Utf8 (u ++ s) := by
  induction s generalizing u with
  | nil => rfl
  | cons c s ih =>
    rw [List.flatMap_cons]
    by_cases hc : c.toNat < 128
    · obtain ⟨b, t, hct, hb, ht⟩ := escapeByte_ascii hc
      have hs := ih []
      rw [List.nil_append, List.nil_append] at hs
      rw [hct, List.cons_append, utf8_append_cons hb, utf8_ascii_append ht, hs, utf8_append_cons hc]
    · have hu := ih (u ++ [c])
      rw [List.append_assoc, List.append_assoc] at hu
      rw [escapeByte_high hc]
      exact hu

theorem utf8_quoted (s : Bytes) : Utf8 (quoted s) ↔ Utf8 s := by
  have h := utf8_escape [] s
  rw [quoted, utf8_cons (by decide), utf8_append_ascii (by decide)]
  exact h

end Escaping

section Refutation

variable {χ κ : Type} {rt : Runtime χ} {e : JSONEncoder} {r : Record χ κ}

theorem Denotes.leaves {m : Bytes × Bytes} {v : Bytes × Json} (h : Denotes m v) (t : Bytes) :
    Json.Leaves (memberText m ++ t) t := (h.member t).leaves

theorem separated_leaves {ms : List (Bytes × Bytes)} {vs : List (Bytes × Json)}
    (h : List.Forall₂ Denotes ms vs) (t : Bytes) : Json.Leaves (separated ms ++ t) t := by
  induction h with
  | nil => exact .refl t
  | @cons m v ms vs hm _ ih =>
    rw [separated_cons, List.cons_append, List.append_assoc]
    exact Json.leaves_cons (by decide) ((hm.leaves _).trans ih)

theorem joined_leaves {ms : List (Bytes × Bytes)} {vs : List (Bytes × Json)}
    (h : List.Forall₂ Denotes ms vs) (t : Bytes) : Json.Leaves (joined ms ++ t) t := by
  cases h with
  | nil => exact .refl t
  | cons hm hms =>
    rw [joined, List.append_assoc]
    exact (hm.leaves _).trans (separated_leaves hms t)

theorem key_leaves (k t : Bytes) : Json.Leaves (quoted k ++ 0x3a :: t) t :=
  (quoted_value k (0x3a :: t)).leaves.trans (Json.leaves_cons (by decide) (.refl t))

theorem format_not_bare {bits : UInt64} (h : ¬ Float.Finite bits) (t : Bytes) :
    ∃ b ∈ Json.outside .plain (Float.format bits ++ t), ¬ Json.Bare b := by
  rcases Float.format_of_not_finite h with hf | hf | hf
  · rw [hf, Json.outside_append (by decide)]
    exact ⟨0x4e, List.mem_append_left _ (by decide), by decide⟩
  · rw [hf, Json.outside_append (by decide)]
    exact ⟨0x49, List.mem_append_left _ (by decide), by decide⟩
  · rw [hf, Json.outside_append (by decide)]
    exact ⟨0x49, List.mem_append_left _ (by decide), by decide⟩

theorem valueText_float {f : Field χ} {bits : UInt64} (h : f.floatBits = some bits) :
    valueText rt f = Float.format bits := by
  unfold Field.floatBits at h
  unfold valueText appendFieldValue
  split at h
  next hk =>
    cases h
    rw [hk]
    rfl
  next hk =>
    rw [hk]
    unfold AnyVal.floatBits at h
    split at h
    · cases h
      rename_i ha
      simp only [ha]
      rfl
    · cases h
  next => cases h

-- The first field with a value that is not finite.
theorem first_not_finite {fs : List (Field χ)} (h : ¬ ∀ f ∈ fs, f.Finite) :
    ∃ pre f post, fs = pre ++ f :: post ∧ (∀ g ∈ pre, g.Finite) ∧ ¬ f.Finite := by
  induction fs with
  | nil => exact absurd (by simp) h
  | cons f fs ih =>
    by_cases hf : f.Finite
    · have hrest : ¬ ∀ g ∈ fs, g.Finite := fun hall => h (List.forall_mem_cons.mpr ⟨hf, hall⟩)
      obtain ⟨pre, g, post, rfl, hpre, hg⟩ := ih hrest
      exact ⟨f :: pre, g, post, rfl, List.forall_mem_cons.mpr ⟨hf, hpre⟩, hg⟩
    · exact ⟨[], f, fs, rfl, by simp, hf⟩

theorem finite_of_value (hrt : rt.Marshals) (hr : r.CallerPlain rt) {v : Json}
    (h : Json.Value (0x7b :: (joined (e.members rt r) ++ [0x7d])) v []) :
    ∀ f ∈ r.fields, f.Finite := by
  by_contra hnot
  obtain ⟨pre, f, post, hfields, hpre, hf⟩ := first_not_finite hnot
  obtain ⟨bits, hbits, hinf⟩ : ∃ bits, f.floatBits = some bits ∧ ¬ Float.Finite bits := by
    simpa [Field.Finite] using hf
  obtain ⟨vs, hvs, -⟩ := JSONEncoder.fields_denote hrt hpre
  have hprefix := List.rel_append (JSONEncoder.head_denotes e hr) hvs
  have hsplit : joined (e.members rt r) =
      joined (e.headMembers rt r ++ pre.map (JSONEncoder.fieldMember rt)) ++
        separated ((f :: post).map (JSONEncoder.fieldMember rt)) := by
    rw [JSONEncoder.members, hfields, List.map_append, ← List.append_assoc,
      joined_append (by simp [JSONEncoder.headMembers])]
  obtain ⟨t, ht⟩ : ∃ t, separated ((f :: post).map (JSONEncoder.fieldMember rt)) ++ [0x7d] =
      0x2c :: (quoted f.key ++ 0x3a :: (Float.format bits ++ t)) := by
    refine ⟨separated (post.map (JSONEncoder.fieldMember rt)) ++ [0x7d], ?_⟩
    rw [List.map_cons, separated_cons, memberText, JSONEncoder.fieldMember, valueText_float hbits]
    simp
  have hleaves : Json.Leaves (0x7b :: (joined (e.members rt r) ++ [0x7d]))
      (Float.format bits ++ t) := by
    rw [hsplit, List.append_assoc, ht]
    exact Json.leaves_cons (by decide) ((joined_leaves hprefix _).trans
      (Json.leaves_cons (by decide) (key_leaves f.key _)))
  obtain ⟨b, hb, hbare⟩ := format_not_bare hinf t
  exact hbare (Json.outside_bare h b (hleaves.mem_outside hb))

end Refutation

section Texts

variable {χ κ : Type}

def AnyVal.texts (rt : Runtime χ) : AnyVal χ → List Bytes
  | .string s => [s]
  | .error text => [text]
  | .stringer text => [text]
  | .other v =>
      match rt.marshal v with
      | .error err => [err]
      | .ok _ => []
  | _ => []

def Field.texts (rt : Runtime χ) (f : Field χ) : List Bytes :=
  match f.knd with
  | .string => [f.str]
  | .error => f.errVal.toList
  | .any => f.any.texts rt
  | _ => []

def Runtime.MarshalsUtf8 (rt : Runtime χ) : Prop := ∀ v raw, rt.marshal v = .ok raw → Utf8 raw

variable {rt : Runtime χ}

theorem bare_ascii {b : Byte} (h : Json.Bare b) : b.toNat < 128 := by
  rcases h with h | h
  · have := isDigit_iff.mp h
    omega
  · exact (by decide : IsAscii (ascii "+-.eE,:[]\x7b\x7d \t\n\rnulltruefalse")) b h

theorem spells_ascii {s : Bytes} {n : Numeral} (h : Numeral.Spells s n) : IsAscii s :=
  fun b hb => bare_ascii (Json.spells_bare h b hb)

theorem isClock_ascii {b : Byte} (h : isClock b = true) : b.toNat < 128 := by
  simp only [isClock, Bool.or_eq_true, decide_eq_true_eq] at h
  rcases h with h | h
  · exact bare_ascii (.inl h)
  · exact (by decide : IsAscii (ascii "+-.:TZ")) b h

theorem clock_utf8 (t : Time) : Utf8 t.formatRFC3339Nano :=
  IsAscii.utf8 fun _ hb => isClock_ascii (isClock_formatRFC3339Nano hb)

theorem formatInt_utf8 (x : Int) : Utf8 (formatInt x) := IsAscii.utf8 (spells_ascii (formatInt_spells x))

theorem decimal_utf8 (n : Nat) : Utf8 (decimal n) := by
  rw [decimal_eq_formatInt]
  exact formatInt_utf8 n

theorem lower_utf8 (l : Level) : Utf8 l.lower := by
  unfold Level.lower
  repeat' split
  all_goals exact IsAscii.utf8 (by decide)

theorem fraction_utf8 (u prec : Nat) : Utf8 (Duration.fraction u prec) := by
  unfold Duration.fraction
  dsimp only
  split
  · exact utf8_nil
  · refine IsAscii.utf8 (List.forall_mem_cons.mpr ⟨by decide, fun b hb => ?_⟩)
    exact isClock_ascii (isClock_formatIntWidth (mem_trimZeros hb))

theorem units_utf8 : ∀ s ∈ Duration.units, Utf8 s := by
  simp only [Duration.units, List.forall_mem_cons, List.not_mem_nil, false_implies, implies_true,
    and_true]
  refine ⟨?_, ?_, ?_, ⟨['µ', 's'], by decide⟩, ?_, ?_, ?_, ?_⟩ <;> exact IsAscii.utf8 (by decide)

theorem duration_utf8 (d : Int) : Utf8 (Duration.string d) :=
  Duration.string_of_parts utf8_nil Utf8.append decimal_utf8 fraction_utf8 units_utf8 d

theorem utf8_writeText (s : Bytes) : Utf8 (writeText true [] s) ↔ Utf8 s := by
  rw [writeText, if_pos rfl, writeJSONString_quoted]
  exact utf8_quoted s

theorem float_utf8 (bits : UInt64) : Utf8 (Float.format bits) := by
  by_cases h : Float.Finite bits
  · obtain ⟨n, hspells, -⟩ := Float.format_spells h
    exact IsAscii.utf8 (spells_ascii hspells)
  · rcases Float.format_of_not_finite h with hf | hf | hf <;> rw [hf] <;> exact IsAscii.utf8 (by decide)

theorem bool_utf8 (v : Bool) : Utf8 (writeBool [] v) := by
  cases v <;> exact IsAscii.utf8 (by decide)

theorem null_utf8 : Utf8 (ascii "null") := IsAscii.utf8 (by decide)

theorem utf8_anyText (hrt : rt.MarshalsUtf8) (v : AnyVal χ) :
    Utf8 (anyText rt v) ↔ ∀ t ∈ v.texts rt, Utf8 t := by
  cases v with
  | string s | error s | stringer s =>
    simp only [AnyVal.texts, List.mem_singleton, forall_eq]
    exact utf8_writeText s
  | other v =>
    simp only [anyText, appendAny, AnyVal.texts, if_true]
    cases hm : rt.marshal v with
    | error err =>
      simp only [List.mem_singleton, forall_eq]
      rw [writeJSONString_quoted, List.nil_append, utf8_quoted, utf8_ascii_append (by decide)]
    | ok raw => simpa using hrt v raw hm
  | nil => exact iff_of_true null_utf8 (by simp [AnyVal.texts])
  | bool v => exact iff_of_true (bool_utf8 v) (by simp [AnyVal.texts])
  | int v | int64 v => exact iff_of_true (formatInt_utf8 v.toInt) (by simp [AnyVal.texts])
  | uint64 v => exact iff_of_true (decimal_utf8 v.toNat) (by simp [AnyVal.texts])
  | float64 bits => exact iff_of_true (float_utf8 bits) (by simp [AnyVal.texts])

theorem utf8_valueText (hrt : rt.MarshalsUtf8) (f : Field χ) :
    Utf8 (valueText rt f) ↔ ∀ t ∈ f.texts rt, Utf8 t := by
  unfold valueText appendFieldValue Field.texts
  cases hk : f.knd with
  | any => exact utf8_anyText hrt _
  | string => simpa using utf8_writeText f.str
  | error =>
    cases f.errVal with
    | some text => simpa using utf8_writeText text
    | none => exact iff_of_true null_utf8 (by simp)
  | int64 => exact iff_of_true (formatInt_utf8 _) (by simp)
  | uint64 => exact iff_of_true (decimal_utf8 _) (by simp)
  | float64 => exact iff_of_true (float_utf8 f.num) (by simp)
  | bool => exact iff_of_true (bool_utf8 _) (by simp)
  | duration => exact iff_of_true ((utf8_writeText _).mpr (duration_utf8 _)) (by simp)
  | time =>
    refine iff_of_true ?_ (by simp)
    have h := (utf8_quoted (f.time rt.localOffset).formatRFC3339Nano).mpr (clock_utf8 _)
    rw [← clock_quoted] at h
    simpa [writeByte, writeTimeRFC3339] using h

def Utf8Member (m : Bytes × Bytes) : Prop := Utf8 m.1 ∧ Utf8 m.2

theorem utf8_memberText (m : Bytes × Bytes) : Utf8 (memberText m) ↔ Utf8Member m := by
  rw [memberText, utf8_append_cons (by decide), utf8_quoted]
  rfl

theorem utf8_append_separated (s : Bytes) (ms : List (Bytes × Bytes)) :
    Utf8 (s ++ separated ms) ↔ Utf8 s ∧ ∀ m ∈ ms, Utf8Member m := by
  induction ms generalizing s with
  | nil => simp
  | cons m ms ih =>
    rw [separated_cons, utf8_append_cons (by decide), ih, utf8_memberText, List.forall_mem_cons]

theorem utf8_joined (ms : List (Bytes × Bytes)) : Utf8 (joined ms) ↔ ∀ m ∈ ms, Utf8Member m := by
  cases ms with
  | nil => simp [joined, utf8_nil]
  | cons m ms => rw [joined, utf8_append_separated, utf8_memberText, List.forall_mem_cons]

end Texts

namespace JSONEncoder

variable {χ κ : Type} {rt : Runtime χ} (e : JSONEncoder) {r : Record χ κ}

-- Everything the line copies from the record and from the encoder's keys.
def texts (rt : Runtime χ) (e : JSONEncoder) (r : Record χ κ) : List Bytes :=
  (if r.time.isZero then [] else [orDefault e.timeKey "time"]) ++
    [orDefault e.levelKey "level", orDefault e.msgKey "msg", r.message] ++
    (if r.eventName = [] then [] else [r.eventName]) ++
    (match r.source rt with
      | none => []
      | some src => [src.file]) ++
    r.fields.flatMap fun f => f.key :: f.texts rt

theorem utf8_callerText (src : Source) : Utf8 (callerText src) ↔ Utf8 src.file := by
  rw [callerText, utf8_append_cons (by decide), and_iff_left (formatInt_utf8 _)]

theorem utf8_timeMember :
    (∀ m ∈ timeMember e r, Utf8Member m) ↔
      ∀ t ∈ (if r.time.isZero then [] else [orDefault e.timeKey "time"]), Utf8 t := by
  unfold timeMember
  split
  · simp
  · rw [clock_quoted]
    simp [Utf8Member, utf8_quoted, clock_utf8]

theorem utf8_levelMember : Utf8 (levelMember e r).2 := by
  unfold levelMember
  dsimp only
  split
  · exact formatInt_utf8 _
  · exact (utf8_quoted _).mpr (lower_utf8 _)

theorem utf8_eventMember :
    (∀ m ∈ eventMember r, Utf8Member m) ↔
      ∀ t ∈ (if r.eventName = [] then [] else [r.eventName]), Utf8 t := by
  have hkey : Utf8 (ascii "event") := IsAscii.utf8 (by decide)
  unfold eventMember
  split
  · simp
  · simp [Utf8Member, utf8_quoted, hkey]

theorem utf8_callerMember :
    (∀ m ∈ callerMember rt r, Utf8Member m) ↔
      ∀ t ∈ (match r.source rt with
        | none => []
        | some src => [src.file]), Utf8 t := by
  have hkey : Utf8 (ascii "caller") := IsAscii.utf8 (by decide)
  unfold callerMember
  cases hs : r.source rt with
  | none => simp
  | some src =>
    have htext : Utf8 (0x22 :: (callerText src ++ [0x22])) ↔ Utf8 src.file := by
      rw [utf8_cons (by decide), utf8_append_ascii (by decide), utf8_callerText]
    simp [Utf8Member, htext, hkey]

theorem utf8_head :
    (∀ m ∈ headMembers rt e r, Utf8Member m) ↔
      ∀ t ∈ (if r.time.isZero then [] else [orDefault e.timeKey "time"]) ++
        [orDefault e.levelKey "level", orDefault e.msgKey "msg", r.message] ++
        (if r.eventName = [] then [] else [r.eventName]) ++
        (match r.source rt with
          | none => []
          | some src => [src.file]), Utf8 t := by
  simp only [headMembers, List.forall_mem_append]
  refine and_congr (and_congr (and_congr (utf8_timeMember e) ?_) utf8_eventMember)
    utf8_callerMember
  simp only [List.forall_mem_cons, List.not_mem_nil, false_implies, implies_true, and_true]
  rw [Utf8Member, and_iff_left (utf8_levelMember e), Utf8Member, messageMember, utf8_quoted]
  rfl

theorem utf8_members (hrt : rt.MarshalsUtf8) :
    (∀ m ∈ members rt e r, Utf8Member m) ↔ ∀ t ∈ texts rt e r, Utf8 t := by
  rw [members, texts, List.forall_mem_append, List.forall_mem_append, utf8_head e]
  refine and_congr Iff.rfl ?_
  simp only [List.forall_mem_map, List.mem_flatMap, forall_exists_index, and_imp]
  constructor
  · intro h t f hmem ht
    obtain ⟨hkey, hvalue⟩ := h f hmem
    rcases List.mem_cons.mp ht with rfl | ht
    · exact hkey
    · exact (utf8_valueText hrt f).mp hvalue t ht
  · intro h f hmem
    refine ⟨h f.key f hmem (by simp), (utf8_valueText hrt f).mpr ?_⟩
    exact fun t ht => h t f hmem (List.mem_cons_of_mem _ ht)

theorem newline_notMem_line (hcompact : rt.Compact) (hr : r.CallerPlain rt) :
    newline ∉ 0x7b :: (joined (members rt e r) ++ [0x7d]) := by
  have hclean : r.CallerClean rt := by
    intro src hs b hb
    have hplain := hr src hs b hb
    simp only [plain, Bool.and_eq_true, decide_eq_true_eq] at hplain
    exact hplain.1.1
  have hbody := encodeBody_clean hcompact e hclean (List.not_mem_nil (a := newline))
  rw [encodeBody_eq, List.nil_append] at hbody
  rw [← List.cons_append]
  exact notMem_append hbody (by decide)

theorem oneObject_iff (hrt : rt.Marshals) (hcompact : rt.Compact) (hr : r.CallerPlain rt) :
    OneObject (e.encode rt [] r) ↔ ∀ f ∈ r.fields, f.Finite := by
  constructor
  · rintro ⟨line, ms, hline, -, hvalue⟩
    rw [encode_line] at hline
    obtain rfl := List.append_cancel_right hline
    exact finite_of_value hrt hr hvalue
  · intro hf
    obtain ⟨vs, -, hvalue⟩ := line_object e hrt hr hf
    exact ⟨_, _, encode_line rt e r, newline_notMem_line e hcompact hr, hvalue []⟩

theorem utf8_encode (hrt : rt.MarshalsUtf8) :
    Utf8 (e.encode rt [] r) ↔ ∀ t ∈ texts rt e r, Utf8 t := by
  rw [encode_line, utf8_append_ascii (by decide), utf8_cons (by decide),
    utf8_append_ascii (by decide), utf8_joined, utf8_members e hrt]

theorem encode_valid (rt : Runtime χ) (hrt : rt.Marshals) (hcompact : rt.Compact)
    (hutf8 : rt.MarshalsUtf8) (e : JSONEncoder) (r : Record χ κ) (hr : r.CallerPlain rt)
    (buf : Bytes) :
    ∃ out, e.encode rt buf r = buf ++ out ∧
      (OneObject out ↔ ∀ f ∈ r.fields, f.Finite) ∧
      (OneObject out ∧ Utf8 out ↔
        (∀ f ∈ r.fields, f.Finite) ∧ ∀ t ∈ texts rt e r, Utf8 t) := by
  have hiff := oneObject_iff e hrt hcompact hr
  refine ⟨e.encode rt [] r, encode_append rt e r buf, hiff, ?_⟩
  constructor
  · rintro ⟨hone, hout⟩
    exact ⟨hiff.mp hone, (utf8_encode e hutf8).mp hout⟩
  · rintro ⟨hf, htexts⟩
    exact ⟨hiff.mpr hf, (utf8_encode e hutf8).mpr htexts⟩

def float64Field (key : String) (bits : UInt64) : Field Unit := ⟨ascii key, .float64, bits, [], .nil⟩

theorem bareRuntime_compact : bareRuntime.Compact := by
  intro v raw h
  obtain rfl := Except.ok.inj h
  decide

theorem bareRuntime_utf8 : bareRuntime.MarshalsUtf8 := by
  intro v raw h
  obtain rfl := Except.ok.inj h
  exact null_utf8

-- 0.1 and a message with a quote, a line break and a letter outside ASCII
def finiteRecord : Record Unit Unit :=
  bareRecord [0x22, 0x0a, 0xc3, 0xa9] [float64Field "x" 0x3fb999999999999a]

theorem encode_valid_finite :
    ∃ out, JSONEncoder.new.encode bareRuntime (ascii "a") finiteRecord = ascii "a" ++ out ∧
      OneObject out ∧ Utf8 out := by
  obtain ⟨out, hout, -, hiff⟩ := encode_valid bareRuntime bareRuntime_marshals bareRuntime_compact
    bareRuntime_utf8 JSONEncoder.new finiteRecord (bareRecord_callerPlain _ _) (ascii "a")
  exact ⟨out, hout, hiff.mpr ⟨by decide, by decide⟩⟩

def nanRecord : Record Unit Unit := bareRecord (ascii "m") [float64Field "x" 0x7ff8000000000001]

theorem nan_line_invalid :
    JSONEncoder.new.encode bareRuntime [] nanRecord =
      ascii "\x7b\"level\":\"info\",\"msg\":\"m\",\"x\":NaN\x7d\n" ∧
    ¬ OneObject (JSONEncoder.new.encode bareRuntime [] nanRecord) ∧
    OneObject (JSONEncoder.new.encode bareRuntime [] (bareRecord [0x80] [])) ∧
    ¬ Utf8 (JSONEncoder.new.encode bareRuntime [] (bareRecord [0x80] [])) := by
  have hiff := fun message fields => oneObject_iff JSONEncoder.new bareRuntime_marshals
    bareRuntime_compact (bareRecord_callerPlain message fields)
  exact ⟨by decide, mt (hiff _ _).mp (by decide), (hiff _ _).mpr (by decide), by decide⟩

end JSONEncoder

end UbgoLogger
