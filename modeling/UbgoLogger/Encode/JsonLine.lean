import UbgoLogger.Encode.JsonText

namespace UbgoLogger
open Foundation Foundation.Text Foundation.Lines Buffer

def memberText (m : Bytes × Bytes) : Bytes := quoted m.1 ++ 0x3a :: m.2

def separated (ms : List (Bytes × Bytes)) : Bytes := ms.flatMap fun m => 0x2c :: memberText m

def joined : List (Bytes × Bytes) → Bytes
  | [] => []
  | m :: ms => memberText m ++ separated ms

@[simp] theorem separated_nil : separated [] = [] := rfl

theorem separated_cons (m : Bytes × Bytes) (ms : List (Bytes × Bytes)) :
    separated (m :: ms) = 0x2c :: (memberText m ++ separated ms) := by
  simp [separated]

theorem separated_append (ms ns : List (Bytes × Bytes)) :
    separated (ms ++ ns) = separated ms ++ separated ns := List.flatMap_append

theorem joined_append {ms : List (Bytes × Bytes)} (hne : ms ≠ []) (ns : List (Bytes × Bytes)) :
    joined (ms ++ ns) = joined ms ++ separated ns := by
  obtain ⟨m, ms, rfl⟩ := List.exists_cons_of_ne_nil hne
  simp [joined, separated_append]

def Denotes (m : Bytes × Bytes) (v : Bytes × Json) : Prop :=
  v.1 = m.1 ∧ ∀ r, Json.Value (m.2 ++ r) v.2 r

theorem Denotes.member {m : Bytes × Bytes} {v : Bytes × Json} (h : Denotes m v) (r : Bytes) :
    Json.Member (memberText m ++ r) v r := by
  obtain ⟨k, j⟩ := v
  obtain ⟨rfl, hvalue⟩ := h
  obtain ⟨cs, hcs, hdecode⟩ := chars_quoted m.1 (0x3a :: (m.2 ++ r))
  have hmember := Json.Member.mk (Json.ws_refl _) hcs (Json.ws_refl _) (Json.ws_refl _) (hvalue r)
  rw [hdecode] at hmember
  simpa [memberText, quoted] using hmember

theorem separated_members {ms : List (Bytes × Bytes)} {vs : List (Bytes × Json)}
    (h : List.Forall₂ Denotes ms vs) {s r : Bytes} {v : Bytes × Json}
    (hs : Json.Member s v (separated ms ++ 0x7d :: r)) : Json.Members s (v :: vs) r := by
  induction h generalizing s v with
  | nil => exact .last hs (Json.ws_refl _)
  | @cons m w ms vs hm _ ih =>
    rw [separated_cons, List.cons_append, List.append_assoc] at hs
    exact .cons hs (Json.ws_refl _) (ih (hm.member _))

theorem joined_object {ms : List (Bytes × Bytes)} {vs : List (Bytes × Json)}
    (h : List.Forall₂ Denotes ms vs) (hne : ms ≠ []) (r : Bytes) :
    Json.Value (0x7b :: (joined ms ++ 0x7d :: r)) (.object vs) r := by
  cases h with
  | nil => exact absurd rfl hne
  | cons hm hms =>
    rw [joined, List.append_assoc]
    exact .object (separated_members hms (hm.member _))

namespace JSONEncoder

variable {χ κ : Type} (rt : Runtime χ) (e : JSONEncoder) (r : Record χ κ)

def timeMember : List (Bytes × Bytes) :=
  if r.time.isZero then []
  else [(orDefault e.timeKey "time", 0x22 :: (r.time.formatRFC3339Nano ++ [0x22]))]

def levelMember : Bytes × Bytes :=
  (orDefault e.levelKey "level",
    if e.numericLevel then formatInt (Int64.ofInt r.level).toInt else quoted r.level.lower)

def messageMember : Bytes × Bytes := (orDefault e.msgKey "msg", quoted r.message)

def eventMember : List (Bytes × Bytes) :=
  if r.eventName = [] then [] else [(ascii "event", quoted r.eventName)]

def callerText (src : Source) : Bytes := src.file ++ 0x3a :: formatInt (Int64.ofInt src.line).toInt

def callerMember : List (Bytes × Bytes) :=
  match r.source rt with
  | none => []
  | some src => [(ascii "caller", 0x22 :: (callerText src ++ [0x22]))]

def fieldMember (f : Field χ) : Bytes × Bytes := (f.key, valueText rt f)

def headMembers : List (Bytes × Bytes) :=
  timeMember e r ++ [levelMember e r, messageMember e r] ++ eventMember r ++ callerMember rt r

def members : List (Bytes × Bytes) := headMembers rt e r ++ r.fields.map (fieldMember rt)

theorem encodeEvent_eq (buf : Bytes) : encodeEvent buf r = buf ++ separated (eventMember r) := by
  unfold encodeEvent eventMember
  split
  · simp [separated]
  · simp [separated, memberText, writeByte, writeJSONString_quoted]

theorem encodeCaller_eq (buf : Bytes) :
    encodeCaller rt buf r = buf ++ separated (callerMember rt r) := by
  unfold encodeCaller callerMember
  cases r.source rt with
  | none => simp [separated]
  | some src =>
    simp [separated, memberText, callerText, writeByte, writeString, writeInt,
      writeJSONString_quoted]

theorem encodeField_eq (buf : Bytes) (f : Field χ) :
    encodeField rt buf f = buf ++ separated [fieldMember rt f] := by
  rw [encodeField, appendFieldValue_eq]
  simp [separated, memberText, fieldMember, writeByte, writeJSONString_quoted]

theorem encodeFields_eq (fs : List (Field χ)) (buf : Bytes) :
    fs.foldl (encodeField rt) buf = buf ++ separated (fs.map (fieldMember rt)) := by
  induction fs generalizing buf with
  | nil => simp [separated]
  | cons f fs ih =>
    rw [List.foldl_cons, ih, encodeField_eq, List.append_assoc, ← separated_append]
    rfl

theorem encodeTime_eq (buf : Bytes) :
    e.encodeTime buf r = (buf ++ joined (timeMember e r), r.time.isZero) := by
  unfold encodeTime timeMember
  split
  next hzero => simp [joined, hzero]
  next hne =>
    simp [joined, separated, memberText, hne, writeByte, writeTimeRFC3339, writeJSONString_quoted]

theorem encodeLevel_eq (buf : Bytes) (first : Bool) :
    e.encodeLevel buf first r =
      (if first then buf else buf ++ [0x2c]) ++ memberText (levelMember e r) := by
  unfold encodeLevel levelMember
  cases e.numericLevel <;>
    cases first <;> simp [memberText, writeByte, writeInt, writeJSONString_quoted]

theorem encodeMessage_eq (buf : Bytes) :
    e.encodeMessage buf r = buf ++ separated [messageMember e r] := by
  simp [encodeMessage, separated, memberText, messageMember, writeByte, writeJSONString_quoted]

theorem encodeHead_eq (buf : Bytes) :
    e.encodeHead buf r =
      buf ++ 0x7b :: joined (timeMember e r ++ [levelMember e r, messageMember e r]) := by
  rw [encodeHead, encodeTime_eq]
  dsimp only
  rw [encodeMessage_eq, encodeLevel_eq]
  cases hzero : r.time.isZero with
  | true => simp [timeMember, hzero, joined, writeByte]
  | false => simp [timeMember, hzero, joined, separated_cons, writeByte]

theorem encodeBody_eq (buf : Bytes) :
    encodeBody rt e buf r = buf ++ 0x7b :: joined (members rt e r) := by
  have hhead : timeMember e r ++ [levelMember e r, messageMember e r] ≠ [] := by simp
  have hevent := List.append_ne_nil_of_left_ne_nil hhead (eventMember r)
  have hcaller := List.append_ne_nil_of_left_ne_nil hevent (callerMember rt r)
  rw [encodeBody, encodeFields_eq, encodeCaller_eq, encodeEvent_eq, encodeHead_eq, members,
    headMembers, joined_append hcaller, joined_append hevent, joined_append hhead]
  simp

theorem encode_append (buf : Bytes) : e.encode rt buf r = buf ++ e.encode rt [] r := by
  rw [encode_eq, encode_eq, encodeBody_eq, encodeBody_eq]
  simp

def encoder : Encoder (Record χ κ) where
  encode := e.encode rt
  appends := fun buf r => encode_append rt e r buf

def body : Bytes := 0x7b :: (joined (members rt e r) ++ [0x7d])

theorem encode_line :
    e.encode rt [] r = (0x7b :: (joined (members rt e r) ++ [0x7d])) ++ [newline] := by
  rw [encode_eq, encodeBody_eq]
  simp

def levelValue : Json :=
  if e.numericLevel then .number (intNumeral (Int64.ofInt r.level).toInt)
  else .string r.level.lower

def headValues : List (Bytes × Json) :=
  (if r.time.isZero then []
    else [(orDefault e.timeKey "time", .string r.time.formatRFC3339Nano)]) ++
  [(orDefault e.levelKey "level", levelValue e r), (orDefault e.msgKey "msg", .string r.message)] ++
  (if r.eventName = [] then [] else [(ascii "event", .string r.eventName)]) ++
  (match r.source rt with
    | none => []
    | some src => [(ascii "caller", .string (callerText src))])

end JSONEncoder

def Record.CallerPlain {χ κ : Type} (rt : Runtime χ) (r : Record χ κ) : Prop :=
  ∀ src, r.source rt = some src → ∀ b ∈ src.file, plain b = true

namespace JSONEncoder

variable {χ κ : Type} {rt : Runtime χ} (e : JSONEncoder) {r : Record χ κ}

theorem callerText_plain {src : Source} (h : ∀ b ∈ src.file, plain b = true) :
    ∀ b ∈ callerText src, plain b = true := by
  simp only [callerText, List.mem_append, List.mem_cons]
  rintro b (hb | rfl | hb)
  · exact h b hb
  · decide
  · rcases mem_formatInt hb with rfl | hb
    · decide
    · exact isDigit_plain hb

theorem denotes_quoted (k s : Bytes) : Denotes (k, quoted s) (k, .string s) :=
  ⟨rfl, quoted_value s⟩

theorem levelMember_denotes : Denotes (levelMember e r) (orDefault e.levelKey "level", levelValue e r) := by
  unfold levelMember levelValue
  split
  · exact ⟨rfl, formatInt_value _⟩
  · exact denotes_quoted _ _

theorem head_denotes (hr : r.CallerPlain rt) :
    List.Forall₂ Denotes (headMembers rt e r) (headValues rt e r) := by
  refine List.rel_append (List.rel_append (List.rel_append ?_ ?_) ?_) ?_
  · unfold timeMember
    split
    · exact .nil
    · rw [clock_quoted]
      exact .cons (denotes_quoted _ _) .nil
  · exact .cons (levelMember_denotes e) (.cons (denotes_quoted _ _) .nil)
  · unfold eventMember
    split
    · exact .nil
    · exact .cons (denotes_quoted _ _) .nil
  · unfold callerMember
    cases hs : r.source rt with
    | none => exact .nil
    | some src =>
      dsimp only
      rw [← quoted_of_plain (callerText_plain (hr src hs))]
      exact .cons (denotes_quoted _ _) .nil

def FieldRecovered (rt : Runtime χ) (f : Field χ) (v : Bytes × Json) : Prop :=
  v.1 = f.key ∧ f.Recovered rt v.2

theorem fields_denote (hrt : rt.Marshals) {fs : List (Field χ)} (hf : ∀ f ∈ fs, f.Finite) :
    ∃ vs, List.Forall₂ Denotes (fs.map (fieldMember rt)) vs ∧
      List.Forall₂ (FieldRecovered rt) fs vs := by
  induction fs with
  | nil => exact ⟨[], .nil, .nil⟩
  | cons f fs ih =>
    obtain ⟨hhead, htail⟩ := List.forall_mem_cons.mp hf
    obtain ⟨vs, hvs, hrecovered⟩ := ih htail
    obtain ⟨j, hj, hvalue⟩ := valueText_value hrt hhead
    exact ⟨(f.key, j) :: vs, .cons ⟨rfl, hvalue⟩ hvs, .cons ⟨rfl, hj⟩ hrecovered⟩

theorem members_ne_nil : members rt e r ≠ [] := by
  simp [members, headMembers]

theorem line_object (hrt : rt.Marshals) (hr : r.CallerPlain rt) (hf : ∀ f ∈ r.fields, f.Finite) :
    ∃ vs, List.Forall₂ (FieldRecovered rt) r.fields vs ∧
      ∀ t, Json.Value (0x7b :: (joined (members rt e r) ++ 0x7d :: t))
        (.object (headValues rt e r ++ vs)) t := by
  obtain ⟨vs, hvs, hrecovered⟩ := fields_denote hrt hf
  refine ⟨vs, hrecovered, joined_object ?_ (members_ne_nil e)⟩
  exact List.rel_append (head_denotes e hr) hvs

end JSONEncoder

def bareRecord (message : Bytes) (fields : List (Field Unit)) : Record Unit Unit where
  time := Time.zero
  level := Level.info
  message := message
  pc := 0
  eventName := []
  fields := fields
  ctx := ()

theorem bareRecord_callerPlain (message : Bytes) (fields : List (Field Unit)) :
    (bareRecord message fields).CallerPlain bareRuntime := by
  intro src hs
  simp [Record.source, bareRecord] at hs

end UbgoLogger
