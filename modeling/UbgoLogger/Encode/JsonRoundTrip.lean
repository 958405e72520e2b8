import UbgoLogger.Encode.JsonValid
import UbgoLogger.Foundation.JsonParse

namespace UbgoLogger.Buffer
open Foundation Foundation.Text

theorem parse_quoted (s : Bytes) : Json.parse (quoted s) = some (.string s) := by
  have hvalue := quoted_value s []
  rw [List.append_nil] at hvalue
  rw [Json.parse_eq_some]
  exact ⟨_, [], Json.ws_refl _, hvalue, Json.ws_refl _⟩

theorem quoted_injective : Function.Injective quoted := by
  intro s s' h
  have hparse := parse_quoted s
  rw [h, parse_quoted s'] at hparse
  exact (Json.string.inj (Option.some.inj hparse)).symm

theorem escaped_unescapedQuote (s : Bytes) :
    Json.unescapedQuote .quoted (s.flatMap escapeByte) = false := by
  obtain ⟨cs, hchars, -⟩ := chars_quoted s []
  obtain ⟨c, hc, hquote⟩ := hchars.unescapedQuote
  rwa [List.append_cancel_right hc]

theorem quoted_noControl (s : Bytes) : NoControl (quoted s) := by
  have h := writeJSONString_noControl noControl_nil s
  rwa [writeJSONString_quoted, List.nil_append] at h

theorem writeJSONString_escapes (b s : Bytes) :
    ∃ t body, writeJSONString b s = b ++ t ∧ t = 0x22 :: (body ++ [0x22]) ∧
      (∀ c ∈ t, 0x20 ≤ c) ∧ Json.unescapedQuote .quoted body = false ∧
      Json.parse t = some (.string s) ∧ body = s.flatMap escapeByte ∧
      (∀ s', writeJSONString b s' = b ++ t → s' = s) ∧ (Utf8 s → Utf8 t) := by
  refine ⟨quoted s, s.flatMap escapeByte, writeJSONString_quoted b s, rfl, quoted_noControl s,
    escaped_unescapedQuote s, parse_quoted s, rfl, fun s' h => ?_, (utf8_quoted s).mpr⟩
  rw [writeJSONString_quoted] at h
  exact quoted_injective (List.append_cancel_left h)

example : writeJSONString (ascii "x") [0x61, 0x22, 0x01, 0x5c, 0x7f, 0x0a] =
    ascii "x\"a\\\"\\u0001\\\\" ++ 0x7f :: ascii "\\n\"" := by decide

end UbgoLogger.Buffer

namespace UbgoLogger.JSONEncoder
open Foundation Foundation.Text Foundation.Lines

variable {χ κ : Type}

theorem parse_line (rt : Runtime χ) (hrt : rt.Marshals) (e : JSONEncoder) (r : Record χ κ)
    (hr : r.CallerPlain rt) (hf : ∀ f ∈ r.fields, f.Finite) (buf : Bytes) :
    ∃ line vs, e.encode rt buf r = buf ++ line ∧
      Json.parse line = some (.object (headValues rt e r ++ vs)) ∧
      List.Forall₂ (FieldRecovered rt) r.fields vs := by
  obtain ⟨vs, hrecovered, hvalue⟩ := line_object e hrt hr hf
  refine ⟨e.encode rt [] r, vs, encode_append rt e r buf, ?_, hrecovered⟩
  rw [Json.parse_eq_some, encode_line]
  refine ⟨_, [newline], Json.ws_refl _, ?_, [newline], by decide, rfl⟩
  simpa using hvalue [newline]

def mixedRecord : Record Unit Unit :=
  bareRecord (ascii "say \"hi\"\n")
    [⟨ascii "id", .int64, 0xffffffffffffffff, [], .nil⟩, ⟨[0x01, 0xff], .string, 0, [0x5c, 0x80], .nil⟩,
      anyField (ascii "x") (.float64 0x3fb999999999999a), namedErr (ascii "err") none]

theorem parse_line_mixed :
    ∃ line vs, JSONEncoder.new.encode bareRuntime [] mixedRecord = [] ++ line ∧
      Json.parse line = some (.object (headValues bareRuntime JSONEncoder.new mixedRecord ++ vs)) ∧
      List.Forall₂ (FieldRecovered bareRuntime) mixedRecord.fields vs :=
  parse_line bareRuntime bareRuntime_marshals JSONEncoder.new mixedRecord
    (bareRecord_callerPlain _ _) (by decide) []

end UbgoLogger.JSONEncoder
