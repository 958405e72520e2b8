import Mathlib.Data.List.DropRight
import UbgoLogger.Encode.JsonRoundTrip
import UbgoLogger.Encode.JsonValid
import UbgoLogger.Foundation.JsonPiece

namespace UbgoLogger.Sink.Http
open Foundation Foundation.Text Foundation.Lines Buffer

variable {χ κ α : Type} (rt : Runtime χ)

def jsonLine (r : Record χ κ) : Bytes := JSONEncoder.new.encode rt [] r

-- The loop that cuts the line breaks off the end of a line.
def trimmed (r : Record χ κ) : Bytes := (jsonLine rt r).rdropWhile (· = newline)

-- A loop that writes a comma before every element but the first; i counts the elements.
def separate (write : α → Bytes) : Bytes → Nat → List α → Bytes
  | b, _, [] => b
  | b, i, x :: xs => separate write ((if 0 < i then b ++ [0x2c] else b) ++ write x) (i + 1) xs

-- The body and content type that the sink of NewDatadogSink builds.
def datadogBuild (recs : List (Record χ κ)) : Bytes × Bytes :=
  (separate (trimmed rt) [0x5b] 0 recs ++ [0x5d], ascii "application/json")

-- The action line of NewElasticsearchSink, without its line break.
def action (index : Bytes) : Bytes :=
  ascii "\x7b\"index\":\x7b\"_index\":\"" ++ index ++ ascii "\"\x7d\x7d"

def elasticsearchBuild (index : Bytes) (recs : List (Record χ κ)) : Bytes × Bytes :=
  (recs.foldl (fun b r => b ++ (action index ++ [newline]) ++ trimmed rt r ++ [newline]) [],
    ascii "application/x-ndjson")

section Lines

variable {rt} {r : Record χ κ}

theorem trimmed_eq (rt : Runtime χ) (r : Record χ κ) :
    trimmed rt r = 0x7b :: (joined (JSONEncoder.members rt .new r) ++ [0x7d]) := by
  rw [trimmed, jsonLine, JSONEncoder.encode_line, List.rdropWhile_concat_pos _ _ _ (by decide),
    ← List.cons_append, List.rdropWhile_concat_neg _ _ _ (by decide)]

theorem jsonLine_eq (rt : Runtime χ) (r : Record χ κ) : jsonLine rt r = trimmed rt r ++ [newline] := by
  rw [trimmed_eq, jsonLine, JSONEncoder.encode_line]

theorem newline_notMem_trimmed (hrt : rt.Compact) (hr : r.CallerPlain rt) : newline ∉ trimmed rt r := by
  rw [trimmed_eq]
  exact JSONEncoder.newline_notMem_line JSONEncoder.new hrt hr

-- What a record's line stands for, with its line break and without.
def Stands (rt : Runtime χ) (r : Record χ κ) (ms : List (Bytes × Json)) : Prop :=
  Json.parse (jsonLine rt r) = some (.object ms) ∧ Json.parse (trimmed rt r) = some (.object ms)

theorem exists_piece (hrt : rt.Marshals) (hr : r.CallerPlain rt) (hf : ∀ f ∈ r.fields, f.Finite) :
    ∃ (p : Json.Piece) (ms : List (Bytes × Json)), p.text = trimmed rt r ∧ p.value = .object ms ∧
      p.ok ∧ Stands rt r ms := by
  obtain ⟨vs, -, hvalue⟩ := JSONEncoder.line_object JSONEncoder.new hrt hr hf
  have hne : JSONEncoder.headValues rt .new r ++ vs ≠ [] := by simp [JSONEncoder.headValues]
  let p : Json.Piece := .written (joined (JSONEncoder.members rt .new r) ++ [0x7d]) _ hne
    fun rest => by simpa using hvalue rest
  have htext : p.text = trimmed rt r := (trimmed_eq rt r).symm
  refine ⟨p, _, htext, rfl, trivial, ?_, htext ▸ p.parse_iff.mpr trivial⟩
  rw [Json.parse_eq_some, jsonLine_eq, ← htext]
  exact ⟨_, [newline], Json.ws_refl _, (p.reads_iff _ _).mpr ⟨trivial, rfl⟩, [newline], by decide, rfl⟩

theorem exists_pieces (hrt : rt.Marshals) {recs : List (Record χ κ)}
    (hrecs : ∀ r ∈ recs, r.CallerPlain rt ∧ ∀ f ∈ r.fields, f.Finite) :
    ∃ (ps : List Json.Piece) (objs : List (List (Bytes × Json))),
      ps.map Json.Piece.text = recs.map (trimmed rt) ∧
      ps.map Json.Piece.value = objs.map Json.object ∧ (∀ p ∈ ps, p.ok) ∧
      List.Forall₂ (Stands rt) recs objs := by
  induction recs with
  | nil => exact ⟨[], [], rfl, rfl, nofun, .nil⟩
  | cons r recs ih =>
    obtain ⟨⟨hr, hf⟩, hrest⟩ := List.forall_mem_cons.mp hrecs
    obtain ⟨p, ms, htext, hvalue, hok, hstands⟩ := exists_piece hrt hr hf
    obtain ⟨ps, objs, htexts, hvalues, hoks, hall⟩ := ih hrest
    refine ⟨p :: ps, ms :: objs, ?_, ?_, List.forall_mem_cons.mpr ⟨hok, hoks⟩, .cons hstands hall⟩
    · rw [List.map_cons, List.map_cons, htext, htexts]
    · rw [List.map_cons, List.map_cons, hvalue, hvalues]

end Lines

section Separate

theorem separate_succ (write : α → Bytes) (b : Bytes) (i : Nat) (xs : List α) :
    separate write b (i + 1) xs = b ++ (xs.map write).flatMap fun u => 0x2c :: u := by
  induction xs generalizing b i with
  | nil => rw [separate, List.map_nil, List.flatMap_nil, List.append_nil]
  | cons x xs ih =>
    rw [separate, if_pos (Nat.succ_pos i), ih]
    simp

theorem separate_eq (write : α → Bytes) (b : Bytes) (xs : List α) :
    separate write b 0 xs = b ++ Json.Piece.list (xs.map write) := by
  cases xs with
  | nil => simp [separate, Json.Piece.list]
  | cons x xs =>
    rw [separate, if_neg (Nat.lt_irrefl 0), separate_succ, List.map_cons, Json.Piece.list_eq,
      List.append_assoc]

end Separate

theorem unescaped_iff {b : Byte} : Json.Unescaped b ↔ plain b = true := by
  simp [Json.Unescaped, plain, and_assoc]

theorem unescaped_of_all {s : Bytes} (h : s.all plain = true) : ∀ b ∈ s, Json.Unescaped b :=
  fun b hb => unescaped_iff.mpr (List.all_eq_true.mp h b hb)

section Framing

variable {rt}

def actionPiece (index : Bytes) : Json.Piece :=
  .object [(ascii "index", .object [(ascii "_index", .raw index)])]

theorem actionPiece_text (index : Bytes) : (actionPiece index).text = action index := by
  simp [actionPiece, action, Json.Piece.object, Json.Piece.memberText, Json.Piece.raw,
    Json.Piece.list_singleton, ascii]

theorem parse_action {index : Bytes} (h : ∀ b ∈ index, plain b = true) :
    Json.parse (action index) =
      some (.object [(ascii "index", .object [(ascii "_index", .string index)])]) := by
  have houter : ∀ b ∈ ascii "index", Json.Unescaped b := unescaped_of_all (by decide)
  have hinner : ∀ b ∈ ascii "_index", Json.Unescaped b := unescaped_of_all (by decide)
  have hname : ∀ b ∈ index, Json.Unescaped b := fun b hb => unescaped_iff.mpr (h b hb)
  have hok : (actionPiece index).ok :=
    List.forall_mem_singleton.mpr ⟨houter, List.forall_mem_singleton.mpr ⟨hinner, hname⟩⟩
  rw [← actionPiece_text]
  exact (actionPiece index).parse_iff.mpr hok

def bulkLines (rt : Runtime χ) (index : Bytes) (recs : List (Record χ κ)) : List Bytes :=
  recs.flatMap fun r => [action index, trimmed rt r]

theorem elasticsearchBuild_eq (rt : Runtime χ) (index : Bytes) (recs : List (Record χ κ)) :
    (elasticsearchBuild rt index recs).1 = unlines (bulkLines rt index recs) := by
  suffices h : ∀ b : Bytes,
      recs.foldl (fun b r => b ++ (action index ++ [newline]) ++ trimmed rt r ++ [newline]) b =
        b ++ unlines (bulkLines rt index recs) from h []
  induction recs with
  | nil => simp [bulkLines]
  | cons r recs ih =>
    intro b
    rw [List.foldl_cons, ih]
    simp [bulkLines]

theorem newline_notMem_bulkLines (hcompact : rt.Compact) {index : Bytes}
    (hindex : ∀ b ∈ index, plain b = true) {recs : List (Record χ κ)}
    (hrecs : ∀ r ∈ recs, r.CallerPlain rt) : ∀ l ∈ bulkLines rt index recs, newline ∉ l := by
  intro l hl
  obtain ⟨r, hr, hl⟩ := List.mem_flatMap.mp hl
  simp only [List.mem_cons, List.not_mem_nil, or_false] at hl
  rcases hl with rfl | rfl
  · refine notMem_append (notMem_append (by decide) fun hm => ?_) (by decide)
    exact absurd (hindex newline hm) (by decide)
  · exact newline_notMem_trimmed hcompact (hrecs r hr)

theorem batch_framing (hrt : rt.Marshals) (hcompact : rt.Compact) {index : Bytes}
    (hindex : ∀ b ∈ index, plain b = true) {recs : List (Record χ κ)}
    (hrecs : ∀ r ∈ recs, r.CallerPlain rt ∧ ∀ f ∈ r.fields, f.Finite) :
    ∃ objs : List (List (Bytes × Json)), List.Forall₂ (Stands rt) recs objs ∧
      Json.parse (datadogBuild rt recs).1 = some (.array (objs.map .object)) ∧
      lines (elasticsearchBuild rt index recs).1 = bulkLines rt index recs ∧
      unlines (bulkLines rt index recs) = (elasticsearchBuild rt index recs).1 ∧
      (bulkLines rt index recs).length = 2 * recs.length ∧
      Json.parse (action index) =
        some (.object [(ascii "index", .object [(ascii "_index", .string index)])]) := by
  obtain ⟨ps, objs, htexts, hvalues, hoks, hstands⟩ := exists_pieces hrt hrecs
  have hlines := newline_notMem_bulkLines hcompact hindex fun r hr => (hrecs r hr).1
  refine ⟨objs, hstands, ?_, ?_, (elasticsearchBuild_eq rt index recs).symm, ?_, parse_action hindex⟩
  · have hbody : (datadogBuild rt recs).1 = (Json.Piece.array ps).text := by
      rw [datadogBuild, separate_eq, ← htexts]
      rfl
    rw [hbody, ← hvalues]
    exact (Json.Piece.array ps).parse_iff.mpr hoks
  · rw [elasticsearchBuild_eq, lines_unlines hlines]
  · rw [bulkLines, List.length_flatMap]
    simp [Nat.mul_comm]

end Framing

theorem batch_framing_two : ∃ objs : List (List (Bytes × Json)),
    Json.parse (datadogBuild bareRuntime [JSONEncoder.mixedRecord, JSONEncoder.mixedRecord]).1 =
      some (.array (objs.map .object)) ∧ objs.length = 2 ∧
    (lines (elasticsearchBuild bareRuntime (ascii "logs")
      [JSONEncoder.mixedRecord, JSONEncoder.mixedRecord]).1).length = 4 := by
  have hindex : ∀ b ∈ ascii "logs", plain b = true := List.all_eq_true.mp (by decide)
  have hrecs : ∀ r ∈ [JSONEncoder.mixedRecord, JSONEncoder.mixedRecord],
      r.CallerPlain bareRuntime ∧ ∀ f ∈ r.fields, f.Finite := by
    intro r hr
    obtain rfl : r = JSONEncoder.mixedRecord := by simpa using hr
    exact ⟨bareRecord_callerPlain _ _, by decide⟩
  obtain ⟨objs, hstands, hparse, hlines, -, hlength, -⟩ :=
    batch_framing bareRuntime_marshals JSONEncoder.bareRuntime_compact hindex hrecs
  exact ⟨objs, hparse, hstands.length_eq.symm, hlines ▸ hlength⟩

end UbgoLogger.Sink.Http
