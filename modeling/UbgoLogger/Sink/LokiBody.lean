import UbgoLogger.Core.Slog
import UbgoLogger.Foundation.JsonFlat
import UbgoLogger.Sink.HttpBody

namespace UbgoLogger.Sink.Http
open Foundation Foundation.Text Foundation.Lines Buffer

-- The loop of itoa64 over an array with i free cells, d being the cells filled so far.
def itoa64Loop : Nat → Int64 → Bytes → Bytes
  | 0, _, d => d
  | i + 1, n, d => if 0 < n then itoa64Loop i (n / 10) ((48 + n % 10).toUInt64.toUInt8 :: d) else d

def itoa64 (n : Int64) : Bytes :=
  if n = 0 then ascii "0"
  else
    let neg := decide (n < 0)
    let n := if neg then -n else n
    let d := itoa64Loop 20 n []
    if neg then 0x2d :: d else d

section Itoa

theorem digit_of_int64 {n : Int64} {m : Nat} (h : n.toInt = m) :
    (48 + n % 10).toUInt64.toUInt8 = digit (m % 10) := by
  have hmod : (n % 10).toInt = ((m % 10 : Nat) : Int) := by
    rw [Int64.toInt_mod, h]
    rfl
  have hcast : n % 10 = Int64.ofNat (m % 10) := by
    apply Int64.toInt_inj.mp
    rw [hmod, Int64.toInt_ofNat_of_lt (by omega)]
  rw [hcast]
  have hlt : m % 10 < 10 := Nat.mod_lt _ (by decide)
  generalize m % 10 = k at hlt
  interval_cases k <;> rfl

theorem itoa64Loop_eq {i m : Nat} {n : Int64} (hn : n.toInt = m) (hm : m < 10 ^ i) (d : Bytes) :
    itoa64Loop i n d = (Nat.digits 10 m).reverse.map digit ++ d := by
  induction i generalizing n m d with
  | zero =>
    obtain rfl : m = 0 := by simpa using hm
    rw [itoa64Loop, Nat.digits_zero, List.reverse_nil, List.map_nil, List.nil_append]
  | succ i ih =>
    have hpos : 0 < n ↔ 0 < m := by
      rw [Int64.lt_iff_toInt_lt, hn, Int64.toInt_zero]
      omega
    rw [itoa64Loop]
    split
    next h =>
      have hdiv : (n / 10).toInt = ((m / 10 : Nat) : Int) := by
        rw [Int64.toInt_div_of_ne_right _ _ (by decide), hn]
        rfl
      rw [ih hdiv (Nat.div_lt_of_lt_mul (by rwa [Nat.pow_succ'] at hm)), digit_of_int64 hn,
        Nat.digits_def' (by decide) (hpos.mp h)]
      simp
    next h =>
      obtain rfl : m = 0 := Nat.eq_zero_of_not_pos (mt hpos.mpr h)
      rw [Nat.digits_zero, List.reverse_nil, List.map_nil, List.nil_append]

theorem itoa64_eq {n : Int64} (h : n ≠ Int64.minValue) : itoa64 n = formatInt n.toInt := by
  by_cases hzero : n = 0
  · subst hzero
    decide
  have hne : n.toInt ≠ 0 := fun he => hzero (Int64.toInt_inj.mp (he.trans Int64.toInt_zero.symm))
  have hmin : n.toInt ≠ -2 ^ 63 := fun he => h (Int64.toInt_inj.mp (he.trans Int64.toInt_minValue.symm))
  have hle := n.le_toInt
  have hlt := n.toInt_lt
  have hfits : n.toInt.natAbs < 10 ^ 20 := by omega
  have hdecimal : decimal n.toInt.natAbs = (Nat.digits 10 n.toInt.natAbs).reverse.map digit :=
    if_neg (Int.natAbs_ne_zero.mpr hne)
  have hsign : n < 0 ↔ n.toInt < 0 := by rw [Int64.lt_iff_toInt_lt, Int64.toInt_zero]
  rw [itoa64, if_neg hzero, formatInt, hdecimal]
  by_cases hneg : n < 0
  · have hlow := hsign.mp hneg
    have hnat : (-n).toInt = (n.toInt.natAbs : Int) := by
      rw [Int64.toInt_neg, Int.bmod_eq_of_le (by omega) (by omega)]
      omega
    simp [hneg, hlow, itoa64Loop_eq hnat hfits]
  · have hhigh := Int.not_lt.mp (mt hsign.mpr hneg)
    have hnat : n.toInt = (n.toInt.natAbs : Int) := by omega
    simp [hneg, hhigh, itoa64Loop_eq hnat hfits]

-- Negating the least int64 gives it back, and the loop writes no digit.
theorem itoa64_minValue : itoa64 Int64.minValue = [0x2d] := by decide

theorem itoa64_iff {n : Int64} : itoa64 n = formatInt n.toInt ↔ n ≠ Int64.minValue := by
  refine ⟨?_, itoa64_eq⟩
  rintro h rfl
  rw [itoa64_minValue, formatInt, if_pos (by decide)] at h
  exact decimal_ne_nil _ (List.cons.inj h).2.symm

theorem mem_itoa64 {n : Int64} {b : Byte} (hb : b ∈ itoa64 n) : b = 0x2d ∨ isDigit b = true := by
  by_cases hn : n = Int64.minValue
  · rw [hn, itoa64_minValue] at hb
    exact .inl (List.mem_singleton.mp hb)
  · rw [itoa64_eq hn] at hb
    exact mem_formatInt hb

theorem itoa64_plain {n : Int64} {b : Byte} (hb : b ∈ itoa64 n) : plain b = true := by
  rcases mem_itoa64 hb with rfl | hb
  · decide
  · exact isDigit_plain hb

theorem itoa64_ascii (n : Int64) : IsAscii (itoa64 n) := by
  intro b hb
  rcases mem_itoa64 hb with rfl | hb
  · decide
  · have hdigit := isDigit_iff.mp hb
    omega

end Itoa

variable {χ κ : Type} (rt : Runtime χ)

-- The loop over the labels, in whatever order the map gives them.
def labelLoop : Bytes → Bool → List (Bytes × Bytes) → Bytes
  | b, _, [] => b
  | b, first, (k, v) :: labels =>
    let b := if !first then b ++ [0x2c] else b
    labelLoop (b ++ [0x22] ++ k ++ ascii "\":\"" ++ v ++ [0x22]) false labels

def lokiEntry (r : Record χ κ) : Bytes :=
  ascii "[\"" ++ itoa64 r.time.unixNano ++ ascii "\"," ++ writeJSONString [] (trimmed rt r) ++ [0x5d]

-- The body and content type that the sink of NewLokiSink builds.
def lokiBuild (labels : List (Bytes × Bytes)) (recs : List (Record χ κ)) : Bytes × Bytes :=
  let b := labelLoop (ascii "\x7b\"streams\":[\x7b\"stream\":\x7b") true labels
  let b := b ++ ascii "\x7d,\"values\":["
  (separate (lokiEntry rt) b 0 recs ++ ascii "]\x7d]\x7d", ascii "application/json")

-- What a push is to say: one stream with its labels, and a timestamp and a line for each record.
def lokiPush (labels : List (Bytes × Bytes)) (recs : List (Record χ κ)) : Json :=
  .object [(ascii "streams", .array [.object [(ascii "stream", .object (labels.map Json.flat)),
    (ascii "values", .array (recs.map fun r =>
      .array [.string (formatInt r.time.unixNano.toInt), .string (jsonLine rt r).dropLast]))]])]

def Delivers (labels : List (Bytes × Bytes)) (recs : List (Record χ κ)) : Prop :=
  ∃ ms, ms.Perm labels ∧ Json.parse (lokiBuild rt labels recs).1 = some (lokiPush rt ms recs)

section Payload

variable {rt} {labels ms : List (Bytes × Bytes)} {recs : List (Record χ κ)}

theorem labelLoop_eq_separate (b : Bytes) (i : Nat) (labels : List (Bytes × Bytes)) :
    labelLoop b (decide (i = 0)) labels =
      separate Json.Piece.memberText b i (Json.Piece.strings labels) := by
  induction labels generalizing b i with
  | nil => rfl
  | cons l labels ih =>
    have htext : ∀ b : Bytes, b ++ [0x22] ++ l.1 ++ ascii "\":\"" ++ l.2 ++ [0x22] =
        b ++ Json.Piece.memberText (l.1, .raw l.2) := by
      simp [Json.Piece.memberText, Json.Piece.raw, ascii]
    have hcomma : (if !decide (i = 0) then b ++ [0x2c] else b) = if 0 < i then b ++ [0x2c] else b := by
      cases i <;> rfl
    rw [labelLoop, hcomma, htext]
    exact ih _ (i + 1)

theorem chars_itoa64 (n : Int64) (rest : Bytes) :
    ∃ cs, Json.Chars (itoa64 n ++ 0x22 :: rest) cs rest ∧ Json.decode cs = itoa64 n :=
  ⟨_, Json.chars_of_unescaped (fun _ hb => unescaped_iff.mpr (itoa64_plain hb)) rest⟩

def entryPiece (rt : Runtime χ) (r : Record χ κ) : Json.Piece :=
  .array [.spelled (itoa64 r.time.unixNano) (itoa64 r.time.unixNano)
      (formatInt r.time.unixNano.toInt) (chars_itoa64 _),
    .spelled ((trimmed rt r).flatMap escapeByte) (trimmed rt r) (jsonLine rt r).dropLast
      (chars_quoted _)]

theorem entryPiece_text (rt : Runtime χ) (r : Record χ κ) :
    (entryPiece rt r).text = lokiEntry rt r := by
  rw [lokiEntry, writeJSONString_quoted]
  simp [entryPiece, quoted, Json.Piece.array, Json.Piece.spelled, Json.Piece.list_cons,
    Json.Piece.list_singleton, ascii]

theorem entryPiece_ok (rt : Runtime χ) (r : Record χ κ) :
    (entryPiece rt r).ok ↔ r.time.unixNano ≠ Int64.minValue := by
  have hline : trimmed rt r = (jsonLine rt r).dropLast := by
    rw [jsonLine_eq, List.dropLast_concat]
  have hok : (entryPiece rt r).ok ↔ itoa64 r.time.unixNano = formatInt r.time.unixNano.toInt ∧
      trimmed rt r = (jsonLine rt r).dropLast := by
    simp [entryPiece, Json.Piece.array, Json.Piece.spelled]
  rw [hok, itoa64_iff, and_iff_left hline]

def lokiPiece (rt : Runtime χ) (hperm : ms.Perm labels) (recs : List (Record χ κ)) : Json.Piece :=
  .object [(ascii "streams", .array [.object [(ascii "stream", .flat labels ms hperm),
    (ascii "values", .array (recs.map (entryPiece rt)))]])]

theorem lokiPiece_text (hperm : ms.Perm labels) :
    (lokiPiece rt hperm recs).text = (lokiBuild rt labels recs).1 := by
  have hlabels := labelLoop_eq_separate (ascii "\x7b\"streams\":[\x7b\"stream\":\x7b") 0 labels
  have hentries : (recs.map (entryPiece rt)).map Json.Piece.text = recs.map (lokiEntry rt) := by
    rw [List.map_map]
    exact List.map_congr_left fun r _ => entryPiece_text rt r
  rw [lokiBuild]
  dsimp only
  rw [show true = decide (0 = 0) from rfl, hlabels, separate_eq, separate_eq]
  simp [lokiPiece, Json.Piece.object, Json.Piece.array, Json.Piece.flat, Json.Piece.memberText,
    Json.Piece.list_cons, Json.Piece.list_singleton, hentries, ascii]

theorem lokiPiece_value (hperm : ms.Perm labels) :
    (lokiPiece rt hperm recs).value = lokiPush rt ms recs := by
  have hentries : (recs.map (entryPiece rt)).map Json.Piece.value = recs.map fun r =>
      .array [.string (formatInt r.time.unixNano.toInt), .string (jsonLine rt r).dropLast] :=
    List.map_map
  simp [lokiPiece, lokiPush, Json.Piece.object, Json.Piece.array, Json.Piece.flat,
    Json.Piece.member, hentries]

theorem lokiPiece_ok (hperm : ms.Perm labels) :
    (lokiPiece rt hperm recs).ok ↔ (ms = labels ∧ Json.Verbatim labels) ∧
      ∀ r ∈ recs, r.time.unixNano ≠ Int64.minValue := by
  have hstreams : ∀ b ∈ ascii "streams", Json.Unescaped b := unescaped_of_all (by decide)
  have hstream : ∀ b ∈ ascii "stream", Json.Unescaped b := unescaped_of_all (by decide)
  have hvalues : ∀ b ∈ ascii "values", Json.Unescaped b := unescaped_of_all (by decide)
  have hentries : (∀ p ∈ recs.map (entryPiece rt), p.ok) ↔
      ∀ r ∈ recs, r.time.unixNano ≠ Int64.minValue := by
    rw [List.forall_mem_map]
    exact forall₂_congr fun r _ => entryPiece_ok rt r
  simp only [lokiPiece, Json.Piece.object, Json.Piece.array, Json.Piece.flat, List.forall_mem_cons,
    List.not_mem_nil, false_implies, implies_true, and_true]
  rw [and_iff_right hstreams, and_iff_right hstream, and_iff_right hvalues, hentries]

theorem delivers_iff : Delivers rt labels recs ↔
    Json.Verbatim labels ∧ ∀ r ∈ recs, r.time.unixNano ≠ Int64.minValue := by
  constructor
  · rintro ⟨ms, hperm, hparse⟩
    rw [← lokiPiece_text hperm, ← lokiPiece_value hperm, Json.Piece.parse_iff, lokiPiece_ok] at hparse
    exact ⟨hparse.1.2, hparse.2⟩
  · rintro ⟨hlabels, htimes⟩
    refine ⟨labels, .refl _, ?_⟩
    rw [← lokiPiece_text (.refl _), ← lokiPiece_value (.refl _), Json.Piece.parse_iff, lokiPiece_ok]
    exact ⟨⟨rfl, hlabels⟩, htimes⟩

theorem utf8_list (ts : List Bytes) : Utf8 (Json.Piece.list ts) ↔ ∀ t ∈ ts, Utf8 t := by
  induction ts with
  | nil => exact iff_of_true utf8_nil (List.forall_mem_nil _)
  | cons t ts ih =>
    cases ts with
    | nil => rw [Json.Piece.list_singleton, List.forall_mem_singleton]
    | cons u ts =>
      rw [Json.Piece.list_cons, utf8_append_cons (by decide), ih]
      exact List.forall_mem_cons.symm

theorem utf8_label (l : Bytes × Bytes) :
    Utf8 (Json.Piece.memberText (l.1, .raw l.2)) ↔ Utf8 l.1 ∧ Utf8 l.2 := by
  rw [Json.Piece.memberText, utf8_cons (by decide), utf8_append_cons (by decide),
    utf8_cons (by decide), Json.Piece.raw, utf8_cons (by decide), utf8_append_ascii (by decide)]

theorem utf8_lokiEntry (hrt : rt.MarshalsUtf8) (r : Record χ κ) :
    Utf8 (lokiEntry rt r) ↔ ∀ t ∈ JSONEncoder.texts rt .new r, Utf8 t := by
  have hstart : IsAscii (ascii "[\"") := by decide
  have hmiddle : IsAscii (ascii "\",") := by decide
  have hhead : IsAscii (ascii "[\"" ++ itoa64 r.time.unixNano ++ ascii "\",") :=
    List.forall_mem_append.mpr ⟨List.forall_mem_append.mpr ⟨hstart, itoa64_ascii _⟩, hmiddle⟩
  rw [lokiEntry, utf8_append_ascii (by decide), utf8_ascii_append hhead, writeJSONString_quoted,
    List.nil_append, utf8_quoted, ← JSONEncoder.utf8_encode JSONEncoder.new hrt]
  change _ ↔ Utf8 (jsonLine rt r)
  rw [jsonLine_eq, utf8_append_ascii (by decide)]

theorem utf8_lokiBuild (hrt : rt.MarshalsUtf8) :
    Utf8 (lokiBuild rt labels recs).1 ↔ (∀ l ∈ labels, Utf8 l.1 ∧ Utf8 l.2) ∧
      ∀ r ∈ recs, ∀ t ∈ JSONEncoder.texts rt .new r, Utf8 t := by
  have hlabels := labelLoop_eq_separate (ascii "\x7b\"streams\":[\x7b\"stream\":\x7b") 0 labels
  have hmiddle : ascii "\x7d,\"values\":[" = 0x7d :: ascii ",\"values\":[" := by decide
  have hkeys : (∀ t ∈ (Json.Piece.strings labels).map Json.Piece.memberText, Utf8 t) ↔
      ∀ l ∈ labels, Utf8 l.1 ∧ Utf8 l.2 := by
    rw [Json.Piece.strings, List.map_map, List.forall_mem_map]
    exact forall₂_congr fun l _ => utf8_label l
  have hentries : (∀ t ∈ recs.map (lokiEntry rt), Utf8 t) ↔
      ∀ r ∈ recs, ∀ t ∈ JSONEncoder.texts rt .new r, Utf8 t := by
    rw [List.forall_mem_map]
    exact forall₂_congr fun r _ => utf8_lokiEntry hrt r
  rw [lokiBuild]
  dsimp only
  rw [show true = decide (0 = 0) from rfl, hlabels, separate_eq, separate_eq,
    utf8_append_ascii (by decide), hmiddle, List.append_assoc, List.append_assoc, List.cons_append,
    utf8_ascii_append (by decide), utf8_append_cons (by decide), utf8_ascii_append (by decide),
    utf8_list, utf8_list, hkeys, hentries]

theorem loki_payload_iff (hrt : rt.MarshalsUtf8) (labels : List (Bytes × Bytes))
    (recs : List (Record χ κ)) :
    (Delivers rt labels recs ↔
      (∀ l ∈ labels, (∀ b ∈ l.1, plain b = true) ∧ ∀ b ∈ l.2, plain b = true) ∧
        ∀ r ∈ recs, r.time.unixNano ≠ Int64.minValue) ∧
    (Delivers rt labels recs ∧ Utf8 (lokiBuild rt labels recs).1 ↔
      (∀ l ∈ labels, ((∀ b ∈ l.1, plain b = true) ∧ ∀ b ∈ l.2, plain b = true) ∧
        Utf8 l.1 ∧ Utf8 l.2) ∧
        ∀ r ∈ recs, r.time.unixNano ≠ Int64.minValue ∧
          ∀ t ∈ JSONEncoder.texts rt .new r, Utf8 t) := by
  have hdelivers : Delivers rt labels recs ↔
      (∀ l ∈ labels, (∀ b ∈ l.1, plain b = true) ∧ ∀ b ∈ l.2, plain b = true) ∧
        ∀ r ∈ recs, r.time.unixNano ≠ Int64.minValue := by
    rw [delivers_iff]
    simp only [Json.Verbatim, unescaped_iff]
  refine ⟨hdelivers, ?_⟩
  rw [hdelivers, utf8_lokiBuild hrt]
  simp only [forall_and]
  exact and_and_and_comm

end Payload

-- 1677-09-21T00:12:43.145224192Z
def earliest : Time := { sec := -9223372037, nsec := 145224192, offset := 0, nsec_lt := by decide }

theorem ascii_label {k v : String} (hk : (ascii k).all plain = true) (hv : (ascii v).all plain = true)
    (hk' : IsAscii (ascii k)) (hv' : IsAscii (ascii v)) :
    ((∀ b ∈ ascii k, plain b = true) ∧ ∀ b ∈ ascii v, plain b = true) ∧
      Utf8 (ascii k) ∧ Utf8 (ascii v) :=
  ⟨⟨List.all_eq_true.mp hk, List.all_eq_true.mp hv⟩, hk'.utf8, hv'.utf8⟩

theorem loki_payload_iff_two :
    Delivers bareRuntime [(ascii "app", ascii "api"), (ascii "env", ascii "prod")]
        [JSONEncoder.finiteRecord, bareRecord (ascii "m") []] ∧
      Utf8 (lokiBuild bareRuntime [(ascii "app", ascii "api"), (ascii "env", ascii "prod")]
        [JSONEncoder.finiteRecord, bareRecord (ascii "m") []]).1 := by
  refine (loki_payload_iff JSONEncoder.bareRuntime_utf8 _ _).2.mpr ⟨?_, ?_⟩
  · exact List.forall_mem_cons.mpr ⟨ascii_label (by decide) (by decide) (by decide) (by decide),
      List.forall_mem_singleton.mpr (ascii_label (by decide) (by decide) (by decide) (by decide))⟩
  · exact List.forall_mem_cons.mpr ⟨⟨by decide, by decide⟩,
      List.forall_mem_singleton.mpr ⟨by decide, by decide⟩⟩

theorem label_quote_breaks_payload :
    (lokiBuild bareRuntime [(ascii "team", ascii "a\"b")] [bareRecord (ascii "m") []]).1 =
      ascii ("\x7b\"streams\":[\x7b\"stream\":\x7b\"team\":\"a\"b\"\x7d,\"values\":[[" ++
        "\"-6795364578871345152\",\"\x7b\\\"level\\\":\\\"info\\\",\\\"msg\\\":\\\"m\\\"\x7d\"]]\x7d]\x7d") ∧
    Json.parse (lokiBuild bareRuntime [(ascii "team", ascii "a\"b")] [bareRecord (ascii "m") []]).1 =
      none ∧
    ¬ Delivers bareRuntime [(ascii "team", ascii "a\"b")] [bareRecord (ascii "m") []] ∧
    itoa64 earliest.unixNano = ascii "-" ∧
    ¬ Delivers bareRuntime [] [{ bareRecord (ascii "m") [] with time := earliest }] := by
  refine ⟨by decide +kernel, by decide +kernel, mt delivers_iff.mp ?_, by decide, mt delivers_iff.mp ?_⟩
  · rintro ⟨hlabels, -⟩
    exact (hlabels _ (List.mem_singleton_self _)).2 0x22 (by decide) |>.2.1 rfl
  · rintro ⟨-, htimes⟩
    exact htimes _ (List.mem_singleton_self _) (by decide)

end UbgoLogger.Sink.Http
