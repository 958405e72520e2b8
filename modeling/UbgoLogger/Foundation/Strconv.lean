import UbgoLogger.Foundation.JsonParse

namespace Foundation.Json

open Foundation.Text

-- Inside a JSON string q stands for v, whatever comes after it.
structure StandsFor (q v : Bytes) : Prop where
  intro : ∀ {s r : Bytes} {cs : List Symbol}, Chars s cs r →
    ∃ ds, Chars (q ++ s) ds r ∧ decode ds = v ++ decode cs
  elim : ∀ {s r : Bytes} {ds : List Symbol}, Chars (q ++ s) ds r →
    ∃ cs, Chars s cs r ∧ decode ds = v ++ decode cs

theorem StandsFor.nil : StandsFor [] [] := ⟨fun h => ⟨_, h, rfl⟩, fun h => ⟨_, h, rfl⟩⟩

theorem StandsFor.append {p q v w : Bytes} (hp : StandsFor p v) (hq : StandsFor q w) :
    StandsFor (p ++ q) (v ++ w) := by
  constructor
  · intro s r cs h
    obtain ⟨ds, hds, hd⟩ := hq.intro h
    obtain ⟨es, hes, he⟩ := hp.intro hds
    exact ⟨es, by rwa [List.append_assoc], by rw [he, hd, List.append_assoc]⟩
  · intro s r es h
    rw [List.append_assoc] at h
    obtain ⟨ds, hds, he⟩ := hp.elim h
    obtain ⟨cs, hcs, hd⟩ := hq.elim hds
    exact ⟨cs, hcs, by rw [he, hd, List.append_assoc]⟩

theorem standsFor_plain {b : Byte} (hle : 0x20 ≤ b) (hquote : b ≠ 0x22) (hslash : b ≠ 0x5c) :
    StandsFor [b] [b] := by
  constructor
  · exact fun h => ⟨_, .plain hle hquote hslash h, rfl⟩
  · intro s r ds h
    cases h with
    | nil => exact absurd rfl hquote
    | plain _ _ _ h => exact ⟨_, h, rfl⟩
    | escape => exact absurd rfl hslash
    | unicode => exact absurd rfl hslash

theorem standsFor_escape {e b : Byte} (he : shortEscape e = some b) : StandsFor [0x5c, e] [b] := by
  constructor
  · exact fun h => ⟨_, .escape he h, rfl⟩
  · intro s r ds h
    cases h with
    | plain _ _ hslash => exact absurd rfl hslash
    | escape he' h =>
      rw [he] at he'
      cases he'
      exact ⟨_, h, rfl⟩
    | unicode => exact absurd rfl (shortEscape_ne he)

theorem decode_unit_of_not_high {u : Nat} (h : isHigh u = false) (cs : List Symbol) :
    decode (.unit u :: cs) = encodeUnit u ++ decode cs := by
  match cs with
  | [] => rfl
  | .byte b :: cs => rfl
  | .unit lo :: cs => simp [decode, h]

theorem standsFor_unicode {a b c d : Byte} {u : Nat} (hu : hex4 a b c d = some u)
    (hhigh : isHigh u = false) : StandsFor [0x5c, 0x75, a, b, c, d] (encodeUnit u) := by
  constructor
  · exact fun h => ⟨_, .unicode hu h, decode_unit_of_not_high hhigh _⟩
  · intro s r ds h
    cases h with
    | plain _ _ hslash => exact absurd rfl hslash
    | escape he => exact absurd rfl (shortEscape_ne he)
    | unicode hu' h =>
      rw [hu] at hu'
      cases hu'
      exact ⟨_, h, decode_unit_of_not_high hhigh _⟩

theorem not_chars_escape {e : Byte} (he : shortEscape e = none) (hne : e ≠ 0x75) {s r : Bytes}
    {cs : List Symbol} : ¬ Chars (0x5c :: e :: s) cs r := by
  intro h
  cases h with
  | plain _ _ hslash => exact hslash rfl
  | escape he' => simp [he] at he'
  | unicode => exact hne rfl

theorem standsFor_bytes {u : Bytes} (h : ∀ b ∈ u, 0x20 ≤ b ∧ b ≠ 0x22 ∧ b ≠ 0x5c) : StandsFor u u := by
  induction u with
  | nil => exact .nil
  | cons b u ih =>
    obtain ⟨⟨hle, hquote, hslash⟩, hu⟩ := List.forall_mem_cons.mp h
    exact (standsFor_plain hle hquote hslash).append (ih hu)

end Foundation.Json

namespace Foundation.Strconv

open Foundation.Text

-- A rune of a text, or a byte that is part of none.
inductive Rune where
  | char (c : Char)
  | stray (b : Byte)

def Rune.bytes : Rune → Bytes
  | .char c => String.utf8EncodeChar c
  | .stray b => [b]

def decodeRune (s : Bytes) : Option Char := s.toByteArray.utf8DecodeChar? 0

-- The runes of s behind its first k bytes.
def runesFrom : Nat → Bytes → List Rune
  | _, [] => []
  | k + 1, _ :: s => runesFrom k s
  | 0, b :: s =>
      match decodeRune (b :: s) with
      | some c => .char c :: runesFrom (c.utf8Size - 1) s
      | none => .stray b :: runesFrom 0 s

def runes (s : Bytes) : List Rune := runesFrom 0 s

-- strconv.IsPrint: on ASCII it is settled, beyond that a table.
structure PrintTable where
  isPrint : Char → Bool
  ascii : ∀ c : Char, c.toNat < 128 → isPrint c = decide (0x20 ≤ c.toNat ∧ c.toNat < 0x7f)

def hexes : Nat → Nat → Bytes
  | 0, _ => []
  | w + 1, n => hexes w (n / 16) ++ [hexNibble (n % 16)]

def letters : List (Nat × Byte) :=
  [(7, 0x61), (8, 0x62), (12, 0x66), (10, 0x6e), (13, 0x72), (9, 0x74), (11, 0x76)]

def escapedRune (p : PrintTable) (c : Char) : Bytes :=
  if c.toNat = 0x22 ∨ c.toNat = 0x5c then [0x5c, UInt8.ofNat c.toNat]
  else if p.isPrint c then String.utf8EncodeChar c
  else
    match letters.lookup c.toNat with
    | some e => [0x5c, e]
    | none =>
        if c.toNat < 0x20 ∨ c.toNat = 0x7f then 0x5c :: 0x78 :: hexes 2 c.toNat
        else if c.toNat < 0x10000 then 0x5c :: 0x75 :: hexes 4 c.toNat
        else 0x5c :: 0x55 :: hexes 8 c.toNat

def quotedRune (p : PrintTable) : Rune → Bytes
  | .char c => escapedRune p c
  | .stray b => 0x5c :: 0x78 :: hexes 2 b.toNat

-- strconv.Quote
def quote (p : PrintTable) (s : Bytes) : Bytes :=
  0x22 :: ((runes s).flatMap (quotedRune p) ++ [0x22])

-- The runes Quote writes in a way JSON reads back.
def JsonSafe (p : PrintTable) : Rune → Prop
  | .char c => p.isPrint c = true ∨ c.toNat ∈ [8, 9, 10, 12, 13] ∨
      0x7f < c.toNat ∧ c.toNat < 0x10000
  | .stray _ => False

def hexNumber (ds : Bytes) : Option Nat :=
  ds.foldlM (fun n d => (Json.hexVal d).map (n * 16 + ·)) 0

def unescapes : List (Byte × Byte) :=
  [(0x22, 0x22), (0x5c, 0x5c), (0x61, 7), (0x62, 8), (0x66, 12), (0x6e, 10), (0x72, 13), (0x74, 9),
    (0x76, 11)]

def before (u : Bytes) (p : Bytes × Bytes) : Bytes × Bytes := (u ++ p.1, p.2)

-- What a literal written by Quote stands for, read behind its opening quote.
def scanLiteral : Bytes → Option (Bytes × Bytes)
  | [] => none
  | b :: s =>
      if b = 0x22 then some ([], s)
      else if b = 0x5c then
        match s with
        | 0x78 :: c :: d :: t =>
            (hexNumber [c, d]).bind fun n => (scanLiteral t).map (before [UInt8.ofNat n])
        | 0x75 :: c :: d :: e :: f :: t =>
            (hexNumber [c, d, e, f]).bind fun n =>
              (scanLiteral t).map (before (String.utf8EncodeChar (Char.ofNat n)))
        | 0x55 :: c :: d :: e :: f :: g :: h :: i :: j :: t =>
            (hexNumber [c, d, e, f, g, h, i, j]).bind fun n =>
              (scanLiteral t).map (before (String.utf8EncodeChar (Char.ofNat n)))
        | e :: t => (unescapes.lookup e).bind fun c => (scanLiteral t).map (before [c])
        | [] => none
      else (scanLiteral s).map (before [b])

theorem decodeRune_eq_some {s : Bytes} {c : Char} (h : decodeRune s = some c) :
    ∃ t, s = String.utf8EncodeChar c ++ t := by
  obtain ⟨t, ht⟩ := ByteArray.exists_of_utf8DecodeChar?_eq_some h
  have hlist := congrArg (fun b : ByteArray => b.data.toList) ht
  exact ⟨t.data.toList, by simpa using hlist⟩

theorem runesFrom_append (u t : Bytes) : runesFrom u.length (u ++ t) = runesFrom 0 t := by
  induction u with
  | nil => rfl
  | cons b u ih => exact ih

theorem flatMap_bytes_runes (s : Bytes) : (runes s).flatMap Rune.bytes = s := by
  induction hn : s.length using Nat.strong_induction_on generalizing s with
  | _ n ih =>
    match s with
    | [] => rfl
    | b :: s =>
      unfold runes runesFrom
      split
      next c hc =>
        obtain ⟨t, ht⟩ := decodeRune_eq_some hc
        obtain ⟨b', u, hu⟩ := List.exists_cons_of_ne_nil (String.utf8EncodeChar_ne_nil (c := c))
        have hsize : c.utf8Size - 1 = u.length := by
          rw [← String.length_utf8EncodeChar, hu, List.length_cons, Nat.add_sub_cancel]
        rw [hu, List.cons_append] at ht
        obtain ⟨rfl, rfl⟩ := List.cons.inj ht
        rw [hsize, runesFrom_append, List.flatMap_cons, Rune.bytes, hu]
        have htail := ih t.length (by simp at hn; omega) t rfl
        rw [runes] at htail
        rw [htail]
        rfl
      next =>
        have htail := ih s.length (by simp at hn; omega) s rfl
        rw [runes] at htail
        rw [List.flatMap_cons, htail]
        rfl

theorem utf8EncodeChar_of_lt {c : Char} (h : c.toNat < 128) :
    String.utf8EncodeChar c = [UInt8.ofNat c.toNat] := by
  have hc := utf8EncodeChar_ofNat h
  rwa [Char.ofNat_toNat] at hc

theorem utf8EncodeChar_of_le {c : Char} (h : 128 ≤ c.toNat) :
    ∀ b ∈ String.utf8EncodeChar c, 128 ≤ b.toNat := by
  rcases utf8EncodeChar_cases c with ⟨b, hb, -⟩ | hall
  · have hsize : c.utf8Size = 1 := by rw [← String.length_utf8EncodeChar, hb, List.length_singleton]
    have hle : c.toNat ≤ 127 := UInt32.le_iff_toNat_le.mp (Char.utf8Size_eq_one_iff.mp hsize)
    omega
  · exact hall

theorem lookup_letters_eq_some {n : Nat} {e : Byte} (h : letters.lookup n = some e) :
    (n, e) ∈ letters := by
  obtain ⟨l, r, hl, -⟩ := List.lookup_eq_some_iff.mp h
  exact hl ▸ List.mem_append_right l List.mem_cons_self

theorem lookup_letters_of_lt {n : Nat} (h : 0x7f < n) : letters.lookup n = none := by
  cases hl : letters.lookup n with
  | none => rfl
  | some e =>
    have hle : ∀ x ∈ letters, x.1 ≤ 0x7f := by decide
    exact absurd (hle _ (lookup_letters_eq_some hl)) (by simpa using h)

theorem not_surrogate (c : Char) :
    Json.isHigh c.toNat = false ∧ Json.isLow c.toNat = false := by
  have hvalid : c.toNat < 0xd800 ∨ 0xdfff < c.toNat ∧ c.toNat < 0x110000 := c.valid
  simp only [Json.isHigh, Json.isLow, decide_eq_false_iff_not]
  omega

theorem hexVal_hexNibble {n : Nat} (h : n < 16) : Json.hexVal (hexNibble n) = some n :=
  (by decide : ∀ n < 16, Json.hexVal (hexNibble n) = some n) n h

theorem hex4_hexes {n : Nat} (h : n < 0x10000) :
    ∃ a b c d, hexes 4 n = [a, b, c, d] ∧ Json.hex4 a b c d = some n := by
  refine ⟨_, _, _, _, rfl, ?_⟩
  simp only [Json.hex4, hexVal_hexNibble (Nat.mod_lt _ (by omega : 0 < 16))]
  simp only [Option.bind_eq_bind, Option.bind_some, Option.some.injEq]
  omega

theorem plain_encodeChar {p : PrintTable} {c : Char} (hp : p.isPrint c = true)
    (hne : ¬ (c.toNat = 0x22 ∨ c.toNat = 0x5c)) :
    ∀ b ∈ String.utf8EncodeChar c, 0x20 ≤ b ∧ b ≠ 0x22 ∧ b ≠ 0x5c := by
  intro b hb
  by_cases hlt : c.toNat < 128
  · rw [utf8EncodeChar_of_lt hlt, List.mem_singleton] at hb
    have hprint := p.ascii c hlt
    rw [hp, eq_comm, decide_eq_true_eq] at hprint
    have hb' : b.toNat = c.toNat := by
      rw [hb, UInt8.toNat_ofNat']
      omega
    refine ⟨UInt8.le_iff_toNat_le.mpr (by simpa [hb'] using hprint.1), ?_, ?_⟩
    · rintro rfl
      exact hne (.inl hb'.symm)
    · rintro rfl
      exact hne (.inr hb'.symm)
  · have hhigh := utf8EncodeChar_of_le (not_lt.mp hlt) b hb
    refine ⟨UInt8.le_iff_toNat_le.mpr (by simp only [UInt8.reduceToNat]; omega), ?_, ?_⟩ <;>
      rintro rfl <;> simp at hhigh

theorem standsFor_letter {c : Char} {n : Nat} {e b : Byte} (hc : c.toNat = n) (hn : n < 128)
    (he : Json.shortEscape e = some b) (hb : UInt8.ofNat n = b) :
    Json.StandsFor [0x5c, e] (String.utf8EncodeChar c) := by
  rw [utf8EncodeChar_of_lt (hc ▸ hn), hc, hb]
  exact Json.standsFor_escape he

theorem standsFor_hexes {c : Char} (hlt : c.toNat < 0x10000) :
    Json.StandsFor (0x5c :: 0x75 :: hexes 4 c.toNat) (String.utf8EncodeChar c) := by
  obtain ⟨a, b, d, e, hhexes, hval⟩ := hex4_hexes hlt
  obtain ⟨hhigh, hlow⟩ := not_surrogate c
  have hunit : Json.encodeUnit c.toNat = String.utf8EncodeChar c := by
    rw [Json.encodeUnit, hhigh, hlow]
    simp
  rw [hhexes, ← hunit]
  exact Json.standsFor_unicode hval hhigh

theorem standsFor_quotedRune {p : PrintTable} {x : Rune} (h : JsonSafe p x) :
    Json.StandsFor (quotedRune p x) x.bytes := by
  cases x with
  | stray b => exact absurd h id
  | char c =>
    change Json.StandsFor (escapedRune p c) (String.utf8EncodeChar c)
    unfold escapedRune
    split
    next hc =>
      rcases hc with hc | hc
      · rw [hc]
        exact standsFor_letter hc (by decide) rfl rfl
      · rw [hc]
        exact standsFor_letter hc (by decide) rfl rfl
    next hc =>
      split
      next hp => exact Json.standsFor_bytes (plain_encodeChar hp hc)
      next hp =>
        rcases h with hp' | hletter | ⟨hgt, hlt⟩
        · exact absurd hp' hp
        · simp only [List.mem_cons, List.not_mem_nil, or_false] at hletter
          rcases hletter with hc | hc | hc | hc | hc
          all_goals
            rw [hc]
            exact standsFor_letter hc (by decide) rfl rfl
        · rw [lookup_letters_of_lt hgt]
          dsimp only
          rw [if_neg (by omega), if_pos hlt]
          exact standsFor_hexes hlt

theorem not_chars_quotedRune {p : PrintTable} {x : Rune} (h : ¬ JsonSafe p x) {s r : Bytes}
    {cs : List Json.Symbol} : ¬ Json.Chars (quotedRune p x ++ s) cs r := by
  cases x with
  | stray b => exact Json.not_chars_escape (by decide) (by decide)
  | char c =>
    change ¬ Json.Chars (escapedRune p c ++ s) cs r
    unfold escapedRune
    split
    next hc =>
      have hprint := p.ascii c (by omega)
      exact absurd (.inl (hprint.trans (decide_eq_true (by omega)))) h
    next hc =>
      split
      next hp => exact absurd (.inl hp) h
      next hp =>
        split
        next e he =>
          have hmem := lookup_letters_eq_some he
          simp only [letters, List.mem_cons, List.not_mem_nil, or_false, Prod.mk.injEq] at hmem
          have hunsafe : c.toNat ∉ [8, 9, 10, 12, 13] := fun hm => h (.inr (.inl hm))
          rcases hmem with ⟨hn, rfl⟩ | ⟨hn, rfl⟩ | ⟨hn, rfl⟩ | ⟨hn, rfl⟩ | ⟨hn, rfl⟩ | ⟨hn, rfl⟩ | ⟨hn, rfl⟩
          all_goals first
            | exact Json.not_chars_escape (by decide) (by decide)
            | exact absurd hunsafe (by simp [hn])
        next hnone =>
          split
          · exact Json.not_chars_escape (by decide) (by decide)
          next hlow =>
            split
            next hlt =>
              have hgt : 0x7f < c.toNat := by
                by_contra hle
                have hprint := p.ascii c (by omega)
                exact hp (hprint.trans (decide_eq_true (by omega)))
              exact absurd (.inr (.inr ⟨hgt, hlt⟩)) h
            next => exact Json.not_chars_escape (by decide) (by decide)

theorem standsFor_flatMap {p : PrintTable} {xs : List Rune} (h : ∀ x ∈ xs, JsonSafe p x) :
    Json.StandsFor (xs.flatMap (quotedRune p)) (xs.flatMap Rune.bytes) := by
  induction xs with
  | nil => exact .nil
  | cons x xs ih =>
    obtain ⟨hx, hxs⟩ := List.forall_mem_cons.mp h
    exact (standsFor_quotedRune hx).append (ih hxs)

theorem jsonSafe_of_chars {p : PrintTable} {xs : List Rune} {s r : Bytes} {cs : List Json.Symbol}
    (h : Json.Chars (xs.flatMap (quotedRune p) ++ s) cs r) : ∀ x ∈ xs, JsonSafe p x := by
  induction xs generalizing cs with
  | nil => exact List.forall_mem_nil _
  | cons x xs ih =>
    rw [List.flatMap_cons, List.append_assoc] at h
    have hx : JsonSafe p x := by
      by_contra hx
      exact not_chars_quotedRune hx h
    obtain ⟨ds, hds, -⟩ := (standsFor_quotedRune hx).elim h
    exact List.forall_mem_cons.mpr ⟨hx, ih hds⟩

-- A JSON reader of Quote(s) either finds s up to the closing quote or finds no string at all.
theorem chars_quote_iff (p : PrintTable) (s t : Bytes) {r v : Bytes} :
    (∃ cs, Json.Chars ((runes s).flatMap (quotedRune p) ++ 0x22 :: t) cs r ∧ Json.decode cs = v) ↔
      (∀ x ∈ runes s, JsonSafe p x) ∧ v = s ∧ r = t := by
  constructor
  · rintro ⟨cs, hcs, rfl⟩
    have hsafe := jsonSafe_of_chars hcs
    obtain ⟨ds, hds, hdecode⟩ := (standsFor_flatMap hsafe).elim hcs
    cases hds with
    | nil => exact ⟨hsafe, by simpa [flatMap_bytes_runes, Json.decode] using hdecode, rfl⟩
    | plain _ hquote => exact absurd rfl hquote
  · rintro ⟨hsafe, rfl, rfl⟩
    obtain ⟨ds, hds, hdecode⟩ := (standsFor_flatMap hsafe).intro (Json.Chars.nil (r := r))
    exact ⟨ds, hds, by simpa [flatMap_bytes_runes, Json.decode] using hdecode⟩

theorem hexNumber_concat (ds : Bytes) (d : Byte) :
    hexNumber (ds ++ [d]) = (hexNumber ds).bind fun n => (Json.hexVal d).map (n * 16 + ·) := by
  simp [hexNumber]

theorem hexNumber_hexes (w n : Nat) : hexNumber (hexes w n) = some (n % 16 ^ w) := by
  induction w generalizing n with
  | zero => simp [hexes, hexNumber, Nat.mod_one]
  | succ w ih =>
    rw [hexes, hexNumber_concat, ih, Option.bind_some, hexVal_hexNibble (Nat.mod_lt _ (by omega)),
      Option.map_some, Nat.pow_succ, Nat.mul_comm (16 ^ w) 16, Nat.mod_mul]
    congr 1
    omega

theorem hexNumber_hexes_of_lt {w n : Nat} (h : n < 16 ^ w) : hexNumber (hexes w n) = some n := by
  rw [hexNumber_hexes, Nat.mod_eq_of_lt h]

theorem map_before_nil (o : Option (Bytes × Bytes)) : o.map (before []) = o := by
  cases o <;> rfl

theorem map_before_append (o : Option (Bytes × Bytes)) (u v : Bytes) :
    (o.map (before v)).map (before u) = o.map (before (u ++ v)) := by
  cases o <;> simp [before]

theorem scanLiteral_close (t : Bytes) : scanLiteral (0x22 :: t) = some ([], t) := by
  unfold scanLiteral
  rw [if_pos rfl]

theorem scanLiteral_byte {b : Byte} (hquote : b ≠ 0x22) (hslash : b ≠ 0x5c) (s : Bytes) :
    scanLiteral (b :: s) = (scanLiteral s).map (before [b]) := by
  conv_lhs => unfold scanLiteral
  rw [if_neg hquote, if_neg hslash]

theorem scanLiteral_bytes {u : Bytes} (h : ∀ b ∈ u, b ≠ 0x22 ∧ b ≠ 0x5c) (s : Bytes) :
    scanLiteral (u ++ s) = (scanLiteral s).map (before u) := by
  induction u with
  | nil => exact (map_before_nil _).symm
  | cons b u ih =>
    obtain ⟨⟨hquote, hslash⟩, hu⟩ := List.forall_mem_cons.mp h
    rw [List.cons_append, scanLiteral_byte hquote hslash, ih hu, map_before_append]
    rfl

theorem scanLiteral_escape {e c : Byte} (h : (e, c) ∈ unescapes) (s : Bytes) :
    scanLiteral (0x5c :: e :: s) = (scanLiteral s).map (before [c]) := by
  simp only [unescapes, List.mem_cons, List.not_mem_nil, or_false, Prod.mk.injEq] at h
  rcases h with h | h | h | h | h | h | h | h | h <;>
    obtain ⟨rfl, rfl⟩ := h <;> (conv_lhs => unfold scanLiteral) <;> rfl

theorem scanLiteral_x {n : Nat} (h : n < 256) (s : Bytes) :
    scanLiteral (0x5c :: 0x78 :: hexes 2 n ++ s) = (scanLiteral s).map (before [UInt8.ofNat n]) := by
  have hn := hexNumber_hexes_of_lt (w := 2) h
  change scanLiteral (0x5c :: 0x78 :: _ :: _ :: s) = _
  rw [scanLiteral, if_neg (by decide), if_pos rfl]
  change (hexNumber (hexes 2 n)).bind _ = _
  rw [hn]
  rfl

theorem scanLiteral_u {c : Char} (h : c.toNat < 0x10000) (s : Bytes) :
    scanLiteral (0x5c :: 0x75 :: hexes 4 c.toNat ++ s) =
      (scanLiteral s).map (before (String.utf8EncodeChar c)) := by
  have hn := hexNumber_hexes_of_lt (w := 4) h
  change scanLiteral (0x5c :: 0x75 :: _ :: _ :: _ :: _ :: s) = _
  rw [scanLiteral, if_neg (by decide), if_pos rfl]
  change (hexNumber (hexes 4 c.toNat)).bind _ = _
  rw [hn, Option.bind_some, Char.ofNat_toNat]

theorem scanLiteral_U {c : Char} (s : Bytes) :
    scanLiteral (0x5c :: 0x55 :: hexes 8 c.toNat ++ s) =
      (scanLiteral s).map (before (String.utf8EncodeChar c)) := by
  have hlt : c.toNat < 16 ^ 8 := c.val.toNat_lt
  have hn := hexNumber_hexes_of_lt hlt
  change scanLiteral (0x5c :: 0x55 :: _ :: _ :: _ :: _ :: _ :: _ :: _ :: _ :: s) = _
  rw [scanLiteral, if_neg (by decide), if_pos rfl]
  change (hexNumber (hexes 8 c.toNat)).bind _ = _
  rw [hn, Option.bind_some, Char.ofNat_toNat]

theorem scanLiteral_quotedRune (p : PrintTable) (x : Rune) (s : Bytes) :
    scanLiteral (quotedRune p x ++ s) = (scanLiteral s).map (before x.bytes) := by
  cases x with
  | stray b =>
    refine (scanLiteral_x b.toNat_lt s).trans ?_
    rw [UInt8.ofNat_toNat]
    rfl
  | char c =>
    change scanLiteral (escapedRune p c ++ s) = (scanLiteral s).map (before (String.utf8EncodeChar c))
    unfold escapedRune
    split
    next hc =>
      rw [utf8EncodeChar_of_lt (by omega)]
      rcases hc with hc | hc <;> rw [hc] <;> exact scanLiteral_escape (by decide) s
    next hc =>
      split
      next hp => exact scanLiteral_bytes (fun b hb => (plain_encodeChar hp hc b hb).2) s
      next hp =>
        split
        next e he =>
          have hmem := lookup_letters_eq_some he
          have hall : ∀ x ∈ letters, x.1 < 128 ∧ (x.2, UInt8.ofNat x.1) ∈ unescapes := by decide
          rw [utf8EncodeChar_of_lt (hall _ hmem).1]
          exact scanLiteral_escape (hall _ hmem).2 s
        next =>
          split
          next hlow =>
            rw [utf8EncodeChar_of_lt (by omega)]
            exact scanLiteral_x (by omega) s
          next =>
            split
            next hlt => exact scanLiteral_u hlt s
            next => exact scanLiteral_U s

theorem scanLiteral_quote (p : PrintTable) (s t : Bytes) :
    scanLiteral ((runes s).flatMap (quotedRune p) ++ 0x22 :: t) = some (s, t) := by
  have hflat (xs : List Rune) : scanLiteral (xs.flatMap (quotedRune p) ++ 0x22 :: t) =
      some (xs.flatMap Rune.bytes, t) := by
    induction xs with
    | nil => exact scanLiteral_close t
    | cons x xs ih =>
      rw [List.flatMap_cons, List.append_assoc, scanLiteral_quotedRune, ih]
      rfl
  rw [hflat, flatMap_bytes_runes]

end Foundation.Strconv
