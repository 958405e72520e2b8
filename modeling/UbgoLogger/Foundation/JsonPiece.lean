import UbgoLogger.Foundation.JsonOutside
import UbgoLogger.Foundation.JsonParse

namespace Foundation.Json
open Foundation.Text

def Unescaped (b : Byte) : Prop := 0x20 ≤ b ∧ b ≠ 0x22 ∧ b ≠ 0x5c

section Strings

variable {s t r u : Bytes} {cs : List Symbol}

def Symbol.width : Symbol → Nat
  | .byte _ => 1
  | .unit _ => 4

def width (cs : List Symbol) : Nat := (cs.map Symbol.width).sum

@[simp] theorem width_byte (b : Byte) (cs : List Symbol) : width (.byte b :: cs) = width cs + 1 :=
  Nat.add_comm _ _

@[simp] theorem width_unit (u : Nat) (cs : List Symbol) : width (.unit u :: cs) = width cs + 4 :=
  Nat.add_comm _ _

theorem utf8EncodeChar_length_le (c : Char) : (String.utf8EncodeChar c).length ≤ 4 := by
  rw [String.length_utf8EncodeChar]
  exact c.utf8Size_le_four

theorem decode_length_le (cs : List Symbol) : (decode cs).length ≤ width cs := by
  fun_induction decode cs with
  | case1 => exact Nat.le_refl _
  | case2 b cs ih =>
    rw [List.length_cons, width_byte]
    omega
  | case3 hi lo cs hpair ih =>
    have hlen := utf8EncodeChar_length_le
      (Char.ofNat (0x10000 + (hi - 0xd800) * 0x400 + (lo - 0xdc00)))
    rw [List.length_append, width_unit, width_unit]
    omega
  | case4 hi lo cs hpair ih =>
    have hlen : (encodeUnit hi).length ≤ 4 := utf8EncodeChar_length_le _
    rw [List.length_append, width_unit]
    omega
  | case5 u cs hcs ih =>
    have hlen : (encodeUnit u).length ≤ 4 := utf8EncodeChar_length_le _
    rw [List.length_append, width_unit]
    omega

theorem count_unit (u : Nat) (cs : List Symbol) :
    (Symbol.unit u :: cs).count (.byte 0x22) = cs.count (.byte 0x22) :=
  List.count_cons_of_ne (by simp)

theorem quotes_decode (cs : List Symbol) : cs.count (.byte 0x22) ≤ (decode cs).count 0x22 := by
  fun_induction decode cs with
  | case1 => exact Nat.le_refl _
  | case2 b cs ih =>
    rw [List.count_cons, List.count_cons]
    simpa using ih
  | case3 hi lo cs hpair ih =>
    rw [count_unit, count_unit, List.count_append]
    omega
  | case4 hi lo cs hpair ih =>
    rw [count_unit, List.count_append]
    omega
  | case5 u cs hcs ih =>
    rw [count_unit, List.count_append]
    omega

-- The text of a string up to its closing quote: what it costs, and the quotes in it.
structure Body (c : Bytes) (cs : List Symbol) : Prop where
  width_le : width cs ≤ c.length
  plain : c.length ≤ width cs → ∀ b ∈ c, Unescaped b
  quotes : c.count 0x22 ≤ cs.count (.byte 0x22)

theorem hex4_ne_quote {a b c d : Byte} {u : Nat} (h : hex4 a b c d = some u) :
    a ≠ 0x22 ∧ b ≠ 0x22 ∧ c ≠ 0x22 ∧ d ≠ 0x22 := by
  obtain ⟨x, hx, h⟩ := Option.bind_eq_some_iff.mp h
  obtain ⟨y, hy, h⟩ := Option.bind_eq_some_iff.mp h
  obtain ⟨z, hz, h⟩ := Option.bind_eq_some_iff.mp h
  obtain ⟨w, hw, -⟩ := Option.bind_eq_some_iff.mp h
  exact ⟨(hexVal_ne hx).1, (hexVal_ne hy).1, (hexVal_ne hz).1, (hexVal_ne hw).1⟩

theorem shortEscape_quote {b : Byte} (h : shortEscape 0x22 = some b) : b = 0x22 :=
  (Option.some.inj h).symm

theorem Chars.body (h : Chars u cs r) : ∃ c, u = c ++ 0x22 :: r ∧ Body c cs := by
  induction h with
  | nil => exact ⟨[], rfl, Nat.le_refl _, fun _ => nofun, Nat.le_refl _⟩
  | @plain b s r cs hb hquote hslash _ ih =>
    obtain ⟨c, rfl, hwidth, hplain, hquotes⟩ := ih
    refine ⟨b :: c, rfl, ?_, fun hle => ?_, ?_⟩
    · rw [List.length_cons, width_byte]
      omega
    · rw [List.length_cons, width_byte] at hle
      exact List.forall_mem_cons.mpr ⟨⟨hb, hquote, hslash⟩, hplain (by omega)⟩
    · rw [List.count_cons_of_ne hquote, List.count_cons_of_ne (by simpa using hquote)]
      exact hquotes
  | @escape e b s r cs he _ ih =>
    obtain ⟨c, rfl, hwidth, -, hquotes⟩ := ih
    refine ⟨0x5c :: e :: c, rfl, ?_, fun hle => ?_, ?_⟩
    · simp only [List.length_cons, width_byte]
      omega
    · simp only [List.length_cons, width_byte] at hle
      omega
    · rw [List.count_cons_of_ne (by decide), List.count_cons, List.count_cons]
      split
      next hquote =>
        obtain rfl := eq_of_beq hquote
        obtain rfl := shortEscape_quote he
        simpa using hquotes
      next => omega
  | @unicode a b c d u s r cs hu _ ih =>
    obtain ⟨t, rfl, hwidth, -, hquotes⟩ := ih
    obtain ⟨ha, hb, hc, hd⟩ := hex4_ne_quote hu
    refine ⟨0x5c :: 0x75 :: a :: b :: c :: d :: t, rfl, ?_, fun hle => ?_, ?_⟩
    · simp only [List.length_cons, width_unit]
      omega
    · simp only [List.length_cons, width_unit] at hle
      omega
    · rw [List.count_cons_of_ne (by decide), List.count_cons_of_ne (by decide),
        List.count_cons_of_ne ha, List.count_cons_of_ne hb, List.count_cons_of_ne hc,
        List.count_cons_of_ne hd, count_unit]
      exact hquotes

theorem chars_of_unescaped (h : ∀ b ∈ s, Unescaped b) (t : Bytes) :
    Chars (s ++ 0x22 :: t) (s.map .byte) t ∧ decode (s.map .byte) = s := by
  induction s with
  | nil => exact ⟨.nil, rfl⟩
  | cons b s ih =>
    obtain ⟨hb, hs⟩ := List.forall_mem_cons.mp h
    obtain ⟨hchars, hdecode⟩ := ih hs
    exact ⟨.plain hb.1 hb.2.1 hb.2.2 hchars, congrArg (b :: ·) hdecode⟩

-- A string whose closing quote was taken for a character of it has a quote too many.
theorem chars_raw_iff : (∃ cs, Chars (s ++ 0x22 :: t) cs r ∧ decode cs = s) ↔
    (∀ b ∈ s, Unescaped b) ∧ r = t := by
  constructor
  · rintro ⟨cs, hchars, hdecode⟩
    obtain ⟨c, hsplit, hwidth, hplain, hquotes⟩ := hchars.body
    have hle : s.length ≤ width cs := hdecode ▸ decode_length_le cs
    have hcount : cs.count (.byte 0x22) ≤ s.count 0x22 := hdecode ▸ quotes_decode cs
    rcases List.append_eq_append_iff.mp hsplit with ⟨d, rfl, hd⟩ | ⟨d, rfl, hd⟩
    · cases d with
      | nil =>
        rw [List.append_nil] at hplain
        exact ⟨hplain hle, (List.cons.inj hd).2.symm⟩
      | cons b d =>
        obtain ⟨rfl, -⟩ := List.cons.inj hd
        rw [List.count_append, List.count_cons_self] at hquotes
        omega
    · cases d with
      | nil =>
        rw [List.append_nil] at hle
        rw [List.append_nil]
        exact ⟨hplain hle, (List.cons.inj hd).2⟩
      | cons b d =>
        simp only [List.length_append, List.length_cons] at hle
        omega
  · rintro ⟨hplain, rfl⟩
    exact ⟨_, chars_of_unescaped hplain r⟩

end Strings

section Grammar

variable {s t u r : Bytes} {b : Byte} {v w : Json}

theorem Ws.eq_of_head (h : Ws (b :: s) t) (hb : isWs b = false) : t = b :: s := by
  obtain ⟨w, hw, he⟩ := h
  cases w with
  | nil => exact he.symm
  | cons a w =>
    obtain ⟨rfl, -⟩ := List.cons.inj he
    simp [hb] at hw

theorem ws_cons_iff (hb : isWs b = false) : Ws (b :: s) (b :: r) ↔ r = s :=
  ⟨fun h => (List.cons.inj (h.eq_of_head hb)).2, fun h => h ▸ ws_refl _⟩

-- What a string, an array or an object is written as.
def Shape (u r : Bytes) : Json → Prop
  | .string x => ∃ s cs, u = 0x22 :: s ∧ Chars s cs r ∧ decode cs = x
  | .array vs => ∃ s, u = 0x5b :: s ∧ (vs = [] ∧ Ws s (0x5d :: r) ∨ Elements s vs r)
  | .object ms => ∃ s, u = 0x7b :: s ∧ (ms = [] ∧ Ws s (0x7d :: r) ∨ Members s ms r)
  | _ => True

theorem Value.shape (h : Value u v r) : Shape u r v := by
  cases h with
  | literal hl =>
    simp only [literals, List.mem_cons, List.not_mem_nil, or_false, Prod.mk.injEq] at hl
    rcases hl with ⟨-, rfl⟩ | ⟨-, rfl⟩ | ⟨-, rfl⟩ <;> trivial
  | number => trivial
  | string hc => exact ⟨_, _, rfl, hc, rfl⟩
  | emptyArray hs => exact ⟨_, rfl, .inl ⟨rfl, hs⟩⟩
  | array he => exact ⟨_, rfl, .inr he⟩
  | emptyObject hs => exact ⟨_, rfl, .inl ⟨rfl, hs⟩⟩
  | object hm => exact ⟨_, rfl, .inr hm⟩

theorem value_string_iff {x : Bytes} :
    Value (0x22 :: s) (.string x) r ↔ ∃ cs, Chars s cs r ∧ decode cs = x := by
  constructor
  · intro h
    obtain ⟨_, cs, hs, hc⟩ := h.shape
    obtain ⟨-, rfl⟩ := List.cons.inj hs
    exact ⟨cs, hc⟩
  · rintro ⟨cs, hc, rfl⟩
    exact .string hc

theorem value_array_iff {vs : List Json} :
    Value (0x5b :: s) (.array vs) r ↔ vs = [] ∧ Ws s (0x5d :: r) ∨ Elements s vs r := by
  constructor
  · intro h
    obtain ⟨_, hs, hvs⟩ := h.shape
    obtain ⟨-, rfl⟩ := List.cons.inj hs
    exact hvs
  · rintro (⟨rfl, hs⟩ | he)
    · exact .emptyArray hs
    · exact .array he

theorem value_object_iff {ms : List (Bytes × Json)} :
    Value (0x7b :: s) (.object ms) r ↔ ms = [] ∧ Ws s (0x7d :: r) ∨ Members s ms r := by
  constructor
  · intro h
    obtain ⟨_, hs, hms⟩ := h.shape
    obtain ⟨-, rfl⟩ := List.cons.inj hs
    exact hms
  · rintro (⟨rfl, hs⟩ | hm)
    · exact .emptyObject hs
    · exact .object hm

theorem Members.unique {ms ns : List (Bytes × Json)} (h : Members s ms r) (h' : Members s ns t) :
    ms = ns ∧ r = t := by
  have hparse := h.parse (Nat.le_refl _)
  rw [h'.parse (Nat.le_refl _)] at hparse
  cases hparse
  exact ⟨rfl, rfl⟩

theorem Chars.unique {cs ds : List Symbol} (h : Chars s cs r) (h' : Chars s ds t) :
    cs = ds ∧ r = t := by
  have hscan := scanChars_complete h
  rw [scanChars_complete h'] at hscan
  cases hscan
  exact ⟨rfl, rfl⟩

end Grammar

-- A text written for a value: it is read as that value, and nothing more of what follows, exactly
-- if ok holds.
structure Piece where
  text : Bytes
  value : Json
  ok : Prop
  starts : ∃ b t, text = b :: t ∧ isWs b = false
  reads_iff : ∀ rest r, Value (text ++ rest) value r ↔ ok ∧ r = rest

namespace Piece

variable {s t : Bytes}

theorem ws_text_iff (p : Piece) : Ws (p.text ++ s) t ↔ t = p.text ++ s := by
  obtain ⟨b, u, hu, hb⟩ := p.starts
  constructor
  · intro h
    rw [hu, List.cons_append] at h ⊢
    exact h.eq_of_head hb
  · rintro rfl
    exact ws_refl _

-- A string written between quotes as it is.
def raw (s : Bytes) : Piece where
  text := 0x22 :: (s ++ [0x22])
  value := .string s
  ok := ∀ b ∈ s, Unescaped b
  starts := ⟨_, _, rfl, by decide⟩
  reads_iff rest r := by
    rw [List.cons_append, List.append_assoc, List.singleton_append, value_string_iff,
      chars_raw_iff]

-- Characters that spell s, written where x is meant.
def spelled (body s x : Bytes) (h : ∀ rest, ∃ cs, Chars (body ++ 0x22 :: rest) cs rest ∧ decode cs = s) :
    Piece where
  text := 0x22 :: (body ++ [0x22])
  value := .string x
  ok := s = x
  starts := ⟨_, _, rfl, by decide⟩
  reads_iff rest r := by
    rw [List.cons_append, List.append_assoc, List.singleton_append, value_string_iff]
    obtain ⟨cs, hcs, rfl⟩ := h rest
    constructor
    · rintro ⟨ds, hds, rfl⟩
      obtain ⟨rfl, rfl⟩ := hcs.unique hds
      exact ⟨rfl, rfl⟩
    · rintro ⟨rfl, rfl⟩
      exact ⟨cs, hcs, rfl⟩

-- An object that is known to be written out.
def written (body : Bytes) (ms : List (Bytes × Json)) (hne : ms ≠ [])
    (h : ∀ rest, Value (0x7b :: (body ++ rest)) (.object ms) rest) : Piece where
  text := 0x7b :: body
  value := .object ms
  ok := True
  starts := ⟨_, _, rfl, by decide⟩
  reads_iff rest r := by
    rw [List.cons_append, true_and]
    have hm := (value_object_iff.mp (h rest)).resolve_left fun he => hne he.1
    constructor
    · intro hv
      have hm' := (value_object_iff.mp hv).resolve_left fun he => hne he.1
      exact (hm'.unique hm).2
    · rintro rfl
      exact h r

def list (texts : List Bytes) : Bytes := [0x2c].intercalate texts

theorem list_singleton (t : Bytes) : list [t] = t := List.intercalate_singleton

theorem list_cons (t u : Bytes) (ts : List Bytes) : list (t :: u :: ts) = t ++ 0x2c :: list (u :: ts) := by
  rw [list, List.intercalate_cons_cons, List.append_assoc]
  rfl

theorem list_eq (t : Bytes) (ts : List Bytes) :
    list (t :: ts) = t ++ ts.flatMap fun u => 0x2c :: u := by
  induction ts generalizing t with
  | nil => rw [list_singleton, List.flatMap_nil, List.append_nil]
  | cons u ts ih => rw [list_cons, ih u, List.flatMap_cons, List.cons_append]

theorem elements_iff (p : Piece) (ps : List Piece) (rest r : Bytes) :
    Elements (list ((p :: ps).map text) ++ 0x5d :: rest) ((p :: ps).map value) r ↔
      (∀ q ∈ p :: ps, q.ok) ∧ r = rest := by
  induction ps generalizing p with
  | nil =>
    rw [List.map_singleton, list_singleton, List.map_singleton, List.forall_mem_singleton]
    constructor
    · intro h
      cases h with
      | last hs hv hu =>
        obtain rfl := p.ws_text_iff.mp hs
        obtain ⟨hok, rfl⟩ := (p.reads_iff _ _).mp hv
        exact ⟨hok, (ws_cons_iff (by decide)).mp hu⟩
      | cons _ _ _ hrest => cases hrest
    · rintro ⟨hok, rfl⟩
      exact .last (ws_refl _) ((p.reads_iff _ _).mpr ⟨hok, rfl⟩) (ws_refl _)
  | cons q ps ih =>
    rw [List.map_cons, List.map_cons, list_cons, ← List.map_cons, List.append_assoc,
      List.cons_append, List.map_cons, List.forall_mem_cons, and_assoc, ← ih q]
    constructor
    · intro h
      cases h with
      | cons hs hv hu hrest =>
        obtain rfl := p.ws_text_iff.mp hs
        obtain ⟨hok, rfl⟩ := (p.reads_iff _ _).mp hv
        obtain rfl := (ws_cons_iff (by decide)).mp hu
        exact ⟨hok, hrest⟩
    · rintro ⟨hok, hrest⟩
      exact .cons (ws_refl _) ((p.reads_iff _ _).mpr ⟨hok, rfl⟩) (ws_refl _) hrest

def array (ps : List Piece) : Piece where
  text := 0x5b :: (list (ps.map text) ++ [0x5d])
  value := .array (ps.map value)
  ok := ∀ p ∈ ps, p.ok
  starts := ⟨_, _, rfl, by decide⟩
  reads_iff rest r := by
    rw [List.cons_append, List.append_assoc, List.singleton_append, value_array_iff]
    cases ps with
    | nil =>
      have hnone : ¬ Elements (0x5d :: rest) [] r := nofun
      simpa [list, hnone] using ws_cons_iff (by decide)
    | cons p ps => simp only [List.map_cons, reduceCtorEq, false_and, false_or, ← elements_iff]

-- A member whose key is written between quotes as it is.
def memberText (m : Bytes × Piece) : Bytes := 0x22 :: (m.1 ++ 0x22 :: 0x3a :: m.2.text)

def member (m : Bytes × Piece) : Bytes × Json := (m.1, m.2.value)

theorem member_iff (m : Bytes × Piece) (rest r : Bytes) :
    Member (memberText m ++ rest) (member m) r ↔ ((∀ b ∈ m.1, Unescaped b) ∧ m.2.ok) ∧ r = rest := by
  obtain ⟨k, p⟩ := m
  have htext : memberText (k, p) ++ rest = 0x22 :: (k ++ 0x22 :: 0x3a :: (p.text ++ rest)) := by
    simp [memberText]
  rw [htext]
  constructor
  · intro h
    generalize hm : member (k, p) = m at h
    cases h with
    | mk hs hk hcolon ha hv =>
      obtain ⟨hkey, rfl⟩ := Prod.mk.inj hm
      obtain rfl := (ws_cons_iff (by decide)).mp hs
      obtain ⟨hplain, rfl⟩ := chars_raw_iff.mp ⟨_, hk, hkey.symm⟩
      obtain rfl := (ws_cons_iff (by decide)).mp hcolon
      obtain rfl := p.ws_text_iff.mp ha
      obtain ⟨hok, rfl⟩ := (p.reads_iff _ _).mp hv
      exact ⟨⟨hplain, hok⟩, rfl⟩
  · rintro ⟨⟨hplain, hok⟩, rfl⟩
    obtain ⟨hchars, hdecode⟩ := chars_of_unescaped hplain (0x3a :: (p.text ++ r))
    have hmember := Member.mk (ws_refl _) hchars (ws_refl _) (ws_refl _)
      ((p.reads_iff r r).mpr ⟨hok, rfl⟩)
    rwa [hdecode] at hmember

theorem members_iff (m : Bytes × Piece) (ms : List (Bytes × Piece)) (rest r : Bytes) :
    Members (list ((m :: ms).map memberText) ++ 0x7d :: rest) ((m :: ms).map member) r ↔
      (∀ n ∈ m :: ms, (∀ b ∈ n.1, Unescaped b) ∧ n.2.ok) ∧ r = rest := by
  induction ms generalizing m with
  | nil =>
    rw [List.map_singleton, list_singleton, List.map_singleton, List.forall_mem_singleton]
    constructor
    · intro h
      cases h with
      | last hm hu =>
        obtain ⟨hok, rfl⟩ := (member_iff m _ _).mp hm
        exact ⟨hok, (ws_cons_iff (by decide)).mp hu⟩
      | cons _ _ hrest => cases hrest
    · rintro ⟨hok, rfl⟩
      exact .last ((member_iff m _ _).mpr ⟨hok, rfl⟩) (ws_refl _)
  | cons n ms ih =>
    rw [List.map_cons, List.map_cons, list_cons, ← List.map_cons, List.append_assoc,
      List.cons_append, List.map_cons, List.forall_mem_cons, and_assoc, ← ih n]
    constructor
    · intro h
      cases h with
      | cons hm hu hrest =>
        obtain ⟨hok, rfl⟩ := (member_iff m _ _).mp hm
        obtain rfl := (ws_cons_iff (by decide)).mp hu
        exact ⟨hok, hrest⟩
    · rintro ⟨hok, hrest⟩
      exact .cons ((member_iff m _ _).mpr ⟨hok, rfl⟩) (ws_refl _) hrest

def object (ms : List (Bytes × Piece)) : Piece where
  text := 0x7b :: (list (ms.map memberText) ++ [0x7d])
  value := .object (ms.map member)
  ok := ∀ m ∈ ms, (∀ b ∈ m.1, Unescaped b) ∧ m.2.ok
  starts := ⟨_, _, rfl, by decide⟩
  reads_iff rest r := by
    rw [List.cons_append, List.append_assoc, List.singleton_append, value_object_iff]
    cases ms with
    | nil =>
      have hnone : ¬ Members (0x7d :: rest) [] r := nofun
      simpa [list, hnone] using ws_cons_iff (by decide)
    | cons m ms => simp only [List.map_cons, reduceCtorEq, false_and, false_or, ← members_iff]

theorem parse_iff (p : Piece) : parse p.text = some p.value ↔ p.ok := by
  rw [parse_eq_some, Text, ← List.append_nil p.text]
  constructor
  · rintro ⟨t, r, hs, hv, -⟩
    obtain rfl := p.ws_text_iff.mp hs
    exact ((p.reads_iff [] r).mp hv).1
  · intro hok
    exact ⟨_, [], ws_refl _, (p.reads_iff [] []).mpr ⟨hok, rfl⟩, ws_refl _⟩

end Piece

end Foundation.Json
