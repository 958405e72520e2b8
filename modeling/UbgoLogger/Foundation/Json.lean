import UbgoLogger.Foundation.Numeral
import UbgoLogger.Foundation.Utf8

namespace Foundation
open Foundation.Text

inductive Json where
  | null
  | bool (v : Bool)
  | number (n : Numeral)
  | string (s : Bytes)
  | array (vs : List Json)
  | object (ms : List (Bytes × Json))

namespace Json

def isWs (b : Byte) : Bool := b = 0x20 ∨ b = 0x09 ∨ b = 0x0a ∨ b = 0x0d

def Ws (s t : Bytes) : Prop := ∃ w : Bytes, w.all isWs = true ∧ s = w ++ t

def skipWs (s : Bytes) : Bytes := s.dropWhile isWs

def expect (b : Byte) (s : Bytes) : Option Bytes :=
  match skipWs s with
  | [] => none
  | c :: r => if c = b then some r else none

theorem ws_refl (s : Bytes) : Ws s s := ⟨[], rfl, rfl⟩

theorem ws_skipWs (s : Bytes) : Ws s (skipWs s) :=
  ⟨s.takeWhile isWs, List.all_takeWhile, (List.takeWhile_append_dropWhile ..).symm⟩

theorem skipWs_eq {s : Bytes} {b : Byte} {t : Bytes} (h : Ws s (b :: t)) (hb : isWs b = false) :
    skipWs s = b :: t := by
  obtain ⟨w, hw, rfl⟩ := h
  rw [skipWs, List.dropWhile_append_of_pos (List.all_eq_true.mp hw)]
  simp [hb]

theorem expect_eq_some {b : Byte} (hb : isWs b = false) {s r : Bytes} :
    expect b s = some r ↔ Ws s (b :: r) := by
  constructor
  · intro h
    unfold expect at h
    split at h
    · cases h
    · rename_i c t hskip
      split at h
      · rename_i hc
        cases h
        exact hc ▸ hskip ▸ ws_skipWs s
      · cases h
  · intro h
    simp [expect, skipWs_eq h hb]

theorem Ws.length_le {s t : Bytes} (h : Ws s t) : t.length ≤ s.length := by
  obtain ⟨w, -, rfl⟩ := h
  simp

theorem Ws.stops {s t : Bytes} {b : Byte} (h : Ws s (b :: t)) (hb : Numeral.continues b = false) :
    Numeral.Stops s := by
  intro c u hs
  obtain ⟨w, hw, rfl⟩ := h
  cases w with
  | nil =>
    obtain ⟨rfl, -⟩ := List.cons.inj hs
    exact hb
  | cons a w =>
    obtain ⟨rfl, -⟩ := List.cons.inj hs
    have ha : isWs a = true := List.all_eq_true.mp hw a (by simp)
    simp only [isWs, decide_eq_true_eq] at ha
    rcases ha with rfl | rfl | rfl | rfl <;> decide

inductive Symbol where
  | byte (b : Byte)
  | unit (u : Nat)
  deriving DecidableEq

def shortEscape (e : Byte) : Option Byte :=
  if e = 0x22 then some 0x22
  else if e = 0x5c then some 0x5c
  else if e = 0x2f then some 0x2f
  else if e = 0x62 then some 0x08
  else if e = 0x66 then some 0x0c
  else if e = 0x6e then some 0x0a
  else if e = 0x72 then some 0x0d
  else if e = 0x74 then some 0x09
  else none

def hexVal (b : Byte) : Option Nat :=
  if isDigit b then some (b.toNat - 48)
  else if 97 ≤ b.toNat ∧ b.toNat ≤ 102 then some (b.toNat - 87)
  else if 65 ≤ b.toNat ∧ b.toNat ≤ 70 then some (b.toNat - 55)
  else none

def hex4 (a b c d : Byte) : Option Nat := do
  some ((((← hexVal a) * 16 + (← hexVal b)) * 16 + (← hexVal c)) * 16 + (← hexVal d))

-- The body of a string with its closing quote.
inductive Chars : Bytes → List Symbol → Bytes → Prop
  | nil {r : Bytes} : Chars (0x22 :: r) [] r
  | plain {b : Byte} {s r : Bytes} {cs : List Symbol} : 0x20 ≤ b → b ≠ 0x22 → b ≠ 0x5c →
      Chars s cs r → Chars (b :: s) (.byte b :: cs) r
  | escape {e b : Byte} {s r : Bytes} {cs : List Symbol} : shortEscape e = some b →
      Chars s cs r → Chars (0x5c :: e :: s) (.byte b :: cs) r
  | unicode {a b c d : Byte} {u : Nat} {s r : Bytes} {cs : List Symbol} : hex4 a b c d = some u →
      Chars s cs r → Chars (0x5c :: 0x75 :: a :: b :: c :: d :: s) (.unit u :: cs) r

def isHigh (u : Nat) : Bool := 0xd800 ≤ u ∧ u < 0xdc00

def isLow (u : Nat) : Bool := 0xdc00 ≤ u ∧ u < 0xe000

-- One code unit; half of a surrogate pair alone is read as U+FFFD.
def encodeUnit (u : Nat) : Bytes :=
  String.utf8EncodeChar (Char.ofNat (if isHigh u || isLow u then 0xfffd else u))

def decode : List Symbol → Bytes
  | [] => []
  | .byte b :: cs => b :: decode cs
  | .unit hi :: .unit lo :: cs =>
      if isHigh hi && isLow lo then
        String.utf8EncodeChar (Char.ofNat (0x10000 + (hi - 0xd800) * 0x400 + (lo - 0xdc00))) ++
          decode cs
      else encodeUnit hi ++ decode (.unit lo :: cs)
  | .unit u :: cs => encodeUnit u ++ decode cs

theorem decode_unit {u : Nat} (hu : u < 128) (cs : List Symbol) :
    decode (.unit u :: cs) = UInt8.ofNat u :: decode cs := by
  have hhigh : isHigh u = false := by
    simp only [isHigh, decide_eq_false_iff_not]
    omega
  have hlow : isLow u = false := by
    simp only [isLow, decide_eq_false_iff_not]
    omega
  have hunit : encodeUnit u = [UInt8.ofNat u] := by
    rw [encodeUnit, hhigh, hlow]
    exact utf8EncodeChar_ofNat hu
  cases cs with
  | nil => simp [decode, hunit]
  | cons c cs =>
    cases c with
    | byte b => simp [decode, hunit]
    | unit lo => simp [decode, hunit, hhigh]

def literals : List (Bytes × Json) :=
  [(ascii "null", .null), (ascii "true", .bool true), (ascii "false", .bool false)]

mutual

inductive Value : Bytes → Json → Bytes → Prop
  | literal {s r : Bytes} {v : Json} : (s, v) ∈ literals → Value (s ++ r) v r
  | number {s r : Bytes} {n : Numeral} : Numeral.Spells s n → Value (s ++ r) (.number n) r
  | string {s r : Bytes} {cs : List Symbol} : Chars s cs r → Value (0x22 :: s) (.string (decode cs)) r
  | emptyArray {s r : Bytes} : Ws s (0x5d :: r) → Value (0x5b :: s) (.array []) r
  | array {s r : Bytes} {vs : List Json} : Elements s vs r → Value (0x5b :: s) (.array vs) r
  | emptyObject {s r : Bytes} : Ws s (0x7d :: r) → Value (0x7b :: s) (.object []) r
  | object {s r : Bytes} {ms : List (Bytes × Json)} : Members s ms r →
      Value (0x7b :: s) (.object ms) r

inductive Elements : Bytes → List Json → Bytes → Prop
  | last {s t u r : Bytes} {v : Json} : Ws s t → Value t v u → Ws u (0x5d :: r) → Elements s [v] r
  | cons {s t u w r : Bytes} {v : Json} {vs : List Json} : Ws s t → Value t v u →
      Ws u (0x2c :: w) → Elements w vs r → Elements s (v :: vs) r

inductive Member : Bytes → Bytes × Json → Bytes → Prop
  | mk {s t k a u r : Bytes} {cs : List Symbol} {v : Json} : Ws s (0x22 :: t) → Chars t cs k →
      Ws k (0x3a :: a) → Ws a u → Value u v r → Member s (decode cs, v) r

inductive Members : Bytes → List (Bytes × Json) → Bytes → Prop
  | last {s u r : Bytes} {m : Bytes × Json} : Member s m u → Ws u (0x7d :: r) → Members s [m] r
  | cons {s u w r : Bytes} {m : Bytes × Json} {ms : List (Bytes × Json)} : Member s m u →
      Ws u (0x2c :: w) → Members w ms r → Members s (m :: ms) r

end

-- JSON-text = ws value ws
def Text (s : Bytes) (v : Json) : Prop := ∃ t r, Ws s t ∧ Value t v r ∧ Ws r []

def scanChars : Bytes → Option (List Symbol × Bytes)
  | [] => none
  | b :: s =>
      if b = 0x22 then some ([], s)
      else if b = 0x5c then
        match s with
        | [] => none
        | e :: t =>
            if e = 0x75 then
              match t with
              | a :: b :: c :: d :: t =>
                  (hex4 a b c d).bind fun u => (scanChars t).map fun p => (.unit u :: p.1, p.2)
              | _ => none
            else (shortEscape e).bind fun b => (scanChars t).map fun p => (.byte b :: p.1, p.2)
      else if 0x20 ≤ b then (scanChars s).map fun p => (.byte b :: p.1, p.2)
      else none

def scanLiteral (s : Bytes) : Option (Json × Bytes) :=
  (literals.find? fun l => l.1.isPrefixOf s).map fun l => (l.2, s.drop l.1.length)

def scanScalar (s : Bytes) : Option (Json × Bytes) :=
  (scanLiteral s).or ((Numeral.scan s).map fun p => (.number p.1, p.2))

mutual

def parseValue : Nat → Bytes → Option (Json × Bytes)
  | _, [] => none
  | 0, _ => none
  | n + 1, b :: t =>
      if b = 0x22 then (scanChars t).map fun p => (.string (decode p.1), p.2)
      else if b = 0x5b then
        ((expect 0x5d t).map fun r => (.array [], r)).or
          ((parseElements n t).map fun p => (.array p.1, p.2))
      else if b = 0x7b then
        ((expect 0x7d t).map fun r => (.object [], r)).or
          ((parseMembers n t).map fun p => (.object p.1, p.2))
      else scanScalar (b :: t)

def parseElements : Nat → Bytes → Option (List Json × Bytes)
  | 0, _ => none
  | n + 1, s => do
      let (v, u) ← parseValue n (skipWs s)
      match expect 0x2c u with
      | some w => (parseElements n w).map fun p => (v :: p.1, p.2)
      | none => (expect 0x5d u).map fun r => ([v], r)

def parseMember : Nat → Bytes → Option ((Bytes × Json) × Bytes)
  | 0, _ => none
  | n + 1, s => do
      let t ← expect 0x22 s
      let (cs, k) ← scanChars t
      let a ← expect 0x3a k
      (parseValue n (skipWs a)).map fun p => ((decode cs, p.1), p.2)

def parseMembers : Nat → Bytes → Option (List (Bytes × Json) × Bytes)
  | 0, _ => none
  | n + 1, s => do
      let (m, u) ← parseMember n s
      match expect 0x2c u with
      | some w => (parseMembers n w).map fun p => (m :: p.1, p.2)
      | none => (expect 0x7d u).map fun r => ([m], r)

end

def parse (s : Bytes) : Option Json :=
  match parseValue (3 * s.length) (skipWs s) with
  | some (v, r) => if skipWs r = [] then some v else none
  | none => none

end Json

end Foundation
