import UbgoLogger.Foundation.JsonOutside
import UbgoLogger.Foundation.JsonParse

namespace Foundation.Json

open Foundation.Text

def keep (b : Byte) (p : Bytes × Bytes) : Bytes × Bytes := (b :: p.1, p.2)

-- The text up to the comma or closing bracket behind it; depth counts the brackets open in it.
def rawValue : Mode → Nat → Bytes → Bytes × Bytes
  | _, _, [] => ([], [])
  | .quoted, d, b :: s =>
      keep b (rawValue (if b = 0x22 then .plain else if b = 0x5c then .escaped else .quoted) d s)
  | .escaped, d, b :: s => keep b (rawValue .quoted d s)
  | .plain, d, b :: s =>
      if b = 0x22 then keep b (rawValue .quoted d s)
      else if b = 0x5b ∨ b = 0x7b then keep b (rawValue .plain (d + 1) s)
      else if b = 0x5d ∨ b = 0x7d then
        match d with
        | 0 => ([], b :: s)
        | d + 1 => keep b (rawValue .plain d s)
      else if b = 0x2c ∧ d = 0 then ([], b :: s)
      else keep b (rawValue .plain d s)

def eat (b : Byte) : Bytes → Option Bytes
  | [] => none
  | c :: s => if c = b then some s else none

def rawMember (s : Bytes) : Option ((Bytes × Bytes) × Bytes) := do
  let t ← eat 0x22 s
  let (cs, k) ← scanChars t
  let v ← eat 0x3a k
  some ((decode cs, (rawValue .plain 0 v).1), (rawValue .plain 0 v).2)

def rawMembers : Nat → Bytes → Option (List (Bytes × Bytes))
  | 0, _ => none
  | n + 1, s =>
      (rawMember s).bind fun m =>
        match eat 0x2c m.2 with
        | some t => (rawMembers n t).map (m.1 :: ·)
        | none => if m.2 = [0x7d] then some [m.1] else none

-- The members of an object written without white space, each with the text of its value. What
-- stands for a value need not be JSON.
def readMembers (s : Bytes) : Option (List (Bytes × Bytes)) :=
  (eat 0x7b s).bind fun t => rawMembers t.length t

-- The text of a string, an integer or a bool.
def scalarText (raw : Bytes) : Option Bytes :=
  match parse raw with
  | some (.string s) => some s
  | some (.bool _) => some raw
  | some (.number n) => if n.toInt.isSome then some raw else none
  | _ => none

def Passes (m : Mode) (d : Nat) (s : Bytes) (m' : Mode) (d' : Nat) (r : Bytes) : Prop :=
  ∃ u, s = u ++ r ∧ rawValue m d s = (u ++ (rawValue m' d' r).1, (rawValue m' d' r).2)

theorem Passes.refl (m : Mode) (d : Nat) (s : Bytes) : Passes m d s m d s := ⟨[], rfl, rfl⟩

theorem Passes.trans {m₁ m₂ m₃ : Mode} {d₁ d₂ d₃ : Nat} {s t r : Bytes} (h : Passes m₁ d₁ s m₂ d₂ t)
    (h' : Passes m₂ d₂ t m₃ d₃ r) : Passes m₁ d₁ s m₃ d₃ r := by
  obtain ⟨u, rfl, hu⟩ := h
  obtain ⟨w, rfl, hw⟩ := h'
  exact ⟨u ++ w, by rw [List.append_assoc], by rw [hu, hw, List.append_assoc]⟩

theorem Passes.of_keep {m m' : Mode} {d d' : Nat} {b : Byte} {s : Bytes}
    (h : rawValue m d (b :: s) = keep b (rawValue m' d' s)) : Passes m d (b :: s) m' d' s :=
  ⟨[b], rfl, h⟩

-- Bytes that neither open nor close anything.
def Inert (b : Byte) : Prop := b ∉ ([0x22, 0x5b, 0x7b, 0x5d, 0x7d, 0x2c] : Bytes)

instance (b : Byte) : Decidable (Inert b) := inferInstanceAs (Decidable (_ ∉ _))

theorem passes_inert (d : Nat) {w : Bytes} (h : ∀ b ∈ w, Inert b) (r : Bytes) :
    Passes .plain d (w ++ r) .plain d r := by
  induction w with
  | nil => exact .refl _ _ _
  | cons b w ih =>
    obtain ⟨hb, hw⟩ := List.forall_mem_cons.mp h
    refine Passes.trans (.of_keep ?_) (ih hw)
    simp only [Inert, List.mem_cons, List.not_mem_nil, or_false, not_or] at hb
    simp [rawValue, hb]

theorem Ws.passes {s t : Bytes} (h : Ws s t) (d : Nat) : Passes .plain d s .plain d t := by
  obtain ⟨w, hw, rfl⟩ := h
  refine passes_inert d (fun b hb => ?_) t
  have hws : isWs b = true := List.all_eq_true.mp hw b hb
  simp only [isWs, decide_eq_true_eq] at hws
  rcases hws with rfl | rfl | rfl | rfl <;> decide

theorem passes_open {b : Byte} (hb : b = 0x5b ∨ b = 0x7b) (d : Nat) (s : Bytes) :
    Passes .plain d (b :: s) .plain (d + 1) s := by
  refine .of_keep ?_
  rcases hb with rfl | rfl <;> simp [rawValue]

theorem passes_close {b : Byte} (hb : b = 0x5d ∨ b = 0x7d) (d : Nat) (s : Bytes) :
    Passes .plain (d + 1) (b :: s) .plain d s := by
  refine .of_keep ?_
  rcases hb with rfl | rfl <;> simp [rawValue]

theorem passes_comma (d : Nat) (s : Bytes) : Passes .plain (d + 1) (0x2c :: s) .plain (d + 1) s :=
  .of_keep (by simp [rawValue])

theorem passes_quote (d : Nat) (s : Bytes) : Passes .plain d (0x22 :: s) .quoted d s :=
  .of_keep (by simp [rawValue])

theorem passes_quoted {b : Byte} (hquote : b ≠ 0x22) (hslash : b ≠ 0x5c) (d : Nat) (s : Bytes) :
    Passes .quoted d (b :: s) .quoted d s :=
  .of_keep (by simp [rawValue, hquote, hslash])

theorem passes_escaped (b : Byte) (d : Nat) (s : Bytes) :
    Passes .quoted d (0x5c :: b :: s) .quoted d s := by
  have hslash : Passes .quoted d (0x5c :: b :: s) .escaped d (b :: s) := .of_keep (by simp [rawValue])
  exact hslash.trans (.of_keep rfl)

theorem Chars.passes {s r : Bytes} {cs : List Symbol} (h : Chars s cs r) (d : Nat) :
    Passes .quoted d s .plain d r := by
  induction h with
  | nil => exact .of_keep (by simp [rawValue])
  | plain _ hquote hslash _ ih => exact (passes_quoted hquote hslash d _).trans ih
  | escape _ _ ih => exact (passes_escaped _ d _).trans ih
  | unicode hu _ ih =>
    simp only [hex4, Option.bind_eq_bind, Option.bind_eq_some_iff] at hu
    obtain ⟨wa, ha, wb, hb, wc, hc, wd, hd, -⟩ := hu
    have hdigit {a : Byte} {n : Nat} (h : hexVal a = some n) (s : Bytes) :=
      passes_quoted (hexVal_ne h).1 (hexVal_ne h).2 d s
    exact (passes_escaped _ d _).trans
      ((((hdigit ha _).trans (hdigit hb _)).trans (hdigit hc _)).trans ((hdigit hd _).trans ih))

theorem inert_of_numeric {b : Byte} (h : Numeric b) : Inert b := by
  intro hmem
  have hall := List.all_iff_forall_prop.mp
    (by decide : ([0x22, 0x5b, 0x7b, 0x5d, 0x7d, 0x2c] : Bytes).all fun c => ¬ Numeric c)
  exact hall b hmem h

theorem inert_of_literal {s : Bytes} {v : Json} (h : (s, v) ∈ literals) : ∀ b ∈ s, Inert b := by
  simp only [literals, List.mem_cons, List.not_mem_nil, or_false, Prod.mk.injEq] at h
  rw [← List.all_iff_forall_prop]
  rcases h with ⟨rfl, -⟩ | ⟨rfl, -⟩ | ⟨rfl, -⟩ <;> decide

theorem Ws.passes_close {s r : Bytes} {b : Byte} (h : Ws s (b :: r)) (hb : b = 0x5d ∨ b = 0x7d)
    (d : Nat) : Passes .plain (d + 1) s .plain d r :=
  (h.passes (d + 1)).trans (Json.passes_close hb d r)

mutual

theorem Value.passes {s r : Bytes} {v : Json} (d : Nat) : Value s v r → Passes .plain d s .plain d r
  | .literal hl => passes_inert d (inert_of_literal hl) r
  | .number hn => passes_inert d (fun b hb => inert_of_numeric (spells_numeric hn b hb)) r
  | .string hc => (passes_quote d _).trans (hc.passes d)
  | .emptyArray hs => (passes_open (.inl rfl) d _).trans (hs.passes_close (.inl rfl) d)
  | .array h => (passes_open (.inl rfl) d _).trans (Elements.passes d h)
  | .emptyObject hs => (passes_open (.inr rfl) d _).trans (hs.passes_close (.inr rfl) d)
  | .object h => (passes_open (.inr rfl) d _).trans (Members.passes d h)

theorem Elements.passes {s r : Bytes} {vs : List Json} (d : Nat) :
    Elements s vs r → Passes .plain (d + 1) s .plain d r
  | .last hs hv hu =>
      ((hs.passes _).trans (Value.passes _ hv)).trans (hu.passes_close (.inl rfl) d)
  | .cons hs hv hu h =>
      ((hs.passes _).trans (Value.passes _ hv)).trans
        (((hu.passes _).trans (passes_comma d _)).trans (Elements.passes d h))

theorem Member.passes {s r : Bytes} {m : Bytes × Json} (d : Nat) :
    Member s m r → Passes .plain d s .plain d r
  | .mk hs hk hcolon ha hv =>
      (((hs.passes d).trans (passes_quote d _)).trans (hk.passes d)).trans
        (((hcolon.passes d).trans
          (passes_inert d (w := [0x3a]) (by simp [Inert]) _)).trans
            ((ha.passes d).trans (Value.passes d hv)))

theorem Members.passes {s r : Bytes} {ms : List (Bytes × Json)} (d : Nat) :
    Members s ms r → Passes .plain (d + 1) s .plain d r
  | .last hm hu => (Member.passes _ hm).trans (hu.passes_close (.inr rfl) d)
  | .cons hm hu h =>
      (Member.passes _ hm).trans (((hu.passes _).trans (passes_comma d _)).trans (Members.passes d h))

end

-- The reader of members takes w as the text of one value.
def Closed (w : Bytes) : Prop :=
  ∀ c t, c = 0x2c ∨ c = 0x7d → rawValue .plain 0 (w ++ c :: t) = (w, c :: t)

theorem closed_of_passes {w : Bytes} (h : ∀ r, Passes .plain 0 (w ++ r) .plain 0 r) : Closed w := by
  intro c t hc
  obtain ⟨u, hu, hraw⟩ := h (c :: t)
  have hstop : rawValue .plain 0 (c :: t) = ([], c :: t) := by
    rcases hc with rfl | rfl <;> simp [rawValue]
  rw [hraw, hstop, List.append_nil, List.append_cancel_right hu]

theorem closed_inert {w : Bytes} (h : ∀ b ∈ w, Inert b) : Closed w :=
  closed_of_passes (passes_inert 0 h)

theorem scalarText_string {w t : Bytes} (h : Value w (.string t) []) : scalarText w = some t := by
  have hparse : parse w = some (.string t) :=
    parse_eq_some.mpr ⟨w, [], ws_refl _, h, ws_refl _⟩
  simp [scalarText, hparse]

theorem quote_mem_of_string {w t : Bytes} (h : Text w (.string t)) : 0x22 ∈ w := by
  obtain ⟨u, r, ⟨pre, -, rfl⟩, hvalue, -⟩ := h
  refine List.mem_append_right pre ?_
  generalize hj : Json.string t = j at hvalue
  cases hvalue with
  | literal hmem => simp [literals, ← hj] at hmem
  | string _ => exact List.mem_cons_self
  | number _ | emptyArray _ | array _ | emptyObject _ | object _ => cases hj

theorem scalarText_unquoted {w t : Bytes} (hw : 0x22 ∉ w) (h : scalarText w = some t) : w = t := by
  unfold scalarText at h
  split at h
  next hparse => exact absurd (quote_mem_of_string (parse_eq_some.mp hparse)) hw
  next => exact Option.some.inj h
  next =>
    split at h
    · exact Option.some.inj h
    · cases h
  next => cases h

end Foundation.Json
