import UbgoLogger.Foundation.Json

namespace Foundation.Json
open Foundation.Text

theorem Ws.append {s t : Bytes} (h : Ws s t) (r : Bytes) : Ws (s ++ r) (t ++ r) := by
  obtain ⟨w, hw, rfl⟩ := h
  exact ⟨w, hw, List.append_assoc ..⟩

theorem Chars.append {s t : Bytes} {cs : List Symbol} (h : Chars s cs t) (r : Bytes) :
    Chars (s ++ r) cs (t ++ r) := by
  induction h with
  | nil => exact .nil
  | plain hb hquote hslash _ ih => exact .plain hb hquote hslash ih
  | escape he _ ih => exact .escape he ih
  | unicode hu _ ih => exact .unicode hu ih

mutual

theorem Value.append {s t : Bytes} {v : Json} (r : Bytes) : Value s v t → Value (s ++ r) v (t ++ r)
  | .literal hl => List.append_assoc .. ▸ .literal hl
  | .number hn => List.append_assoc .. ▸ .number hn
  | .string hc => .string (hc.append r)
  | .emptyArray hs => .emptyArray (hs.append r)
  | .array h => .array (Elements.append r h)
  | .emptyObject hs => .emptyObject (hs.append r)
  | .object h => .object (Members.append r h)

theorem Elements.append {s t : Bytes} {vs : List Json} (r : Bytes) :
    Elements s vs t → Elements (s ++ r) vs (t ++ r)
  | .last hs hv hu => .last (hs.append r) (Value.append r hv) (hu.append r)
  | .cons hs hv hu h => .cons (hs.append r) (Value.append r hv) (hu.append r) (Elements.append r h)

theorem Member.append {s t : Bytes} {m : Bytes × Json} (r : Bytes) :
    Member s m t → Member (s ++ r) m (t ++ r)
  | .mk hs hk hcolon ha hv =>
      .mk (hs.append r) (hk.append r) (hcolon.append r) (ha.append r) (Value.append r hv)

theorem Members.append {s t : Bytes} {ms : List (Bytes × Json)} (r : Bytes) :
    Members s ms t → Members (s ++ r) ms (t ++ r)
  | .last hm hu => .last (Member.append r hm) (hu.append r)
  | .cons hm hu h => .cons (Member.append r hm) (hu.append r) (Members.append r h)

end

inductive Mode where
  | plain
  | quoted
  | escaped

-- The bytes that stand outside strings.
def outside : Mode → Bytes → Bytes
  | _, [] => []
  | .plain, b :: s => if b = 0x22 then outside .quoted s else b :: outside .plain s
  | .quoted, b :: s =>
      outside (if b = 0x22 then .plain else if b = 0x5c then .escaped else .quoted) s
  | .escaped, _ :: s => outside .quoted s

def Bare (b : Byte) : Prop := isDigit b = true ∨ b ∈ ascii "+-.eE,:[]\x7b\x7d \t\n\rnulltruefalse"

instance (b : Byte) : Decidable (Bare b) := inferInstanceAs (Decidable (_ ∨ _))

def Leaves (s r : Bytes) : Prop :=
  ∃ w, outside .plain s = w ++ outside .plain r ∧ ∀ b ∈ w, Bare b

theorem Leaves.refl (s : Bytes) : Leaves s s := ⟨[], rfl, by simp⟩

theorem Leaves.trans {s t r : Bytes} (hs : Leaves s t) (ht : Leaves t r) : Leaves s r := by
  obtain ⟨w, hw, hbare⟩ := hs
  obtain ⟨w', hw', hbare'⟩ := ht
  exact ⟨w ++ w', by rw [hw, hw', List.append_assoc], List.forall_mem_append.mpr ⟨hbare, hbare'⟩⟩

theorem outside_append {w : Bytes} (hw : 0x22 ∉ w) (r : Bytes) :
    outside .plain (w ++ r) = w ++ outside .plain r := by
  induction w with
  | nil => rfl
  | cons b w ih =>
    obtain ⟨hb, hw⟩ := List.ne_and_not_mem_of_not_mem_cons hw
    rw [List.cons_append, outside, if_neg hb.symm, ih hw]
    rfl

theorem leaves_bytes {w : Bytes} (hw : ∀ b ∈ w, Bare b) (r : Bytes) : Leaves (w ++ r) r :=
  ⟨w, outside_append (fun hmem => absurd (hw _ hmem) (by decide)) r, hw⟩

theorem leaves_cons {b : Byte} (hb : Bare b) {s r : Bytes} (h : Leaves s r) : Leaves (b :: s) r :=
  (leaves_bytes (w := [b]) (by simpa using hb) s).trans h

theorem Ws.leaves {s t : Bytes} (h : Ws s t) : Leaves s t := by
  obtain ⟨w, hw, rfl⟩ := h
  refine leaves_bytes (fun b hb => ?_) t
  have hws : isWs b = true := List.all_eq_true.mp hw b hb
  simp only [isWs, decide_eq_true_eq] at hws
  rcases hws with rfl | rfl | rfl | rfl <;> decide

theorem Ws.leaves_cons {s t : Bytes} {b : Byte} (h : Ws s (b :: t)) (hb : Bare b) : Leaves s t :=
  h.leaves.trans (Json.leaves_cons hb (.refl t))

theorem hexVal_ne {a : Byte} {n : Nat} (h : hexVal a = some n) : a ≠ 0x22 ∧ a ≠ 0x5c := by
  constructor <;> rintro rfl <;> simp [hexVal, isDigit] at h

theorem outside_hex {a : Byte} {n : Nat} (h : hexVal a = some n) (s : Bytes) :
    outside .quoted (a :: s) = outside .quoted s := by
  obtain ⟨hquote, hslash⟩ := hexVal_ne h
  rw [outside, if_neg hquote, if_neg hslash]

theorem outside_chars {s r : Bytes} {cs : List Symbol} (h : Chars s cs r) :
    outside .quoted s = outside .plain r := by
  induction h with
  | nil => simp [outside]
  | plain _ hquote hslash _ ih => simpa [outside, hquote, hslash] using ih
  | escape _ _ ih => simpa [outside] using ih
  | unicode hu _ ih =>
    simp only [hex4, Option.bind_eq_bind, Option.bind_eq_some_iff] at hu
    obtain ⟨wa, ha, wb, hb, wc, hc, wd, hd, -⟩ := hu
    have hopen : ∀ t, outside .quoted (0x5c :: 0x75 :: t) = outside .quoted t := by
      simp [outside]
    rw [hopen, outside_hex ha, outside_hex hb, outside_hex hc, outside_hex hd, ih]

theorem Chars.leaves {s r : Bytes} {cs : List Symbol} (h : Chars s cs r) :
    Leaves (0x22 :: s) r :=
  ⟨[], by simp [outside, outside_chars h], by simp⟩

-- The bytes a number is written with.
def Numeric (b : Byte) : Prop := isDigit b = true ∨ b ∈ ascii "+-.eE"

instance (b : Byte) : Decidable (Numeric b) := inferInstanceAs (Decidable (_ ∨ _))

theorem digits_numeric {ds : Bytes} (h : AllDigits ds) : ∀ b ∈ ds, Numeric b :=
  fun b hb => .inl (List.all_eq_true.mp h.2 b hb)

theorem spells_numeric {s : Bytes} {n : Numeral} (h : Numeral.Spells s n) : ∀ b ∈ s, Numeric b := by
  have hexp : ∀ e, Numeral.isExp e = true → Numeric e := by
    intro e he
    simp only [Numeral.isExp, decide_eq_true_eq] at he
    rcases he with rfl | rfl <;> decide
  cases h with
  | @mk neg int f frac x exp hint _ hf hx =>
    simp only [List.forall_mem_append]
    refine ⟨?_, digits_numeric hint, ?_, ?_⟩
    · exact List.all_iff_forall_prop.mp (by cases neg <;> decide)
    · cases hf with
      | none => simp
      | some hd => exact List.forall_mem_cons.mpr ⟨by decide, digits_numeric hd⟩
    · cases hx with
      | none => simp
      | plain he hd => exact List.forall_mem_cons.mpr ⟨hexp _ he, digits_numeric hd⟩
      | plus he hd | minus he hd =>
        exact List.forall_mem_cons.mpr
          ⟨hexp _ he, List.forall_mem_cons.mpr ⟨by decide, digits_numeric hd⟩⟩

theorem Numeric.bare {b : Byte} (h : Numeric b) : Bare b :=
  h.imp id fun hb => List.all_iff_forall_prop.mp
    (by decide : (ascii "+-.eE").all fun c => c ∈ ascii "+-.eE,:[]\x7b\x7d \t\n\rnulltruefalse") b hb

theorem spells_bare {s : Bytes} {n : Numeral} (h : Numeral.Spells s n) : ∀ b ∈ s, Bare b :=
  fun b hb => (spells_numeric h b hb).bare

theorem literal_bare {s : Bytes} {v : Json} (h : (s, v) ∈ literals) : ∀ b ∈ s, Bare b := by
  simp only [literals, List.mem_cons, List.not_mem_nil, or_false, Prod.mk.injEq] at h
  rw [← List.all_iff_forall_prop]
  rcases h with ⟨rfl, -⟩ | ⟨rfl, -⟩ | ⟨rfl, -⟩ <;> decide

mutual

theorem Value.leaves {s r : Bytes} {v : Json} : Value s v r → Leaves s r
  | .literal hl => leaves_bytes (literal_bare hl) r
  | .number hn => leaves_bytes (spells_bare hn) r
  | .string hc => hc.leaves
  | .emptyArray hs => leaves_cons (by decide) (hs.leaves_cons (by decide))
  | .array h => leaves_cons (by decide) (Elements.leaves h)
  | .emptyObject hs => leaves_cons (by decide) (hs.leaves_cons (by decide))
  | .object h => leaves_cons (by decide) (Members.leaves h)

theorem Elements.leaves {s r : Bytes} {vs : List Json} : Elements s vs r → Leaves s r
  | .last hs hv hu => (hs.leaves.trans (Value.leaves hv)).trans (hu.leaves_cons (by decide))
  | .cons hs hv hu h =>
      ((hs.leaves.trans (Value.leaves hv)).trans (hu.leaves_cons (by decide))).trans
        (Elements.leaves h)

theorem Member.leaves {s r : Bytes} {m : Bytes × Json} : Member s m r → Leaves s r
  | .mk hs hk hcolon ha hv =>
      ((hs.leaves.trans hk.leaves).trans (hcolon.leaves_cons (by decide))).trans
        (ha.leaves.trans (Value.leaves hv))

theorem Members.leaves {s r : Bytes} {ms : List (Bytes × Json)} : Members s ms r → Leaves s r
  | .last hm hu => (Member.leaves hm).trans (hu.leaves_cons (by decide))
  | .cons hm hu h => ((Member.leaves hm).trans (hu.leaves_cons (by decide))).trans (Members.leaves h)

end

theorem outside_bare {s : Bytes} {v : Json} (h : Value s v []) : ∀ b ∈ outside .plain s, Bare b := by
  obtain ⟨w, hw, hbare⟩ := h.leaves
  rw [hw]
  simpa [outside] using hbare

theorem Leaves.mem_outside {s r : Bytes} (h : Leaves s r) {b : Byte} (hb : b ∈ outside .plain r) :
    b ∈ outside .plain s := by
  obtain ⟨w, hw, -⟩ := h
  rw [hw]
  exact List.mem_append_right w hb

-- A quote that no backslash of its own stands before.
def unescapedQuote : Mode → Bytes → Bool
  | _, [] => false
  | .escaped, _ :: s => unescapedQuote .quoted s
  | _, b :: s => b = 0x22 || unescapedQuote (if b = 0x5c then .escaped else .quoted) s

theorem unescapedQuote_cons {b : Byte} (hquote : b ≠ 0x22) (hslash : b ≠ 0x5c) (s : Bytes) :
    unescapedQuote .quoted (b :: s) = unescapedQuote .quoted s := by
  rw [unescapedQuote, if_neg hslash, decide_eq_false hquote, Bool.false_or]
  nofun

theorem unescapedQuote_escape (e : Byte) (s : Bytes) :
    unescapedQuote .quoted (0x5c :: e :: s) = unescapedQuote .quoted s := rfl

-- A string is read up to the first quote that ends it.
theorem Chars.unescapedQuote {u r : Bytes} {cs : List Symbol} (h : Chars u cs r) :
    ∃ c, u = c ++ 0x22 :: r ∧ unescapedQuote .quoted c = false := by
  induction h with
  | nil => exact ⟨[], rfl, rfl⟩
  | @plain b s r cs _ hquote hslash _ ih =>
    obtain ⟨c, rfl, hc⟩ := ih
    exact ⟨b :: c, rfl, (unescapedQuote_cons hquote hslash c).trans hc⟩
  | @escape e b s r cs _ _ ih =>
    obtain ⟨c, rfl, hc⟩ := ih
    exact ⟨0x5c :: e :: c, rfl, hc⟩
  | @unicode a b c d u s r cs hu _ ih =>
    simp only [hex4, Option.bind_eq_bind, Option.bind_eq_some_iff] at hu
    obtain ⟨wa, ha, wb, hb, wc, hc, wd, hd, -⟩ := hu
    obtain ⟨t, rfl, ht⟩ := ih
    refine ⟨0x5c :: 0x75 :: a :: b :: c :: d :: t, rfl, ?_⟩
    rw [unescapedQuote_escape, unescapedQuote_cons (hexVal_ne ha).1 (hexVal_ne ha).2,
      unescapedQuote_cons (hexVal_ne hb).1 (hexVal_ne hb).2,
      unescapedQuote_cons (hexVal_ne hc).1 (hexVal_ne hc).2,
      unescapedQuote_cons (hexVal_ne hd).1 (hexVal_ne hd).2, ht]

end Foundation.Json
