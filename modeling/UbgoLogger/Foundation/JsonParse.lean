import Mathlib.Data.List.TakeWhile
import UbgoLogger.Foundation.Json

namespace Foundation.Json
open Foundation.Text

theorem shortEscape_ne {e b : Byte} (h : shortEscape e = some b) : e ≠ 0x75 := by
  rintro rfl
  simp [shortEscape] at h

theorem scanChars_complete {s r : Bytes} {cs : List Symbol} (h : Chars s cs r) :
    scanChars s = some (cs, r) := by
  induction h with
  | nil =>
    unfold scanChars
    simp
  | plain hb hquote hslash _ ih =>
    unfold scanChars
    simp [hb, hquote, hslash, ih]
  | escape he _ ih =>
    unfold scanChars
    simp [shortEscape_ne he, he, ih]
  | unicode hu _ ih =>
    unfold scanChars
    simp [hu, ih]

theorem scanChars_sound {s r : Bytes} {cs : List Symbol} (h : scanChars s = some (cs, r)) :
    Chars s cs r := by
  fun_induction scanChars s generalizing cs r with
  | case1 => cases h
  | case2 s =>
    cases h
    exact .nil
  | case3 => cases h
  | case4 a b c d t _ ih =>
    obtain ⟨u, hu, hmap⟩ := Option.bind_eq_some_iff.mp h
    obtain ⟨p, hp, hcs⟩ := Option.map_eq_some_iff.mp hmap
    cases hcs
    exact .unicode hu (ih hp)
  | case5 => cases h
  | case6 e t _ _ ih =>
    obtain ⟨b, hb, hmap⟩ := Option.bind_eq_some_iff.mp h
    obtain ⟨p, hp, hcs⟩ := Option.map_eq_some_iff.mp hmap
    cases hcs
    exact .escape hb (ih hp)
  | case7 b s hquote hslash hb ih =>
    obtain ⟨p, hp, hcs⟩ := Option.map_eq_some_iff.mp h
    cases hcs
    exact .plain hb hquote hslash (ih hp)
  | case8 => cases h

theorem scanLiteral_complete {s r : Bytes} {v : Json} (h : (s, v) ∈ literals) :
    scanLiteral (s ++ r) = some (v, r) := by
  simp only [literals, List.mem_cons, List.not_mem_nil, or_false, Prod.mk.injEq] at h
  rcases h with ⟨rfl, rfl⟩ | ⟨rfl, rfl⟩ | ⟨rfl, rfl⟩ <;> rfl

theorem scanLiteral_sound {s r : Bytes} {v : Json} (h : scanLiteral s = some (v, r)) :
    ∃ t, (t, v) ∈ literals ∧ s = t ++ r := by
  obtain ⟨⟨t, w⟩, hfind, hp⟩ := Option.map_eq_some_iff.mp h
  cases hp
  have hprefix := List.find?_some hfind
  obtain ⟨u, rfl⟩ := List.isPrefixOf_iff_prefix.mp hprefix
  exact ⟨t, List.mem_of_find?_eq_some hfind, by simp⟩

theorem spells_head {s : Bytes} {n : Numeral} (h : Numeral.Spells s n) :
    ∃ b t, s = b :: t ∧ (b = 45 ∨ isDigit b = true) := by
  cases h with
  | @mk neg int f frac x exp hint _ _ _ =>
    obtain ⟨d, ds, rfl⟩ := List.exists_cons_of_ne_nil hint.1
    cases neg with
    | true => exact ⟨45, _, rfl, .inl rfl⟩
    | false => exact ⟨d, _, rfl, .inr (List.all_eq_true.mp hint.2 d (by simp))⟩

theorem scanLiteral_number {b : Byte} (hb : b = 45 ∨ isDigit b = true) (t : Bytes) :
    scanLiteral (b :: t) = none := by
  have hne : ∀ c : Byte, isDigit c = false → c ≠ 45 → ¬ c = b := by
    rintro c hc hc' rfl
    rcases hb with rfl | hb
    · exact hc' rfl
    · simp [hc] at hb
  have hn := hne 110 (by decide) (by decide)
  have ht := hne 116 (by decide) (by decide)
  have hf := hne 102 (by decide) (by decide)
  have hnull : ascii "null" = 110 :: [117, 108, 108] := by decide
  have htrue : ascii "true" = 116 :: [114, 117, 101] := by decide
  have hfalse : ascii "false" = 102 :: [97, 108, 115, 101] := by decide
  simp [scanLiteral, literals, hnull, htrue, hfalse, List.isPrefixOf, hn, ht, hf]

theorem scanScalar_literal {s r : Bytes} {v : Json} (h : (s, v) ∈ literals) :
    scanScalar (s ++ r) = some (v, r) := by
  rw [scanScalar, scanLiteral_complete h]
  rfl

theorem scanScalar_number {s r : Bytes} {n : Numeral} (h : Numeral.Spells s n)
    (hr : Numeral.Stops r) : scanScalar (s ++ r) = some (.number n, r) := by
  obtain ⟨b, t, rfl, hb⟩ := spells_head h
  have hscan := Numeral.scan_complete h hr
  rw [List.cons_append] at hscan ⊢
  rw [scanScalar, scanLiteral_number hb, hscan]
  rfl

theorem scanScalar_sound {s r : Bytes} {v : Json} (h : scanScalar s = some (v, r)) :
    Value s v r := by
  rcases Option.or_eq_some_iff.mp h with hlit | ⟨-, hnum⟩
  · obtain ⟨t, ht, rfl⟩ := scanLiteral_sound hlit
    exact .literal ht
  · obtain ⟨p, hp, hv⟩ := Option.map_eq_some_iff.mp hnum
    cases hv
    obtain ⟨t, ht, rfl⟩ := Numeral.scan_sound hp
    exact .number ht

-- The first byte of a value that is neither a string nor a container.
def Plain (b : Byte) : Prop := b ≠ 0x22 ∧ b ≠ 0x5b ∧ b ≠ 0x7b ∧ isWs b = false ∧ b ≠ 0x5d

theorem literal_head {s : Bytes} {v : Json} (h : (s, v) ∈ literals) :
    ∃ b t, s = b :: t ∧ Plain b := by
  simp only [literals, List.mem_cons, List.not_mem_nil, or_false, Prod.mk.injEq] at h
  rcases h with ⟨rfl, -⟩ | ⟨rfl, -⟩ | ⟨rfl, -⟩
  · exact ⟨110, _, rfl, by unfold Plain; decide⟩
  · exact ⟨116, _, rfl, by unfold Plain; decide⟩
  · exact ⟨102, _, rfl, by unfold Plain; decide⟩

theorem plain_of_number {b : Byte} (hb : b = 45 ∨ isDigit b = true) : Plain b := by
  rcases hb with rfl | hb
  · unfold Plain
    decide
  · have hne : ∀ c, isDigit c = false → b ≠ c := by
      rintro c hc rfl
      simp [hc] at hb
    refine ⟨hne _ (by decide), hne _ (by decide), hne _ (by decide), ?_, hne _ (by decide)⟩
    simp [isWs, hne 0x20 (by decide), hne 0x09 (by decide), hne 0x0a (by decide),
      hne 0x0d (by decide)]

theorem value_head {s r : Bytes} {v : Json} (h : Value s v r) :
    ∃ b t, s = b :: t ∧ isWs b = false ∧ b ≠ 0x5d := by
  cases h with
  | literal hl =>
    obtain ⟨b, t, rfl, hb⟩ := literal_head hl
    exact ⟨b, _, rfl, hb.2.2.2⟩
  | number hn =>
    obtain ⟨b, t, rfl, hb⟩ := spells_head hn
    exact ⟨b, _, rfl, (plain_of_number hb).2.2.2⟩
  | string | emptyArray | array | emptyObject | object => exact ⟨_, _, rfl, by decide⟩

theorem skipWs_value {s t r : Bytes} {v : Json} (hs : Ws s t) (h : Value t v r) : skipWs s = t := by
  obtain ⟨b, u, rfl, hb, -⟩ := value_head h
  exact skipWs_eq hs hb

theorem expect_none {b c : Byte} {s r : Bytes} (h : Ws s (c :: r)) (hc : isWs c = false)
    (hne : c ≠ b) : expect b s = none := by
  simp [expect, skipWs_eq h hc, hne]

theorem expect_none_value {s t r : Bytes} {v : Json} (hs : Ws s t) (h : Value t v r) :
    expect 0x5d s = none := by
  obtain ⟨b, u, rfl, hb, hne⟩ := value_head h
  exact expect_none hs hb hne

theorem parseValue_plain {b : Byte} (hb : Plain b) (t : Bytes) {n : Nat} (hn : 0 < n) :
    parseValue n (b :: t) = scanScalar (b :: t) := by
  obtain ⟨n, rfl⟩ := Nat.exists_eq_succ_of_ne_zero (by omega : n ≠ 0)
  rw [parseValue, if_neg hb.1, if_neg hb.2.1, if_neg hb.2.2.1]

theorem chars_length {s r : Bytes} {cs : List Symbol} (h : Chars s cs r) : r.length < s.length := by
  induction h with
  | nil => simp
  | plain _ _ _ _ ih =>
    simp only [List.length_cons]
    omega
  | escape _ _ ih =>
    simp only [List.length_cons]
    omega
  | unicode _ _ ih =>
    simp only [List.length_cons]
    omega

mutual

theorem Value.length_lt {s r : Bytes} {v : Json} : Value s v r → r.length < s.length
  | .literal hl => by
    obtain ⟨b, t, rfl, -⟩ := literal_head hl
    simp only [List.length_append, List.length_cons]
    omega
  | .number hn => by
    obtain ⟨b, t, rfl, -⟩ := spells_head hn
    simp only [List.length_append, List.length_cons]
    omega
  | .string h => Nat.lt_succ_of_lt (chars_length h)
  | .emptyArray h => Nat.lt_succ_of_lt h.length_le
  | .array h => Nat.lt_succ_of_lt (Elements.length_lt h)
  | .emptyObject h => Nat.lt_succ_of_lt h.length_le
  | .object h => Nat.lt_succ_of_lt (Members.length_lt h)

theorem Elements.length_lt {s r : Bytes} {vs : List Json} : Elements s vs r → r.length < s.length
  | .last hs hv hu => by
    have := hs.length_le
    have := Value.length_lt hv
    have : r.length < _ := hu.length_le
    omega
  | .cons hs hv hu hrest => by
    have := hs.length_le
    have := Value.length_lt hv
    have : List.length _ < _ := hu.length_le
    have := Elements.length_lt hrest
    omega

theorem Member.length_lt {s r : Bytes} {m : Bytes × Json} : Member s m r → r.length < s.length
  | .mk hs hk hcolon ha hv => by
    have : List.length _ < _ := hs.length_le
    have := chars_length hk
    have : List.length _ < _ := hcolon.length_le
    have := ha.length_le
    have := Value.length_lt hv
    omega

theorem Members.length_lt {s r : Bytes} {ms : List (Bytes × Json)} :
    Members s ms r → r.length < s.length
  | .last hm hu => by
    have := Member.length_lt hm
    have : r.length < _ := hu.length_le
    omega
  | .cons hm hu hrest => by
    have := Member.length_lt hm
    have : List.length _ < _ := hu.length_le
    have := Members.length_lt hrest
    omega

end

theorem elements_expect {s r : Bytes} {vs : List Json} (h : Elements s vs r) :
    expect 0x5d s = none := by
  cases h with
  | last hs hv _ => exact expect_none_value hs hv
  | cons hs hv _ _ => exact expect_none_value hs hv

theorem member_expect {s r : Bytes} {m : Bytes × Json} (h : Member s m r) :
    expect 0x7d s = none := by
  cases h with
  | mk hs _ _ _ _ => exact expect_none hs (by decide) (by decide)

theorem members_expect {s r : Bytes} {ms : List (Bytes × Json)} (h : Members s ms r) :
    expect 0x7d s = none := by
  cases h with
  | last hm _ => exact member_expect hm
  | cons hm _ _ => exact member_expect hm

-- Each call down the grammar costs one unit of fuel and none but the two on the way to the next
-- byte leave the text as long as it was.
mutual

theorem Value.parse {s r : Bytes} {v : Json} {n : Nat} :
    Value s v r → Numeral.Stops r → 3 * s.length ≤ n → parseValue n s = some (v, r)
  | .literal hl, _, hn => by
    obtain ⟨b, t, rfl, hb⟩ := literal_head hl
    simp only [List.cons_append, List.length_cons] at hn ⊢
    rw [parseValue_plain hb _ (by omega)]
    exact scanScalar_literal hl
  | .number hs, hr, hn => by
    obtain ⟨b, t, rfl, hb⟩ := spells_head hs
    simp only [List.cons_append, List.length_cons] at hn ⊢
    rw [parseValue_plain (plain_of_number hb) _ (by omega)]
    exact scanScalar_number hs hr
  | .string hc, _, hn => by
    simp only [List.length_cons] at hn
    obtain ⟨n, rfl⟩ := Nat.exists_eq_succ_of_ne_zero (by omega : n ≠ 0)
    simp [parseValue, scanChars_complete hc]
  | .emptyArray hs, _, hn => by
    simp only [List.length_cons] at hn
    obtain ⟨n, rfl⟩ := Nat.exists_eq_succ_of_ne_zero (by omega : n ≠ 0)
    simp [parseValue, (expect_eq_some (by decide)).mpr hs]
  | .array h, _, hn => by
    simp only [List.length_cons] at hn
    obtain ⟨n, rfl⟩ := Nat.exists_eq_succ_of_ne_zero (by omega : n ≠ 0)
    have hrest := Elements.parse (n := n) h (by omega)
    simp [parseValue, elements_expect h, hrest]
  | .emptyObject hs, _, hn => by
    simp only [List.length_cons] at hn
    obtain ⟨n, rfl⟩ := Nat.exists_eq_succ_of_ne_zero (by omega : n ≠ 0)
    simp [parseValue, (expect_eq_some (by decide)).mpr hs]
  | .object h, _, hn => by
    simp only [List.length_cons] at hn
    obtain ⟨n, rfl⟩ := Nat.exists_eq_succ_of_ne_zero (by omega : n ≠ 0)
    have hrest := Members.parse (n := n) h (by omega)
    simp [parseValue, members_expect h, hrest]

theorem Elements.parse {s r : Bytes} {vs : List Json} {n : Nat} :
    Elements s vs r → 3 * s.length + 1 ≤ n → parseElements n s = some (vs, r)
  | .last hs hv hu, hn => by
    have := hs.length_le
    obtain ⟨n, rfl⟩ := Nat.exists_eq_succ_of_ne_zero (by omega : n ≠ 0)
    have hvalue := Value.parse (n := n) hv (hu.stops (by decide)) (by omega)
    simp [parseElements, skipWs_value hs hv, hvalue, expect_none hu (b := 0x2c) (by decide) (by decide),
      (expect_eq_some (by decide)).mpr hu]
  | .cons hs hv hu hrest, hn => by
    have := hs.length_le
    have := Value.length_lt hv
    have := hu.length_le
    simp only [List.length_cons] at this
    obtain ⟨n, rfl⟩ := Nat.exists_eq_succ_of_ne_zero (by omega : n ≠ 0)
    have hvalue := Value.parse (n := n) hv (hu.stops (by decide)) (by omega)
    have helements := Elements.parse (n := n) hrest (by omega)
    simp [parseElements, skipWs_value hs hv, hvalue, (expect_eq_some (by decide)).mpr hu, helements]

theorem Member.parse {s r : Bytes} {m : Bytes × Json} {n : Nat} :
    Member s m r → Numeral.Stops r → 3 * s.length ≤ n → parseMember n s = some (m, r)
  | .mk hs hk hcolon ha hv, hr, hn => by
    have hlen := hs.length_le
    have := chars_length hk
    have hlen' := hcolon.length_le
    have := ha.length_le
    simp only [List.length_cons] at hlen hlen'
    obtain ⟨n, rfl⟩ := Nat.exists_eq_succ_of_ne_zero (by omega : n ≠ 0)
    have hvalue := Value.parse (n := n) hv hr (by omega)
    simp [parseMember, (expect_eq_some (by decide)).mpr hs, scanChars_complete hk,
      (expect_eq_some (by decide)).mpr hcolon, skipWs_value ha hv, hvalue]

theorem Members.parse {s r : Bytes} {ms : List (Bytes × Json)} {n : Nat} :
    Members s ms r → 3 * s.length + 1 ≤ n → parseMembers n s = some (ms, r)
  | .last hm hu, hn => by
    obtain ⟨n, rfl⟩ := Nat.exists_eq_succ_of_ne_zero (by omega : n ≠ 0)
    have hmember := Member.parse (n := n) hm (hu.stops (by decide)) (by omega)
    simp [parseMembers, hmember, expect_none hu (b := 0x2c) (by decide) (by decide),
      (expect_eq_some (by decide)).mpr hu]
  | .cons hm hu hrest, hn => by
    have := Member.length_lt hm
    have hlen := hu.length_le
    simp only [List.length_cons] at hlen
    obtain ⟨n, rfl⟩ := Nat.exists_eq_succ_of_ne_zero (by omega : n ≠ 0)
    have hmember := Member.parse (n := n) hm (hu.stops (by decide)) (by omega)
    have hmembers := Members.parse (n := n) hrest (by omega)
    simp [parseMembers, hmember, (expect_eq_some (by decide)).mpr hu, hmembers]

end

structure Sound (n : Nat) : Prop where
  value : ∀ {s r : Bytes} {v : Json}, parseValue n s = some (v, r) → Value s v r
  elements : ∀ {s r : Bytes} {vs : List Json}, parseElements n s = some (vs, r) → Elements s vs r
  member : ∀ {s r : Bytes} {m : Bytes × Json}, parseMember n s = some (m, r) → Member s m r
  members : ∀ {s r : Bytes} {ms : List (Bytes × Json)}, parseMembers n s = some (ms, r) →
    Members s ms r

section

variable {n : Nat} (ih : Sound n)
include ih

theorem Sound.value_succ {s r : Bytes} {v : Json} (h : parseValue (n + 1) s = some (v, r)) :
    Value s v r := by
  cases s with
  | nil => cases h
  | cons b t =>
    rw [parseValue] at h
    split at h
    next hb =>
      obtain ⟨p, hp, hv⟩ := Option.map_eq_some_iff.mp h
      cases hv
      exact hb ▸ .string (scanChars_sound hp)
    next =>
      split at h
      next hb =>
        subst hb
        rcases Option.or_eq_some_iff.mp h with hempty | ⟨-, hrest⟩
        · obtain ⟨u, hu, hv⟩ := Option.map_eq_some_iff.mp hempty
          cases hv
          exact .emptyArray ((expect_eq_some (by decide)).mp hu)
        · obtain ⟨p, hp, hv⟩ := Option.map_eq_some_iff.mp hrest
          cases hv
          exact .array (ih.elements hp)
      next =>
        split at h
        next hb =>
          subst hb
          rcases Option.or_eq_some_iff.mp h with hempty | ⟨-, hrest⟩
          · obtain ⟨u, hu, hv⟩ := Option.map_eq_some_iff.mp hempty
            cases hv
            exact .emptyObject ((expect_eq_some (by decide)).mp hu)
          · obtain ⟨p, hp, hv⟩ := Option.map_eq_some_iff.mp hrest
            cases hv
            exact .object (ih.members hp)
        next => exact scanScalar_sound h

theorem Sound.elements_succ {s r : Bytes} {vs : List Json}
    (h : parseElements (n + 1) s = some (vs, r)) : Elements s vs r := by
  rw [parseElements] at h
  obtain ⟨⟨v, u⟩, hv, h⟩ := Option.bind_eq_some_iff.mp h
  have hvalue := ih.value hv
  dsimp only at h
  split at h
  next w hw =>
    obtain ⟨p, hp, hvs⟩ := Option.map_eq_some_iff.mp h
    cases hvs
    exact .cons (ws_skipWs s) hvalue ((expect_eq_some (by decide)).mp hw) (ih.elements hp)
  next =>
    obtain ⟨w, hw, hvs⟩ := Option.map_eq_some_iff.mp h
    cases hvs
    exact .last (ws_skipWs s) hvalue ((expect_eq_some (by decide)).mp hw)

theorem Sound.member_succ {s r : Bytes} {m : Bytes × Json}
    (h : parseMember (n + 1) s = some (m, r)) : Member s m r := by
  rw [parseMember] at h
  obtain ⟨t, ht, h⟩ := Option.bind_eq_some_iff.mp h
  obtain ⟨⟨cs, k⟩, hk, h⟩ := Option.bind_eq_some_iff.mp h
  obtain ⟨a, ha, h⟩ := Option.bind_eq_some_iff.mp h
  obtain ⟨p, hp, hm⟩ := Option.map_eq_some_iff.mp h
  cases hm
  exact .mk ((expect_eq_some (by decide)).mp ht) (scanChars_sound hk)
    ((expect_eq_some (by decide)).mp ha) (ws_skipWs a) (ih.value hp)

theorem Sound.members_succ {s r : Bytes} {ms : List (Bytes × Json)}
    (h : parseMembers (n + 1) s = some (ms, r)) : Members s ms r := by
  rw [parseMembers] at h
  obtain ⟨⟨m, u⟩, hm, h⟩ := Option.bind_eq_some_iff.mp h
  have hmember := ih.member hm
  dsimp only at h
  split at h
  next w hw =>
    obtain ⟨p, hp, hms⟩ := Option.map_eq_some_iff.mp h
    cases hms
    exact .cons hmember ((expect_eq_some (by decide)).mp hw) (ih.members hp)
  next =>
    obtain ⟨w, hw, hms⟩ := Option.map_eq_some_iff.mp h
    cases hms
    exact .last hmember ((expect_eq_some (by decide)).mp hw)

end

theorem sound (n : Nat) : Sound n := by
  induction n with
  | zero =>
    refine ⟨?_, fun h => ?_, fun h => ?_, fun h => ?_⟩
    · intro s r v h
      cases s <;> simp [parseValue] at h
    · simp [parseElements] at h
    · simp [parseMember] at h
    · simp [parseMembers] at h
  | succ n ih => exact ⟨ih.value_succ, ih.elements_succ, ih.member_succ, ih.members_succ⟩

theorem skipWs_eq_nil {s : Bytes} : skipWs s = [] ↔ Ws s [] := by
  rw [skipWs, List.dropWhile_eq_nil_iff]
  constructor
  · intro h
    exact ⟨s, List.all_eq_true.mpr h, (List.append_nil s).symm⟩
  · rintro ⟨w, hw, rfl⟩
    rw [List.append_nil]
    exact List.all_eq_true.mp hw

theorem stops_of_ws {s : Bytes} (h : Ws s []) : Numeral.Stops s := by
  obtain ⟨w, hw, rfl⟩ := h
  intro b t ht
  have hws : Ws (w ++ [0x2c]) (0x2c :: []) := ⟨w, hw, rfl⟩
  rw [List.append_nil] at ht
  exact hws.stops (by decide) b (t ++ [0x2c]) (by rw [ht]; rfl)

theorem parse_eq_some {s : Bytes} {v : Json} : parse s = some v ↔ Text s v := by
  constructor
  · intro h
    unfold parse at h
    split at h
    next w r hvalue =>
      split at h
      next hr =>
        cases h
        exact ⟨skipWs s, r, ws_skipWs s, (sound _).value hvalue, skipWs_eq_nil.mp hr⟩
      next => cases h
    next => cases h
  · rintro ⟨t, r, hs, hv, hr⟩
    have hfuel : 3 * t.length ≤ 3 * s.length := Nat.mul_le_mul_left 3 hs.length_le
    rw [parse, skipWs_value hs hv, hv.parse (stops_of_ws hr) hfuel]
    simp [skipWs_eq_nil.mpr hr]

end Foundation.Json
