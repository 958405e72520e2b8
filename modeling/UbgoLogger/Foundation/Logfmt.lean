import UbgoLogger.Foundation.JsonOutside
import UbgoLogger.Foundation.JsonParse

theorem Foundation.forall₂_append_iff {α β : Type} {R : α → β → Prop} {as as' : List α}
    {bs bs' : List β} (h : as.length = bs.length) :
    List.Forall₂ R (as ++ as') (bs ++ bs') ↔ List.Forall₂ R as bs ∧ List.Forall₂ R as' bs' := by
  refine ⟨fun hall => ?_, fun hall => List.rel_append hall.1 hall.2⟩
  have htake := List.forall₂_take_append _ bs bs' hall
  have hdrop := List.forall₂_drop_append _ bs bs' hall
  rw [List.take_left' h] at htake
  rw [List.drop_left' h] at hdrop
  exact ⟨htake, hdrop⟩

namespace Foundation.Logfmt

open Foundation.Text

-- No space, equals sign, quote or control byte.
def bare (b : Byte) : Bool :=
  decide (0x20 < b) && decide (b ≠ 0x3d) && decide (b ≠ 0x22) && decide (b ≠ 0x7f)

def Bare (s : Bytes) : Prop := ∀ b ∈ s, bare b = true

instance (s : Bytes) : Decidable (Bare s) :=
  decidable_of_iff (s.all bare = true) List.all_eq_true

theorem Bare.noControl {s : Bytes} (h : Bare s) : NoControl s := by
  intro b hb
  have hbare := h b hb
  simp only [bare, Bool.and_eq_true, decide_eq_true_eq] at hbare
  exact UInt8.le_of_lt hbare.1.1.1

inductive Value : Bytes → Bytes → Prop
  | bare {s : Bytes} : Bare s → Value s s
  | quoted {s : Bytes} {cs : List Json.Symbol} : Json.Chars s cs [] → Value (0x22 :: s) (Json.decode cs)

def pairText (p : Bytes × Bytes) : Bytes := p.1 ++ 0x3d :: p.2

def separated (ps : List (Bytes × Bytes)) : Bytes := ps.flatMap fun p => 0x20 :: pairText p

-- The text of a line: key=value pairs with a space between two of them.
def joined : List (Bytes × Bytes) → Bytes
  | [] => []
  | p :: ps => pairText p ++ separated ps

theorem joined_append {ps : List (Bytes × Bytes)} (hne : ps ≠ []) (qs : List (Bytes × Bytes)) :
    joined (ps ++ qs) = joined ps ++ separated qs := by
  obtain ⟨p, ps, rfl⟩ := List.exists_cons_of_ne_nil hne
  simp [joined, separated]

-- line = key "=" value *(" " key "=" value)
inductive Line : Bytes → List (Bytes × Bytes) → Prop
  | last {k t v : Bytes} : Bare k → Value t v → Line (pairText (k, t)) [(k, v)]
  | cons {k t v s : Bytes} {ps : List (Bytes × Bytes)} : Bare k → Value t v → Line s ps →
      Line (pairText (k, t) ++ 0x20 :: s) ((k, v) :: ps)

section Parser

-- scan reads a quoted value behind its opening quote.
variable (scan : Bytes → Option (Bytes × Bytes))

def scanValue : Bytes → Option (Bytes × Bytes)
  | [] => some ([], [])
  | b :: s =>
      if b = 0x22 then scan s else some ((b :: s).takeWhile bare, (b :: s).dropWhile bare)

def scanPair (s : Bytes) : Option ((Bytes × Bytes) × Bytes) :=
  match s.dropWhile bare with
  | [] => none
  | b :: t =>
      if b = 0x3d then (scanValue scan t).map fun p => ((s.takeWhile bare, p.1), p.2) else none

def parsePairs : Nat → Bytes → Option (List (Bytes × Bytes))
  | 0, _ => none
  | n + 1, s =>
      (scanPair scan s).bind fun p =>
        match p.2 with
        | [] => some [p.1]
        | b :: t => if b = 0x20 then (parsePairs n t).map (p.1 :: ·) else none

def parseWith (s : Bytes) : Option (List (Bytes × Bytes)) := parsePairs scan (s.length + 1) s

end Parser

def jsonString (s : Bytes) : Option (Bytes × Bytes) :=
  (Json.scanChars s).map fun p => (Json.decode p.1, p.2)

def parse (s : Bytes) : Option (List (Bytes × Bytes)) := parseWith jsonString s

-- What follows a value: nothing, or a space.
def Stops (s : Bytes) : Prop := ∀ b t, s = b :: t → b = 0x20

theorem stops_separated (ps : List (Bytes × Bytes)) : Stops (separated ps) := by
  intro b t h
  cases ps with
  | nil => cases h
  | cons p ps => exact (List.cons.inj h).1.symm

theorem takeWhile_bare {s t : Bytes} (hs : Bare s) (ht : ∀ b u, t = b :: u → bare b = false) :
    (s ++ t).takeWhile bare = s ∧ (s ++ t).dropWhile bare = t := by
  rw [List.takeWhile_append_of_pos hs, List.dropWhile_append_of_pos hs]
  cases t with
  | nil => simp
  | cons b u => simp [ht b u rfl]

theorem Stops.not_bare {s : Bytes} (h : Stops s) : ∀ b u, s = b :: u → bare b = false := by
  intro b u hs
  rw [h b u hs]
  rfl

theorem scanValue_bare (scan : Bytes → Option (Bytes × Bytes)) {t rest : Bytes} (h : Bare t)
    (hrest : Stops rest) : scanValue scan (t ++ rest) = some (t, rest) := by
  obtain ⟨htake, hdrop⟩ := takeWhile_bare h hrest.not_bare
  cases t with
  | nil =>
    cases rest with
    | nil => rfl
    | cons b rest =>
      rw [hrest b rest rfl]
      rfl
  | cons b t =>
    have hb : b ≠ 0x22 := by
      rintro rfl
      exact absurd (h 0x22 List.mem_cons_self) (by decide)
    rw [List.cons_append] at htake hdrop ⊢
    rw [scanValue, if_neg hb, htake, hdrop]

theorem Value.scan {t v rest : Bytes} (h : Value t v) (hrest : Stops rest) :
    scanValue jsonString (t ++ rest) = some (v, rest) := by
  cases h with
  | bare hbare => exact scanValue_bare jsonString hbare hrest
  | quoted hcs =>
    rw [List.cons_append, scanValue, if_pos rfl, jsonString, Json.scanChars_complete (hcs.append rest)]
    rfl

def spaceless (s : Bytes) : Nat := (s.takeWhile (· ≠ 0x20)).length

@[simp]
theorem spaceless_cons (b : Byte) (s : Bytes) :
    spaceless (b :: s) = if b = 0x20 then 0 else spaceless s + 1 := by
  by_cases h : b = 0x20 <;> simp [spaceless, h]

theorem spaceless_append_le (u s : Bytes) : spaceless (u ++ s) ≤ u.length + spaceless s := by
  induction u with
  | nil => simp
  | cons b u ih =>
    rw [List.cons_append, spaceless_cons, List.length_cons]
    split <;> omega

theorem spaceless_append_stops (u : Bytes) {s : Bytes} (h : Stops s) :
    spaceless (u ++ s) = spaceless u := by
  induction u with
  | nil =>
    cases s with
    | nil => rfl
    | cons b s => simp [h b s rfl, spaceless]
  | cons b u ih => rw [List.cons_append, spaceless_cons, spaceless_cons, ih]

theorem hexVal_ne_space {a : Byte} {n : Nat} (h : Json.hexVal a = some n) : a ≠ 0x20 := by
  rintro rfl
  simp [Json.hexVal, isDigit] at h

theorem chars_unit {s r : Bytes} {u : Nat} {cs : List Json.Symbol}
    (h : Json.Chars s (.unit u :: cs) r) :
    ∃ t, Json.Chars t cs r ∧ spaceless s = 6 + spaceless t := by
  cases h with
  | unicode hu h =>
    simp only [Json.hex4, Option.bind_eq_bind, Option.bind_eq_some_iff] at hu
    obtain ⟨wa, ha, wb, hb, wc, hc, wd, hd, -⟩ := hu
    refine ⟨_, h, ?_⟩
    simp only [spaceless_cons, hexVal_ne_space ha, hexVal_ne_space hb, hexVal_ne_space hc,
      hexVal_ne_space hd]
    simp
    omega

theorem chars_byte {s r : Bytes} {b : Byte} {cs : List Json.Symbol}
    (h : Json.Chars s (.byte b :: cs) r) :
    ∃ t, Json.Chars t cs r ∧ spaceless (b :: t) ≤ spaceless s := by
  cases h with
  | plain _ _ _ h => exact ⟨_, h, le_rfl⟩
  | @escape e _ t _ _ he h =>
    have hne : e ≠ 0x20 := by
      rintro rfl
      exact absurd he (by simp [Json.shortEscape])
    refine ⟨_, h, ?_⟩
    simp only [spaceless_cons, hne]
    simp
    split <;> omega

theorem utf8EncodeChar_length_le (c : Char) : (String.utf8EncodeChar c).length ≤ 4 := by
  rw [String.length_utf8EncodeChar]
  exact c.utf8Size_le_four

-- Reading a string body never brings its first space further back.
theorem spaceless_decode_le {cs : List Json.Symbol} {s r : Bytes} (h : Json.Chars s cs r) :
    spaceless (Json.decode cs) ≤ spaceless s := by
  induction cs using Json.decode.induct generalizing s with
  | case1 => exact Nat.zero_le _
  | case2 b cs ih =>
    obtain ⟨t, ht, hle⟩ := chars_byte h
    refine le_trans ?_ hle
    have := ih ht
    rw [Json.decode, spaceless_cons, spaceless_cons]
    split <;> omega
  | case3 hi lo cs hpair ih =>
    obtain ⟨t, ht, hs⟩ := chars_unit h
    obtain ⟨u, hu, ht'⟩ := chars_unit ht
    rw [Json.decode, if_pos hpair]
    have := ih hu
    have := utf8EncodeChar_length_le (Char.ofNat (0x10000 + (hi - 0xd800) * 0x400 + (lo - 0xdc00)))
    have := spaceless_append_le (String.utf8EncodeChar
      (Char.ofNat (0x10000 + (hi - 0xd800) * 0x400 + (lo - 0xdc00)))) (Json.decode cs)
    omega
  | case4 hi lo cs hpair ih =>
    obtain ⟨t, ht, hs⟩ := chars_unit h
    rw [Json.decode, if_neg hpair]
    have := ih ht
    have : (Json.encodeUnit hi).length ≤ 4 := utf8EncodeChar_length_le _
    have := spaceless_append_le (Json.encodeUnit hi) (Json.decode (.unit lo :: cs))
    omega
  | case5 u cs hne ih =>
    obtain ⟨t, ht, hs⟩ := chars_unit h
    have := ih ht
    have : (Json.encodeUnit u).length ≤ 4 := utf8EncodeChar_length_le _
    have := spaceless_append_le (Json.encodeUnit u) (Json.decode cs)
    rw [Json.decode]
    · omega
    · exact hne

-- A text copied as it is reads back as itself only where it is a bare token.
theorem bare_of_scan {t r rest : Bytes} (hrest : Stops rest)
    (h : scanValue jsonString (t ++ rest) = some (t, r)) : Bare t := by
  cases t with
  | nil => exact List.forall_mem_nil _
  | cons b t =>
    rw [List.cons_append, scanValue] at h
    split at h
    next hb =>
      obtain ⟨p, hp, hdecode⟩ := Option.map_eq_some_iff.mp h
      have hle := spaceless_decode_le (Json.scanChars_sound hp)
      rw [spaceless_append_stops t hrest, (Prod.mk.inj hdecode).1, spaceless_cons, hb,
        if_neg (by decide)] at hle
      omega
    next =>
      have htake := (Prod.mk.inj (Option.some.inj h)).1
      intro c hc
      rw [← htake] at hc
      exact List.mem_takeWhile_imp hc

section Joined

variable {scan : Bytes → Option (Bytes × Bytes)}

theorem scanPair_append {p : Bytes × Bytes} (hp : Bare p.1) (rest : Bytes) :
    scanPair scan (pairText p ++ rest) =
      (scanValue scan (p.2 ++ rest)).map fun v => ((p.1, v.1), v.2) := by
  have hstop : ∀ b u, 0x3d :: (p.2 ++ rest) = b :: u → bare b = false := by
    intro b u h
    rw [← (List.cons.inj h).1]
    rfl
  obtain ⟨htake, hdrop⟩ := takeWhile_bare hp hstop
  rw [scanPair, pairText, List.append_assoc, List.cons_append, hdrop, htake]
  simp

theorem parsePairs_cons {p : Bytes × Bytes} {v : Bytes} {ps : List (Bytes × Bytes)} (hp : Bare p.1)
    (hv : scanValue scan (p.2 ++ separated ps) = some (v, separated ps)) (n : Nat) :
    parsePairs scan (n + 1) (joined (p :: ps)) =
      if ps = [] then some [(p.1, v)] else (parsePairs scan n (joined ps)).map ((p.1, v) :: ·) := by
  rw [parsePairs, joined, scanPair_append hp, hv]
  cases ps with
  | nil => rfl
  | cons p' ps => simp [separated, joined]

theorem scan_of_parsePairs {p q : Bytes × Bytes} (hp : Bare p.1) {ps qs : List (Bytes × Bytes)}
    {n : Nat} (h : parsePairs scan (n + 1) (joined (p :: ps)) = some (q :: qs)) :
    ∃ r, scanValue scan (p.2 ++ separated ps) = some (q.2, r) := by
  rw [parsePairs, joined, scanPair_append hp] at h
  obtain ⟨x, hx, hqs⟩ := Option.bind_eq_some_iff.mp h
  obtain ⟨⟨v, r⟩, hv, rfl⟩ := Option.map_eq_some_iff.mp hx
  have hq : q = (p.1, v) := by
    split at hqs
    · exact (List.cons.inj (Option.some.inj hqs)).1.symm
    · split at hqs
      · obtain ⟨y, -, hy⟩ := Option.map_eq_some_iff.mp hqs
        exact (List.cons.inj hy).1.symm
      · cases hqs
  exact ⟨r, by rw [hv, hq]⟩

theorem length_le_separated (ps : List (Bytes × Bytes)) : ps.length ≤ (separated ps).length := by
  induction ps with
  | nil => simp
  | cons p ps ih =>
    simp only [separated, List.flatMap_cons, List.length_append, List.length_cons] at ih ⊢
    omega

theorem length_le_joined (ps : List (Bytes × Bytes)) : ps.length ≤ (joined ps).length := by
  cases ps with
  | nil => simp
  | cons p ps =>
    have hps := length_le_separated ps
    simp only [joined, pairText, List.length_append, List.length_cons]
    omega

-- The reader takes q from the pair p, wherever it stands in a line.
structure Reads (scan : Bytes → Option (Bytes × Bytes)) (p q : Bytes × Bytes) : Prop where
  key : q.1 = p.1
  bare : Bare p.1
  scans : ∀ {rest : Bytes}, Stops rest → scanValue scan (p.2 ++ rest) = some (q.2, rest)

theorem parsePairs_joined {ps qs : List (Bytes × Bytes)} (h : List.Forall₂ (Reads scan) ps qs)
    (hne : ps ≠ []) {n : Nat} (hn : ps.length ≤ n) : parsePairs scan n (joined ps) = some qs := by
  induction h generalizing n with
  | nil => exact absurd rfl hne
  | @cons p q ps qs hpq htail ih =>
    obtain ⟨n, rfl⟩ : ∃ m, n = m + 1 := Nat.exists_eq_succ_of_ne_zero (by rintro rfl; simp at hn)
    rw [parsePairs_cons hpq.bare (hpq.scans (stops_separated ps)), ← hpq.key]
    split
    next hnil =>
      subst hnil
      cases htail
      rfl
    next hcons =>
      rw [ih hcons (Nat.le_of_succ_le_succ hn)]
      rfl

theorem parseWith_joined {ps qs : List (Bytes × Bytes)} (h : List.Forall₂ (Reads scan) ps qs)
    (hne : ps ≠ []) : parseWith scan (joined ps) = some qs :=
  parsePairs_joined h hne ((length_le_joined ps).trans (Nat.le_succ _))

end Joined

-- The pair p was written for q: whenever a reader takes the value of q from it, it is its text.
structure Written (p q : Bytes × Bytes) : Prop where
  key : q.1 = p.1
  bare : Bare p.1
  honest : ∀ {rest r : Bytes}, Stops rest →
    scanValue jsonString (p.2 ++ rest) = some (q.2, r) → Value p.2 q.2

theorem Written.of_value {k t v : Bytes} (hk : Bare k) (h : Value t v) : Written (k, t) (k, v) :=
  ⟨rfl, hk, fun _ _ => h⟩

theorem written_raw {k t : Bytes} (hk : Bare k) : Written (k, t) (k, t) :=
  ⟨rfl, hk, fun hrest h => .bare (bare_of_scan hrest h)⟩

theorem value_raw_iff {t : Bytes} : Value t t ↔ Bare t := by
  refine ⟨fun h => ?_, .bare⟩
  have hstops : Stops [] := by simp [Stops]
  exact bare_of_scan hstops (h.scan hstops)

theorem Written.reads {p q : Bytes × Bytes} (h : Written p q) (hv : Value p.2 q.2) :
    Reads jsonString p q :=
  ⟨h.key, h.bare, hv.scan⟩

-- Read back as qs, the first pair that is not its text would give another value.
theorem values_of_parsePairs {ps qs : List (Bytes × Bytes)} (h : List.Forall₂ Written ps qs) {n : Nat}
    (hp : parsePairs jsonString n (joined ps) = some qs) :
    List.Forall₂ (fun p q => Value p.2 q.2) ps qs := by
  induction h generalizing n with
  | nil => exact .nil
  | @cons p q ps qs hpq htail ih =>
    obtain ⟨n, rfl⟩ : ∃ m, n = m + 1 := Nat.exists_eq_succ_of_ne_zero (by rintro rfl; cases hp)
    obtain ⟨r, hr⟩ := scan_of_parsePairs hpq.bare hp
    have hv := hpq.honest (stops_separated ps) hr
    refine .cons hv ?_
    rw [parsePairs_cons hpq.bare (hv.scan (stops_separated ps))] at hp
    split at hp
    next hnil =>
      subst hnil
      cases htail
      exact .nil
    next =>
      obtain ⟨qs', hqs', heq⟩ := Option.map_eq_some_iff.mp hp
      rw [(List.cons.inj heq).2] at hqs'
      exact ih hqs'

theorem parse_joined_iff {ps qs : List (Bytes × Bytes)} (h : List.Forall₂ Written ps qs)
    (hne : ps ≠ []) :
    parse (joined ps) = some qs ↔ List.Forall₂ (fun p q => Value p.2 q.2) ps qs := by
  refine ⟨values_of_parsePairs h, fun hv => parseWith_joined ?_ hne⟩
  exact List.Forall₂.mp (fun _ _ hw => hw.reads) h hv

theorem hexVal_noControl {a : Byte} {n : Nat} (h : Json.hexVal a = some n) : 32 ≤ a := by
  rw [UInt8.le_iff_toNat_le]
  unfold Json.hexVal at h
  split at h
  next hd =>
    have := isDigit_iff.mp hd
    simp only [UInt8.reduceToNat]
    omega
  next =>
    simp only [UInt8.reduceToNat]
    split at h
    · omega
    · split at h
      · omega
      · cases h

theorem shortEscape_mem {e b : Byte} (h : Json.shortEscape e = some b) :
    e ∈ ([0x22, 0x5c, 0x2f, 0x62, 0x66, 0x6e, 0x72, 0x74] : Bytes) := by
  by_contra hne
  simp only [List.mem_cons, List.not_mem_nil, or_false, not_or] at hne
  simp [Json.shortEscape, hne] at h

theorem chars_noControl {s r : Bytes} {cs : List Json.Symbol} (h : Json.Chars s cs r)
    (hr : NoControl r) : NoControl s := by
  induction h with
  | nil => exact noControl_cons.mpr ⟨by decide, hr⟩
  | plain hle _ _ _ ih => exact noControl_cons.mpr ⟨hle, ih hr⟩
  | @escape e b s r cs he _ ih =>
    have hle : 32 ≤ e := List.all_iff_forall_prop.mp (by decide) e (shortEscape_mem he)
    exact noControl_cons.mpr ⟨by decide, noControl_cons.mpr ⟨hle, ih hr⟩⟩
  | unicode hu _ ih =>
    simp only [Json.hex4, Option.bind_eq_bind, Option.bind_eq_some_iff] at hu
    obtain ⟨wa, ha, wb, hb, wc, hc, wd, hd, -⟩ := hu
    simp only [noControl_cons]
    exact ⟨by decide, by decide, hexVal_noControl ha, hexVal_noControl hb, hexVal_noControl hc,
      hexVal_noControl hd, ih hr⟩

theorem Value.noControl {t v : Bytes} (h : Value t v) : NoControl t := by
  cases h with
  | bare hbare => exact Bare.noControl hbare
  | quoted hcs => exact noControl_cons.mpr ⟨by decide, chars_noControl hcs noControl_nil⟩

theorem Written.noControl {p q : Bytes × Bytes} (h : Written p q) (hv : Value p.2 q.2) :
    NoControl (pairText p) :=
  noControl_append.mpr ⟨h.bare.noControl, noControl_cons.mpr ⟨by decide, hv.noControl⟩⟩

theorem separated_noControl {ps qs : List (Bytes × Bytes)} (h : List.Forall₂ Written ps qs)
    (hv : List.Forall₂ (fun p q => Value p.2 q.2) ps qs) : NoControl (separated ps) := by
  induction h with
  | nil => exact noControl_nil
  | @cons p q ps qs hpq _ ih =>
    obtain ⟨hvalue, htail⟩ := List.forall₂_cons.mp hv
    rw [separated, List.flatMap_cons, List.cons_append, noControl_cons, noControl_append]
    exact ⟨by decide, hpq.noControl hvalue, ih htail⟩

theorem joined_noControl {ps qs : List (Bytes × Bytes)} (h : List.Forall₂ Written ps qs)
    (hv : List.Forall₂ (fun p q => Value p.2 q.2) ps qs) : NoControl (joined ps) := by
  cases h with
  | nil => exact noControl_nil
  | cons hpq hps =>
    obtain ⟨hvalue, htail⟩ := List.forall₂_cons.mp hv
    exact noControl_append.mpr ⟨hpq.noControl hvalue, separated_noControl hps htail⟩

theorem chars_split {s r : Bytes} {cs : List Json.Symbol} (h : Json.Chars s cs r) :
    ∃ u, s = u ++ r ∧ Json.Chars u cs [] := by
  induction h with
  | nil => exact ⟨[0x22], rfl, .nil⟩
  | plain hle hquote hslash _ ih =>
    obtain ⟨u, rfl, hu⟩ := ih
    exact ⟨_, rfl, .plain hle hquote hslash hu⟩
  | escape he _ ih =>
    obtain ⟨u, rfl, hu⟩ := ih
    exact ⟨_, rfl, .escape he hu⟩
  | unicode hx _ ih =>
    obtain ⟨u, rfl, hu⟩ := ih
    exact ⟨_, rfl, .unicode hx hu⟩

theorem value_of_scan {s v r : Bytes} (h : scanValue jsonString s = some (v, r)) :
    ∃ t, s = t ++ r ∧ Value t v := by
  cases s with
  | nil =>
    cases h
    exact ⟨[], rfl, .bare (List.forall_mem_nil _)⟩
  | cons b s =>
    rw [scanValue] at h
    split at h
    next hb =>
      obtain ⟨p, hp, hv⟩ := Option.map_eq_some_iff.mp h
      cases hv
      obtain ⟨u, rfl, hu⟩ := chars_split (Json.scanChars_sound hp)
      exact ⟨0x22 :: u, by rw [hb]; rfl, .quoted hu⟩
    next =>
      cases h
      exact ⟨_, (List.takeWhile_append_dropWhile ..).symm, .bare fun _ => List.mem_takeWhile_imp⟩

theorem pair_of_scan {s r : Bytes} {q : Bytes × Bytes} (h : scanPair jsonString s = some (q, r)) :
    ∃ t, s = pairText (q.1, t) ++ r ∧ Bare q.1 ∧ Value t q.2 := by
  unfold scanPair at h
  split at h
  next => cases h
  next b u hdrop =>
    split at h
    next hb =>
      obtain ⟨p, hp, hq⟩ := Option.map_eq_some_iff.mp h
      cases hq
      obtain ⟨t, rfl, hv⟩ := value_of_scan hp
      refine ⟨t, ?_, fun _ => List.mem_takeWhile_imp, hv⟩
      have hs := (List.takeWhile_append_dropWhile (p := bare) (l := s)).symm
      rw [hdrop, hb] at hs
      simpa [pairText] using hs
    next => cases h

theorem line_of_parsePairs {n : Nat} {s : Bytes} {qs : List (Bytes × Bytes)}
    (h : parsePairs jsonString n s = some qs) : Line s qs := by
  induction n generalizing s qs with
  | zero => cases h
  | succ n ih =>
    obtain ⟨⟨q, r⟩, hq, hqs⟩ := Option.bind_eq_some_iff.mp h
    obtain ⟨t, rfl, hbare, hv⟩ := pair_of_scan hq
    cases r with
    | nil =>
      cases hqs
      rw [List.append_nil]
      exact .last hbare hv
    | cons b r =>
      dsimp only at hqs
      split at hqs
      next hb =>
        obtain ⟨ps, hps, rfl⟩ := Option.map_eq_some_iff.mp hqs
        rw [hb]
        exact .cons hbare hv (ih hps)
      next => cases hqs

theorem Line.texts {s : Bytes} {qs : List (Bytes × Bytes)} (h : Line s qs) :
    ∃ ps, ps ≠ [] ∧ s = joined ps ∧ List.Forall₂ Written ps qs ∧
      List.Forall₂ (fun p q => Value p.2 q.2) ps qs := by
  induction h with
  | @last k t v hk hv =>
    exact ⟨[(k, t)], by simp, by simp [joined, separated], .cons (.of_value hk hv) .nil,
      .cons hv .nil⟩
  | @cons k t v s qs hk hv _ ih =>
    obtain ⟨ps, hne, rfl, hwritten, hvalues⟩ := ih
    refine ⟨(k, t) :: ps, by simp, ?_, .cons (.of_value hk hv) hwritten, .cons hv hvalues⟩
    obtain ⟨p, ps, rfl⟩ := List.exists_cons_of_ne_nil hne
    simp [joined, separated]

theorem parse_eq_some {s : Bytes} {qs : List (Bytes × Bytes)} : parse s = some qs ↔ Line s qs := by
  refine ⟨line_of_parsePairs, fun h => ?_⟩
  obtain ⟨ps, hne, rfl, hwritten, hvalues⟩ := h.texts
  exact (parse_joined_iff hwritten hne).mpr hvalues

end Foundation.Logfmt
