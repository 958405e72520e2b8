import UbgoLogger.Foundation.JsonPiece

namespace Foundation.Json
open Foundation.Text

section Counting

variable {s t u r c : Bytes}

-- The characters c of a string s: never fewer than s has, and no quote that s has not.
structure Between (c s : Bytes) : Prop where
  length_le : s.length ≤ c.length
  plain : c.length ≤ s.length → ∀ b ∈ s, Unescaped b
  quotes_le : c.count 0x22 ≤ s.count 0x22

theorem Chars.between {cs : List Symbol} (h : Chars u cs r) :
    ∃ c, u = c ++ 0x22 :: r ∧ Between c (decode cs) := by
  obtain ⟨c, rfl, hwidth, hplain, hquotes⟩ := h.body
  have hle := decode_length_le cs
  refine ⟨c, rfl, hle.trans hwidth, fun htight => ?_, hquotes.trans (quotes_decode cs)⟩
  have hc := hplain (htight.trans hle)
  obtain ⟨hchars, hdecode⟩ := chars_of_unescaped hc r
  obtain ⟨rfl, -⟩ := h.unique hchars
  rwa [hdecode]

theorem Ws.blank (h : Ws s t) : ∃ w, s = w ++ t ∧ w.count 0x22 = 0 ∧ 0x7d ∉ w := by
  obtain ⟨w, hw, rfl⟩ := h
  have hnot : ∀ b, isWs b = false → b ∉ w := by
    intro b hb hmem
    have hws := List.all_eq_true.mp hw b hmem
    rw [hb] at hws
    exact absurd hws (by decide)
  exact ⟨w, rfl, List.count_eq_zero.mpr (hnot _ (by decide)), hnot _ (by decide)⟩

-- A member whose value is a string, written as c.
structure Entry (c : Bytes) (l : Bytes × Bytes) : Prop where
  length_le : l.1.length + l.2.length + 5 ≤ c.length
  plain : c.length ≤ l.1.length + l.2.length + 5 →
    (∀ b ∈ l.1, Unescaped b) ∧ ∀ b ∈ l.2, Unescaped b
  quotes_le : c.count 0x22 ≤ l.1.count 0x22 + l.2.count 0x22 + 4
  ends : ∃ d, c = d ++ [0x22]

theorem Member.entry {l : Bytes × Bytes} (h : Member s (l.1, .string l.2) r) :
    ∃ c, s = c ++ r ∧ Entry c l := by
  obtain ⟨k, x⟩ := l
  generalize hm : (k, Json.string x) = m at h
  cases h with
  | mk hs hk hcolon ha hv =>
    obtain ⟨rfl, rfl⟩ := Prod.mk.inj hm
    obtain ⟨w₁, rfl, hw₁, -⟩ := hs.blank
    obtain ⟨key, rfl, hkey⟩ := hk.between
    obtain ⟨w₂, rfl, hw₂, -⟩ := hcolon.blank
    obtain ⟨w₃, rfl, hw₃, -⟩ := ha.blank
    obtain ⟨_, cs, rfl, hchars, rfl⟩ := hv.shape
    obtain ⟨val, rfl, hval⟩ := hchars.between
    have hkle := hkey.length_le
    have hvle := hval.length_le
    have hkq := hkey.quotes_le
    have hvq := hval.quotes_le
    refine ⟨w₁ ++ 0x22 :: (key ++ 0x22 :: (w₂ ++ 0x3a :: (w₃ ++ 0x22 :: (val ++ [0x22])))),
      by simp, ?_, fun htight => ?_, ?_, ?_⟩
    · simp only [List.length_append, List.length_cons, List.length_nil]
      omega
    · simp only [List.length_append, List.length_cons, List.length_nil] at htight
      exact ⟨hkey.plain (by omega), hval.plain (by omega)⟩
    · simp only [List.count_append, List.count_cons_self, List.count_nil, hw₁, hw₂, hw₃,
        List.count_cons_of_ne (by decide : (0x3a : Byte) ≠ 0x22)]
      omega
    · exact ⟨w₁ ++ 0x22 :: (key ++ 0x22 :: (w₂ ++ 0x3a :: (w₃ ++ 0x22 :: val))), by simp⟩

def size (ls : List (Bytes × Bytes)) : Nat := (ls.map fun l => l.1.length + l.2.length + 6).sum

def quotes (ls : List (Bytes × Bytes)) : Nat :=
  (ls.map fun l => l.1.count 0x22 + l.2.count 0x22 + 4).sum

@[simp] theorem size_cons (l : Bytes × Bytes) (ls : List (Bytes × Bytes)) :
    size (l :: ls) = l.1.length + l.2.length + 6 + size ls := rfl

@[simp] theorem quotes_cons (l : Bytes × Bytes) (ls : List (Bytes × Bytes)) :
    quotes (l :: ls) = l.1.count 0x22 + l.2.count 0x22 + 4 + quotes ls := rfl

def flat (l : Bytes × Bytes) : Bytes × Json := (l.1, .string l.2)

def Verbatim (ls : List (Bytes × Bytes)) : Prop :=
  ∀ l ∈ ls, (∀ b ∈ l.1, Unescaped b) ∧ ∀ b ∈ l.2, Unescaped b

-- The members of an object of strings, up to its closing brace.
structure Flat (c : Bytes) (ls : List (Bytes × Bytes)) : Prop where
  size_le : size ls ≤ c.length + 1
  plain : c.length + 1 ≤ size ls → Verbatim ls
  quotes_le : c.count 0x22 ≤ quotes ls
  ends : ∃ d w, c = d ++ 0x22 :: w ∧ 0x7d ∉ w

theorem Entry.flat {l : Bytes × Bytes} {w : Bytes} (h : Entry c l) (hw : w.count 0x22 = 0)
    (hbrace : 0x7d ∉ w) : Flat (c ++ w) [l] := by
  obtain ⟨d, rfl⟩ := h.ends
  have hle := h.length_le
  have hquotes := h.quotes_le
  have hsize : size [l] = l.1.length + l.2.length + 6 := rfl
  have hcount : quotes [l] = l.1.count 0x22 + l.2.count 0x22 + 4 := rfl
  refine ⟨?_, fun htight => ?_, ?_, d, w, by simp, hbrace⟩
  · rw [hsize, List.length_append]
    omega
  · rw [hsize, List.length_append] at htight
    exact List.forall_mem_singleton.mpr (h.plain (by omega))
  · rw [hcount, List.count_append, hw]
    exact hquotes

theorem Flat.cons {l : Bytes × Bytes} {ls : List (Bytes × Bytes)} {w d : Bytes} (hd : Flat d ls)
    (h : Entry c l) (hw : w.count 0x22 = 0) : Flat (c ++ w ++ 0x2c :: d) (l :: ls) := by
  obtain ⟨e, v, rfl, hbrace⟩ := hd.ends
  have hle := h.length_le
  have hle' := hd.size_le
  have hquotes := h.quotes_le
  have hquotes' := hd.quotes_le
  refine ⟨?_, fun htight => ?_, ?_, c ++ w ++ 0x2c :: e, v, by simp, hbrace⟩
  · rw [size_cons, List.length_append, List.length_append, List.length_cons]
    omega
  · rw [size_cons, List.length_append, List.length_append, List.length_cons] at htight
    exact List.forall_mem_cons.mpr ⟨h.plain (by omega), hd.plain (by omega)⟩
  · rw [quotes_cons, List.count_append, List.count_append, hw, List.count_cons_of_ne (by decide)]
    omega

theorem Members.flat {ls : List (Bytes × Bytes)} (h : Members s (ls.map flat) r) :
    ∃ c, s = c ++ 0x7d :: r ∧ Flat c ls := by
  induction ls generalizing s with
  | nil => cases h
  | cons l ls ih =>
    rw [List.map_cons] at h
    generalize hms : ls.map Json.flat = ms at h ih
    cases h with
    | cons hm hu hrest =>
      obtain ⟨c, rfl, hc⟩ := hm.entry
      obtain ⟨w, rfl, hw, -⟩ := hu.blank
      obtain ⟨d, rfl, hd⟩ := ih hrest
      exact ⟨c ++ w ++ 0x2c :: d, by simp, hd.cons hc hw⟩
    | last hm hu =>
      obtain rfl := List.map_eq_nil_iff.mp hms
      obtain ⟨c, rfl, hc⟩ := hm.entry
      obtain ⟨w, rfl, hw, hbrace⟩ := hu.blank
      exact ⟨c ++ w, by simp, hc.flat hw hbrace⟩

-- Behind a brace that follows the last quote there is no further end of the object.
theorem Flat.quote_mem {d : Bytes} {ls : List (Bytes × Bytes)} (h : Flat (t ++ 0x7d :: d) ls) :
    0x22 ∈ d := by
  obtain ⟨e, w, he, hbrace⟩ := h.ends
  rcases List.append_eq_append_iff.mp he with ⟨f, -, hf⟩ | ⟨f, -, hf⟩
  · cases f with
    | nil => exact absurd (List.cons.inj hf).1 (by decide)
    | cons b f => exact (List.cons.inj hf).2 ▸ by simp
  · cases f with
    | nil => exact absurd (List.cons.inj hf).1 (by decide)
    | cons b f => exact absurd ((List.cons.inj hf).2 ▸ by simp) hbrace

end Counting

namespace Piece

def strings (ls : List (Bytes × Bytes)) : List (Bytes × Piece) := ls.map fun l => (l.1, raw l.2)

theorem strings_member (ls : List (Bytes × Bytes)) : (strings ls).map member = ls.map flat := by
  rw [strings, List.map_map]
  rfl

theorem strings_ok {ls : List (Bytes × Bytes)} : (object (strings ls)).ok ↔ Verbatim ls :=
  List.forall_mem_map

theorem memberText_raw (l : Bytes × Bytes) :
    (memberText (l.1, raw l.2)).length = l.1.length + l.2.length + 5 ∧
      (memberText (l.1, raw l.2)).count 0x22 = l.1.count 0x22 + l.2.count 0x22 + 4 := by
  constructor
  · simp [memberText, raw]
    omega
  · simp [memberText, raw]
    omega

theorem strings_text (l : Bytes × Bytes) (ls : List (Bytes × Bytes)) :
    (list ((strings (l :: ls)).map memberText)).length + 1 = size (l :: ls) ∧
      (list ((strings (l :: ls)).map memberText)).count 0x22 = quotes (l :: ls) := by
  induction ls generalizing l with
  | nil =>
    obtain ⟨hlength, hcount⟩ := memberText_raw l
    have htext : list ((strings [l]).map memberText) = memberText (l.1, raw l.2) := list_singleton _
    rw [htext, hlength, hcount]
    exact ⟨rfl, rfl⟩
  | cons l' ls ih =>
    obtain ⟨hlength, hcount⟩ := memberText_raw l
    obtain ⟨ihlength, ihcount⟩ := ih l'
    have htext : list ((strings (l :: l' :: ls)).map memberText) =
        memberText (l.1, raw l.2) ++ 0x2c :: list ((strings (l' :: ls)).map memberText) :=
      list_cons _ _ _
    rw [htext, size_cons, quotes_cons, ← ihlength, ← ihcount, List.length_append, List.length_cons,
      List.count_append, List.count_cons_of_ne (by decide), hlength, hcount]
    omega

theorem map_flat_ne_nil {l : Bytes × Bytes} {ls ls' : List (Bytes × Bytes)} (hperm : ls'.Perm (l :: ls)) :
    ls'.map Json.flat ≠ [] := by
  rw [Ne, List.map_eq_nil_iff]
  rintro rfl
  exact absurd hperm.symm.eq_nil (List.cons_ne_nil _ _)

theorem flat_injective : Function.Injective Json.flat := by
  rintro ⟨k, x⟩ ⟨k', x'⟩ h
  simpa [Json.flat] using h

-- An object of strings read in any order of its members: there is only room for what was written.
theorem strings_reads {ls ls' : List (Bytes × Bytes)} (hperm : ls'.Perm ls) {rest r : Bytes}
    (h : Value ((object (strings ls)).text ++ rest) (.object (ls'.map flat)) r) :
    Verbatim ls ∧ r = rest := by
  cases ls with
  | nil =>
    obtain rfl := hperm.eq_nil
    have hread := ((object (strings [])).reads_iff rest r).mp h
    exact ⟨strings_ok.mp hread.1, hread.2⟩
  | cons l ls =>
    obtain ⟨hlength, hcount⟩ := strings_text l ls
    have hne := map_flat_ne_nil hperm
    have hsize : size ls' = size (l :: ls) := (hperm.map _).sum_eq
    have hquotes : quotes ls' = quotes (l :: ls) := (hperm.map _).sum_eq
    generalize htext : list ((strings (l :: ls)).map memberText) = text at hlength hcount
    have hwritten : (object (strings (l :: ls))).text ++ rest = 0x7b :: (text ++ 0x7d :: rest) := by
      rw [← htext]
      simp [object]
    rw [hwritten, value_object_iff] at h
    obtain ⟨c, hsplit, hc⟩ := (h.resolve_left fun he => hne he.1).flat
    have hle := hc.size_le
    have hqle := hc.quotes_le
    have hplain : c.length ≤ text.length → Verbatim (l :: ls) := by
      intro hshort m hm
      exact hc.plain (by omega) m (hperm.mem_iff.mpr hm)
    rcases List.append_eq_append_iff.mp hsplit with ⟨d, rfl, hd⟩ | ⟨d, rfl, hd⟩
    · cases d with
      | nil => exact ⟨hplain (by simp), (List.cons.inj hd).2.symm⟩
      | cons b d =>
        obtain ⟨rfl, -⟩ := List.cons.inj hd
        have hquote := List.count_pos_iff.mpr hc.quote_mem
        rw [List.count_append, List.count_cons_of_ne (by decide)] at hqle
        omega
    · cases d with
      | nil => exact ⟨hplain (by simp), (List.cons.inj hd).2⟩
      | cons b d =>
        simp only [List.length_append, List.length_cons] at hlength
        omega

-- The same text where the members are wanted in the order ls'.
def flat (ls ls' : List (Bytes × Bytes)) (hperm : ls'.Perm ls) : Piece where
  text := (object (strings ls)).text
  value := .object (ls'.map Json.flat)
  ok := ls' = ls ∧ Verbatim ls
  starts := (object (strings ls)).starts
  reads_iff rest r := by
    have hobject := (object (strings ls)).reads_iff rest
    have hvalue : (object (strings ls)).value = .object (ls.map Json.flat) :=
      congrArg Json.object (strings_member ls)
    rw [hvalue] at hobject
    constructor
    · intro h
      obtain ⟨hplain, rfl⟩ := strings_reads hperm h
      have hread := (hobject r).mpr ⟨strings_ok.mpr hplain, rfl⟩
      refine ⟨⟨?_, hplain⟩, rfl⟩
      cases ls with
      | nil => exact hperm.eq_nil
      | cons l ls =>
        have hms := (value_object_iff.mp h).resolve_left fun he => map_flat_ne_nil hperm he.1
        have hns := (value_object_iff.mp hread).resolve_left fun he => List.cons_ne_nil _ _ he.1
        exact List.map_injective_iff.mpr flat_injective (hms.unique hns).1
    · rintro ⟨⟨rfl, hplain⟩, rfl⟩
      exact (hobject r).mpr ⟨strings_ok.mpr hplain, rfl⟩

end Piece

end Foundation.Json
