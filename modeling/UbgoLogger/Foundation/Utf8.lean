import UbgoLogger.Foundation.Text

namespace Foundation.Text

def Utf8 (s : Bytes) : Prop := ∃ cs : List Char, s = cs.flatMap String.utf8EncodeChar

theorem utf8_iff (s : Bytes) : Utf8 s ↔ s.toByteArray.IsValidUTF8 := by
  constructor
  · rintro ⟨cs, rfl⟩
    exact ⟨cs, rfl⟩
  · rintro ⟨cs, h⟩
    have hdata := congrArg (fun b : ByteArray => b.data.toList) h
    exact ⟨cs, by simpa [List.utf8Encode] using hdata⟩

instance (s : Bytes) : Decidable (Utf8 s) := decidable_of_iff _ (utf8_iff s).symm

def IsAscii (s : Bytes) : Prop := ∀ b ∈ s, b.toNat < 128

instance (s : Bytes) : Decidable (IsAscii s) :=
  decidable_of_iff (s.all fun b => decide (b.toNat < 128)) (by simp [IsAscii])

theorem utf8EncodeChar_cases (c : Char) :
    (∃ b, String.utf8EncodeChar c = [b] ∧ b.toNat < 128) ∨
      ∀ b ∈ String.utf8EncodeChar c, 128 ≤ b.toNat := by
  have hlow : ∀ n k : Nat, 128 ≤ k → k + n ≤ 255 → 128 ≤ (UInt8.ofNat (n + k)).toNat := by
    intro n k hk hn
    rw [UInt8.toNat_ofNat', Nat.mod_eq_of_lt (by omega)]
    omega
  unfold String.utf8EncodeChar
  dsimp only
  split
  next h =>
    refine .inl ⟨_, rfl, ?_⟩
    rw [UInt8.toNat_ofNat']
    omega
  next =>
    right
    split
    · simp only [List.forall_mem_cons, List.not_mem_nil, false_implies, implies_true, and_true]
      exact ⟨hlow _ _ (by omega) (by omega), hlow _ _ (by omega) (by omega)⟩
    · split
      · simp only [List.forall_mem_cons, List.not_mem_nil, false_implies, implies_true, and_true]
        exact ⟨hlow _ _ (by omega) (by omega), hlow _ _ (by omega) (by omega),
          hlow _ _ (by omega) (by omega)⟩
      · simp only [List.forall_mem_cons, List.not_mem_nil, false_implies, implies_true, and_true]
        exact ⟨hlow _ _ (by omega) (by omega), hlow _ _ (by omega) (by omega),
          hlow _ _ (by omega) (by omega), hlow _ _ (by omega) (by omega)⟩

theorem utf8_nil : Utf8 [] := ⟨[], rfl⟩

theorem utf8EncodeChar_ofNat {n : Nat} (h : n < 128) :
    String.utf8EncodeChar (Char.ofNat n) = [UInt8.ofNat n] := by
  have hval : (Char.ofNat n).val.toNat = n := by
    have hvalid : n.isValidChar := .inl (by omega)
    rw [Char.ofNat, dif_pos hvalid]
    rfl
  have hle : n ≤ 127 := by omega
  simp [String.utf8EncodeChar, hval, hle]

theorem utf8_singleton {b : Byte} (h : b.toNat < 128) : Utf8 [b] := by
  refine ⟨[Char.ofNat b.toNat], ?_⟩
  simp [utf8EncodeChar_ofNat h]

theorem Utf8.append {s t : Bytes} (hs : Utf8 s) (ht : Utf8 t) : Utf8 (s ++ t) := by
  obtain ⟨cs, rfl⟩ := hs
  obtain ⟨ds, rfl⟩ := ht
  exact ⟨cs ++ ds, List.flatMap_append.symm⟩

theorem utf8_split {b : Byte} (hb : b.toNat < 128) (cs : List Char) {s t : Bytes}
    (h : cs.flatMap String.utf8EncodeChar = s ++ b :: t) : Utf8 s ∧ Utf8 t := by
  induction cs generalizing s with
  | nil => simp at h
  | cons c cs ih =>
    rw [List.flatMap_cons] at h
    rcases utf8EncodeChar_cases c with ⟨a, ha, -⟩ | hhigh
    · rw [ha] at h
      cases s with
      | nil => exact ⟨utf8_nil, cs, (List.cons.inj h).2.symm⟩
      | cons a' s =>
        obtain ⟨rfl, htail⟩ := List.cons.inj h
        obtain ⟨hs, ht⟩ := ih (s := s) htail
        exact ⟨Utf8.append (s := [a]) ⟨[c], by simp [ha]⟩ hs, ht⟩
    · -- an ASCII byte is no part of a longer encoding, so the split lies behind it
      rcases List.append_eq_append_iff.mp h with ⟨u, rfl, hu⟩ | ⟨u, hu, hrest⟩
      · obtain ⟨hs, ht⟩ := ih hu
        exact ⟨Utf8.append ⟨[c], by simp⟩ hs, ht⟩
      · cases u with
        | nil =>
          obtain ⟨hs, ht⟩ := ih (s := []) hrest.symm
          rw [List.append_nil] at hu
          exact ⟨⟨[c], by simp [hu]⟩, ht⟩
        | cons a u =>
          obtain ⟨rfl, -⟩ := List.cons.inj hrest
          exact absurd (hhigh b (hu ▸ by simp)) (by omega)

theorem utf8_append_cons {s t : Bytes} {b : Byte} (hb : b.toNat < 128) :
    Utf8 (s ++ b :: t) ↔ Utf8 s ∧ Utf8 t := by
  constructor
  · rintro ⟨cs, hcs⟩
    exact utf8_split hb cs hcs.symm
  · rintro ⟨hs, ht⟩
    exact hs.append (Utf8.append (utf8_singleton hb) ht)

theorem utf8_cons {b : Byte} (hb : b.toNat < 128) {s : Bytes} : Utf8 (b :: s) ↔ Utf8 s := by
  have h := utf8_append_cons (s := []) (t := s) hb
  simpa [utf8_nil] using h

theorem utf8_ascii_append {s t : Bytes} (hs : IsAscii s) : Utf8 (s ++ t) ↔ Utf8 t := by
  induction s with
  | nil => rfl
  | cons b s ih =>
    obtain ⟨hb, hs⟩ := List.forall_mem_cons.mp hs
    rw [List.cons_append, utf8_cons hb, ih hs]

theorem IsAscii.utf8 {s : Bytes} (h : IsAscii s) : Utf8 s := by
  simpa [utf8_nil] using (utf8_ascii_append (t := []) h).mpr

theorem utf8_append_ascii {s t : Bytes} (ht : IsAscii t) : Utf8 (s ++ t) ↔ Utf8 s := by
  cases t with
  | nil => rw [List.append_nil]
  | cons b t =>
    obtain ⟨hb, ht⟩ := List.forall_mem_cons.mp ht
    rw [utf8_append_cons hb, and_iff_left (IsAscii.utf8 ht)]

end Foundation.Text
