import UbgoLogger.Encode.Shortest

namespace UbgoLogger
open Foundation Foundation.Text

theorem trimZeros_append (s : Bytes) :
    trimZeros s ++ List.replicate (s.length - (trimZeros s).length) 48 = s := by
  have hsplit := List.takeWhile_append_dropWhile (p := fun b : Byte => decide (b = 48)) (l := s.reverse)
  have hs : s = trimZeros s ++ (s.reverse.takeWhile fun b : Byte => decide (b = 48)).reverse := by
    rw [trimZeros, ← List.reverse_append, hsplit, List.reverse_reverse]
  have hlen := congrArg List.length hs
  rw [List.length_append, List.length_reverse] at hlen
  have hzeros : (s.reverse.takeWhile fun b : Byte => decide (b = 48)).reverse =
      List.replicate (s.length - (trimZeros s).length) 48 := by
    refine List.eq_replicate_iff.mpr ⟨by rw [List.length_reverse]; omega, ?_⟩
    intro b hb
    have hall := List.all_takeWhile (p := fun b : Byte => decide (b = 48)) (l := s.reverse)
    exact of_decide_eq_true (List.all_eq_true.mp hall b (List.mem_reverse.mp hb))
  rw [← hzeros]
  exact hs.symm

theorem decimal_head {r : Nat} (hr : 0 < r) : (decimal r).head? ≠ some 48 := by
  intro hhead
  obtain ⟨b, t, ht⟩ := List.exists_cons_of_ne_nil (decimal_ne_nil r)
  rw [ht, List.head?_cons, Option.some.injEq] at hhead
  have hpad := decimal_not_padded r
  rw [ht, padded, hhead] at hpad
  have hnil : t = [] := by
    by_contra hne
    exact hpad ⟨by simpa using List.length_pos_of_ne_nil hne, rfl⟩
  have hvalue := natural_decimal r
  rw [ht, hhead, hnil] at hvalue
  have : natural [48] = 0 := by decide
  omega

theorem zeros_digits (k : Nat) : (List.replicate k (48 : Byte)).all isDigit = true := by
  rw [List.all_eq_true]
  intro b hb
  rw [List.eq_of_mem_replicate hb]
  decide

theorem formatIntWidth_digits (n width : Nat) :
    AllDigits (formatIntWidth n width) ∧ natural (formatIntWidth n width) = n := by
  have hpad : formatIntWidth n width =
      List.replicate (width - (decimal n).length) 48 ++ decimal n := by
    simp [formatIntWidth]
  rw [hpad]
  constructor
  · refine ⟨by simp [decimal_ne_nil], ?_⟩
    rw [List.all_append, zeros_digits, (decimal_digits n).2, Bool.and_true]
  · rw [natural_append, natural_zeros, natural_decimal]
    omega

namespace Float

structure Canonical (d : Digits) : Prop where
  digits : AllDigits d.digits
  head : d.digits.head? ≠ some 48

def Digits.value (d : Digits) : ℚ := (natural d.digits : ℚ) * 10 ^ (d.point - d.digits.length)

theorem trimZeros_canonical {r : Nat} (hr : 0 < r) (point : Int) :
    Canonical { digits := trimZeros (decimal r), point := point } := by
  have happend := trimZeros_append (decimal r)
  have hne : trimZeros (decimal r) ≠ [] := by
    intro hnil
    rw [hnil, List.nil_append] at happend
    refine decimal_head hr ?_
    rw [← happend]
    have hlen := List.length_pos_iff.mpr (decimal_ne_nil r)
    obtain ⟨k, hk⟩ : ∃ k, (decimal r).length - ([] : Bytes).length = k + 1 :=
      ⟨(decimal r).length - 1, by simp only [List.length_nil]; omega⟩
    rw [hk]
    rfl
  refine ⟨⟨hne, ?_⟩, ?_⟩
  · have hall := (decimal_digits r).2
    rw [← happend, List.all_append, Bool.and_eq_true] at hall
    exact hall.1
  · have hhead := decimal_head hr
    rw [← happend, List.head?_append_of_ne_nil _ hne] at hhead
    exact hhead

theorem trimZeros_value (r j : Nat) (dp : Int) :
    Digits.value { digits := trimZeros (decimal r), point := dp + ((decimal r).length - j) } =
      r * 10 ^ (dp - j) := by
  have happend := trimZeros_append (decimal r)
  have hle : (trimZeros (decimal r)).length ≤ (decimal r).length := by
    have hlen := congrArg List.length happend
    rw [List.length_append] at hlen
    omega
  have hnat : natural (trimZeros (decimal r)) *
      10 ^ ((decimal r).length - (trimZeros (decimal r)).length) = r := by
    have hvalue := natural_decimal r
    rw [← happend, natural_append, natural_zeros, List.length_replicate, Nat.add_zero] at hvalue
    exact hvalue
  have hcast : (natural (trimZeros (decimal r)) : ℚ) *
      10 ^ (((decimal r).length : Int) - (trimZeros (decimal r)).length) = r := by
    rw [← Nat.cast_sub hle, zpow_natCast]
    exact_mod_cast hnat
  rw [Digits.value, ← hcast, mul_assoc, ← zpow_add₀ (by norm_num)]
  congr 2
  ring

theorem exponent_spells (e : Int) :
    Numeral.Exp (101 :: ((if e < 0 then [45] else [43]) ++ formatIntWidth e.natAbs 2)) e := by
  obtain ⟨hdigits, hvalue⟩ := formatIntWidth_digits e.natAbs 2
  split
  next hneg =>
    have hexp : -((natural (formatIntWidth e.natAbs 2) : Nat) : Int) = e := by
      rw [hvalue]
      omega
    have h := Numeral.Exp.minus (e := 101) (by decide) hdigits
    rwa [hexp] at h
  next hpos =>
    have hexp : ((natural (formatIntWidth e.natAbs 2) : Nat) : Int) = e := by
      rw [hvalue]
      omega
    have h := Numeral.Exp.plus (e := 101) (by decide) hdigits
    rwa [hexp] at h

theorem frac_spells {ds : Bytes} (hd : ds.all isDigit = true) :
    Numeral.Frac (if ds = [] then [] else 46 :: ds) ds := by
  split
  next hnil => exact hnil ▸ .none
  next hne => exact .some ⟨hne, hd⟩

theorem not_padded_of_head {s : Bytes} (h : s.head? ≠ some 48) : ¬ padded s := fun hp => h hp.2

theorem formatE_spells (neg : Bool) {d : Digits} (hd : Canonical d) :
    ∃ n, Numeral.Spells (Numeral.sign neg ++ formatE d) n ∧ n.neg = neg ∧ n.magnitude = d.value := by
  obtain ⟨⟨hne, hall⟩, hhead⟩ := hd
  obtain ⟨ds, point⟩ := d
  obtain ⟨b, t, rfl⟩ := List.exists_cons_of_ne_nil hne
  rw [List.all_cons, Bool.and_eq_true] at hall
  have hspells : Numeral.Spells _ ⟨neg, [b], t, point - 1⟩ :=
    .mk ⟨by simp, by simpa using hall.1⟩ (not_padded_of_head (by simpa using hhead))
      (frac_spells hall.2) (exponent_spells (point - 1))
  refine ⟨⟨neg, [b], t, point - 1⟩, ?_, rfl, ?_⟩
  · convert hspells using 2
    simp [formatE]
  · simp only [Numeral.magnitude, Digits.value, List.singleton_append, List.length_cons]
    congr 2
    push_cast
    ring

section Plain

variable (neg : Bool) {ds : Bytes}

theorem formatF_inside (hall : ds.all isDigit = true) (hhead : ds.head? ≠ some 48) {p : Nat}
    (hp : 0 < p) (hlt : p < ds.length) :
    ∃ n, Numeral.Spells (Numeral.sign neg ++ formatF ⟨ds, p⟩) n ∧ n.neg = neg ∧
      n.magnitude = Digits.value ⟨ds, p⟩ := by
  have htake : ds.take p ≠ [] := by
    rw [← List.length_pos_iff, List.length_take]
    omega
  have hdrop : ds.drop p ≠ [] := by
    rw [← List.length_pos_iff, List.length_drop]
    omega
  have hsplit := List.take_append_drop p ds
  have hhead' : (ds.take p).head? ≠ some 48 := by
    rw [← hsplit, List.head?_append_of_ne_nil _ htake] at hhead
    exact hhead
  rw [← hsplit, List.all_append, Bool.and_eq_true] at hall
  have hspells : Numeral.Spells _ ⟨neg, ds.take p, ds.drop p, 0⟩ :=
    .mk ⟨htake, hall.1⟩ (not_padded_of_head hhead') (.some ⟨hdrop, hall.2⟩) .none
  refine ⟨⟨neg, ds.take p, ds.drop p, 0⟩, ?_, rfl, ?_⟩
  · convert hspells using 2
    simp [formatF, hp, not_le.mpr hlt, Nat.sub_eq_zero_of_le hlt.le]
  · simp only [Numeral.magnitude, Digits.value, hsplit, List.length_drop, Nat.cast_sub hlt.le]
    congr 2
    ring

theorem formatF_filled (hne : ds ≠ []) (hall : ds.all isDigit = true) (hhead : ds.head? ≠ some 48)
    {p : Nat} (hp : 0 < p) (hge : ds.length ≤ p) :
    ∃ n, Numeral.Spells (Numeral.sign neg ++ formatF ⟨ds, p⟩) n ∧ n.neg = neg ∧
      n.magnitude = Digits.value ⟨ds, p⟩ := by
  have hspells : Numeral.Spells _ ⟨neg, ds ++ List.replicate (p - ds.length) 48, [], 0⟩ :=
    .mk ⟨by simp [hne], by rw [List.all_append, hall, zeros_digits]; rfl⟩
      (not_padded_of_head (by rwa [List.head?_append_of_ne_nil _ hne])) .none .none
  refine ⟨⟨neg, ds ++ List.replicate (p - ds.length) 48, [], 0⟩, ?_, rfl, ?_⟩
  · convert hspells using 2
    simp [formatF, hp, hge, List.take_of_length_le hge]
  · simp only [Numeral.magnitude, Digits.value, List.append_nil, natural_append, natural_zeros,
      List.length_replicate, Nat.add_zero, List.length_nil, Nat.cast_zero, sub_zero, zpow_zero,
      mul_one]
    push_cast
    rw [← zpow_natCast, Nat.cast_sub hge]

theorem formatF_behind (hne : ds ≠ []) (hall : ds.all isDigit = true) {point : Int}
    (hpoint : point ≤ 0) :
    ∃ n, Numeral.Spells (Numeral.sign neg ++ formatF ⟨ds, point⟩) n ∧ n.neg = neg ∧
      n.magnitude = Digits.value ⟨ds, point⟩ := by
  have hspells : Numeral.Spells _ ⟨neg, [48], List.replicate (-point).toNat 48 ++ ds, 0⟩ :=
    .mk (by decide) (by decide)
      (.some ⟨by simp [hne], by rw [List.all_append, hall, zeros_digits]; rfl⟩) .none
  refine ⟨⟨neg, [48], List.replicate (-point).toNat 48 ++ ds, 0⟩, ?_, rfl, ?_⟩
  · convert hspells using 2
    simp [formatF, not_lt.mpr hpoint, hne]
  · have hzero : natural ([48] ++ (List.replicate (-point).toNat 48 ++ ds)) = natural ds := by
      rw [natural_append, natural_append, natural_zeros]
      simp [natural, digitVal]
    simp only [Numeral.magnitude, Digits.value, hzero, List.length_append, List.length_replicate]
    congr 2
    push_cast
    omega

-- The point stands inside the digits, after them, or before them.
theorem formatF_spells {d : Digits} (hd : Canonical d) :
    ∃ n, Numeral.Spells (Numeral.sign neg ++ formatF d) n ∧ n.neg = neg ∧ n.magnitude = d.value := by
  obtain ⟨⟨hne, hall⟩, hhead⟩ := hd
  obtain ⟨ds, point⟩ := d
  rcases lt_or_ge 0 point with hpos | hpoint
  · obtain ⟨p, rfl⟩ := Int.eq_ofNat_of_zero_le hpos.le
    have hp : 0 < p := by omega
    rcases Nat.lt_or_ge p ds.length with hlt | hge
    · exact formatF_inside neg hall hhead hp hlt
    · exact formatF_filled neg hne hall hhead hp hge
  · exact formatF_behind neg hne hall hpoint

end Plain

-- What a correctly rounding reader makes of a number text.
structure Reads (n : Numeral) (bits : UInt64) : Prop where
  finite : Finite bits
  sign : signBit bits = n.neg
  nearest : Binary.Nearest 52 2045 (n.magnitude * unit) (mantissa bits) (shift bits)

theorem reads_iff {n : Numeral} {bits : UInt64} (h : Finite bits) (hsign : n.neg = signBit bits)
    (hwithin : Binary.Within 52 (mantissa bits) (shift bits) (n.magnitude * unit)) (b : UInt64) :
    Reads n b ↔ b = bits := by
  constructor
  · intro hb
    obtain ⟨hm, hs⟩ := hwithin.unique (legal h) hb.nearest
    exact eq_of_fields (hb.sign.trans hsign) hm hs
  · rintro rfl
    exact ⟨h, hsign.symm, hwithin.nearest (legal h)⟩

theorem zero_within {bits : UInt64} (hm : mantissa bits = 0) :
    Binary.Within 52 (mantissa bits) (shift bits) 0 := by
  have hbelow := Binary.below_pos 52 (mantissa bits) (shift bits)
  have hpos : (0 : ℚ) < 2 ^ shift bits := by positivity
  have hvalue : Binary.value (mantissa bits) (shift bits) = 0 := by simp [Binary.value, hm]
  have heven : mantissa bits % 2 = 0 := by rw [hm]
  exact ⟨by rw [hvalue]; linarith, by rw [hvalue]; linarith, fun _ => heven, fun _ => heven⟩

theorem mantissa_eq_zero (bits : UInt64) :
    mantissa bits = 0 ↔ exponent bits = 0 ∧ fraction bits = 0 := by
  unfold mantissa
  split <;> omega

theorem format_spells {bits : UInt64} (h : Finite bits) :
    ∃ n, Numeral.Spells (format bits) n ∧ ∀ b, Reads n b ↔ b = bits := by
  unfold format
  rw [if_neg h]
  change ∃ n, Numeral.Spells (Numeral.sign (signBit bits) ++ _) n ∧ _
  split
  next hzero =>
    have hm := (mantissa_eq_zero bits).mpr hzero
    have hspells : Numeral.Spells _ ⟨signBit bits, [48], [], 0⟩ :=
      .mk (by decide) (by decide) .none .none
    refine ⟨⟨signBit bits, [48], [], 0⟩, hspells, reads_iff h rfl ?_⟩
    have hmagnitude : Numeral.magnitude ⟨signBit bits, [48], [], 0⟩ = 0 := by
      simp [Numeral.magnitude, natural, digitVal]
    rw [hmagnitude, zero_mul]
    exact zero_within hm
  next hne =>
    have hm : 0 < mantissa bits := Nat.pos_of_ne_zero (mt (mantissa_eq_zero bits).mp hne)
    obtain ⟨dp, j, r, hr, hholds, hshortest⟩ := shortest_spec h hm
    have hcanonical : Canonical (shortest bits) := hshortest ▸ trimZeros_canonical hr _
    have hreads : ∀ n : Numeral, n.neg = signBit bits → n.magnitude = (shortest bits).value →
        ∀ b, Reads n b ↔ b = bits := by
      intro n hneg hmagnitude
      refine reads_iff h hneg ?_
      rw [hmagnitude, hshortest, trimZeros_value]
      exact within_of_holds hm hholds
    dsimp only
    split
    · obtain ⟨n, hspells, hneg, hmagnitude⟩ := formatE_spells (signBit bits) hcanonical
      exact ⟨n, hspells, hreads n hneg hmagnitude⟩
    · obtain ⟨n, hspells, hneg, hmagnitude⟩ := formatF_spells (signBit bits) hcanonical
      exact ⟨n, hspells, hreads n hneg hmagnitude⟩

theorem format_of_not_finite {bits : UInt64} (h : ¬ Finite bits) :
    format bits = ascii "NaN" ∨ format bits = ascii "-Inf" ∨ format bits = ascii "+Inf" := by
  unfold format
  rw [if_pos (not_not.mp h)]
  split
  · exact .inl rfl
  · split
    · exact .inr (.inl rfl)
    · exact .inr (.inr rfl)

end Float

end UbgoLogger
