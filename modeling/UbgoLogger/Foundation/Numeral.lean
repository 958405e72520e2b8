import Mathlib.Algebra.Order.Field.Power
import Mathlib.Data.Rat.Cast.Order
import UbgoLogger.Foundation.Text

namespace Foundation.Text

def natural (s : Bytes) : Nat := Nat.ofDigits 10 (s.map digitVal).reverse

theorem natural_decimal (n : Nat) : natural (decimal n) = n := parse_value (parse_decimal n)

theorem natural_append (s t : Bytes) :
    natural (s ++ t) = natural s * 10 ^ t.length + natural t := by
  simp only [natural, List.map_append, List.reverse_append, Nat.ofDigits_append,
    List.length_reverse, List.length_map]
  ring

theorem natural_zeros (n : Nat) : natural (List.replicate n 48) = 0 := by
  induction n with
  | zero => rfl
  | succ n ih =>
    rw [List.replicate_succ', natural_append, ih]
    rfl

def AllDigits (s : Bytes) : Prop := s ≠ [] ∧ s.all isDigit = true

instance (s : Bytes) : Decidable (AllDigits s) := inferInstanceAs (Decidable (_ ∧ _))

theorem decimal_digits (n : Nat) : AllDigits (decimal n) :=
  ⟨decimal_ne_nil n, List.all_eq_true.mpr fun _ hb => decimal_isDigit hb⟩

theorem decimal_length {n : Nat} (hn : 0 < n) :
    10 ^ ((decimal n).length - 1) ≤ n ∧ n < 10 ^ (decimal n).length := by
  have hlen : (decimal n).length = (Nat.digits 10 n).length := by
    rw [decimal, if_neg (by omega), List.length_map, List.length_reverse]
  rw [hlen]
  constructor
  · have hpos : 0 < (Nat.digits 10 n).length :=
      List.length_pos_iff.mpr (Nat.digits_ne_nil_iff_ne_zero.mpr (by omega))
    exact (Nat.lt_digits_length_iff (by norm_num) n).mp (by omega)
  · exact Nat.lt_base_pow_length_digits (by norm_num)

def NoDigit (r : Bytes) : Prop := ∀ b t, r = b :: t → isDigit b = false

theorem span_digits {ds r : Bytes} (hd : ds.all isDigit = true) (hr : NoDigit r) :
    (ds ++ r).takeWhile isDigit = ds ∧ (ds ++ r).dropWhile isDigit = r := by
  have hall : ∀ b ∈ ds, isDigit b = true := List.all_eq_true.mp hd
  rw [List.takeWhile_append_of_pos hall, List.dropWhile_append_of_pos hall]
  cases r with
  | nil => simp
  | cons b t =>
    have hb := hr b t rfl
    simp [hb]

def scanDigits (s : Bytes) : Option (Bytes × Bytes) :=
  if s.takeWhile isDigit = [] then none else some (s.takeWhile isDigit, s.dropWhile isDigit)

theorem scanDigits_complete {ds r : Bytes} (hd : AllDigits ds) (hr : NoDigit r) :
    scanDigits (ds ++ r) = some (ds, r) := by
  obtain ⟨htake, hdrop⟩ := span_digits hd.2 hr
  rw [scanDigits, htake, hdrop, if_neg hd.1]

theorem scanDigits_sound {s ds r : Bytes} (h : scanDigits s = some (ds, r)) :
    AllDigits ds ∧ s = ds ++ r := by
  unfold scanDigits at h
  split at h
  · cases h
  · rename_i hne
    obtain ⟨rfl, rfl⟩ := Prod.mk.inj (Option.some.inj h)
    exact ⟨⟨hne, List.all_takeWhile⟩, (List.takeWhile_append_dropWhile ..).symm⟩

structure Numeral where
  neg : Bool
  int : Bytes
  frac : Bytes
  exp : Int
  deriving DecidableEq

namespace Numeral

def magnitude (n : Numeral) : ℚ :=
  (natural (n.int ++ n.frac) : ℚ) * 10 ^ (n.exp - n.frac.length)

def toInt (n : Numeral) : Option Int :=
  if n.frac = [] ∧ n.exp = 0 then some (if n.neg then -natural n.int else natural n.int) else none

def sign (neg : Bool) : Bytes := if neg then [45] else []

inductive Frac : Bytes → Bytes → Prop
  | none : Frac [] []
  | some {ds : Bytes} : AllDigits ds → Frac (46 :: ds) ds

def isExp (e : Byte) : Bool := e = 101 ∨ e = 69

inductive Exp : Bytes → Int → Prop
  | none : Exp [] 0
  | plain {e : Byte} {ds : Bytes} : isExp e = true → AllDigits ds → Exp (e :: ds) (natural ds)
  | plus {e : Byte} {ds : Bytes} : isExp e = true → AllDigits ds → Exp (e :: 43 :: ds) (natural ds)
  | minus {e : Byte} {ds : Bytes} : isExp e = true → AllDigits ds → Exp (e :: 45 :: ds) (-natural ds)

-- number = [ minus ] int [ frac ] [ exp ]
inductive Spells : Bytes → Numeral → Prop
  | mk {neg : Bool} {int f frac x : Bytes} {exp : Int} : AllDigits int → ¬ padded int → Frac f frac →
      Exp x exp → Spells (sign neg ++ (int ++ (f ++ x))) ⟨neg, int, frac, exp⟩

def scanFrac : Bytes → Option (Bytes × Bytes)
  | [] => some ([], [])
  | b :: t => if b = 46 then scanDigits t else some ([], b :: t)

def scanExpDigits : Bytes → Option (Int × Bytes)
  | [] => none
  | b :: t =>
      if b = 45 then (scanDigits t).map fun p => (-natural p.1, p.2)
      else if b = 43 then (scanDigits t).map fun p => (natural p.1, p.2)
      else (scanDigits (b :: t)).map fun p => (natural p.1, p.2)

def scanExp : Bytes → Option (Int × Bytes)
  | [] => some (0, [])
  | e :: t => if isExp e then scanExpDigits t else some (0, e :: t)

def scanUnsigned (neg : Bool) (s : Bytes) : Option (Numeral × Bytes) := do
  let (int, s) ← scanDigits s
  if padded int then none
  else
    let (frac, s) ← scanFrac s
    let (exp, s) ← scanExp s
    some (⟨neg, int, frac, exp⟩, s)

def scan : Bytes → Option (Numeral × Bytes)
  | [] => none
  | b :: t => if b = 45 then scanUnsigned true t else scanUnsigned false (b :: t)

-- What may stand behind a number: nothing that would continue it.
def continues (b : Byte) : Bool := isDigit b || decide (b = 46) || isExp b

def Stops (r : Bytes) : Prop := ∀ b t, r = b :: t → continues b = false

theorem Stops.noDigit {r : Bytes} (h : Stops r) : NoDigit r := by
  intro b t hr
  have := h b t hr
  simp only [continues, Bool.or_eq_false_iff] at this
  exact this.1.1

theorem scanExp_complete {x r : Bytes} {exp : Int} (h : Exp x exp) (hr : Stops r) :
    scanExp (x ++ r) = some (exp, r) := by
  cases h with
  | none =>
    cases r with
    | nil => rfl
    | cons b t =>
      have hb := hr b t rfl
      simp only [continues, Bool.or_eq_false_iff] at hb
      simp [scanExp, hb.2]
  | @plain e ds he hd =>
    obtain ⟨d, ds', rfl⟩ := List.exists_cons_of_ne_nil hd.1
    have hdigit : isDigit d = true := List.all_eq_true.mp hd.2 d (by simp)
    have hne : d ≠ 45 ∧ d ≠ 43 := by
      constructor <;> rintro rfl <;> exact absurd hdigit (by decide)
    have hscan := scanDigits_complete hd hr.noDigit
    rw [List.cons_append] at hscan ⊢
    simp [scanExp, scanExpDigits, he, hne.1, hne.2, hscan]
  | plus he hd =>
    simp [scanExp, scanExpDigits, he, scanDigits_complete hd hr.noDigit]
  | minus he hd =>
    simp [scanExp, scanExpDigits, he, scanDigits_complete hd hr.noDigit]

theorem isDigit_of_isExp {e : Byte} (h : isExp e = true) : isDigit e = false ∧ e ≠ 46 := by
  simp only [isExp, decide_eq_true_eq] at h
  rcases h with rfl | rfl <;> decide

theorem exp_head {x r : Bytes} {exp : Int} (h : Exp x exp) (hr : Stops r) {b : Byte} {t : Bytes}
    (ht : x ++ r = b :: t) : isDigit b = false ∧ b ≠ 46 := by
  cases h with
  | none =>
    have hb := hr b t ht
    simp only [continues, Bool.or_eq_false_iff, decide_eq_false_iff_not] at hb
    exact hb.1
  | plain he hd =>
    obtain ⟨rfl, -⟩ := List.cons.inj ht
    exact isDigit_of_isExp he
  | plus he hd =>
    obtain ⟨rfl, -⟩ := List.cons.inj ht
    exact isDigit_of_isExp he
  | minus he hd =>
    obtain ⟨rfl, -⟩ := List.cons.inj ht
    exact isDigit_of_isExp he

theorem scanFrac_complete {f frac r : Bytes} (h : Frac f frac)
    (hr : ∀ b t, r = b :: t → isDigit b = false ∧ b ≠ 46) : scanFrac (f ++ r) = some (frac, r) := by
  cases h with
  | none =>
    cases r with
    | nil => rfl
    | cons b t => simp [scanFrac, (hr b t rfl).2]
  | some hd =>
    have hscan := scanDigits_complete hd fun b t ht => (hr b t ht).1
    simpa [scanFrac] using hscan

theorem frac_head {f frac r : Bytes} (h : Frac f frac)
    (hr : ∀ b t, r = b :: t → isDigit b = false ∧ b ≠ 46) : NoDigit (f ++ r) := by
  intro b t ht
  cases h with
  | none => exact (hr b t ht).1
  | some hd =>
    obtain ⟨rfl, -⟩ := List.cons.inj ht
    decide

theorem scan_complete {s r : Bytes} {n : Numeral} (h : Spells s n) (hr : Stops r) :
    scan (s ++ r) = some (n, r) := by
  cases h with
  | @mk neg int f frac x exp hint hpad hf hx =>
    have htail : ∀ b t, x ++ r = b :: t → isDigit b = false ∧ b ≠ 46 := fun b t ht => exp_head hx hr ht
    have hunsigned : scanUnsigned neg (int ++ (f ++ (x ++ r))) = some (⟨neg, int, frac, exp⟩, r) := by
      simp [scanUnsigned, scanDigits_complete hint (frac_head hf htail), hpad,
        scanFrac_complete hf htail, scanExp_complete hx hr]
    cases neg with
    | true => simpa [scan, sign] using hunsigned
    | false =>
      obtain ⟨d, ds, rfl⟩ := List.exists_cons_of_ne_nil hint.1
      have hdigit : isDigit d = true := List.all_eq_true.mp hint.2 d (by simp)
      have hne : d ≠ 45 := by
        rintro rfl
        exact absurd hdigit (by decide)
      simpa [scan, sign, hne] using hunsigned

theorem scanFrac_sound {s frac r : Bytes} (h : scanFrac s = some (frac, r)) :
    ∃ f, Frac f frac ∧ s = f ++ r := by
  cases s with
  | nil =>
    cases h
    exact ⟨[], .none, rfl⟩
  | cons b t =>
    simp only [scanFrac] at h
    split at h
    · rename_i hb
      obtain ⟨hd, rfl⟩ := scanDigits_sound h
      exact ⟨46 :: frac, .some hd, by simp [hb]⟩
    · cases h
      exact ⟨[], .none, rfl⟩

theorem scanExp_sound {s r : Bytes} {exp : Int} (h : scanExp s = some (exp, r)) :
    ∃ x, Exp x exp ∧ s = x ++ r := by
  cases s with
  | nil =>
    cases h
    exact ⟨[], .none, rfl⟩
  | cons e t =>
    simp only [scanExp] at h
    split at h
    · rename_i he
      cases t with
      | nil => cases h
      | cons b t =>
        simp only [scanExpDigits] at h
        split at h
        · rename_i hb
          obtain ⟨⟨ds, r'⟩, hscan, hp⟩ := Option.map_eq_some_iff.mp h
          cases hp
          obtain ⟨hd, rfl⟩ := scanDigits_sound hscan
          exact ⟨e :: 45 :: ds, .minus he hd, by simp [hb]⟩
        · split at h
          · rename_i hb
            obtain ⟨⟨ds, r'⟩, hscan, hp⟩ := Option.map_eq_some_iff.mp h
            cases hp
            obtain ⟨hd, rfl⟩ := scanDigits_sound hscan
            exact ⟨e :: 43 :: ds, .plus he hd, by simp [hb]⟩
          · obtain ⟨⟨ds, r'⟩, hscan, hp⟩ := Option.map_eq_some_iff.mp h
            cases hp
            obtain ⟨hd, ht⟩ := scanDigits_sound hscan
            exact ⟨e :: ds, .plain he hd, by simp [ht]⟩
    · cases h
      exact ⟨[], .none, rfl⟩

theorem scanUnsigned_sound {neg : Bool} {s r : Bytes} {n : Numeral}
    (h : scanUnsigned neg s = some (n, r)) : ∃ t, Spells (sign neg ++ t) n ∧ s = t ++ r := by
  simp only [scanUnsigned, Option.bind_eq_bind, Option.bind_eq_some_iff] at h
  obtain ⟨⟨int, s₁⟩, hint, h⟩ := h
  dsimp only at h
  split at h
  · cases h
  · rename_i hpad
    obtain ⟨⟨frac, s₂⟩, hfrac, ⟨exp, s₃⟩, hexp, hn⟩ := by
      simpa only [Option.bind_eq_some_iff] using h
    cases hn
    obtain ⟨hd, rfl⟩ := scanDigits_sound hint
    obtain ⟨f, hf, rfl⟩ := scanFrac_sound hfrac
    obtain ⟨x, hx, rfl⟩ := scanExp_sound hexp
    exact ⟨int ++ (f ++ x), .mk hd hpad hf hx, by simp⟩

theorem scan_sound {s r : Bytes} {n : Numeral} (h : scan s = some (n, r)) :
    ∃ t, Spells t n ∧ s = t ++ r := by
  cases s with
  | nil => cases h
  | cons b t =>
    simp only [scan] at h
    split at h
    · rename_i hb
      obtain ⟨u, hu, rfl⟩ := scanUnsigned_sound h
      exact ⟨45 :: u, hu, by simp [hb]⟩
    · obtain ⟨u, hu, ht⟩ := scanUnsigned_sound h
      exact ⟨u, hu, ht⟩

end Numeral

end Foundation.Text
