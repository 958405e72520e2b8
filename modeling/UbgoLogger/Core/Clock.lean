import UbgoLogger.Foundation.Text

namespace UbgoLogger
open Foundation.Text

def formatInt (x : Int) : Bytes := (if x < 0 then [45] else []) ++ decimal x.natAbs

def formatIntWidth (x : Int) (width : Nat) : Bytes :=
  (if x < 0 then [45] else []) ++
    List.replicate (width - (decimal x.natAbs).length) 48 ++ decimal x.natAbs

def trimZeros (s : Bytes) : Bytes := (s.reverse.dropWhile (· = 48)).reverse

-- time.Time: the instant as Unix seconds and nanoseconds, with the zone offset in force at it.
structure Time where
  sec : Int
  nsec : Nat
  offset : Int
  nsec_lt : nsec < 1000000000
  deriving DecidableEq

namespace Time

theorem zero_nsec_lt : 0 < 1000000000 := by decide

def zero : Time := ⟨-62135596800, 0, 0, zero_nsec_lt⟩

def epoch : Time := ⟨0, 0, 0, zero_nsec_lt⟩

def instant (t : Time) : Int := t.sec * 1000000000 + t.nsec

-- Time.Equal: the same instant, whatever the zone.
def equal (t u : Time) : Bool := t.sec == u.sec && t.nsec == u.nsec

def isZero (t : Time) : Bool := t.sec == -62135596800 && t.nsec == 0

def unix (localOffset : Int → Int) (n : Int) : Time where
  sec := n / 1000000000
  nsec := (n % 1000000000).toNat
  offset := localOffset (n / 1000000000)
  nsec_lt := by omega

def civil (days : Int) : Int × Int × Int :=
  let z := days + 719468
  let era := z / 146097
  let doe := z - era * 146097
  let yoe := (doe - doe / 1460 + doe / 36524 - doe / 146096) / 365
  let doy := doe - (365 * yoe + yoe / 4 - yoe / 100)
  let mp := (5 * doy + 2) / 153
  let month := if mp < 10 then mp + 3 else mp - 9
  (yoe + era * 400 + (if month ≤ 2 then 1 else 0), month, doy - (153 * mp + 2) / 5 + 1)

def formatNano (nsec : Nat) : Bytes :=
  if nsec = 0 then [] else 46 :: trimZeros (formatIntWidth nsec 9)

def formatZone (offset : Int) : Bytes :=
  if offset = 0 then [90]
  else
    let zone := offset.tdiv 60
    (if zone < 0 then [45] else [43]) ++
      formatIntWidth (zone.natAbs / 60) 2 ++ [58] ++ formatIntWidth (zone.natAbs % 60) 2

-- Time.AppendFormat with the layout time.RFC3339Nano
def formatRFC3339Nano (t : Time) : Bytes :=
  let abs := t.sec + t.offset
  let (year, month, day) := civil (abs / 86400)
  let clock := abs % 86400
  formatIntWidth year 4 ++ [45] ++ formatIntWidth month 2 ++ [45] ++ formatIntWidth day 2 ++ [84] ++
    formatIntWidth (clock / 3600) 2 ++ [58] ++ formatIntWidth (clock % 3600 / 60) 2 ++ [58] ++
    formatIntWidth (clock % 60) 2 ++ formatNano t.nsec ++ formatZone t.offset

end Time

namespace Duration

-- Time.Sub on instants in nanoseconds, which saturates.
def sub (t u : Int) : Int := max (-2 ^ 63) (min (2 ^ 63 - 1) (t - u))

def fraction (u prec : Nat) : Bytes :=
  let frac := u % 10 ^ prec
  if frac = 0 then [] else 46 :: trimZeros (formatIntWidth frac prec)

-- time.Duration.String on a count of nanoseconds
def string (d : Int) : Bytes :=
  let u := d.natAbs
  (if d < 0 then [45] else []) ++
    if u = 0 then ascii "0s"
    else if u < 1000 then decimal u ++ ascii "ns"
    else if u < 1000000 then decimal (u / 1000) ++ fraction u 3 ++ [0xc2, 0xb5, 115]
    else if u < 1000000000 then decimal (u / 1000000) ++ fraction u 6 ++ ascii "ms"
    else
      let s := u / 1000000000
      (if 3600 ≤ s then decimal (s / 3600) ++ ascii "h" else []) ++
        (if 60 ≤ s then decimal (s / 60 % 60) ++ ascii "m" else []) ++
        decimal (s % 60) ++ fraction u 9 ++ ascii "s"

def units : List Bytes :=
  [[45], ascii "0s", ascii "ns", [0xc2, 0xb5, 115], ascii "ms", ascii "h", ascii "m", ascii "s"]

-- A property of texts that the parts of a duration have and that appending keeps.
theorem string_of_parts {P : Bytes → Prop} (nil : P []) (append : ∀ {s t}, P s → P t → P (s ++ t))
    (digits : ∀ n, P (decimal n)) (fraction : ∀ u prec, P (fraction u prec))
    (unit : ∀ s ∈ units, P s) (d : Int) : P (string d) := by
  have hpart : ∀ (p : Prop) [Decidable p] (n : Nat) (u : Bytes), u ∈ units →
      P (if p then decimal n ++ u else []) := by
    intro p _ n u hu
    split
    · exact append (digits n) (unit u hu)
    · exact nil
  unfold string
  refine append ?_ ?_
  · split
    · exact unit _ (by decide)
    · exact nil
  split
  · exact unit _ (by decide)
  split
  · exact append (digits _) (unit _ (by decide))
  split
  · exact append (append (digits _) (fraction _ _)) (unit _ (by decide))
  split
  · exact append (append (digits _) (fraction _ _)) (unit _ (by decide))
  · exact append (append (append (append (hpart _ _ _ (by decide)) (hpart _ _ _ (by decide)))
      (digits _)) (fraction _ _)) (unit _ (by decide))

end Duration

theorem noControl_sign (x : Int) : NoControl (if x < 0 then [45] else []) := by
  split <;> decide

theorem formatInt_noControl (x : Int) : NoControl (formatInt x) := by
  simp only [formatInt, noControl_append]
  exact ⟨noControl_sign x, decimal_noControl _⟩

theorem formatIntWidth_noControl (x : Int) (width : Nat) : NoControl (formatIntWidth x width) := by
  simp only [formatIntWidth, noControl_append]
  refine ⟨⟨noControl_sign x, ?_⟩, decimal_noControl _⟩
  intro b hb
  rw [List.eq_of_mem_replicate hb]
  decide

theorem mem_trimZeros {s : Bytes} {b : Byte} (h : b ∈ trimZeros s) : b ∈ s :=
  List.mem_reverse.mp ((List.dropWhile_sublist _).mem (List.mem_reverse.mp h))

theorem trimZeros_noControl {s : Bytes} (h : NoControl s) : NoControl (trimZeros s) :=
  h.sublist fun _ => mem_trimZeros

-- The bytes a time is written with.
def isClock (b : Byte) : Bool := isDigit b || decide (b ∈ ascii "+-.:TZ")

theorem isClock_of_isDigit {b : Byte} (h : isDigit b = true) : isClock b = true := by
  simp [isClock, h]

theorem isClock_formatIntWidth {x : Int} {width : Nat} {b : Byte} (h : b ∈ formatIntWidth x width) :
    isClock b = true := by
  simp only [formatIntWidth, List.mem_append, List.mem_replicate] at h
  rcases h with (hsign | ⟨-, rfl⟩) | hdigits
  · split at hsign
    · rw [List.mem_singleton.mp hsign]
      decide
    · cases hsign
  · decide
  · exact isClock_of_isDigit (decimal_isDigit hdigits)

theorem isClock_formatNano {nsec : Nat} {b : Byte} (h : b ∈ Time.formatNano nsec) :
    isClock b = true := by
  unfold Time.formatNano at h
  split at h
  · cases h
  · rcases List.mem_cons.mp h with rfl | h
    · decide
    · exact isClock_formatIntWidth (mem_trimZeros h)

theorem isClock_formatZone {offset : Int} {b : Byte} (h : b ∈ Time.formatZone offset) :
    isClock b = true := by
  unfold Time.formatZone at h
  split at h
  · rw [List.mem_singleton.mp h]
    decide
  · simp only [List.mem_append, List.mem_singleton] at h
    rcases h with ((hsign | h) | rfl) | h
    · split at hsign <;> rw [List.mem_singleton.mp hsign] <;> decide
    · exact isClock_formatIntWidth h
    · decide
    · exact isClock_formatIntWidth h

theorem isClock_formatRFC3339Nano {t : Time} {b : Byte} (h : b ∈ t.formatRFC3339Nano) :
    isClock b = true := by
  simp only [Time.formatRFC3339Nano, List.mem_append, List.mem_singleton] at h
  rcases h with (((((((((((h | rfl) | h) | rfl) | h) | rfl) | h) | rfl) | h) | rfl) | h) | h) | h
  case inr => exact isClock_formatZone h
  case inl.inr => exact isClock_formatNano h
  all_goals first | exact isClock_formatIntWidth h | decide

theorem isClock_noControl {b : Byte} (h : isClock b = true) : 32 ≤ b := by
  simp only [isClock, Bool.or_eq_true, decide_eq_true_eq] at h
  rcases h with h | h
  · exact isDigit_noControl h
  · exact List.all_iff_forall_prop.mp (by decide : (ascii "+-.:TZ").all fun c => 32 ≤ c) b h

theorem formatRFC3339Nano_noControl (t : Time) : NoControl t.formatRFC3339Nano :=
  fun _ hb => isClock_noControl (isClock_formatRFC3339Nano hb)

end UbgoLogger
