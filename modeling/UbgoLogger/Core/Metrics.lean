import UbgoLogger.Core.Field

namespace UbgoLogger
open Foundation.Text

def Level.string (l : Level) : Bytes :=
  if l ≤ 0 then ascii "UNSPECIFIED"
  else if l < debug then ascii "TRACE"
  else if l < info then ascii "DEBUG"
  else if l < warn then ascii "INFO"
  else if l < error then ascii "WARN"
  else if l < fatal then ascii "ERROR"
  else ascii "FATAL"

structure Metrics where
  emitted : UInt64
  dropped : UInt64
  sinkErrors : UInt64
  byLevel : List UInt64

namespace Metrics

structure Snapshot where
  emitted : UInt64
  dropped : UInt64
  sinkErrors : UInt64
  byLevel : Bytes → Option UInt64

def new : Metrics := ⟨0, 0, 0, List.replicate 25 0⟩

def incEmitted (m : Metrics) (l : Level) : Metrics :=
  { m with
    emitted := m.emitted + 1
    byLevel := if 0 ≤ l ∧ l < m.byLevel.length then m.byLevel.modify l.toNat (· + 1) else m.byLevel }

def incDropped (m : Metrics) : Metrics := { m with dropped := m.dropped + 1 }

def incSinkError (m : Metrics) : Metrics := { m with sinkErrors := m.sinkErrors + 1 }

-- The loop of Snapshot over the levels from 1 on; levels of one band add up under its name.
def collect (counts : Bytes → Option UInt64) : Nat → List UInt64 → Bytes → Option UInt64
  | _, [] => counts
  | l, v :: vs =>
      let name := Level.string l
      collect (if 0 < v then Function.update counts name (some ((counts name).getD 0 + v)) else counts)
        (l + 1) vs

def snapshot (m : Metrics) : Snapshot where
  emitted := m.emitted
  dropped := m.dropped
  sinkErrors := m.sinkErrors
  byLevel := collect (fun _ => none) 1 (m.byLevel.drop 1)

-- incEmitted is two atomic updates.
def addEmitted (m : Metrics) : Metrics := { m with emitted := m.emitted + 1 }

def addLevel (m : Metrics) (l : Level) : Metrics :=
  { m with
    byLevel := if 0 ≤ l ∧ l < m.byLevel.length then m.byLevel.modify l.toNat (· + 1) else m.byLevel }

theorem addLevel_addEmitted (m : Metrics) (l : Level) : m.addEmitted.addLevel l = m.incEmitted l :=
  rfl

def bandTotal (name : Bytes) : Nat → List Nat → Nat
  | _, [] => 0
  | l, v :: vs => (if Level.string l = name then v else 0) + bandTotal name (l + 1) vs

theorem collect_apply (counts : Bytes → Option UInt64) (l : Nat) (vs : List UInt64) (name : Bytes) :
    collect counts l vs name =
      if bandTotal name l (vs.map UInt64.toNat) = 0 then counts name
      else some ((counts name).getD 0 + .ofNat (bandTotal name l (vs.map UInt64.toNat))) := by
  induction vs generalizing counts l with
  | nil => rfl
  | cons v vs ih =>
    rw [collect, ih, List.map_cons, bandTotal]
    by_cases hname : Level.string l = name
    · subst hname
      by_cases hv : 0 < v
      · have hpos : 0 < v.toNat := hv
        simp only [hv, if_true, Function.update_self, Option.getD_some]
        rw [if_neg (by omega : ¬ v.toNat + bandTotal _ (l + 1) (vs.map UInt64.toNat) = 0),
          UInt64.ofNat_add, UInt64.ofNat_toNat]
        split_ifs with hrest
        · rw [hrest]
          exact congrArg (fun w => some (_ + w)) (UInt64.add_zero v).symm
        · rw [UInt64.add_assoc]
      · have hzero : v.toNat = 0 := Nat.eq_zero_of_not_pos hv
        simp [hv, hzero]
    · have hother : (if 0 < v then Function.update counts (Level.string l)
          (some ((counts (Level.string l)).getD 0 + v)) else counts) name = counts name := by
        split_ifs
        · exact Function.update_of_ne (Ne.symm hname) _ _
        · rfl
      rw [hother, if_neg hname, Nat.zero_add]

theorem countP_interval (levels : List Int) (name : Bytes) (l : Int) (n : Nat) :
    (levels.countP fun x => l ≤ x ∧ x < l + (n + 1) ∧ Level.string x = name) =
      (if Level.string l = name then levels.count l else 0) +
        levels.countP fun x => l + 1 ≤ x ∧ x < l + 1 + n ∧ Level.string x = name := by
  induction levels with
  | nil => simp
  | cons x levels ih =>
    simp only [List.countP_cons, List.count_cons, ih, decide_eq_true_eq, beq_iff_eq]
    by_cases hx : x = l
    · subst hx
      by_cases hname : Level.string x = name
      · simp only [hname, and_true, if_true]
        split_ifs <;> omega
      · simp [hname]
    · have hmove : (l ≤ x ∧ x < l + (n + 1) ∧ Level.string x = name) ↔
          (l + 1 ≤ x ∧ x < l + 1 + n ∧ Level.string x = name) := by
        constructor <;> rintro ⟨hle, hlt, hname⟩ <;> exact ⟨by omega, by omega, hname⟩
      simp only [hmove, hx, if_false, Nat.add_zero, Nat.add_assoc]

theorem bandTotal_counts (levels : List Int) (name : Bytes) {l : Nat} {vs : List Nat}
    (h : ∀ i < vs.length, vs[i]? = some (levels.count ((l + i : Nat) : Int))) :
    bandTotal name l vs =
      levels.countP fun x => (l : Int) ≤ x ∧ x < l + vs.length ∧ Level.string x = name := by
  induction vs generalizing l with
  | nil =>
    refine (List.countP_eq_zero.mpr fun x _ => ?_).symm
    simp only [decide_eq_true_eq, List.length_nil]
    omega
  | cons v vs ih =>
    obtain rfl : v = levels.count (l : Int) := by simpa using h 0 (by simp)
    have hrest := ih (l := l + 1) fun i hi => by
      simpa [Nat.add_assoc, Nat.add_comm 1] using h (i + 1) (by simpa using hi)
    rw [bandTotal, hrest, List.length_cons]
    push_cast
    rw [countP_interval]

-- The levels that were counted, told apart by band.
theorem snapshot_byLevel {m : Metrics} {levels : List Int} (hlen : m.byLevel.length = 25)
    (hcount : ∀ l : Nat, 1 ≤ l → l < 25 → m.byLevel[l]? = some (.ofNat (levels.count (l : Int))))
    (hrange : ∀ l ∈ levels, 1 ≤ l ∧ l ≤ 24) (hbound : levels.length < 2 ^ 64) (name : Bytes) :
    m.snapshot.byLevel name =
      if name ∈ levels.map Level.string then some (.ofNat ((levels.map Level.string).count name))
      else none := by
  have htotal : bandTotal name 1 ((m.byLevel.drop 1).map UInt64.toNat) =
      (levels.map Level.string).count name := by
    rw [bandTotal_counts levels, List.count, List.countP_map]
    · refine List.countP_congr fun x hx => ?_
      have := hrange x hx
      simp only [List.length_map, List.length_drop, hlen, decide_eq_true_eq, Function.comp_apply,
        beq_iff_eq]
      exact ⟨fun h => h.2.2, fun h => ⟨by omega, by omega, h⟩⟩
    · intro i hi
      rw [List.length_map, List.length_drop, hlen] at hi
      rw [List.getElem?_map, List.getElem?_drop, hcount (1 + i) (by omega) (by omega),
        Option.map_some, UInt64.toNat_ofNat_of_lt' (List.count_le_length.trans_lt hbound)]
  have hsnap : m.snapshot.byLevel name = collect (fun _ => none) 1 (m.byLevel.drop 1) name := rfl
  rw [hsnap, collect_apply, htotal]
  split_ifs with hzero hmem hmem
  · exact absurd hmem (List.count_eq_zero.mp hzero)
  · rfl
  · simp
  · exact absurd (List.count_eq_zero.mpr hmem) hzero

end Metrics

end UbgoLogger
