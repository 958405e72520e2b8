import Mathlib.Algebra.Order.BigOperators.Group.List
import Mathlib.Algebra.Order.Ring.Nat
import Mathlib.Data.List.Perm.Subperm
import UbgoLogger.Foundation.History

namespace Foundation.LostUpdate

-- A shared counter that each caller reads, writes back one higher, and reads again. A caller
-- stands with the value it read, with the value it wrote, and at last with both readings.
inductive Pc where
  | loading
  | storing (l : Nat)
  | rereading (v : Nat)
  | done (v m : Nat)
  deriving DecidableEq

structure State where
  counter : Nat
  pcs : List Pc

inductive Act where
  | enter
  | load (i : Nat)
  | store (i : Nat)
  | reread (i : Nat)

def step (s : State) : Act → Option State
  | .enter => some { s with pcs := s.pcs ++ [.loading] }
  | .load i =>
      match s.pcs[i]? with
      | some .loading => some { s with pcs := s.pcs.set i (.storing s.counter) }
      | _ => none
  | .store i =>
      match s.pcs[i]? with
      | some (.storing l) => some ⟨l + 1, s.pcs.set i (.rereading (l + 1))⟩
      | _ => none
  | .reread i =>
      match s.pcs[i]? with
      | some (.rereading v) => some { s with pcs := s.pcs.set i (.done v s.counter) }
      | _ => none

-- A write finds the value that was read, and the second read the value that was written.
def Undisturbed (s : State) : Act → Prop
  | .store i => ∀ l, s.pcs[i]? = some (.storing l) → s.counter = l
  | .reread i => ∀ v, s.pcs[i]? = some (.rereading v) → s.counter = v
  | _ => True

namespace Pc

def written : Pc → Option Nat
  | .rereading v => some v
  | .done v _ => some v
  | _ => none

def seen : Pc → Option Nat
  | .done _ m => some m
  | _ => none

def isDone : Pc → Bool
  | .done _ _ => true
  | _ => false

end Pc

def stores (s : State) : Nat := s.pcs.countP fun pc => pc.written.isSome

-- A step that does not write.
structure Quiet (s : State) (a : Act) (s' : State) : Prop where
  counter : s'.counter = s.counter
  written (p : Option Nat → Bool) (hp : p none = false) :
    (s'.pcs.countP fun pc => p pc.written) = s.pcs.countP fun pc => p pc.written
  storing : ∀ l, .storing l ∈ s'.pcs → .storing l ∈ s.pcs ∨ l = s.counter
  done : ∀ v m, .done v m ∈ s'.pcs → .done v m ∈ s.pcs ∨
    ∃ i, a = .reread i ∧ s.pcs[i]? = some (.rereading v) ∧ m = s.counter

-- No reading is ahead of the writes, and one that is level with them is still current.
structure Bounded (k : Nat) (s : State) : Prop where
  counter : s.counter ≤ k + stores s
  pending : ∀ l, .storing l ∈ s.pcs → l ≤ k + stores s ∧ (l = k + stores s → s.counter = l)

-- A write was lost: neither the counter nor any reading will catch up with the writes.
structure Deficit (k : Nat) (s : State) : Prop where
  counter : s.counter < k + stores s
  pending : ∀ l, .storing l ∈ s.pcs → l < k + stores s

-- No write was lost so far.
structure Exact (k : Nat) (s : State) : Prop where
  counter : s.counter = k + stores s
  written (x : Nat) : (s.pcs.countP fun pc => pc.written = some x) =
    if k < x ∧ x ≤ s.counter then 1 else 0
  seen : ∀ v m, .done v m ∈ s.pcs → v ≤ m ∧ m ≤ s.counter

section Steps

variable {k : Nat} {s s' : State} {a : Act}

theorem quiet_set {i : Nat} {pc pc' : Pc} (hi : s.pcs[i]? = some pc)
    (hwritten : pc'.written = pc.written) (hstoring : ∀ l, pc' = .storing l → l = s.counter)
    (hdone : ∀ v m, pc' = .done v m → a = .reread i ∧ pc = .rereading v ∧ m = s.counter) :
    Quiet s a { s with pcs := s.pcs.set i pc' } where
  counter := rfl
  written p _ := by
    have hcount := countP_set (fun pc => p pc.written) pc' hi
    simp only [hwritten, Nat.add_right_cancel_iff] at hcount
    exact hcount
  storing l hl := (List.mem_or_eq_of_mem_set hl).imp_right fun heq => hstoring l heq.symm
  done v m hd := (List.mem_or_eq_of_mem_set hd).imp_right fun heq =>
    have ⟨ha, hpc, hm⟩ := hdone v m heq.symm
    ⟨i, ha, hpc ▸ hi, hm⟩

theorem step_cases (h : step s a = some s') :
    Quiet s a s' ∨ ∃ i l, a = .store i ∧ s.pcs[i]? = some (.storing l) ∧
      s' = ⟨l + 1, s.pcs.set i (.rereading (l + 1))⟩ := by
  cases a with
  | enter =>
    cases h
    refine .inl ⟨rfl, fun p hp => ?_, fun l hl => ?_, fun v m hd => ?_⟩
    · simp [Pc.written, hp]
    · exact .inl (by simpa using hl)
    · exact .inl (by simpa using hd)
  | load i =>
    simp only [step] at h
    split at h
    next hi =>
      cases h
      exact .inl (quiet_set hi rfl (fun l hl => by cases hl; rfl) nofun)
    next => cases h
  | store i =>
    simp only [step] at h
    split at h
    next l hi =>
      cases h
      exact .inr ⟨i, l, rfl, hi, rfl⟩
    next => cases h
  | reread i =>
    simp only [step] at h
    split at h
    next v hi =>
      cases h
      refine .inl (quiet_set hi rfl nofun fun v' m hd => ?_)
      cases hd
      exact ⟨rfl, rfl, rfl⟩
    next => cases h

theorem mem_set_of_ne {α : Type} {xs : List α} {i : Nat} {x y : α} (z : α) (hi : xs[i]? = some x)
    (hy : y ∈ xs) (hne : y ≠ x) : y ∈ xs.set i z := by
  obtain ⟨j, hj⟩ := List.mem_iff_getElem?.mp hy
  have hij : i ≠ j := by
    rintro rfl
    exact hne (Option.some.inj (hj.symm.trans hi))
  exact List.mem_of_getElem? ((List.getElem?_set_ne hij).trans hj)

-- What a caller has seen stays.
theorem done_step (h : step s a = some s') {v m : Nat} (hd : .done v m ∈ s.pcs) :
    .done v m ∈ s'.pcs := by
  cases a with
  | enter =>
    cases h
    exact List.mem_append_left _ hd
  | _ =>
    simp only [step] at h
    split at h
    next hi =>
      cases h
      exact mem_set_of_ne _ hi hd nofun
    next => cases h

theorem Quiet.stores (h : Quiet s a s') : stores s' = stores s := h.written Option.isSome rfl

theorem stores_store {i l : Nat} (hi : s.pcs[i]? = some (.storing l)) :
    stores ⟨l + 1, s.pcs.set i (.rereading (l + 1))⟩ = stores s + 1 := by
  have hcount := countP_set (fun pc : Pc => pc.written.isSome) (.rereading (l + 1)) hi
  exact hcount

theorem storing_of_store {i l l' : Nat}
    (h : .storing l' ∈ (⟨l + 1, s.pcs.set i (.rereading (l + 1))⟩ : State).pcs) :
    .storing l' ∈ s.pcs :=
  (List.mem_or_eq_of_mem_set h).resolve_right nofun

-- However far the counter and the pending readings are behind the writes, they stay as far behind.
theorem behind_step {d : Nat} (hcounter : s.counter + d ≤ k + stores s)
    (hpending : ∀ l, .storing l ∈ s.pcs → l + d ≤ k + stores s) (hs : step s a = some s') :
    s'.counter + d ≤ k + stores s' ∧ ∀ l, .storing l ∈ s'.pcs → l + d ≤ k + stores s' := by
  rcases step_cases hs with hquiet | ⟨i, l, -, hi, rfl⟩
  · rw [hquiet.counter, hquiet.stores]
    refine ⟨hcounter, fun l hl => ?_⟩
    rcases hquiet.storing l hl with hl | rfl
    · exact hpending l hl
    · exact hcounter
  · rw [stores_store hi]
    have hl := hpending l (List.mem_of_getElem? hi)
    refine ⟨by dsimp only; omega, fun l' hl' => ?_⟩
    have := hpending l' (storing_of_store hl')
    omega

theorem Bounded.step (h : Bounded k s) (hs : LostUpdate.step s a = some s') : Bounded k s' := by
  obtain ⟨hcounter, hpending⟩ :=
    behind_step (d := 0) h.counter (fun l hl => (h.pending l hl).1) hs
  refine ⟨hcounter, fun l hl => ⟨hpending l hl, fun hlevel => ?_⟩⟩
  rcases step_cases hs with hquiet | ⟨i, l', -, hi, rfl⟩
  · rw [hquiet.counter]
    rw [hquiet.stores] at hlevel
    rcases hquiet.storing l hl with hl | rfl
    · exact (h.pending l hl).2 hlevel
    · rfl
  · -- the write has moved past every reading that is still pending
    have hle := (h.pending l (storing_of_store hl)).1
    rw [stores_store hi] at hlevel
    omega

theorem Deficit.step (h : Deficit k s) (hs : LostUpdate.step s a = some s') : Deficit k s' :=
  have ⟨hcounter, hpending⟩ := behind_step (d := 1) h.counter h.pending hs
  ⟨hcounter, hpending⟩

theorem Bounded.deficit (h : Bounded k s) {i l : Nat} (hi : s.pcs[i]? = some (.storing l))
    (hne : s.counter ≠ l) : Deficit k ⟨l + 1, s.pcs.set i (.rereading (l + 1))⟩ := by
  obtain ⟨hle, hlevel⟩ := h.pending l (List.mem_of_getElem? hi)
  have hlt : l < k + stores s := lt_of_le_of_ne hle fun heq => hne (hlevel heq)
  constructor
  · rw [stores_store hi]
    exact Nat.add_lt_add_right hlt 1
  · intro l' hl'
    have := (h.pending l' (storing_of_store hl')).1
    rw [stores_store hi]
    omega

theorem Exact.written_le (h : Exact k s) {pc : Pc} (hpc : pc ∈ s.pcs) {x : Nat}
    (hx : pc.written = some x) : k < x ∧ x ≤ s.counter := by
  by_contra hout
  have hzero := h.written x
  rw [if_neg hout] at hzero
  exact List.countP_eq_zero.mp hzero pc hpc (by simpa using hx)

theorem Exact.quiet (h : Exact k s) (hquiet : Quiet s a s') : Exact k s' := by
  refine ⟨by rw [hquiet.counter, hquiet.stores]; exact h.counter, fun x => ?_, fun v m hd => ?_⟩
  · rw [hquiet.counter, ← h.written x]
    exact hquiet.written (fun o => o = some x) rfl
  · rw [hquiet.counter]
    rcases hquiet.done v m hd with hd | ⟨i, -, hi, rfl⟩
    · exact h.seen v m hd
    · exact ⟨(h.written_le (List.mem_of_getElem? hi) rfl).2, le_rfl⟩

theorem Exact.store (h : Exact k s) {i : Nat} (hi : s.pcs[i]? = some (.storing s.counter)) :
    Exact k ⟨s.counter + 1, s.pcs.set i (.rereading (s.counter + 1))⟩ := by
  refine ⟨?_, fun x => ?_, fun v m hd => ?_⟩
  · rw [stores_store hi]
    exact congrArg (· + 1) h.counter
  · have hcount := countP_set (fun pc : Pc => decide (pc.written = some x))
      (.rereading (s.counter + 1)) hi
    have hk : k ≤ s.counter := h.counter ▸ Nat.le_add_right _ _
    have hnew : decide ((Pc.rereading (s.counter + 1)).written = some x) =
        decide (s.counter + 1 = x) := by simp [Pc.written]
    rw [h.written x, hnew] at hcount
    refine hcount.trans ?_
    by_cases hx : s.counter + 1 = x
    · subst hx
      simp only [decide_true, Bool.toNat_true]
      split_ifs <;> omega
    · simp only [hx, decide_false, Bool.toNat_false]
      split_ifs <;> omega
  · obtain ⟨hle, hm⟩ := h.seen v m ((List.mem_or_eq_of_mem_set hd).resolve_right nofun)
    exact ⟨hle, hm.trans (Nat.le_succ _)⟩

-- A caller saw more than it wrote.
def Overshoot (s : State) : Prop := ∃ v m, .done v m ∈ s.pcs ∧ v < m

def Spoiled (k : Nat) (s : State) : Prop := Deficit k s ∨ Exact k s ∧ Overshoot s

structure Fair (k : Nat) (s : State) : Prop where
  exact : Exact k s
  seen : ∀ v m, .done v m ∈ s.pcs → v = m

theorem bounded_init (k : Nat) : Bounded k ⟨k, []⟩ := ⟨le_rfl, nofun⟩

theorem fair_init (k : Nat) : Fair k ⟨k, []⟩ := by
  refine ⟨⟨rfl, fun x => ?_, nofun⟩, nofun⟩
  have hnone : ¬ (k < x ∧ x ≤ k) := by omega
  exact (if_neg hnone).symm

-- A write either keeps the account or loses one.
theorem Exact.step (h : Exact k s) (hb : Bounded k s) (hs : LostUpdate.step s a = some s') :
    Exact k s' ∨ Deficit k s' ∧ ¬ Undisturbed s a := by
  rcases step_cases hs with hquiet | ⟨i, l, rfl, hi, rfl⟩
  · exact .inl (h.quiet hquiet)
  · by_cases hl : s.counter = l
    · subst hl
      exact .inl (h.store hi)
    · exact .inr ⟨hb.deficit hi hl, fun hu => hl (hu l hi)⟩

theorem Spoiled.step (h : Spoiled k s) (hb : Bounded k s) (hs : LostUpdate.step s a = some s') :
    Spoiled k s' := by
  rcases h with h | ⟨h, v, m, hd, hlt⟩
  · exact .inl (h.step hs)
  · rcases h.step hb hs with h' | ⟨h', -⟩
    · exact .inr ⟨h', v, m, done_step hs hd, hlt⟩
    · exact .inl h'

theorem Fair.step (h : Fair k s) (hb : Bounded k s) (hu : Undisturbed s a)
    (hs : LostUpdate.step s a = some s') : Fair k s' := by
  refine ⟨(h.exact.step hb hs).resolve_right fun hdeficit => hdeficit.2 hu, fun v m hd => ?_⟩
  rcases step_cases hs with hquiet | ⟨i, l, -, -, rfl⟩
  · rcases hquiet.done v m hd with hd | ⟨i, rfl, hi, rfl⟩
    · exact h.seen v m hd
    · exact (hu v hi).symm
  · exact h.seen v m ((List.mem_or_eq_of_mem_set hd).resolve_right nofun)

theorem Fair.spoiled (h : Fair k s) (hb : Bounded k s) (hu : ¬ Undisturbed s a)
    (hs : LostUpdate.step s a = some s') : Spoiled k s' := by
  cases a with
  | enter => exact absurd trivial hu
  | load i => exact absurd trivial hu
  | store i =>
    simp only [Undisturbed, not_forall] at hu
    obtain ⟨l, hi, hne⟩ := hu
    simp only [LostUpdate.step, hi, Option.some.injEq] at hs
    subst hs
    exact .inl (hb.deficit hi hne)
  | reread i =>
    simp only [Undisturbed, not_forall] at hu
    obtain ⟨v, hi, hne⟩ := hu
    have hv := (h.exact.written_le (List.mem_of_getElem? hi) rfl).2
    have hlt := (List.getElem?_eq_some_iff.mp hi).1
    rcases h.exact.step hb hs with hexact | ⟨hdeficit, -⟩
    · simp only [LostUpdate.step, hi, Option.some.injEq] at hs
      subst hs
      exact .inr ⟨hexact, v, s.counter, List.mem_of_getElem? (List.getElem?_set_self hlt),
        lt_of_le_of_ne hv (Ne.symm hne)⟩
    · exact .inl hdeficit

end Steps

-- No two callers saw the same value.
def Distinct (s : State) : Prop := ∀ m, (s.pcs.countP fun pc => pc.seen = some m) ≤ 1

theorem perm_range' {xs : List Nat} {k n : Nat} (hnodup : xs.Nodup)
    (hmem : ∀ x ∈ xs, k < x ∧ x ≤ k + n) (hlen : xs.length = n) : xs.Perm (List.range' (k + 1) n) := by
  have hsub : xs ⊆ List.range' (k + 1) n := by
    intro x hx
    have := hmem x hx
    rw [List.mem_range'_1]
    omega
  exact (List.subperm_of_subset hnodup hsub).perm_of_length_le (by simp [hlen])

section Final

variable {k : Nat} {s : State} (hdone : ∀ pc ∈ s.pcs, pc.isDone = true)
include hdone

theorem eq_done {pc : Pc} (hpc : pc ∈ s.pcs) : ∃ v m, pc = .done v m := by
  have hpc := hdone pc hpc
  cases pc with
  | done v m => exact ⟨v, m, rfl⟩
  | _ => cases hpc

theorem stores_done : stores s = s.pcs.length := by
  refine List.countP_eq_length.mpr fun pc hpc => ?_
  obtain ⟨v, m, rfl⟩ := eq_done hdone hpc
  rfl

theorem nodup_map {f : Pc → Option Nat} (hf : ∀ v m, (f (.done v m)).isSome = true)
    (h : ∀ x, (s.pcs.countP fun pc => f pc = some x) ≤ 1) :
    (s.pcs.map fun pc => (f pc).getD 0).Nodup := by
  refine List.nodup_iff_count_le_one.mpr fun x => ?_
  rw [List.count, List.countP_map]
  refine (List.countP_congr fun pc hpc => ?_).trans_le (h x)
  obtain ⟨v, m, rfl⟩ := eq_done hdone hpc
  obtain ⟨y, hy⟩ := Option.isSome_iff_exists.mp (hf v m)
  simp [hy]

theorem map_perm_range' {f : Pc → Option Nat} (hf : ∀ v m, (f (.done v m)).isSome = true)
    (h : ∀ x, (s.pcs.countP fun pc => f pc = some x) ≤ 1)
    (hbounds : ∀ pc ∈ s.pcs, k < (f pc).getD 0 ∧ (f pc).getD 0 ≤ k + s.pcs.length) :
    (s.pcs.map fun pc => (f pc).getD 0).Perm (List.range' (k + 1) s.pcs.length) := by
  refine perm_range' (nodup_map hdone hf h) (fun x hx => ?_) (List.length_map _)
  obtain ⟨pc, hpc, rfl⟩ := List.mem_map.mp hx
  exact hbounds pc hpc

theorem Fair.final (h : Fair k s) : Distinct s ∧ s.counter = k + s.pcs.length := by
  refine ⟨fun m => ?_, by rw [h.exact.counter, stores_done hdone]⟩
  have hle : (s.pcs.countP fun pc => pc.seen = some m) ≤
      s.pcs.countP fun pc => pc.written = some m := by
    refine List.countP_mono_left fun pc hpc hseen => ?_
    obtain ⟨v, m', rfl⟩ := eq_done hdone hpc
    rwa [h.seen v m' hpc]
  rw [h.exact.written m] at hle
  split_ifs at hle <;> omega

theorem Spoiled.final (h : Spoiled k s) : ¬ (Distinct s ∧ s.counter = k + s.pcs.length) := by
  rintro ⟨hdistinct, hcounter⟩
  have hstores := stores_done hdone
  rcases h with hdeficit | ⟨hexact, v, m, hover, hlt⟩
  · have := hdeficit.counter
    omega
  · have hbounds : ∀ pc ∈ s.pcs, k < pc.written.getD 0 ∧ pc.written.getD 0 ≤ pc.seen.getD 0 ∧
        pc.seen.getD 0 ≤ k + s.pcs.length := by
      intro pc hpc
      obtain ⟨v', m', rfl⟩ := eq_done hdone hpc
      obtain ⟨hle, hm⟩ := hexact.seen v' m' hpc
      exact ⟨(hexact.written_le hpc rfl).1, hle, hcounter ▸ hm⟩
    have hwritten_le : ∀ x, (s.pcs.countP fun pc => pc.written = some x) ≤ 1 := by
      intro x
      rw [hexact.written x]
      split_ifs <;> omega
    -- both lists run through the same numbers, so their sums agree
    have hwritten := map_perm_range' hdone (f := Pc.written) (fun _ _ => rfl) hwritten_le
      fun pc hpc => ⟨(hbounds pc hpc).1, (hbounds pc hpc).2.1.trans (hbounds pc hpc).2.2⟩
    have hseen := map_perm_range' hdone (f := Pc.seen) (fun _ _ => rfl) hdistinct
      fun pc hpc => ⟨(hbounds pc hpc).1.trans_le (hbounds pc hpc).2.1, (hbounds pc hpc).2.2⟩
    have hsum := (hwritten.trans hseen.symm).sum_eq
    have hsum' := List.sum_lt_sum (fun pc : Pc => pc.written.getD 0) (fun pc => pc.seen.getD 0)
      (fun pc hpc => (hbounds pc hpc).2.1) ⟨_, hover, hlt⟩
    exact absurd hsum hsum'.ne

end Final

end Foundation.LostUpdate
