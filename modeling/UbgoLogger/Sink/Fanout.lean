import UbgoLogger.Sink.FingersCrossed

namespace UbgoLogger.Sink
open Foundation

variable {χ υ ι ε : Type}

theorem bufFor_scope {i : ι} {r : Rec χ υ} {n : Nat} (h : bufFor i r = .scope n) :
    r.ctx.bind Context.fcScope = some n := by
  unfold bufFor at h
  split at h
  next m hm =>
    cases h
    exact hm
  next => cases h

theorem bufFor_global {i j : ι} {r : Rec χ υ} (h : bufFor i r = .global j) : i = j := by
  unfold bufFor at h
  split at h
  next => cases h
  next => cases h; rfl

def FingersCrossed.Straight (f : FingersCrossed) (l : Level) : Prop := f.passes l = true ∧ l < f.act

instance (f : FingersCrossed) (l : Level) : Decidable (f.Straight l) :=
  inferInstanceAs (Decidable (_ ∧ _))

-- Each scope has one sink that may buffer and activate there; the others pass its records through.
def Owned (f : ι → FingersCrossed) (sinks : List ι) (owner : Nat → ι) (r : Rec χ υ) : Prop :=
  ∀ n, r.ctx.bind Context.fcScope = some n → ∀ i ∈ sinks, i ≠ owner n → (f i).Straight r.level

theorem FingersCrossed.locked_straight {ρ : Type} {f : FingersCrossed} {level : ρ → Level} {r : ρ}
    (h : f.Straight (level r)) (b : FcBuffer ρ) : f.locked level b r = (b, [r]) := by
  rcases f.locked_cases level b r with ⟨-, he⟩ | ⟨-, hl, -⟩ | ⟨-, -, -, he⟩ | ⟨-, -, hp, -⟩
  · exact he
  · exact absurd hl (not_le.mpr h.2)
  · exact he
  · exact absurd (h.1.symm.trans hp) nofun

structure SameView (owner : Nat → ι) (i : ι) (s t : Sinks ι (Rec χ υ)) : Prop where
  received : s.received i = t.received i
  global : s.buffer (.global i) = t.buffer (.global i)
  scope : ∀ n, owner n = i → s.buffer (.scope n) = t.buffer (.scope n)

variable {f : ι → FingersCrossed} {sinks : List ι} {owner : Nat → ι} {s t : Sinks ι (Rec χ υ)}
  {i j : ι} {r : Rec χ υ}

theorem SameView.out_eq (h : SameView owner i s t) (ho : Owned f sinks owner r) (hi : i ∈ sinks) :
    ((f i).locked Record.level (s.buffer (bufFor i r)) r).2 =
      ((f i).locked Record.level (t.buffer (bufFor i r)) r).2 := by
  cases hb : bufFor i r with
  | global j => rw [← bufFor_global hb, h.global]
  | scope n =>
    rcases eq_or_ne (owner n) i with hn | hn
    · rw [h.scope n hn]
    · have hstraight := ho n (bufFor_scope hb) i hi hn.symm
      rw [FingersCrossed.locked_straight hstraight, FingersCrossed.locked_straight hstraight]

variable [DecidableEq ι]

-- The errors are those OnError is called with.
def Fanout.emit (f : ι → FingersCrossed) (inner : ι → List (Rec χ υ) → Rec χ υ → Option ε)
    (sinks : List ι) (s : Sinks ι (Rec χ υ)) (r : Rec χ υ) : Sinks ι (Rec χ υ) × List (ι × ε) :=
  sinks.foldl
    (fun p i =>
      let (s', err) := (f i).emit (inner i) i p.1 r
      (s', p.2 ++ (err.map fun e => (i, e)).toList))
    (s, [])

def Fanout.run (f : ι → FingersCrossed) (inner : ι → List (Rec χ υ) → Rec χ υ → Option ε)
    (sinks : List ι) (s : Sinks ι (Rec χ υ)) (rs : List (Rec χ υ)) : Sinks ι (Rec χ υ) :=
  rs.foldl (fun s r => (Fanout.emit f inner sinks s r).1) s

variable (inner : ι → List (Rec χ υ) → Rec χ υ → Option ε)

theorem SameView.frame (h : SameView owner i s t) (ho : Owned f sinks owner r) (hj : j ∈ sinks)
    (hne : j ≠ i) : SameView owner i ((f j).emit (inner j) j s r).1 t := by
  refine ⟨?_, ?_, fun n hn => ?_⟩
  · rw [FingersCrossed.emit_received, Function.update_of_ne hne.symm, h.received]
  · rw [FingersCrossed.emit_buffer, Function.update_of_ne, h.global]
    exact fun he => hne (bufFor_global he.symm)
  · rw [FingersCrossed.emit_buffer, ← h.scope n hn]
    rcases eq_or_ne (bufFor j r) (.scope n) with he | he
    · have hstraight := ho n (bufFor_scope he) j hj (hn ▸ hne)
      rw [he, FingersCrossed.locked_straight hstraight, Function.update_self]
    · rw [Function.update_of_ne he.symm]

theorem emit_buffer_congr {f : FingersCrossed} {inner : List (Rec χ υ) → Rec χ υ → Option ε}
    {a : Addr ι} (h : s.buffer a = t.buffer a) :
    (f.emit inner i s r).1.buffer a = (f.emit inner i t r).1.buffer a := by
  rw [FingersCrossed.emit_buffer, FingersCrossed.emit_buffer]
  rcases eq_or_ne a (bufFor i r) with rfl | hne
  · rw [Function.update_self, Function.update_self, h]
  · rw [Function.update_of_ne hne, Function.update_of_ne hne, h]

theorem SameView.emit (h : SameView owner i s t) (ho : Owned f sinks owner r) (hi : i ∈ sinks) :
    SameView owner i ((f i).emit (inner i) i s r).1 ((f i).emit (inner i) i t r).1 where
  received := by
    rw [FingersCrossed.emit_received, FingersCrossed.emit_received, Function.update_self,
      Function.update_self, h.received, h.out_eq ho hi]
  global := emit_buffer_congr h.global
  scope := fun n hn => emit_buffer_congr (h.scope n hn)

theorem Fanout.emit_fst (sinks : List ι) (s : Sinks ι (Rec χ υ)) (r : Rec χ υ) :
    (Fanout.emit f inner sinks s r).1 =
      sinks.foldl (fun s i => ((f i).emit (inner i) i s r).1) s := by
  suffices h : ∀ p : Sinks ι (Rec χ υ) × List (ι × ε),
      (sinks.foldl (fun p i =>
        let (s', err) := (f i).emit (inner i) i p.1 r
        (s', p.2 ++ (err.map fun e => (i, e)).toList)) p).1 =
        sinks.foldl (fun s i => ((f i).emit (inner i) i s r).1) p.1 from h (s, [])
  induction sinks with
  | nil => exact fun _ => rfl
  | cons j sinks ih => exact fun p => ih _

theorem SameView.frames (h : SameView owner i s t) (ho : Owned f sinks owner r) {js : List ι}
    (hjs : ∀ j ∈ js, j ∈ sinks ∧ j ≠ i) :
    SameView owner i (js.foldl (fun s j => ((f j).emit (inner j) j s r).1) s) t := by
  induction js generalizing s with
  | nil => exact h
  | cons j js ih =>
    obtain ⟨⟨hj, hne⟩, hjs⟩ := List.forall_mem_cons.mp hjs
    exact ih (h.frame inner ho hj hne) hjs

theorem SameView.fanout (h : SameView owner i s t) (ho : Owned f sinks owner r) (hi : i ∈ sinks)
    (hn : sinks.Nodup) :
    SameView owner i (Fanout.emit f inner sinks s r).1 ((f i).emit (inner i) i t r).1 := by
  rw [Fanout.emit_fst]
  obtain ⟨before, after, hsplit⟩ := List.append_of_mem hi
  have hother : ∀ j ∈ before ++ after, j ∈ sinks ∧ j ≠ i := by
    have hperm : (i :: (before ++ after)).Perm sinks := hsplit ▸ List.perm_middle.symm
    intro j hj
    refine ⟨hperm.subset (List.mem_cons_of_mem i hj), ?_⟩
    rintro rfl
    exact (List.nodup_cons.mp (hperm.nodup_iff.mpr hn)).1 hj
  have hbefore := h.frames inner ho fun j hj => hother j (List.mem_append_left after hj)
  have hself := hbefore.emit inner ho hi
  have hafter := hself.frames inner ho fun j hj => hother j (List.mem_append_right before hj)
  rw [hsplit, List.foldl_append, List.foldl_cons]
  exact hafter

theorem sameView_run (hn : sinks.Nodup) (hi : i ∈ sinks) (s : Sinks ι (Rec χ υ))
    (rs : List (Rec χ υ)) (ho : ∀ r ∈ rs, Owned f sinks owner r) :
    SameView owner i (Fanout.run f inner sinks s rs) ((f i).run (inner i) i s rs) := by
  induction rs using List.reverseRecOn with
  | nil => exact ⟨rfl, rfl, fun _ _ => rfl⟩
  | append_singleton rs r ih =>
    rw [Fanout.run, FingersCrossed.run, List.foldl_concat, List.foldl_concat]
    have hrs := ih fun x hx => ho x (List.mem_append_left _ hx)
    exact hrs.fanout inner (ho r (by simp)) hi hn

theorem fanout_isolates (f : ι → FingersCrossed)
    (inner : ι → List (Rec χ υ) → Rec χ υ → Option ε) (capacity : Addr ι → Int) (sinks : List ι)
    (hn : sinks.Nodup) (rs : List (Rec χ υ)) (owner : Nat → ι)
    (ho : ∀ r ∈ rs, Owned f sinks owner r) (i : ι) (hi : i ∈ sinks) :
    (Fanout.run f inner sinks (Sinks.fresh capacity) rs).received i =
      ((f i).run (inner i) i (Sinks.fresh capacity) rs).received i :=
  (sameView_run inner hn hi (Sinks.fresh capacity) rs ho).received

def twoSinks : Bool → FingersCrossed
  | false => newFingersCrossed
  | true => { newFingersCrossed with activation := 24, passThrough := Level.trace }

theorem fanout_isolates_owner :
    (Fanout.run twoSinks (fun _ _ _ => (none : Option Unit)) [true, false] (Sinks.fresh fun _ => 256)
        [bare .debug (some 0), bare .error (some 0)]).received false =
      [bare .debug (some 0), bare .error (some 0)] := by
  refine (fanout_isolates twoSinks _ _ [true, false] (by decide) _ (fun _ => false) ?_ false
    (by decide)).trans (by decide +kernel)
  have hstraight : ∀ r ∈ [bare .debug (some 0), bare .error (some 0)],
      (twoSinks true).Straight r.level := by decide +kernel
  intro r hr n _ i _ hne
  obtain rfl : i = true := by simpa using hne
  exact hstraight r hr

theorem shared_scope_interferes :
    let rs := [bare .debug (some 0), bare .error (some 0)]
    let run := Fanout.run (fun _ : Bool => newFingersCrossed) (fun _ _ _ => (none : Option Unit))
      [false, true] (Sinks.fresh fun _ => 256) rs
    run.received false = [bare .debug (some 0), bare .debug (some 0), bare .error (some 0)] ∧
    run.received true = [bare .error (some 0)] ∧
    ∀ i : Bool, (newFingersCrossed.run (fun _ _ => (none : Option Unit)) i (Sinks.fresh fun _ => 256)
      rs).received i = rs := by
  decide +kernel

end UbgoLogger.Sink
