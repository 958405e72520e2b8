import UbgoLogger.Sink.FingersCrossed

namespace UbgoLogger.Sink
open Foundation

variable {χ υ ι ε : Type}

-- The buffers NewFingersCrossed and FCScope make: both call newFCBuffer(256).
def Sinks.opened {ρ : Type} : Sinks ι ρ := Sinks.fresh fun _ => 256

section Calls

variable (f : ι → FingersCrossed)

-- The records this call of Emit hands to inner, in order.
def flush (s : Sinks ι (Rec χ υ)) (i : ι) (r : Rec χ υ) : List (Rec χ υ) :=
  ((f i).locked Record.level (s.buffer (bufFor i r)) r).2

def Unactivated (a : Addr ι) (calls : List (ι × Rec χ υ)) : Prop :=
  ∀ c ∈ calls, bufFor c.1 c.2 = a → c.2.level < (f c.1).act

variable {f} {a : Addr ι} {calls : List (ι × Rec χ υ)} {i : ι} {r : Rec χ υ}

theorem Unactivated.of_concat (h : Unactivated f a (calls ++ [(i, r)])) :
    Unactivated f a calls ∧ (bufFor i r = a → r.level < (f i).act) :=
  ⟨fun c hc => h c (List.mem_append_left _ hc), h (i, r) (by simp)⟩

variable [DecidableEq ι]

-- Emit calls on any number of sinks, in the order in which their critical sections run.
def dispatch (f : ι → FingersCrossed) (inner : ι → List (Rec χ υ) → Rec χ υ → Option ε)
    (s : Sinks ι (Rec χ υ)) (calls : List (ι × Rec χ υ)) : Sinks ι (Rec χ υ) :=
  calls.foldl (fun s c => ((f c.1).emit (inner c.1) c.1 s c.2).1) s

-- The records of a scope that was never activated which no sink passed through.
def buffered (f : ι → FingersCrossed) (a : Addr ι) (calls : List (ι × Rec χ υ)) :
    List (Rec χ υ) :=
  (calls.filter fun c => bufFor c.1 c.2 = a ∧ (f c.1).passes c.2.level = false).map Prod.snd

theorem buffered_concat_of_ne (h : a ≠ bufFor i r) :
    buffered f a (calls ++ [(i, r)]) = buffered f a calls := by
  simp [buffered, h.symm]

theorem buffered_concat_self :
    buffered f (bufFor i r) (calls ++ [(i, r)]) =
      buffered f (bufFor i r) calls ++ if (f i).passes r.level then [] else [r] := by
  cases hp : (f i).passes r.level <;> simp [buffered, hp]

structure Waiting (f : ι → FingersCrossed) (a : Addr ι) (b : FcBuffer (Rec χ υ))
    (calls : List (ι × Rec χ υ)) : Prop where
  activated : b.activated = false
  cap : b.cap = 256
  keeps : b.Keeps ((buffered f a calls).rtake 256)

theorem waiting_opened (f : ι → FingersCrossed) (a : Addr ι) :
    Waiting f a ((Sinks.opened : Sinks ι (Rec χ υ)).buffer a) [] where
  activated := rfl
  cap := rfl
  keeps := by simpa [buffered, List.rtake, Sinks.opened, Sinks.fresh] using newFCBuffer_keeps 256

theorem Waiting.locked {b : FcBuffer (Rec χ υ)} (h : Waiting f (bufFor i r) b calls)
    (hr : r.level < (f i).act) :
    Waiting f (bufFor i r) ((f i).locked Record.level b r).1 (calls ++ [(i, r)]) := by
  obtain ⟨hactivated, hcap, hkeeps⟩ := h
  rcases (f i).locked_cases Record.level b r with
    ⟨ha, -⟩ | ⟨-, hl, -⟩ | ⟨-, -, hp, he⟩ | ⟨-, -, hp, he⟩
  · exact absurd (ha.symm.trans hactivated) nofun
  · exact absurd hl (not_le.mpr hr)
  · rw [he]
    refine ⟨hactivated, hcap, ?_⟩
    rwa [buffered_concat_self, if_pos hp, List.append_nil]
  · rw [he]
    refine ⟨(b.push_activated r).trans hactivated, (b.push_cap r).trans hcap, ?_⟩
    have hpush := hkeeps.push r
    rw [hcap, FingersCrossed.trail_concat _ r (by omega)] at hpush
    rwa [buffered_concat_self, if_neg (by simp [hp])]

theorem waiting_dispatch (f : ι → FingersCrossed)
    (inner : ι → List (Rec χ υ) → Rec χ υ → Option ε) (calls : List (ι × Rec χ υ)) (a : Addr ι)
    (h : Unactivated f a calls) :
    Waiting f a ((dispatch f inner Sinks.opened calls).buffer a) calls := by
  induction calls using List.reverseRecOn with
  | nil => exact waiting_opened f a
  | append_singleton calls c ih =>
    obtain ⟨i, r⟩ := c
    obtain ⟨hcalls, hr⟩ := h.of_concat
    have hbefore := ih hcalls
    rw [dispatch, List.foldl_concat, FingersCrossed.emit_buffer]
    rcases eq_or_ne a (bufFor i r) with rfl | hne
    · rw [Function.update_self]
      exact hbefore.locked (hr rfl)
    · rw [Function.update_of_ne hne]
      exact ⟨hbefore.activated, hbefore.cap, (buffered_concat_of_ne hne).symm ▸ hbefore.keeps⟩

theorem flush_activating (f : ι → FingersCrossed)
    (inner : ι → List (Rec χ υ) → Rec χ υ → Option ε) (calls : List (ι × Rec χ υ)) (i : ι)
    (r : Rec χ υ) (h : Unactivated f (bufFor i r) calls) (hr : (f i).act ≤ r.level) :
    flush f (dispatch f inner Sinks.opened calls) i r =
      (buffered f (bufFor i r) calls).rtake 256 ++ [r] := by
  obtain ⟨hactivated, -, hkeeps⟩ := waiting_dispatch f inner calls (bufFor i r) h
  rcases (f i).locked_cases Record.level
      ((dispatch f inner Sinks.opened calls).buffer (bufFor i r)) r with
    ⟨ha, -⟩ | ⟨-, -, he⟩ | ⟨-, hl, -⟩ | ⟨-, hl, -⟩
  · exact absurd (ha.symm.trans hactivated) nofun
  · rw [flush, he, hkeeps.drain.2]
  · exact absurd hr (not_le.mpr hl)
  · exact absurd hr (not_le.mpr hl)

theorem rtake_eq_rtake_iff {α : Type} (xs : List α) (m n : Nat) :
    xs.rtake m = xs.rtake n ↔ min m xs.length = min n xs.length := by
  constructor
  · intro h
    have hlen := congrArg List.length h
    simp only [List.rtake, List.length_drop] at hlen
    omega
  · intro h
    rw [List.rtake, List.rtake]
    congr 1
    omega

theorem trail_honours_bufferSize_iff (f : ι → FingersCrossed)
    (inner : ι → List (Rec χ υ) → Rec χ υ → Option ε) (calls : List (ι × Rec χ υ)) (i : ι)
    (r : Rec χ υ) (hb : 1 ≤ (f i).bufferSize) (h : Unactivated f (bufFor i r) calls)
    (hr : (f i).act ≤ r.level) :
    let s := dispatch f inner Sinks.opened calls
    let held := buffered f (bufFor i r) calls
    ((f i).emit (inner i) i s r).1.received i = s.received i ++ flush f s i r ∧
    (flush f s i r = held.rtake (f i).bufferSize.toNat ++ [r] ↔
      (f i).bufferSize = 256 ∨ (held.length : Int) ≤ min (f i).bufferSize 256) := by
  intro s held
  constructor
  · rw [FingersCrossed.emit_received, Function.update_self]
    rfl
  · rw [flush_activating f inner calls i r h hr, List.append_left_inj, rtake_eq_rtake_iff]
    change min 256 held.length = min (f i).bufferSize.toNat held.length ↔ _
    omega

end Calls

def oneDeep : FingersCrossed := { newFingersCrossed with bufferSize := 1 }

theorem trail_honours_bufferSize_iff_one_deep :
    (oneDeep.emit (fun _ _ => (none : Option Unit)) ()
      (dispatch (fun _ => oneDeep) (fun _ _ _ => (none : Option Unit)) Sinks.opened
        [((), bare .debug (some 0))])
      (bare .error (some 0))).1.received () =
      [bare .debug (some 0), bare .error (some 0)] := by
  have hflush := trail_honours_bufferSize_iff (fun _ : Unit => oneDeep)
    (fun _ _ _ => (none : Option Unit)) [((), bare .debug (some 0))] () (bare .error (some 0))
    (by decide) (by unfold Unactivated; decide) (by decide)
  rw [hflush.1, hflush.2.mpr (.inr (by decide))]
  decide +kernel

theorem one_deep_keeps_two :
    flush (fun _ => oneDeep) (dispatch (fun _ => oneDeep) (fun _ _ _ => (none : Option Unit))
        Sinks.opened [((), bare .info (some 0)), ((), bare .debug (some 0))])
      () (bare .error (some 0)) =
      [bare .info (some 0), bare .debug (some 0), bare .error (some 0)] ∧
    (buffered (fun _ => oneDeep) (bufFor () (bare .error (some 0)))
        [((), bare .info (some 0)), ((), bare .debug (some 0))]).rtake 1 = [bare .debug (some 0)] := by
  refine ⟨?_, by decide⟩
  rw [flush_activating _ _ _ _ _ (by unfold Unactivated; decide) (by decide)]
  decide

end UbgoLogger.Sink
