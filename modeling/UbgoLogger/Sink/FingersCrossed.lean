import UbgoLogger.Core.Context
import UbgoLogger.Foundation.Circular
import UbgoLogger.Foundation.History
import Mathlib.Data.List.DropRight
import Mathlib.Data.List.TakeWhile

namespace UbgoLogger.Sink
open Foundation Foundation.Circular

structure FcBuffer (ρ : Type) where
  ring : List (Option ρ)
  start : Nat
  count : Nat
  activated : Bool
  cap : Nat

section Buffer

variable {ρ : Type}

def fcCap (capacity : Int) : Nat := if capacity < 1 then 256 else capacity.toNat

def newFCBuffer (capacity : Int) : FcBuffer ρ where
  ring := List.replicate (fcCap capacity) none
  start := 0
  count := 0
  activated := false
  cap := fcCap capacity

namespace FcBuffer

def push (b : FcBuffer ρ) (r : ρ) : FcBuffer ρ :=
  if b.count = b.cap then
    { b with ring := b.ring.set b.start (some r), start := (b.start + 1) % b.cap }
  else
    { b with ring := b.ring.set ((b.start + b.count) % b.cap) (some r), count := b.count + 1 }

def drain (b : FcBuffer ρ) : FcBuffer ρ × List ρ :=
  ({ b with start := 0, count := 0 },
    (List.range b.count).filterMap fun i => (b.ring[(b.start + i) % b.cap]?).join)

structure Keeps (b : FcBuffer ρ) (xs : List ρ) : Prop where
  cap_eq : b.cap = b.ring.length
  stores : Stores b.ring b.start b.count xs

variable {b : FcBuffer ρ} {xs : List ρ}

theorem Keeps.cap_pos (h : b.Keeps xs) : 0 < b.cap := by
  have := h.stores.head_lt
  have := h.cap_eq
  omega

theorem Keeps.length_le (h : b.Keeps xs) : xs.length ≤ b.cap :=
  h.cap_eq ▸ h.stores.length ▸ h.stores.fits

theorem Keeps.push (h : b.Keeps xs) (r : ρ) : (b.push r).Keeps ((xs ++ [r]).rtake b.cap) := by
  obtain ⟨hcap, hstores⟩ := h
  have hlen := hstores.length
  have hfits := hstores.fits
  unfold FcBuffer.push
  split
  next hfull =>
    rw [hfull, hcap] at hstores
    cases xs with
    | nil =>
      have := hstores.head_lt
      have := hstores.length
      simp at this
      omega
    | cons y xs =>
      have hlast : (y :: xs ++ [r]).rtake b.cap = xs ++ [r] := by
        rw [List.length_cons] at hlen
        simp [List.rtake, show xs.length + 1 + 1 - b.cap = 1 by omega]
      rw [hlast]
      refine ⟨by simpa using hcap, ?_⟩
      rw [hfull, hcap]
      exact hstores.overwrite r
  next hroom =>
    have hall : (xs ++ [r]).rtake b.cap = xs ++ [r] := by
      simp [List.rtake, show xs.length + 1 - b.cap = 0 by omega]
    rw [hall]
    refine ⟨by simpa using hcap, ?_⟩
    rw [hcap]
    exact hstores.push r (by omega)

@[simp] theorem push_cap (b : FcBuffer ρ) (r : ρ) : (b.push r).cap = b.cap := by
  unfold push
  split <;> rfl

@[simp] theorem push_activated (b : FcBuffer ρ) (r : ρ) : (b.push r).activated = b.activated := by
  unfold push
  split <;> rfl

theorem Keeps.drain (h : b.Keeps xs) : b.drain.1.Keeps [] ∧ b.drain.2 = xs := by
  refine ⟨⟨h.cap_eq, ⟨rfl, Nat.zero_le _, h.cap_eq ▸ h.cap_pos, nofun⟩⟩, ?_⟩
  rw [FcBuffer.drain, h.cap_eq]
  exact h.stores.contents_eq

end FcBuffer

theorem newFCBuffer_keeps (capacity : Int) : (newFCBuffer capacity : FcBuffer ρ).Keeps [] := by
  have hpos : 0 < fcCap capacity := by unfold fcCap; split <;> omega
  exact ⟨by simp [newFCBuffer], (holds_empty hpos).stores⟩

end Buffer

structure FingersCrossed where
  activation : Level
  bufferSize : Int
  passThrough : Level

def newFingersCrossed : FingersCrossed := ⟨Level.error, 256, 0⟩

-- The branch of Emit that handles a record.
inductive Verdict where
  | opened
  | activating
  | passed
  | buffered
  deriving DecidableEq

namespace FingersCrossed

def act (f : FingersCrossed) : Level := if f.activation = 0 then Level.error else f.activation

def passes (f : FingersCrossed) (l : Level) : Bool := f.passThrough ≠ 0 && f.passThrough ≤ l

def verdict (f : FingersCrossed) (activated : Bool) (l : Level) : Verdict :=
  if activated then .opened
  else if f.act ≤ l then .activating
  else if f.passes l then .passed
  else .buffered

-- The critical section of Emit: the buffer it leaves and the records it hands to inner afterwards.
def locked {ρ : Type} (f : FingersCrossed) (level : ρ → Level) (b : FcBuffer ρ) (r : ρ) :
    FcBuffer ρ × List ρ :=
  match f.verdict b.activated (level r) with
  | .opened => (b, [r])
  | .activating => ({ b.drain.1 with activated := true }, b.drain.2 ++ [r])
  | .passed => (b, [r])
  | .buffered => (b.push r, [])

theorem verdict_opened {f : FingersCrossed} {activated : Bool} {l : Level} :
    f.verdict activated l = .opened ↔ activated = true := by
  unfold verdict
  split_ifs with hact <;> simp [hact]

theorem locked_cases {ρ : Type} (f : FingersCrossed) (level : ρ → Level) (b : FcBuffer ρ) (r : ρ) :
    (b.activated = true ∧ f.locked level b r = (b, [r])) ∨
    (b.activated = false ∧ f.act ≤ level r ∧
      f.locked level b r = ({ b.drain.1 with activated := true }, b.drain.2 ++ [r])) ∨
    (b.activated = false ∧ level r < f.act ∧ f.passes (level r) = true ∧
      f.locked level b r = (b, [r])) ∨
    (b.activated = false ∧ level r < f.act ∧ f.passes (level r) = false ∧
      f.locked level b r = (b.push r, [])) := by
  unfold locked verdict
  split_ifs with hact hlevel hpass
  · exact .inl ⟨hact, rfl⟩
  · exact .inr (.inl ⟨Bool.eq_false_iff.mpr hact, hlevel, rfl⟩)
  · exact .inr (.inr (.inl ⟨Bool.eq_false_iff.mpr hact, not_le.mp hlevel, hpass, rfl⟩))
  · exact .inr (.inr (.inr ⟨Bool.eq_false_iff.mpr hact, not_le.mp hlevel,
      Bool.eq_false_iff.mpr hpass, rfl⟩))

theorem locked_of_le {ρ : Type} {f : FingersCrossed} {level : ρ → Level} {r : ρ}
    (h : f.act ≤ level r) (b : FcBuffer ρ) : ∃ xs, (f.locked level b r).2 = xs ++ [r] := by
  rcases f.locked_cases level b r with ⟨-, he⟩ | ⟨-, -, he⟩ | ⟨-, hl, -⟩ | ⟨-, hl, -⟩
  · exact ⟨[], by rw [he]; rfl⟩
  · exact ⟨b.drain.2, by rw [he]⟩
  · exact absurd h (not_le.mpr hl)
  · exact absurd h (not_le.mpr hl)

section Trail

variable {ρ : Type} (f : FingersCrossed) (level : ρ → Level)

def quiet (rs : List ρ) : List ρ := rs.takeWhile fun r => level r < f.act

def held (rs : List ρ) : List ρ := (f.quiet level rs).filter fun r => !f.passes (level r)

def trail (cap : Nat) (rs : List ρ) : List ρ := (f.held level rs).rtake cap

def output (cap : Nat) (rs : List ρ) : List ρ :=
  (f.quiet level rs).filter (fun r => f.passes (level r)) ++
    match rs.dropWhile fun r => level r < f.act with
    | [] => []
    | k :: later => f.trail level cap rs ++ k :: later

def activates (rs : List ρ) : Bool := rs.any fun r => f.act ≤ level r

variable {f level} {before later rs : List ρ} {k r : ρ} {cap : Nat}

theorem activates_split (h : f.activates level rs = true) :
    ∃ before k later, rs = before ++ k :: later ∧ (∀ x ∈ before, level x < f.act) ∧
      f.act ≤ level k := by
  induction rs with
  | nil => cases h
  | cons x rs ih =>
    rcases le_or_gt f.act (level x) with hx | hx
    · exact ⟨[], x, rs, rfl, nofun, hx⟩
    · have hrest : f.activates level rs = true := by
        simpa [activates, not_le.mpr hx] using h
      obtain ⟨before, k, later, rfl, hbefore, hk⟩ := ih hrest
      exact ⟨x :: before, k, later, rfl, List.forall_mem_cons.mpr ⟨hx, hbefore⟩, hk⟩

theorem quiet_split (hbefore : ∀ x ∈ before, level x < f.act) (hk : f.act ≤ level k) :
    f.quiet level (before ++ k :: later) = before := by
  rw [quiet, List.takeWhile_append_of_pos fun x hx => decide_eq_true (hbefore x hx),
    List.takeWhile_cons_of_neg (by simpa using hk), List.append_nil]

theorem dropWhile_split (hbefore : ∀ x ∈ before, level x < f.act) (hk : f.act ≤ level k) :
    ((before ++ k :: later).dropWhile fun r => level r < f.act) = k :: later := by
  rw [List.dropWhile_append_of_pos fun x hx => decide_eq_true (hbefore x hx),
    List.dropWhile_cons_of_neg (by simpa using hk)]

theorem below_of_not_activates (h : f.activates level rs = false) : ∀ x ∈ rs, level x < f.act := by
  simpa [activates] using h

theorem quiet_of_below (h : ∀ x ∈ rs, level x < f.act) : f.quiet level rs = rs :=
  List.takeWhile_eq_self_iff.mpr fun x hx => decide_eq_true (h x hx)

theorem dropWhile_of_below (h : ∀ x ∈ rs, level x < f.act) :
    (rs.dropWhile fun r => level r < f.act) = [] :=
  List.dropWhile_eq_nil_iff.mpr fun x hx => decide_eq_true (h x hx)

theorem output_split (hbefore : ∀ x ∈ before, level x < f.act) (hk : f.act ≤ level k) :
    f.output level cap (before ++ k :: later) =
      before.filter (fun r => f.passes (level r)) ++
        ((before.filter fun r => !f.passes (level r)).rtake cap ++ k :: later) := by
  rw [output, dropWhile_split hbefore hk, trail, held, quiet_split hbefore hk]

theorem output_of_below (h : ∀ x ∈ rs, level x < f.act) :
    f.output level cap rs = rs.filter fun r => f.passes (level r) := by
  rw [output, dropWhile_of_below h, quiet_of_below h, List.append_nil]

theorem held_of_below (h : ∀ x ∈ rs, level x < f.act) :
    f.held level rs = rs.filter fun r => !f.passes (level r) := by
  rw [held, quiet_of_below h]

theorem output_opened (h : f.activates level rs = true) (r : ρ) :
    f.output level cap (rs ++ [r]) = f.output level cap rs ++ [r] := by
  obtain ⟨before, k, later, rfl, hbefore, hk⟩ := activates_split h
  rw [List.append_assoc, List.cons_append, output_split hbefore hk, output_split hbefore hk]
  simp only [List.append_assoc, List.cons_append]

theorem output_activating (h : ∀ x ∈ rs, level x < f.act) (hr : f.act ≤ level r) :
    f.output level cap (rs ++ [r]) = f.output level cap rs ++ (f.trail level cap rs ++ [r]) := by
  rw [output_split h hr, output_of_below h, trail, held_of_below h]

theorem output_below (h : ∀ x ∈ rs ++ [r], level x < f.act) :
    f.output level cap (rs ++ [r]) =
      f.output level cap rs ++ if f.passes (level r) then [r] else [] := by
  have hrs : ∀ x ∈ rs, level x < f.act := fun x hx => h x (List.mem_append_left _ hx)
  rw [output_of_below h, output_of_below hrs, List.filter_append, List.filter_singleton]
  cases f.passes (level r) <;> rfl

theorem held_below (h : ∀ x ∈ rs ++ [r], level x < f.act) :
    f.held level (rs ++ [r]) = f.held level rs ++ if f.passes (level r) then [] else [r] := by
  have hrs : ∀ x ∈ rs, level x < f.act := fun x hx => h x (List.mem_append_left _ hx)
  rw [held_of_below h, held_of_below hrs, List.filter_append, List.filter_singleton]
  cases f.passes (level r) <;> rfl

theorem trail_concat (xs : List ρ) (r : ρ) (hcap : 0 < cap) :
    (xs.rtake cap ++ [r]).rtake cap = (xs ++ [r]).rtake cap := by
  obtain ⟨c, rfl⟩ := Nat.exists_eq_succ_of_ne_zero hcap.ne'
  rw [List.rtake_concat_succ, List.rtake_concat_succ]
  congr 1
  simp only [List.rtake, List.length_drop, List.drop_drop]
  congr 1
  omega

theorem trail_subset : f.trail level cap rs ⊆ rs := by
  intro x hx
  have hheld : x ∈ f.held level rs := List.mem_of_mem_drop hx
  exact (List.takeWhile_sublist _).subset (List.mem_of_mem_filter hheld)

theorem trail_sublist_output (h : f.activates level rs = true) :
    (f.trail level cap rs).Sublist (f.output level cap rs) := by
  obtain ⟨before, k, later, rfl, hbefore, hk⟩ := activates_split h
  rw [output_split hbefore hk, trail, held, quiet_split hbefore hk]
  exact (List.sublist_append_left _ _).trans (List.sublist_append_right _ _)

theorem output_subperm : (f.output level cap rs).Subperm rs := by
  cases h : f.activates level rs with
  | false =>
    rw [output_of_below (below_of_not_activates h)]
    exact List.filter_sublist.subperm
  | true =>
    obtain ⟨before, k, later, rfl, hbefore, hk⟩ := activates_split h
    rw [output_split hbefore hk, ← List.append_assoc]
    have hdrop : ((before.filter fun r => !f.passes (level r)).rtake cap).Sublist
        (before.filter fun r => !f.passes (level r)) := List.drop_sublist _ _
    have hparts := List.filter_append_perm (fun r => f.passes (level r)) before
    exact ((hdrop.append_left _).subperm.trans hparts.subperm).append (List.Subperm.refl _)

end Trail

end FingersCrossed

section Tracks

variable {ρ : Type}

structure Tracks (f : FingersCrossed) (level : ρ → Level) (b : FcBuffer ρ) (rs out : List ρ) :
    Prop where
  activated : b.activated = f.activates level rs
  keeps : b.Keeps (if b.activated then [] else f.trail level b.cap rs)
  output : out = f.output level b.cap rs

variable {f : FingersCrossed} {level : ρ → Level} {b : FcBuffer ρ} {rs out : List ρ}

theorem tracks_fresh (capacity : Int) : Tracks f level (newFCBuffer capacity) [] [] :=
  ⟨rfl, by simpa [FingersCrossed.trail, FingersCrossed.held, FingersCrossed.quiet] using
    newFCBuffer_keeps capacity, rfl⟩

theorem FingersCrossed.activates_concat (f : FingersCrossed) (level : ρ → Level) (rs : List ρ)
    (r : ρ) :
    f.activates level (rs ++ [r]) = (f.activates level rs || decide (f.act ≤ level r)) := by
  simp [activates]

theorem Tracks.before (h : Tracks f level b rs out) (ha : b.activated = false) :
    ∀ x ∈ rs, level x < f.act :=
  FingersCrossed.below_of_not_activates (h.activated ▸ ha)

theorem Tracks.waiting (h : Tracks f level b rs out) (ha : b.activated = false) :
    b.Keeps (f.trail level b.cap rs) := by
  have hkeeps := h.keeps
  rwa [if_neg (Bool.eq_false_iff.mp ha)] at hkeeps

theorem Tracks.still_quiet (h : Tracks f level b rs out) (ha : b.activated = false) {r : ρ}
    (hl : level r < f.act) :
    b.activated = f.activates level (rs ++ [r]) ∧ ∀ x ∈ rs ++ [r], level x < f.act := by
  constructor
  · rw [f.activates_concat, ← h.activated, ha, decide_eq_false (not_le.mpr hl), Bool.or_false]
  · intro x hx
    rcases List.mem_append.mp hx with hx | hx
    · exact h.before ha x hx
    · exact List.mem_singleton.mp hx ▸ hl

theorem Tracks.opened (h : Tracks f level b rs out) (ha : b.activated = true) (r : ρ) :
    Tracks f level b (rs ++ [r]) (out ++ [r]) := by
  obtain ⟨hactivated, hkeeps, rfl⟩ := h
  refine ⟨?_, ?_, ?_⟩
  · rw [f.activates_concat, ← hactivated, ha, Bool.true_or]
  · rwa [if_pos ha] at hkeeps ⊢
  · exact (FingersCrossed.output_opened (hactivated ▸ ha) r).symm

theorem Tracks.activating (h : Tracks f level b rs out) (ha : b.activated = false) {r : ρ}
    (hl : f.act ≤ level r) :
    Tracks f level { b.drain.1 with activated := true } (rs ++ [r])
      (out ++ (f.trail level b.cap rs ++ [r])) := by
  obtain ⟨hempty, -⟩ := (h.waiting ha).drain
  refine ⟨?_, ⟨hempty.cap_eq, hempty.stores⟩, ?_⟩
  · rw [f.activates_concat, decide_eq_true hl, Bool.or_true]
  · rw [h.output]
    exact (FingersCrossed.output_activating (h.before ha) hl).symm

theorem Tracks.passed (h : Tracks f level b rs out) (ha : b.activated = false) {r : ρ}
    (hl : level r < f.act) (hp : f.passes (level r) = true) :
    Tracks f level b (rs ++ [r]) (out ++ [r]) := by
  obtain ⟨hactivated, hbelow⟩ := h.still_quiet ha hl
  refine ⟨hactivated, ?_, ?_⟩
  · rw [if_neg (Bool.eq_false_iff.mp ha), FingersCrossed.trail, FingersCrossed.held_below hbelow,
      if_pos hp, List.append_nil]
    exact h.waiting ha
  · rw [h.output, FingersCrossed.output_below hbelow, if_pos hp]

theorem Tracks.buffered (h : Tracks f level b rs out) (ha : b.activated = false) {r : ρ}
    (hl : level r < f.act) (hp : f.passes (level r) = false) :
    Tracks f level (b.push r) (rs ++ [r]) out := by
  obtain ⟨hactivated, hbelow⟩ := h.still_quiet ha hl
  have hkeeps := h.waiting ha
  refine ⟨?_, ?_, ?_⟩
  · rw [FcBuffer.push_activated, hactivated]
  · rw [FcBuffer.push_activated, if_neg (Bool.eq_false_iff.mp ha), FcBuffer.push_cap,
      FingersCrossed.trail, FingersCrossed.held_below hbelow, if_neg (by simp [hp]),
      ← FingersCrossed.trail_concat _ r hkeeps.cap_pos]
    exact hkeeps.push r
  · rw [FcBuffer.push_cap, FingersCrossed.output_below hbelow, if_neg (by simp [hp]),
      List.append_nil, h.output]

theorem Tracks.locked (h : Tracks f level b rs out) (r : ρ) :
    Tracks f level (f.locked level b r).1 (rs ++ [r]) (out ++ (f.locked level b r).2) ∧
      (f.locked level b r).1.cap = b.cap ∧ ∀ x ∈ (f.locked level b r).2, x ∈ rs ++ [r] := by
  have hself : ∀ x ∈ [r], x ∈ rs ++ [r] := fun x hx => List.mem_append_right rs hx
  rcases f.locked_cases level b r with ⟨ha, he⟩ | ⟨ha, hl, he⟩ | ⟨ha, hl, hp, he⟩ | ⟨ha, hl, hp, he⟩
  · rw [he]
    exact ⟨h.opened ha r, rfl, hself⟩
  · rw [he, (h.waiting ha).drain.2]
    refine ⟨h.activating ha hl, rfl, fun x hx => ?_⟩
    rcases List.mem_append.mp hx with hx | hx
    · exact List.mem_append_left _ (FingersCrossed.trail_subset hx)
    · exact hself x hx
  · rw [he]
    exact ⟨h.passed ha hl hp, rfl, hself⟩
  · rw [he, List.append_nil]
    exact ⟨h.buffered ha hl hp, FcBuffer.push_cap b r, nofun⟩

end Tracks

inductive Addr (ι : Type) where
  | scope (n : Nat)
  | global (i : ι)
  deriving DecidableEq

variable {χ υ ι ε : Type}

def bufFor (i : ι) (r : Rec χ υ) : Addr ι :=
  match r.ctx.bind Context.fcScope with
  | some n => .scope n
  | none => .global i

-- The buffers of all contexts and sinks, and what the sink behind each FingersCrossed received.
structure Sinks (ι ρ : Type) where
  buffer : Addr ι → FcBuffer ρ
  received : ι → List ρ

def Sinks.fresh {ρ : Type} (capacity : Addr ι → Int) : Sinks ι ρ where
  buffer := fun a => newFCBuffer (capacity a)
  received := fun _ => []

def deliver {ρ : Type} (inner : List ρ → ρ → Option ε) (log out : List ρ) : List ρ × Option ε :=
  out.foldl (fun p r => (p.1 ++ [r], inner p.1 r)) (log, none)

@[simp] theorem deliver_fst {ρ : Type} (inner : List ρ → ρ → Option ε) (log out : List ρ) :
    (deliver inner log out).1 = log ++ out := by
  suffices h : ∀ p : List ρ × Option ε,
      (out.foldl (fun p r => (p.1 ++ [r], inner p.1 r)) p).1 = p.1 ++ out from h (log, none)
  induction out with
  | nil => simp
  | cons r out ih => intro p; rw [List.foldl_cons, ih, List.append_assoc]; rfl

variable [DecidableEq ι]

def FingersCrossed.emit (f : FingersCrossed) (inner : List (Rec χ υ) → Rec χ υ → Option ε) (i : ι)
    (s : Sinks ι (Rec χ υ)) (r : Rec χ υ) : Sinks ι (Rec χ υ) × Option ε :=
  let (b, out) := f.locked Record.level (s.buffer (bufFor i r)) r
  let (log, err) := deliver inner (s.received i) out
  (⟨Function.update s.buffer (bufFor i r) b, Function.update s.received i log⟩, err)

def FingersCrossed.run (f : FingersCrossed) (inner : List (Rec χ υ) → Rec χ υ → Option ε) (i : ι)
    (s : Sinks ι (Rec χ υ)) (rs : List (Rec χ υ)) : Sinks ι (Rec χ υ) :=
  rs.foldl (fun s r => (f.emit inner i s r).1) s

@[simp] theorem FingersCrossed.emit_buffer (f : FingersCrossed)
    (inner : List (Rec χ υ) → Rec χ υ → Option ε) (i : ι) (s : Sinks ι (Rec χ υ)) (r : Rec χ υ) :
    (f.emit inner i s r).1.buffer = Function.update s.buffer (bufFor i r)
      (f.locked Record.level (s.buffer (bufFor i r)) r).1 := rfl

@[simp] theorem FingersCrossed.emit_received (f : FingersCrossed)
    (inner : List (Rec χ υ) → Rec χ υ → Option ε) (i : ι) (s : Sinks ι (Rec χ υ)) (r : Rec χ υ) :
    (f.emit inner i s r).1.received = Function.update s.received i
      (s.received i ++ (f.locked Record.level (s.buffer (bufFor i r)) r).2) := by
  rw [← deliver_fst inner]
  rfl

section Run

variable {f : FingersCrossed} {inner : List (Rec χ υ) → Rec χ υ → Option ε} {i : ι}
  {capacity : Addr ι → Int} {s : Sinks ι (Rec χ υ)} {rs : List (Rec χ υ)}

structure Agrees (f : FingersCrossed) (i : ι) (capacity : Addr ι → Int) (s : Sinks ι (Rec χ υ))
    (rs : List (Rec χ υ)) : Prop where
  tracks : ∀ a, Tracks f Record.level (s.buffer a) (fibre (bufFor i) a rs)
    (fibre (bufFor i) a (s.received i))
  cap : ∀ a, (s.buffer a).cap = fcCap (capacity a)

theorem agrees_fresh : Agrees f i capacity (Sinks.fresh capacity : Sinks ι (Rec χ υ)) [] :=
  ⟨fun a => tracks_fresh (capacity a), fun _ => rfl⟩

theorem Agrees.emit (h : Agrees f i capacity s rs) (r : Rec χ υ) :
    Agrees f i capacity (f.emit inner i s r).1 (rs ++ [r]) := by
  obtain ⟨hnext, hcap, hout⟩ := (h.tracks (bufFor i r)).locked r
  have hhome : ∀ x ∈ (f.locked Record.level (s.buffer (bufFor i r)) r).2,
      bufFor i x = bufFor i r := by
    intro x hx
    rcases List.mem_append.mp (hout x hx) with hx | hx
    · exact ((mem_fibre _).mp hx).2
    · rw [List.mem_singleton.mp hx]
  refine ⟨fun a => ?_, fun a => ?_⟩
  · rw [FingersCrossed.emit_buffer, FingersCrossed.emit_received, Function.update_self, fibre_append,
      fibre_append, fibre_singleton]
    rcases eq_or_ne a (bufFor i r) with rfl | hne
    · rw [Function.update_self, if_pos rfl, fibre_eq_self _ hhome]
      exact hnext
    · rw [Function.update_of_ne hne, if_neg hne.symm,
        fibre_eq_nil _ fun x hx he => hne (he.symm.trans (hhome x hx)), List.append_nil,
        List.append_nil]
      exact h.tracks a
  · rw [FingersCrossed.emit_buffer]
    rcases eq_or_ne a (bufFor i r) with rfl | hne
    · rw [Function.update_self, hcap, h.cap]
    · rw [Function.update_of_ne hne, h.cap]

theorem Agrees.received_eq (h : Agrees f i capacity s rs) (a : Addr ι) :
    fibre (bufFor i) a (s.received i) =
      f.output Record.level (fcCap (capacity a)) (fibre (bufFor i) a rs) := by
  rw [← h.cap]
  exact (h.tracks a).output

theorem Agrees.subperm (h : Agrees f i capacity s rs) : (s.received i).Subperm rs := by
  refine subperm_of_fibre (bufFor i) fun a => ?_
  rw [h.received_eq a]
  exact FingersCrossed.output_subperm

end Run

def bare (l : Level) (scope : Option Nat) : Rec Unit Unit where
  time := Time.epoch
  level := l
  message := []
  pc := 0
  eventName := []
  fields := []
  ctx := some (scope.toList.map .fcScope)

end UbgoLogger.Sink
