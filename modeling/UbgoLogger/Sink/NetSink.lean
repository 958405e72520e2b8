import Mathlib.Data.Nat.ModEq
import UbgoLogger.Core.Context
import UbgoLogger.Foundation.Machine

namespace UbgoLogger.Sink.Net
open Foundation Foundation.Text

variable {χ υ τ κ ε : Type}

structure NetSink (χ υ τ : Type) where
  network : Bytes
  addr : Bytes
  enc : Rec χ υ → Bytes
  minLvl : Level
  tlsCfg : Option τ

def newTCPSink (addr : Bytes) (enc : Rec χ υ → Bytes) (minLevel : Level) : NetSink χ υ τ :=
  ⟨ascii "tcp", addr, enc, minLevel, none⟩

def newUDPSink (addr : Bytes) (enc : Rec χ υ → Bytes) (minLevel : Level) : NetSink χ υ τ :=
  ⟨ascii "udp", addr, enc, minLevel, none⟩

def newTLSSink (addr : Bytes) (cfg : Option τ) (enc : Rec χ υ → Bytes) (minLevel : Level) :
    NetSink χ υ τ :=
  ⟨ascii "tcp", addr, enc, minLevel, cfg⟩

structure Conns (κ : Type) where
  conn : Option κ
  dropped : UInt64

-- The network during one call of Emit: what its n-th dial and its n-th Write return.
structure Network (τ κ ε : Type) where
  dial : Bytes → Bytes → Nat → Except ε κ
  tlsDial : Bytes → Bytes → τ → Nat → Except ε κ
  write : Nat → Option ε

inductive Op (κ ε : Type) where
  | dial (c : Except ε κ)
  | write (c : κ) (line : Bytes) (err : Option ε)
  | close (c : κ)

namespace NetSink

variable (f : NetSink χ υ τ) (net : Network τ κ ε)

def dialLocked (n : Nat) : Except ε κ :=
  match f.tlsCfg with
  | some cfg => net.tlsDial f.network f.addr cfg n
  | none => net.dial f.network f.addr n

-- Emit from its first Write on, with n dials made before.
def send (n : Nat) (s : Conns κ) (c : κ) (line : Bytes) : Conns κ × Option ε × List (Op κ ε) :=
  match net.write 0 with
  | none => ({ s with conn := some c }, none, [.write c line none])
  | some e =>
      match f.dialLocked net n with
      | .error e₂ =>
          (⟨none, s.dropped + 1⟩, some e₂, [.write c line (some e), .close c, .dial (.error e₂)])
      | .ok c₂ =>
          match net.write 1 with
          | none =>
              ({ s with conn := some c₂ }, none,
                [.write c line (some e), .close c, .dial (.ok c₂), .write c₂ line none])
          | some e₂ =>
              (⟨some c₂, s.dropped + 1⟩, some e₂,
                [.write c line (some e), .close c, .dial (.ok c₂), .write c₂ line (some e₂)])

def emit (s : Conns κ) (r : Rec χ υ) : Conns κ × Option ε × List (Op κ ε) :=
  if r.level < f.minLvl then (s, none, [])
  else
    let line := f.enc r
    match s.conn with
    | some c => f.send net 0 s c line
    | none =>
        match f.dialLocked net 0 with
        | .error e => ({ s with dropped := s.dropped + 1 }, some e, [.dial (.error e)])
        | .ok c =>
            let (s, err, ops) := f.send net 1 s c line
            (s, err, .dial (.ok c) :: ops)

end NetSink

def dropped (s : Conns κ) : UInt64 := s.dropped

def close (answer : κ → Option ε) (s : Conns κ) : Conns κ × Option ε :=
  match s.conn with
  | some c => ({ s with conn := none }, answer c)
  | none => (s, none)

namespace Op

def isDial : Op κ ε → Bool
  | .dial _ => true
  | _ => false

def written : Op κ ε → Bool
  | .write _ _ none => true
  | _ => false

end Op

-- Every dial succeeds, and so does every Write on a connection that was dialled before it.
structure Healthy (ops : List (Op κ ε)) : Prop where
  dials : ∀ e, .dial (.error e) ∉ ops
  writes : ∀ before c line err after, ops = before ++ .write c line err :: after →
    .dial (.ok c) ∈ before → err = none

-- The connection Emit writes to first, and what it does to get it.
inductive Connected (s : Conns κ) : κ → List (Op κ ε) → Prop
  | kept {c : κ} (h : s.conn = some c) : Connected s c []
  | dialled {c : κ} (h : s.conn = none) : Connected s c [.dial (.ok c)]

section Outcomes

variable (f : NetSink χ υ τ) (s : Conns κ) (r : Rec χ υ)

inductive Outcome : Conns κ → Option ε → List (Op κ ε) → Prop
  | filtered (h : r.level < f.minLvl) : Outcome s none []
  | unreachable (e : ε) : Outcome ⟨none, s.dropped + 1⟩ (some e) [.dial (.error e)]
  | written {c : κ} {start : List (Op κ ε)} (h : Connected s c start) :
      Outcome { s with conn := some c } none (start ++ [.write c (f.enc r) none])
  | cut {c : κ} {start : List (Op κ ε)} (h : Connected s c start) (e e₂ : ε) :
      Outcome ⟨none, s.dropped + 1⟩ (some e₂)
        (start ++ [.write c (f.enc r) (some e), .close c, .dial (.error e₂)])
  | resent {c : κ} {start : List (Op κ ε)} (h : Connected s c start) (e : ε) (c₂ : κ) :
      Outcome { s with conn := some c₂ } none
        (start ++ [.write c (f.enc r) (some e), .close c, .dial (.ok c₂),
          .write c₂ (f.enc r) none])
  | lost {c : κ} {start : List (Op κ ε)} (h : Connected s c start) (e : ε) (c₂ : κ) (e₂ : ε) :
      Outcome ⟨some c₂, s.dropped + 1⟩ (some e₂)
        (start ++ [.write c (f.enc r) (some e), .close c, .dial (.ok c₂),
          .write c₂ (f.enc r) (some e₂)])

variable {f s r} (net : Network τ κ ε)

theorem send_outcome {c : κ} {start : List (Op κ ε)} (h : Connected s c start) (n : Nat) :
    Outcome f s r (f.send net n s c (f.enc r)).1 (f.send net n s c (f.enc r)).2.1
      (start ++ (f.send net n s c (f.enc r)).2.2) := by
  unfold NetSink.send
  cases net.write 0 with
  | none => exact .written h
  | some e =>
    cases f.dialLocked net n with
    | error e₂ => exact .cut h e e₂
    | ok c₂ =>
      cases net.write 1 with
      | none => exact .resent h e c₂
      | some e₂ => exact .lost h e c₂ e₂

theorem emit_outcome :
    Outcome f s r (f.emit net s r).1 (f.emit net s r).2.1 (f.emit net s r).2.2 := by
  unfold NetSink.emit
  split
  next hlevel => exact .filtered hlevel
  next =>
    cases hconn : s.conn with
    | some c => exact send_outcome net (.kept hconn) 0
    | none =>
      cases f.dialLocked net 0 with
      | error e => exact .unreachable e
      | ok c => exact send_outcome net (.dialled hconn) 1

end Outcomes

section Call

variable {f : NetSink χ υ τ} {s s' : Conns κ} {r : Rec χ υ} {err : Option ε}
  {ops : List (Op κ ε)}

theorem Connected.bounds {c : κ} {start rest : List (Op κ ε)} (h : Connected s c start)
    (hdial : rest.countP Op.isDial ≤ 1) (hwritten : rest.countP Op.written ≤ 1) :
    (start ++ rest).countP Op.isDial ≤ 2 ∧ (start ++ rest).countP Op.written ≤ 1 := by
  cases h with
  | kept h => exact ⟨Nat.le_succ_of_le hdial, hwritten⟩
  | dialled h =>
    rw [List.singleton_append, List.countP_cons_of_pos rfl, List.countP_cons_of_neg (by simp [Op.written])]
    exact ⟨Nat.succ_le_succ hdial, hwritten⟩

theorem Outcome.dropped_eq (h : Outcome f s r s' err ops) :
    s'.dropped = s.dropped + if err.isSome then 1 else 0 := by
  cases h <;> simp

theorem Outcome.bounds (h : Outcome f s r s' err ops) :
    ops.countP Op.isDial ≤ 2 ∧ ops.countP Op.written ≤ 1 := by
  cases h with
  | filtered h => exact ⟨Nat.zero_le _, Nat.zero_le _⟩
  | unreachable e => simp [Op.isDial, Op.written]
  | written h => exact h.bounds (Nat.zero_le _) le_rfl
  | cut h e e₂ => exact h.bounds le_rfl (Nat.zero_le _)
  | resent h e c₂ => exact h.bounds le_rfl le_rfl
  | lost h e c₂ e₂ => exact h.bounds le_rfl (Nat.zero_le _)

theorem Outcome.handed (h : Outcome f s r s' err ops) (herr : err = none)
    (hlevel : f.minLvl ≤ r.level) : ∃ c, .write c (f.enc r) none ∈ ops := by
  cases h with
  | filtered h => exact absurd h (not_lt.mpr hlevel)
  | @written c start h => exact ⟨c, by simp⟩
  | resent h e c₂ => exact ⟨c₂, by simp⟩
  | unreachable | cut | lost => cases herr

theorem Outcome.recovers (h : Outcome f s r s' err ops) (hops : Healthy ops) : err = none := by
  cases h with
  | filtered | written | resent => rfl
  | unreachable e => exact absurd (by simp) (hops.dials e)
  | cut h e e₂ => exact absurd (by simp) (hops.dials e₂)
  | @lost c start h e c₂ e₂ =>
    exact hops.writes (start ++ [.write c (f.enc r) (some e), .close c, .dial (.ok c₂)]) c₂
      (f.enc r) (some e₂) [] (by simp) (by simp)

end Call

inductive Act (χ υ τ κ ε : Type) where
  | emit (r : Rec χ υ) (net : Network τ κ ε)
  | close (answer : κ → Option ε)

inductive Event (χ υ κ ε : Type) where
  | emitted (r : Rec χ υ) (err : Option ε) (ops : List (Op κ ε))
  | closed (err : Option ε)

-- Emit and Close hold the mutex from end to end, so a call is one step.
def step (f : NetSink χ υ τ) (s : Conns κ) :
    Act χ υ τ κ ε → Option (Conns κ × List (Event χ υ κ ε))
  | .emit r net =>
      let (s', err, ops) := f.emit net s r
      some (s', [.emitted r err ops])
  | .close answer =>
      let (s', err) := close answer s
      some (s', [.closed err])

def machine (f : NetSink χ υ τ) : Machine (Conns κ) (Act χ υ τ κ ε) (Event χ υ κ ε) where
  init := ⟨none, 0⟩
  step := step f

def Event.failed : Event χ υ κ ε → Bool
  | .emitted _ err _ => err.isSome
  | .closed _ => false

section Runs

variable {f : NetSink χ υ τ} {s s' : Conns κ} {log evs : List (Event χ υ κ ε)}
  {a : Act χ υ τ κ ε}

theorem step_cases (h : step f s a = some (s', evs)) :
    (∃ r err ops, Outcome f s r s' err ops ∧ evs = [.emitted r err ops]) ∨
      (∃ err, s'.dropped = s.dropped ∧ evs = [.closed err]) := by
  cases a with
  | emit r net =>
    cases h
    exact .inl ⟨r, _, _, emit_outcome net, rfl⟩
  | close answer =>
    cases h
    refine .inr ⟨_, ?_, rfl⟩
    cases s.conn <;> rfl

theorem step_dropped (h : step f s a = some (s', evs)) :
    s'.dropped = s.dropped + .ofNat (evs.countP Event.failed) := by
  rcases step_cases h with ⟨r, err, ops, hout, rfl⟩ | ⟨err, hdropped, rfl⟩
  · rw [hout.dropped_eq]
    cases err <;> rfl
  · rw [hdropped]
    simp [Event.failed]

theorem run_dropped (h : (machine f).Run log s) : s.dropped = .ofNat (log.countP Event.failed) := by
  refine h.invariant (P := fun log s => s.dropped = .ofNat (log.countP Event.failed)) rfl ?_
  intro log s a s' evs _ ih _ hs
  rw [step_dropped hs, ih, List.countP_append, UInt64.ofNat_add]

theorem run_outcome (h : (machine f).Run log s) {r : Rec χ υ} {err : Option ε}
    {ops : List (Op κ ε)} (hr : .emitted r err ops ∈ log) :
    ∃ s s', Outcome f s r s' err ops := by
  refine h.invariant (P := fun log _ => .emitted r err ops ∈ log → ∃ s s', Outcome f s r s' err ops)
    nofun ?_ hr
  intro log s a s' evs _ ih _ hs hmem
  rcases List.mem_append.mp hmem with hmem | hmem
  · exact ih hmem
  · rcases step_cases hs with ⟨r', err', ops', hout, rfl⟩ | ⟨err', -, rfl⟩
    · cases List.mem_singleton.mp hmem
      exact ⟨s, s', hout⟩
    · cases List.mem_singleton.mp hmem

theorem netSink_counts_and_recovers (f : NetSink χ υ τ) {log : List (Event χ υ κ ε)} {s : Conns κ}
    (h : (machine f).Run log s) :
    ((dropped s).toNat ≡ log.countP Event.failed [MOD 2 ^ 64]) ∧
    (log.countP Event.failed < 2 ^ 64 → (dropped s).toNat = log.countP Event.failed) ∧
    ∀ r err ops, .emitted r err ops ∈ log →
      (err = none → f.minLvl ≤ r.level → ∃ c, .write c (f.enc r) none ∈ ops) ∧
      ops.countP Op.isDial ≤ 2 ∧ ops.countP Op.written ≤ 1 ∧ (Healthy ops → err = none) := by
  have hdropped : (dropped s).toNat = log.countP Event.failed % 2 ^ 64 := by
    rw [dropped, run_dropped h]
    exact UInt64.toNat_ofNat'
  refine ⟨?_, fun hlt => hdropped.trans (Nat.mod_eq_of_lt hlt), fun r err ops hr => ?_⟩
  · rw [hdropped]
    exact Nat.mod_modEq _ _
  · obtain ⟨s, s', hout⟩ := run_outcome h hr
    exact ⟨hout.handed, hout.bounds.1, hout.bounds.2, hout.recovers⟩

end Runs

def hello : Rec Unit Unit where
  time := Time.zero
  level := Level.info
  message := ascii "hello"
  pc := 0
  eventName := []
  fields := []
  ctx := none

-- Dials give connection n or fail, and Writes fail on the numbers listed.
def flaky (up : Bool) (broken : List Nat) : Network Unit Nat Unit where
  dial _ _ n := if up then .ok n else .error ()
  tlsDial _ _ _ n := if up then .ok n else .error ()
  write n := if n ∈ broken then some () else none

def outage : List (Act Unit Unit Unit Nat Unit) :=
  [.emit hello (flaky false []), .emit hello (flaky true []), .emit hello (flaky true [0, 1]),
    .emit hello (flaky true [0]), .close fun _ => none]

def greeter : NetSink Unit Unit Unit := newTCPSink [] Record.message Level.info

theorem netSink_counts_and_recovers_outage :
    ∃ (log : List (Event Unit Unit Nat Unit)) (s : Conns Nat),
      (machine greeter).Run log s ∧ log.length = 5 ∧ (dropped s).toNat = 2 := by
  obtain ⟨log, s, hrun, hgood⟩ := Machine.exists_exec (M := machine greeter)
    (C := fun _ _ => True) outage
    (fun log _ => log.length == 5 && log.countP Event.failed == 2) (by decide +kernel)
  simp only [Bool.and_eq_true, beq_iff_eq] at hgood
  have hcount := (netSink_counts_and_recovers greeter hrun).2.1 (by rw [hgood.2]; decide)
  exact ⟨log, s, hrun, hgood.1, hcount.trans hgood.2⟩

end UbgoLogger.Sink.Net
