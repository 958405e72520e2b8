import Mathlib.Logic.Function.Basic
import UbgoLogger.Core.Field
import UbgoLogger.Encode.Buffer
import UbgoLogger.Foundation.Machine

namespace UbgoLogger.Sink.Writer
open Foundation Foundation.Text

structure Buf where
  b : Bytes
  cap : Nat
  fits : b.length ≤ cap

namespace Buf

theorem append_fits (grow : Nat → Nat → Nat) (buf : Buf) (t : Bytes) :
    (buf.b ++ t).length ≤
      if buf.b.length + t.length ≤ buf.cap then buf.cap
      else max (buf.b.length + t.length) (grow buf.cap (buf.b.length + t.length)) := by
  rw [List.length_append]
  split
  next hroom => exact hroom
  next => exact Nat.le_max_left _ _

def new : Buf := ⟨[], 512, Nat.zero_le _⟩

-- append reallocates when there is no room; grow is the choice of the runtime.
def append (grow : Nat → Nat → Nat) (buf : Buf) (t : Bytes) : Buf where
  b := buf.b ++ t
  cap := if buf.b.length + t.length ≤ buf.cap then buf.cap
    else max (buf.b.length + t.length) (grow buf.cap (buf.b.length + t.length))
  fits := append_fits grow buf t

def reset (buf : Buf) : Buf := ⟨[], buf.cap, Nat.zero_le _⟩

end Buf

inductive Severity where
  | crit | err | warning | info | debug
  deriving DecidableEq

def severity (l : Level) : Severity :=
  if l < Level.debug then .debug
  else if l < Level.info then .debug
  else if l < Level.warn then .info
  else if l < Level.error then .warning
  else if l < Level.fatal then .err
  else .crit

inductive Outlet where
  | writer | syslog
  deriving DecidableEq

variable {ι σ ρ ε : Type}

-- The sinks that share the buffer pool, with what their encoders append for a record.
structure Config (σ ρ : Type) where
  outlet : σ → Outlet
  enc : σ → Encoder ρ
  level : ρ → Level
  grow : Nat → Nat → Nat

structure Emission (ι σ ρ : Type) where
  caller : ι
  sink : σ
  number : Nat
  record : ρ

namespace Config

variable (p : Config σ ρ) (e : Emission ι σ ρ)

def line : Bytes := (p.enc e.sink).encode [] e.record

def severity : Option Severity :=
  match p.outlet e.sink with
  | .writer => none
  | .syslog => some (Writer.severity (p.level e.record))

end Config

-- What follows putBuffer: WriterSink returns the error of Write, SyslogSink sends its copy.
inductive After (ε : Type) where
  | written (err : Option ε)
  | copied (msg : Bytes)

inductive Phase (ι σ ρ ε : Type) where
  | idle
  | entered (e : Emission ι σ ρ)
  | getting (e : Emission ι σ ρ)
  | encoding (e : Emission ι σ ρ) (a n : Nat)
  | locking (e : Emission ι σ ρ) (a : Nat)
  | writing (e : Emission ι σ ρ) (a n : Nat)
  | unlocking (e : Emission ι σ ρ) (a : Nat) (err : Option ε)
  | putting (e : Emission ι σ ρ) (a : Nat) (next : After ε)
  | sending (e : Emission ι σ ρ) (msg : Bytes)
  | returning (e : Emission ι σ ρ) (err : Option ε)

structure State (ι σ ρ ε : Type) where
  minLvl : σ → Level
  client : ι → Phase ι σ ρ ε
  buf : Nat → Buf
  pool : List Nat
  next : Nat
  lock : σ → Option ι
  stream : σ → Bytes
  calls : Nat

inductive Act (ι σ ρ ε : Type) where
  | emit (i : ι) (k : σ) (r : ρ)
  | check (i : ι)
  | getBuffer (i : ι) (pick : Option Nat)
  | append (i : ι) (n : Nat)
  | encoded (i : ι)
  | lock (i : ι)
  | hand (i : ι) (n : Nat)
  | wrote (i : ι) (err : Option ε)
  | unlock (i : ι)
  | putBuffer (i : ι)
  | send (i : ι) (n : Nat) (err : Option ε)
  | ret (i : ι)
  | setLevel (k : σ) (l : Level)
  | collect (a : Nat)

-- One Write or one syslog message: the bytes the destination took and the error it returned.
structure Written (ι σ ρ ε : Type) where
  emission : Emission ι σ ρ
  sev : Option Severity
  text : Bytes
  err : Option ε

inductive Event (ι σ ρ ε : Type) where
  | call (e : Emission ι σ ρ)
  | filtered (e : Emission ι σ ρ)
  | wrote (w : Written ι σ ρ ε)
  | ret (e : Emission ι σ ρ) (err : Option ε)
  | setLevel (k : σ) (l : Level)

namespace State

variable (s : State ι σ ρ ε)

def setBuf (a : Nat) (b : Buf) : State ι σ ρ ε := { s with buf := Function.update s.buf a b }

@[simp] theorem setBuf_calls (a : Nat) (b : Buf) : (s.setBuf a b).calls = s.calls := rfl

def set [DecidableEq ι] (i : ι) (ph : Phase ι σ ρ ε) : State ι σ ρ ε :=
  { s with client := Function.update s.client i ph }

@[simp] theorem set_calls [DecidableEq ι] (i : ι) (ph : Phase ι σ ρ ε) :
    (s.set i ph).calls = s.calls := rfl

def take [DecidableEq σ] (k : σ) (t : Bytes) : State ι σ ρ ε :=
  { s with stream := Function.update s.stream k (s.stream k ++ t) }

@[simp] theorem take_calls [DecidableEq σ] (k : σ) (t : Bytes) : (s.take k t).calls = s.calls := rfl

-- A buffer of the pool, or a new one when the pool gives none.
def getBuffer [DecidableEq ι] (i : ι) (e : Emission ι σ ρ) : Option Nat → Option (State ι σ ρ ε)
  | none => some { (s.setBuf s.next .new).set i (.encoding e s.next 0) with next := s.next + 1 }
  | some a =>
      if a ∈ s.pool then some { s.set i (.encoding e a 0) with pool := s.pool.erase a } else none

def putBuffer (a : Nat) : State ι σ ρ ε :=
  if (s.buf a).cap ≤ 65536 then { s.setBuf a (s.buf a).reset with pool := a :: s.pool } else s

end State

def After.phase (e : Emission ι σ ρ) : After ε → Phase ι σ ρ ε
  | .written err => .returning e err
  | .copied msg => .sending e msg

variable [DecidableEq ι] [DecidableEq σ]

def step (p : Config σ ρ) (s : State ι σ ρ ε) :
    Act ι σ ρ ε → Option (State ι σ ρ ε × List (Event ι σ ρ ε))
  | .emit i k r =>
      match s.client i with
      | .idle =>
          some ({ s.set i (.entered ⟨i, k, s.calls, r⟩) with calls := s.calls + 1 },
            [.call ⟨i, k, s.calls, r⟩])
      | _ => none
  | .check i =>
      match s.client i with
      | .entered e =>
          if p.level e.record < s.minLvl e.sink then
            some (s.set i (.returning e none), [.filtered e])
          else some (s.set i (.getting e), [])
      | _ => none
  | .getBuffer i pick =>
      match s.client i with
      | .getting e => (s.getBuffer i e pick).map fun s' => (s', [])
      | _ => none
  | .append i n =>
      match s.client i with
      | .encoding e a m =>
          if m + n ≤ (p.line e).length then
            let t := ((p.line e).drop m).take n
            some ((s.setBuf a ((s.buf a).append p.grow t)).set i (.encoding e a (m + n)), [])
          else none
      | _ => none
  | .encoded i =>
      match s.client i with
      | .encoding e a m =>
          if m = (p.line e).length then
            match p.outlet e.sink with
            | .writer => some (s.set i (.locking e a), [])
            | .syslog => some (s.set i (.putting e a (.copied (s.buf a).b)), [])
          else none
      | _ => none
  | .lock i =>
      match s.client i with
      | .locking e a =>
          if s.lock e.sink = none then
            some ({ s.set i (.writing e a 0) with
              lock := Function.update s.lock e.sink (some i) }, [])
          else none
      | _ => none
  -- Write hands its bytes to the destination in any number of parts.
  | .hand i n =>
      match s.client i with
      | .writing e a m =>
          if m + n ≤ (s.buf a).b.length then
            some ((s.take e.sink (((s.buf a).b.drop m).take n)).set i (.writing e a (m + n)), [])
          else none
      | _ => none
  -- Write must return an error when it did not hand over everything.
  | .wrote i err =>
      match s.client i with
      | .writing e a m =>
          if m = (s.buf a).b.length ∨ err.isSome then
            some (s.set i (.unlocking e a err), [.wrote ⟨e, none, (s.buf a).b.take m, err⟩])
          else none
      | _ => none
  | .unlock i =>
      match s.client i with
      | .unlocking e a err =>
          some ({ s.set i (.putting e a (.written err)) with
            lock := Function.update s.lock e.sink none }, [])
      | _ => none
  | .putBuffer i =>
      match s.client i with
      | .putting e a next => some ((s.putBuffer a).set i (next.phase e), [])
      | _ => none
  -- A syslog call that fails may have sent any leading part of its message.
  | .send i n err =>
      match s.client i with
      | .sending e msg =>
          if n = msg.length ∨ err.isSome then
            some ((s.take e.sink (msg.take n)).set i (.returning e err),
              [.wrote ⟨e, some (severity (p.level e.record)), msg.take n, err⟩])
          else none
      | _ => none
  | .ret i =>
      match s.client i with
      | .returning e err => some (s.set i .idle, [.ret e err])
      | _ => none
  | .setLevel k l =>
      if p.outlet k = .writer then
        some ({ s with minLvl := Function.update s.minLvl k l }, [.setLevel k l])
      else none
  -- The garbage collector may empty a sync.Pool at any time.
  | .collect a => some ({ s with pool := s.pool.erase a }, [])

def machine (p : Config σ ρ) (levels : σ → Level) :
    Machine (State ι σ ρ ε) (Act ι σ ρ ε) (Event ι σ ρ ε) where
  init :=
    { minLvl := levels, client := fun _ => .idle, buf := fun _ => .new, pool := [], next := 0,
      lock := fun _ => none, stream := fun _ => [], calls := 0 }
  step := step p

inductive Step (p : Config σ ρ) (s : State ι σ ρ ε) :
    Act ι σ ρ ε → State ι σ ρ ε → List (Event ι σ ρ ε) → Prop
  | call (i : ι) (k : σ) (r : ρ) (h : s.client i = .idle) :
      Step p s (.emit i k r) { s.set i (.entered ⟨i, k, s.calls, r⟩) with calls := s.calls + 1 }
        [.call ⟨i, k, s.calls, r⟩]
  | filter (i : ι) (e : Emission ι σ ρ) (h : s.client i = .entered e)
      (hlt : p.level e.record < s.minLvl e.sink) :
      Step p s (.check i) (s.set i (.returning e none)) [.filtered e]
  | pass (i : ι) (e : Emission ι σ ρ) (h : s.client i = .entered e)
      (hle : ¬ p.level e.record < s.minLvl e.sink) : Step p s (.check i) (s.set i (.getting e)) []
  | create (i : ι) (e : Emission ι σ ρ) (h : s.client i = .getting e) :
      Step p s (.getBuffer i none)
        { (s.setBuf s.next .new).set i (.encoding e s.next 0) with next := s.next + 1 } []
  | reuse (i : ι) (e : Emission ι σ ρ) (a : Nat) (h : s.client i = .getting e) (ha : a ∈ s.pool) :
      Step p s (.getBuffer i (some a)) { s.set i (.encoding e a 0) with pool := s.pool.erase a } []
  | append (i : ι) (e : Emission ι σ ρ) (a m n : Nat) (h : s.client i = .encoding e a m)
      (hn : m + n ≤ (p.line e).length) :
      Step p s (.append i n)
        ((s.setBuf a ((s.buf a).append p.grow (((p.line e).drop m).take n))).set i
          (.encoding e a (m + n))) []
  | encoded (i : ι) (e : Emission ι σ ρ) (a m : Nat) (h : s.client i = .encoding e a m)
      (hm : m = (p.line e).length) (ho : p.outlet e.sink = .writer) :
      Step p s (.encoded i) (s.set i (.locking e a)) []
  | copy (i : ι) (e : Emission ι σ ρ) (a m : Nat) (h : s.client i = .encoding e a m)
      (hm : m = (p.line e).length) (ho : p.outlet e.sink = .syslog) :
      Step p s (.encoded i) (s.set i (.putting e a (.copied (s.buf a).b))) []
  | lock (i : ι) (e : Emission ι σ ρ) (a : Nat) (h : s.client i = .locking e a)
      (hfree : s.lock e.sink = none) :
      Step p s (.lock i)
        { s.set i (.writing e a 0) with lock := Function.update s.lock e.sink (some i) } []
  | hand (i : ι) (e : Emission ι σ ρ) (a m n : Nat) (h : s.client i = .writing e a m)
      (hn : m + n ≤ (s.buf a).b.length) :
      Step p s (.hand i n)
        ((s.take e.sink (((s.buf a).b.drop m).take n)).set i (.writing e a (m + n))) []
  | wrote (i : ι) (e : Emission ι σ ρ) (a m : Nat) (err : Option ε)
      (h : s.client i = .writing e a m) (hm : m = (s.buf a).b.length ∨ err.isSome) :
      Step p s (.wrote i err) (s.set i (.unlocking e a err))
        [.wrote ⟨e, none, (s.buf a).b.take m, err⟩]
  | unlock (i : ι) (e : Emission ι σ ρ) (a : Nat) (err : Option ε)
      (h : s.client i = .unlocking e a err) :
      Step p s (.unlock i)
        { s.set i (.putting e a (.written err)) with
          lock := Function.update s.lock e.sink none } []
  | keep (i : ι) (e : Emission ι σ ρ) (a : Nat) (next : After ε)
      (h : s.client i = .putting e a next) (hcap : (s.buf a).cap ≤ 65536) :
      Step p s (.putBuffer i)
        (State.set { s.setBuf a (s.buf a).reset with pool := a :: s.pool } i (next.phase e)) []
  | drop (i : ι) (e : Emission ι σ ρ) (a : Nat) (next : After ε)
      (h : s.client i = .putting e a next) (hcap : ¬ (s.buf a).cap ≤ 65536) :
      Step p s (.putBuffer i) (s.set i (next.phase e)) []
  | send (i : ι) (e : Emission ι σ ρ) (msg : Bytes) (n : Nat) (err : Option ε)
      (h : s.client i = .sending e msg) (hn : n = msg.length ∨ err.isSome) :
      Step p s (.send i n err) ((s.take e.sink (msg.take n)).set i (.returning e err))
        [.wrote ⟨e, some (severity (p.level e.record)), msg.take n, err⟩]
  | ret (i : ι) (e : Emission ι σ ρ) (err : Option ε) (h : s.client i = .returning e err) :
      Step p s (.ret i) (s.set i .idle) [.ret e err]
  | setLevel (k : σ) (l : Level) :
      Step p s (.setLevel k l) { s with minLvl := Function.update s.minLvl k l } [.setLevel k l]
  | collect (a : Nat) : Step p s (.collect a) { s with pool := s.pool.erase a } []

variable {p : Config σ ρ} {s s' : State ι σ ρ ε} {evs : List (Event ι σ ρ ε)}

theorem getBuffer_cases {i : ι} {e : Emission ι σ ρ} {pick : Option Nat}
    (hi : s.client i = .getting e) (h : s.getBuffer i e pick = some s') :
    Step p s (.getBuffer i pick) s' [] := by
  cases pick with
  | none =>
    cases h
    exact .create i e hi
  | some a =>
    rw [State.getBuffer] at h
    split at h
    next ha =>
      cases h
      exact .reuse i e a hi ha
    next => cases h

theorem putBuffer_cases {i : ι} {e : Emission ι σ ρ} {a : Nat} {next : After ε}
    (hi : s.client i = .putting e a next) :
    Step p s (.putBuffer i) ((s.putBuffer a).set i (next.phase e)) [] := by
  rw [State.putBuffer]
  split
  next hcap => exact .keep i e a next hi hcap
  next hcap => exact .drop i e a next hi hcap

theorem step_cases {act : Act ι σ ρ ε} (h : step p s act = some (s', evs)) :
    Step p s act s' evs := by
  cases act with
  | emit i k r =>
    simp only [step] at h
    split at h
    next hi =>
      cases h
      exact .call i k r hi
    next => cases h
  | check i =>
    simp only [step] at h
    split at h
    next e hi =>
      split at h
      next hlt =>
        cases h
        exact .filter i e hi hlt
      next hle =>
        cases h
        exact .pass i e hi hle
    next => cases h
  | getBuffer i pick =>
    simp only [step] at h
    split at h
    next e hi =>
      obtain ⟨s₁, hget, he⟩ := Option.map_eq_some_iff.mp h
      cases he
      exact getBuffer_cases hi hget
    next => cases h
  | append i n =>
    simp only [step] at h
    split at h
    next e a m hi =>
      split at h
      next hn =>
        cases h
        exact .append i e a m n hi hn
      next => cases h
    next => cases h
  | encoded i =>
    simp only [step] at h
    split at h
    next e a m hi =>
      split at h
      next hm =>
        split at h
        next ho =>
          cases h
          exact .encoded i e a m hi hm ho
        next ho =>
          cases h
          exact .copy i e a m hi hm ho
      next => cases h
    next => cases h
  | lock i =>
    simp only [step] at h
    split at h
    next e a hi =>
      split at h
      next hfree =>
        cases h
        exact .lock i e a hi hfree
      next => cases h
    next => cases h
  | hand i n =>
    simp only [step] at h
    split at h
    next e a m hi =>
      split at h
      next hn =>
        cases h
        exact .hand i e a m n hi hn
      next => cases h
    next => cases h
  | wrote i err =>
    simp only [step] at h
    split at h
    next e a m hi =>
      split at h
      next hm =>
        cases h
        exact .wrote i e a m err hi hm
      next => cases h
    next => cases h
  | unlock i =>
    simp only [step] at h
    split at h
    next e a err hi =>
      cases h
      exact .unlock i e a err hi
    next => cases h
  | putBuffer i =>
    simp only [step] at h
    split at h
    next e a next hi =>
      cases h
      exact putBuffer_cases hi
    next => cases h
  | send i n err =>
    simp only [step] at h
    split at h
    next e msg hi =>
      split at h
      next hn =>
        cases h
        exact .send i e msg n err hi hn
      next => cases h
    next => cases h
  | ret i =>
    simp only [step] at h
    split at h
    next e err hi =>
      cases h
      exact .ret i e err hi
    next => cases h
  | setLevel k l =>
    simp only [step] at h
    split at h
    next =>
      cases h
      exact .setLevel k l
    next => cases h
  | collect a =>
    simp only [step] at h
    cases h
    exact .collect a

end UbgoLogger.Sink.Writer
