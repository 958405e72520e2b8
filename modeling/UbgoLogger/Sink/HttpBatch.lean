import UbgoLogger.Core.Field
import UbgoLogger.Foundation.History
import UbgoLogger.Foundation.Machine

namespace UbgoLogger.Sink.Http
open Foundation

structure HTTPBatchSink where
  maxBatch : Int
  minLvl : Level

-- A timer made by AfterFunc: it runs, or its callback waits for the lock, or it was stopped or the
-- callback has had the lock.
inductive Phase where
  | armed
  | fired
  | over
  deriving DecidableEq

-- What h.mu guards; timer names an entry of timers, the timers made so far.
structure Guarded (ρ : Type) where
  buf : List ρ
  timer : Option Nat
  dropped : UInt64
  closed : Bool
  timers : List Phase

namespace Guarded

variable {ρ : Type}

def fresh : Guarded ρ := ⟨[], none, 0, false, []⟩

def stop : Phase → Phase
  | .armed => .over
  | p => p

def takeLocked (g : Guarded ρ) : Guarded ρ × List ρ :=
  match g.timer with
  | some t => ({ g with buf := [], timer := none, timers := g.timers.modify t stop }, g.buf)
  | none => ({ g with buf := [] }, g.buf)

-- The section of Emit under the lock, with the batch it hands to a new goroutine.
def emitLocked (h : HTTPBatchSink) (g : Guarded ρ) (r : ρ) : Guarded ρ × Option (List ρ) :=
  if g.closed then (g, none)
  else
    let g := { g with buf := g.buf ++ [r] }
    if h.maxBatch ≤ g.buf.length then (g.takeLocked.1, some g.takeLocked.2)
    else
      match g.timer with
      | some _ => (g, none)
      | none => ({ g with timer := some g.timers.length, timers := g.timers ++ [.armed] }, none)

@[simp] theorem takeLocked_batch (g : Guarded ρ) : g.takeLocked.2 = g.buf := by
  unfold takeLocked
  split <;> rfl

@[simp] theorem takeLocked_buf (g : Guarded ρ) : g.takeLocked.1.buf = [] := by
  unfold takeLocked
  split <;> rfl

@[simp] theorem takeLocked_timer (g : Guarded ρ) : g.takeLocked.1.timer = none := by
  unfold takeLocked
  split
  · rfl
  · assumption

@[simp] theorem takeLocked_closed (g : Guarded ρ) : g.takeLocked.1.closed = g.closed := by
  unfold takeLocked
  split <;> rfl

@[simp] theorem takeLocked_dropped (g : Guarded ρ) : g.takeLocked.1.dropped = g.dropped := by
  unfold takeLocked
  split <;> rfl

variable {h : HTTPBatchSink} {g : Guarded ρ} {r : ρ}

theorem emitLocked_closed (hc : g.closed = true) : g.emitLocked h r = (g, none) :=
  if_pos hc

theorem emitLocked_full (hc : g.closed = false) (hfull : h.maxBatch ≤ g.buf.length + 1) :
    g.emitLocked h r =
      (({ g with buf := g.buf ++ [r] } : Guarded ρ).takeLocked.1, some (g.buf ++ [r])) := by
  simp [emitLocked, hc, hfull]

theorem emitLocked_kept {t : Nat} (hc : g.closed = false) (hroom : g.buf.length + 1 < h.maxBatch)
    (ht : g.timer = some t) : g.emitLocked h r = ({ g with buf := g.buf ++ [r] }, none) := by
  simp [emitLocked, hc, not_le.mpr hroom, ht]

theorem emitLocked_timed (hc : g.closed = false) (hroom : g.buf.length + 1 < h.maxBatch)
    (ht : g.timer = none) :
    g.emitLocked h r =
      ({ g with buf := g.buf ++ [r], timer := some g.timers.length,
                timers := g.timers ++ [.armed] }, none) := by
  simp [emitLocked, hc, not_le.mpr hroom, ht]

end Guarded

inductive Emitter (ρ : Type) where
  | idle
  | entering (r : ρ)
  | leaving
  deriving DecidableEq

-- A caller of Sync or, with close set, of Close; sending names the send it waits for.
inductive Client where
  | idle
  | entering (close : Bool)
  | sending (close : Bool) (n : Nat)
  | leaving (close : Bool)
  deriving DecidableEq

-- Where a call of send stands: before its answer, before addDropped, or finished.
inductive Stage where
  | posting
  | counting
  | delivered
  | failed
  deriving DecidableEq

def Stage.finished : Stage → Bool
  | .delivered => true
  | .failed => true
  | _ => false

-- How the request of a send ends: it cannot be made, or it gets no answer, or a status code.
inductive Outcome where
  | badRequest
  | noAnswer
  | status (code : Int)
  deriving DecidableEq

def Outcome.success : Outcome → Bool
  | .status code => code < 300
  | _ => false

structure Send (ρ : Type) where
  records : List ρ
  stage : Stage
  deriving DecidableEq

structure State (ι κ ρ : Type) where
  guarded : Guarded ρ
  emitter : ι → Emitter ρ
  client : κ → Client
  sends : List (Send ρ)

inductive Act (ι κ ρ : Type) where
  | emit (i : ι) (r : ρ)
  | lock (i : ι)
  | ret (i : ι)
  | fire (t : Nat)
  | callback (t : Nat)
  | call (k : κ) (close : Bool)
  | enter (k : κ)
  | answer (n : Nat) (o : Outcome)
  | count (n : Nat)
  | leave (k : κ)

inductive Event (ι κ ρ : Type) where
  | locked (i : ι) (r : ρ) (closed : Bool)
  | emitRet (i : ι)
  | take (batch : List ρ)
  | called (k : κ) (close : Bool)
  | answered (records : List ρ)
  | counted (records : List ρ)
  | left (k : κ) (close : Bool)
  deriving DecidableEq

section Logs

variable {ι κ ρ : Type}

def accepted (h : HTTPBatchSink) (level : ρ → Level) (log : List (Event ι κ ρ)) : List ρ :=
  log.filterMap fun
    | .locked _ r closed => if closed = false ∧ h.minLvl ≤ level r then some r else none
    | _ => none

def takes (log : List (Event ι κ ρ)) : List (List ρ) :=
  log.filterMap fun
    | .take batch => some batch
    | _ => none

theorem accepted_append (h : HTTPBatchSink) (level : ρ → Level) (log evs : List (Event ι κ ρ)) :
    accepted h level (log ++ evs) = accepted h level log ++ accepted h level evs :=
  List.filterMap_append

theorem takes_append (log evs : List (Event ι κ ρ)) : takes (log ++ evs) = takes log ++ takes evs :=
  List.filterMap_append

end Logs

section Steps

variable {ι κ ρ : Type} [DecidableEq ι] [DecidableEq κ] (h : HTTPBatchSink) (level : ρ → Level)

def State.setEmitter (s : State ι κ ρ) (i : ι) (e : Emitter ρ) : State ι κ ρ :=
  { s with emitter := Function.update s.emitter i e }

def State.setClient (s : State ι κ ρ) (k : κ) (c : Client) : State ι κ ρ :=
  { s with client := Function.update s.client k c }

-- if len(batch) > 0 { h.send(batch) }
def begin (sends : List (Send ρ)) (batch : List ρ) : List (Send ρ) :=
  if batch = [] then sends else sends ++ [⟨batch, .posting⟩]

def State.lock (s : State ι κ ρ) (i : ι) (r : ρ) : State ι κ ρ × List (Event ι κ ρ) :=
  let p := s.guarded.emitLocked h r
  match p.2 with
  | none => ({ s.setEmitter i .leaving with guarded := p.1 }, [.locked i r s.guarded.closed])
  | some batch =>
      ({ s.setEmitter i .leaving with guarded := p.1, sends := s.sends ++ [⟨batch, .posting⟩] },
        [.locked i r s.guarded.closed, .take batch])

def State.flushTimer (s : State ι κ ρ) (t : Nat) : State ι κ ρ × List (Event ι κ ρ) :=
  let p := s.guarded.takeLocked
  ({ s with guarded := { p.1 with timers := p.1.timers.set t .over }, sends := begin s.sends p.2 },
    [.take p.2])

def State.enter (s : State ι κ ρ) (k : κ) (close : Bool) : State ι κ ρ × List (Event ι κ ρ) :=
  let p := ({ s.guarded with closed := s.guarded.closed || close } : Guarded ρ).takeLocked
  let next : Client := if p.2 = [] then .leaving close else .sending close s.sends.length
  ({ s.setClient k next with guarded := p.1, sends := begin s.sends p.2 }, [.take p.2])

def step (s : State ι κ ρ) : Act ι κ ρ → Option (State ι κ ρ × List (Event ι κ ρ))
  | .emit i r =>
      match s.emitter i with
      | .idle => some (s.setEmitter i (if level r < h.minLvl then .leaving else .entering r), [])
      | _ => none
  | .lock i =>
      match s.emitter i with
      | .entering r => some (s.lock h i r)
      | _ => none
  | .ret i =>
      match s.emitter i with
      | .leaving => some (s.setEmitter i .idle, [.emitRet i])
      | _ => none
  | .fire t =>
      match s.guarded.timers[t]? with
      | some .armed =>
          some ({ s with guarded := { s.guarded with timers := s.guarded.timers.set t .fired } }, [])
      | _ => none
  | .callback t =>
      match s.guarded.timers[t]? with
      | some .fired => some (s.flushTimer t)
      | _ => none
  | .call k close =>
      match s.client k with
      | .idle => some (s.setClient k (.entering close), [.called k close])
      | _ => none
  | .enter k =>
      match s.client k with
      | .entering close => some (s.enter k close)
      | _ => none
  | .answer n o =>
      match s.sends[n]? with
      | some ⟨records, .posting⟩ =>
          if o.success then
            some ({ s with sends := s.sends.set n ⟨records, .delivered⟩ }, [.answered records])
          else some ({ s with sends := s.sends.set n ⟨records, .counting⟩ }, [])
      | _ => none
  | .count n =>
      match s.sends[n]? with
      | some ⟨records, .counting⟩ =>
          some ({ s with
            guarded := { s.guarded with dropped := s.guarded.dropped + .ofNat records.length },
            sends := s.sends.set n ⟨records, .failed⟩ }, [.counted records])
      | _ => none
  | .leave k =>
      match s.client k with
      | .leaving close => some (s.setClient k .idle, [.left k close])
      | .sending close n =>
          if (s.sends[n]?).any fun x => x.stage.finished then
            some (s.setClient k .idle, [.left k close])
          else none
      | _ => none

def machine : Machine (State ι κ ρ) (Act ι κ ρ) (Event ι κ ρ) where
  init := ⟨.fresh, fun _ => .idle, fun _ => .idle, []⟩
  step := step h level

inductive Step (s : State ι κ ρ) : Act ι κ ρ → State ι κ ρ → List (Event ι κ ρ) → Prop
  | below (i : ι) (r : ρ) (hi : s.emitter i = .idle) :
      Step s (.emit i r) (s.setEmitter i .leaving) []
  | enough (i : ι) (r : ρ) (hi : s.emitter i = .idle) (hl : h.minLvl ≤ level r) :
      Step s (.emit i r) (s.setEmitter i (.entering r)) []
  | refused (i : ι) (r : ρ) (hi : s.emitter i = .entering r) (hc : s.guarded.closed = true) :
      Step s (.lock i) (s.setEmitter i .leaving) [.locked i r s.guarded.closed]
  | flushed (i : ι) (r : ρ) (hi : s.emitter i = .entering r) (hc : s.guarded.closed = false)
      (hfull : h.maxBatch ≤ s.guarded.buf.length + 1) :
      Step s (.lock i)
        { s.setEmitter i .leaving with
          guarded := ({ s.guarded with buf := s.guarded.buf ++ [r] } : Guarded ρ).takeLocked.1
          sends := s.sends ++ [⟨s.guarded.buf ++ [r], .posting⟩] }
        [.locked i r s.guarded.closed, .take (s.guarded.buf ++ [r])]
  | kept (i : ι) (r : ρ) (t : Nat) (hi : s.emitter i = .entering r)
      (hc : s.guarded.closed = false) (hroom : s.guarded.buf.length + 1 < h.maxBatch)
      (ht : s.guarded.timer = some t) :
      Step s (.lock i)
        { s.setEmitter i .leaving with
          guarded := { s.guarded with buf := s.guarded.buf ++ [r] } } [.locked i r s.guarded.closed]
  | timed (i : ι) (r : ρ) (hi : s.emitter i = .entering r)
      (hc : s.guarded.closed = false) (hroom : s.guarded.buf.length + 1 < h.maxBatch)
      (ht : s.guarded.timer = none) :
      Step s (.lock i)
        { s.setEmitter i .leaving with
          guarded := { s.guarded with
            buf := s.guarded.buf ++ [r], timer := some s.guarded.timers.length,
            timers := s.guarded.timers ++ [.armed] } } [.locked i r s.guarded.closed]
  | ret (i : ι) (hi : s.emitter i = .leaving) :
      Step s (.ret i) (s.setEmitter i .idle) [.emitRet i]
  | fire (t : Nat) (ht : s.guarded.timers[t]? = some .armed) :
      Step s (.fire t)
        { s with guarded := { s.guarded with timers := s.guarded.timers.set t .fired } } []
  | callback (t : Nat) (ht : s.guarded.timers[t]? = some .fired) :
      Step s (.callback t) (s.flushTimer t).1 [.take s.guarded.buf]
  | call (k : κ) (close : Bool) (hk : s.client k = .idle) :
      Step s (.call k close) (s.setClient k (.entering close)) [.called k close]
  | enter (k : κ) (close : Bool) (hk : s.client k = .entering close) :
      Step s (.enter k) (s.enter k close).1 [.take s.guarded.buf]
  | delivered (n : Nat) (o : Outcome) (records : List ρ) (hn : s.sends[n]? = some ⟨records, .posting⟩) :
      Step s (.answer n o) { s with sends := s.sends.set n ⟨records, .delivered⟩ }
        [.answered records]
  | undelivered (n : Nat) (o : Outcome) (records : List ρ)
      (hn : s.sends[n]? = some ⟨records, .posting⟩) :
      Step s (.answer n o) { s with sends := s.sends.set n ⟨records, .counting⟩ } []
  | count (n : Nat) (records : List ρ) (hn : s.sends[n]? = some ⟨records, .counting⟩) :
      Step s (.count n)
        { s with
          guarded := { s.guarded with dropped := s.guarded.dropped + .ofNat records.length },
          sends := s.sends.set n ⟨records, .failed⟩ } [.counted records]
  | leave (k : κ) (close : Bool) (hk : s.client k = .leaving close ∨
      ∃ n x, s.client k = .sending close n ∧ s.sends[n]? = some x ∧ x.stage.finished = true) :
      Step s (.leave k) (s.setClient k .idle) [.left k close]

variable {h level} {s s' : State ι κ ρ} {a : Act ι κ ρ} {evs log : List (Event ι κ ρ)}

omit [DecidableEq ι] [DecidableEq κ] in
theorem flushTimer_events (s : State ι κ ρ) (t : Nat) :
    (s.flushTimer t).2 = [.take s.guarded.buf] := by
  simp [State.flushTimer]

omit [DecidableEq ι] in
theorem enter_events (s : State ι κ ρ) (k : κ) (close : Bool) :
    (s.enter k close).2 = [.take s.guarded.buf] := by
  simp [State.enter]

theorem lock_cases {i : ι} {r : ρ} (hi : s.emitter i = .entering r) :
    Step h level s (.lock i) (s.lock h i r).1 (s.lock h i r).2 := by
  unfold State.lock
  by_cases hc : s.guarded.closed = true
  · rw [Guarded.emitLocked_closed hc]
    exact .refused i r hi hc
  · rw [Bool.not_eq_true] at hc
    by_cases hfull : h.maxBatch ≤ s.guarded.buf.length + 1
    · rw [Guarded.emitLocked_full hc hfull]
      exact .flushed i r hi hc hfull
    · have hroom := not_le.mp hfull
      match ht : s.guarded.timer with
      | some t =>
        rw [Guarded.emitLocked_kept hc hroom ht]
        exact .kept i r t hi hc hroom ht
      | none =>
        rw [Guarded.emitLocked_timed hc hroom ht]
        exact .timed i r hi hc hroom ht

theorem step_cases (hs : step h level s a = some (s', evs)) : Step h level s a s' evs := by
  cases a with
  | emit i r =>
    simp only [step] at hs
    split at hs
    next hi =>
      cases hs
      split
      next => exact .below i r hi
      next hl => exact .enough i r hi (not_lt.mp hl)
    next => cases hs
  | lock i =>
    simp only [step] at hs
    split at hs
    next r hi =>
      rw [Option.some.injEq, Prod.ext_iff] at hs
      obtain ⟨rfl, rfl⟩ := hs
      exact lock_cases hi
    next => cases hs
  | ret i =>
    simp only [step] at hs
    split at hs
    next hi =>
      cases hs
      exact .ret i hi
    next => cases hs
  | fire t =>
    simp only [step] at hs
    split at hs
    next ht =>
      cases hs
      exact .fire t ht
    next => cases hs
  | callback t =>
    simp only [step] at hs
    split at hs
    next ht =>
      rw [Option.some.injEq, Prod.ext_iff] at hs
      obtain ⟨rfl, rfl⟩ := hs
      rw [flushTimer_events]
      exact .callback t ht
    next => cases hs
  | call k close =>
    simp only [step] at hs
    split at hs
    next hk =>
      cases hs
      exact .call k close hk
    next => cases hs
  | enter k =>
    simp only [step] at hs
    split at hs
    next close hk =>
      rw [Option.some.injEq, Prod.ext_iff] at hs
      obtain ⟨rfl, rfl⟩ := hs
      rw [enter_events]
      exact .enter k close hk
    next => cases hs
  | answer n o =>
    simp only [step] at hs
    split at hs
    next records hn =>
      split at hs
      next =>
        cases hs
        exact .delivered n o records hn
      next =>
        cases hs
        exact .undelivered n o records hn
    next => cases hs
  | count n =>
    simp only [step] at hs
    split at hs
    next records hn =>
      cases hs
      exact .count n records hn
    next => cases hs
  | leave k =>
    simp only [step] at hs
    split at hs
    next close hk =>
      cases hs
      exact .leave k close (.inl hk)
    next close n hk =>
      split at hs
      next hn =>
        cases hs
        obtain ⟨x, hx, hfinished⟩ := (Option.any_eq_true _ _).mp hn
        exact .leave k close (.inr ⟨n, x, hk, hx, hfinished⟩)
      next => cases hs
    next => cases hs

-- The timer h.timer names has not been stopped, and its callback has not run.
def Guarded.Awaited (g : Guarded ρ) (t : Nat) : Prop :=
  g.timers[t]? = some .armed ∨ g.timers[t]? = some .fired

structure Conserved (h : HTTPBatchSink) (level : ρ → Level) (log : List (Event ι κ ρ))
    (s : State ι κ ρ) : Prop where
  conserve : (takes log).flatten ++ s.guarded.buf = accepted h level log
  small : ∀ batch ∈ takes log, (batch.length : Int) ≤ max 1 h.maxBatch
  room : (s.guarded.buf.length : Int) < max 1 h.maxBatch
  pending : s.guarded.buf ≠ [] → s.guarded.timer ≠ none
  awaited : ∀ t, s.guarded.timer = some t → s.guarded.Awaited t
  enough : ∀ i r, s.emitter i = .entering r → h.minLvl ≤ level r

omit [DecidableEq ι] [DecidableEq κ] in
-- What a step that takes no batch and admits no record has to keep.
theorem Conserved.frame {evs : List (Event ι κ ρ)} (I : Conserved h level log s)
    (htakes : takes evs = []) (haccepted : accepted h level evs = [])
    (hbuf : s'.guarded.buf = s.guarded.buf) (htimer : s'.guarded.timer = s.guarded.timer)
    (hawaited : ∀ t, s.guarded.Awaited t → s'.guarded.Awaited t)
    (henough : ∀ i r, s'.emitter i = .entering r → h.minLvl ≤ level r) :
    Conserved h level (log ++ evs) s' where
  conserve := by rw [takes_append, accepted_append, htakes, haccepted, hbuf]; simpa using I.conserve
  small := by rw [takes_append, htakes, List.append_nil]; exact I.small
  room := hbuf ▸ I.room
  pending := by rw [hbuf, htimer]; exact I.pending
  awaited t ht := hawaited t (I.awaited t (htimer ▸ ht))
  enough := henough

omit [DecidableEq ι] [DecidableEq κ] in
-- What a step that takes the buffer has to keep, with the records it admits first.
theorem Conserved.taken {evs : List (Event ι κ ρ)} {batch : List ρ} (I : Conserved h level log s)
    (htakes : takes evs = [batch]) (hbatch : s.guarded.buf ++ accepted h level evs = batch)
    (hsmall : (batch.length : Int) ≤ max 1 h.maxBatch)
    (hbuf : s'.guarded.buf = []) (htimer : s'.guarded.timer = none)
    (henough : ∀ i r, s'.emitter i = .entering r → h.minLvl ≤ level r) :
    Conserved h level (log ++ evs) s' where
  conserve := by
    rw [takes_append, accepted_append, htakes, hbuf, ← I.conserve, ← hbatch]
    simp
  small := by
    intro b hb
    rw [takes_append, htakes, List.mem_append, List.mem_singleton] at hb
    exact hb.elim (I.small b) fun hb => hb ▸ hsmall
  room := by
    rw [hbuf, List.length_nil]
    exact lt_max_of_lt_left Int.one_pos
  pending := by simp [hbuf]
  awaited t ht := by simp [htimer] at ht
  enough := henough

omit [DecidableEq ι] [DecidableEq κ] in
theorem Conserved.admitted {i : ι} {r : ρ} {t : Nat} (I : Conserved h level log s)
    (hc : s.guarded.closed = false) (hl : h.minLvl ≤ level r)
    (hroom : (s.guarded.buf.length : Int) + 1 < h.maxBatch)
    (hbuf : s'.guarded.buf = s.guarded.buf ++ [r]) (htimer : s'.guarded.timer = some t)
    (hawaited : s'.guarded.Awaited t)
    (henough : ∀ i r, s'.emitter i = .entering r → h.minLvl ≤ level r) :
    Conserved h level (log ++ [.locked i r s.guarded.closed]) s' where
  conserve := by
    rw [takes_append, accepted_append, ← I.conserve, hbuf]
    simp [takes, accepted, hc, hl]
  small batch hb := I.small batch (by simpa [takes] using hb)
  room := by
    rw [hbuf, List.length_append, List.length_singleton]
    exact lt_max_of_lt_right (by simpa using hroom)
  pending := by simp [htimer]
  awaited u hu := by
    obtain rfl : t = u := Option.some.inj (htimer.symm.trans hu)
    exact hawaited
  enough := henough

theorem enough_update {i : ι} {e : Emitter ρ} {f : ι → Emitter ρ}
    (hf : ∀ j r, f j = .entering r → h.minLvl ≤ level r)
    (he : ∀ r, e = .entering r → h.minLvl ≤ level r) (j : ι) (r : ρ)
    (hj : Function.update f i e j = .entering r) : h.minLvl ≤ level r := by
  by_cases hij : j = i
  · subst hij
    rw [Function.update_self] at hj
    exact he r hj
  · rw [Function.update_of_ne hij] at hj
    exact hf j r hj

theorem Conserved.step (I : Conserved h level log s) (hs : Step h level s a s' evs) :
    Conserved h level (log ++ evs) s' := by
  cases hs with
  | below i r hi =>
    exact I.frame rfl rfl rfl rfl (fun _ => id) (enough_update I.enough (by simp))
  | enough i r hi hl =>
    refine I.frame rfl rfl rfl rfl (fun _ => id) (enough_update I.enough ?_)
    rintro _ ⟨⟩
    exact hl
  | refused i r hi hc =>
    refine I.frame rfl ?_ rfl rfl (fun _ => id) (enough_update I.enough (by simp))
    simp [accepted, hc]
  | flushed i r hi hc hfull =>
    refine I.taken rfl ?_ ?_ (by simp) (by simp) (enough_update I.enough (by simp))
    · simp [accepted, hc, I.enough i r hi]
    · have := I.room
      rw [List.length_append, List.length_singleton]
      omega
  | kept i r t hi hc hroom ht =>
    exact I.admitted hc (I.enough i r hi) hroom rfl ht (I.awaited t ht)
      (enough_update I.enough (by simp))
  | timed i r hi hc hroom ht =>
    exact I.admitted hc (I.enough i r hi) hroom rfl rfl (.inl List.getElem?_concat_length)
      (enough_update I.enough (by simp))
  | ret i hi => exact I.frame rfl rfl rfl rfl (fun _ => id) (enough_update I.enough (by simp))
  | fire t ht =>
    refine I.frame rfl rfl rfl rfl (fun u hu => ?_) I.enough
    unfold Guarded.Awaited at hu ⊢
    rw [List.getElem?_set]
    split_ifs with htu hlt
    · exact .inr rfl
    · exact absurd (List.getElem?_eq_some_iff.mp ht).1 (htu ▸ hlt)
    · exact hu
  | callback t ht =>
    exact I.taken rfl (List.append_nil _) I.room.le (by simp [State.flushTimer])
      (by simp [State.flushTimer]) I.enough
  | call k close hk => exact I.frame rfl rfl rfl rfl (fun _ => id) I.enough
  | enter k close hk =>
    exact I.taken rfl (List.append_nil _) I.room.le (by simp [State.enter])
      (by simp [State.enter]) I.enough
  | delivered n o records hn => exact I.frame rfl rfl rfl rfl (fun _ => id) I.enough
  | undelivered n o records hn => exact I.frame rfl rfl rfl rfl (fun _ => id) I.enough
  | count n records hn => exact I.frame rfl rfl rfl rfl (fun _ => id) I.enough
  | leave k close hk => exact I.frame rfl rfl rfl rfl (fun _ => id) I.enough

theorem conserved {C : State ι κ ρ → Act ι κ ρ → Prop} (e : (machine h level).Exec C log s) :
    Conserved h level log s := by
  refine e.invariant (P := Conserved h level) ?_ fun _ I _ hs => I.step (step_cases hs)
  constructor
  case room => exact lt_max_of_lt_left Int.one_pos
  all_goals simp [machine, Guarded.fresh, takes, accepted]

theorem batches_conserve_and_await (e : (machine h level).Run log s) :
    (takes log).flatten ++ s.guarded.buf = accepted h level log ∧
    (∀ batch ∈ takes log, (batch.length : Int) ≤ max 1 h.maxBatch) ∧
    (s.guarded.buf ≠ [] → ∃ t, s.guarded.timer = some t ∧
      (s.guarded.timers[t]? = some .armed ∨ s.guarded.timers[t]? = some .fired)) := by
  have I := conserved e
  refine ⟨I.conserve, I.small, fun hbuf => ?_⟩
  obtain ⟨t, ht⟩ := Option.ne_none_iff_exists'.mp (I.pending hbuf)
  exact ⟨t, ht, I.awaited t ht⟩

end Steps

-- The first timer fires before Sync stops it, so its callback later takes the second batch.
def staleCallback : List (Act Unit Unit Nat) :=
  [.emit () 0, .lock (), .ret (), .fire 0, .call () false, .enter (), .emit () 1, .lock (), .ret (),
    .callback 0, .emit () 2, .lock ()]

theorem batches_conserve_and_await_stale :
    ∃ (log : List (Event Unit Unit Nat)) (s : State Unit Unit Nat),
      (machine ⟨3, 0⟩ (fun _ => 0)).Run log s ∧ takes log = [[0], [1]] ∧
      accepted ⟨3, 0⟩ (fun _ => 0) log = [0, 1, 2] ∧ s.guarded.buf = [2] ∧
      ∃ t, s.guarded.timer = some t ∧
        (s.guarded.timers[t]? = some .armed ∨ s.guarded.timers[t]? = some .fired) := by
  obtain ⟨log, s, e, hs⟩ := Machine.exists_exec (M := machine ⟨3, 0⟩ (fun _ : Nat => 0))
    (C := fun _ _ => True) staleCallback
    (fun log s => takes log = [[0], [1]] ∧ s.guarded.buf = [2]) (by decide +kernel)
  obtain ⟨htakes, hbuf⟩ := of_decide_eq_true hs
  obtain ⟨hconserve, -, hawait⟩ := batches_conserve_and_await e
  refine ⟨log, s, e, htakes, ?_, hbuf, hawait (by simp [hbuf])⟩
  rw [← hconserve, htakes, hbuf]
  rfl

end UbgoLogger.Sink.Http
