import UbgoLogger.Foundation.Counter
import UbgoLogger.Foundation.History
import UbgoLogger.Foundation.Monitor
import Mathlib.Data.List.Range
import Mathlib.Data.List.TakeWhile
import Mathlib.Logic.Function.Basic

namespace UbgoLogger.Transport
open Foundation

inductive OverflowPolicy where
  | block
  | dropNewest
  | dropOldest
  deriving DecidableEq

-- One cloned record in transit: the goroutine that dispatched it and the number of its
-- Dispatch call tell two clones of equal content apart.
structure Item (ι β : Type) where
  producer : ι
  call : Nat
  record : β
  deriving DecidableEq

inductive Act (ι β κ : Type) where
  | dispatch (i : ι) (b : β)
  | produce (i : ι)
  | work (pick : Nat)
  | close (k : κ)
  | closer (k : κ)

inductive Event (ι β κ : Type) where
  | call (x : Item ι β)
  | accept (x : Item ι β)
  | evict (i : ι) (x : Item ι β)
  | count (i : ι)
  | refuse (x : Item ι β)
  | discard (x : Item ι β)
  | ret (x : Item ι β)
  | take (x : Item ι β)
  | emit (x : Item ι β)
  | exit
  | sendOnClosed (i : ι)
  | closeCall (k : κ)
  | sinkSync (k : κ)
  | sinkClose (k : κ)
  | closeRet (k : κ)
  deriving DecidableEq

variable {ι β κ : Type}

namespace Event

def callItem : Event ι β κ → Option (Item ι β)
  | .call x => some x
  | _ => none

def acceptItem : Event ι β κ → Option (Item ι β)
  | .accept x => some x
  | _ => none

def refuseItem : Event ι β κ → Option (Item ι β)
  | .refuse x => some x
  | _ => none

def discardItem : Event ι β κ → Option (Item ι β)
  | .discard x => some x
  | _ => none

def resolveItem : Event ι β κ → Option (Item ι β)
  | .accept x => some x
  | .refuse x => some x
  | .discard x => some x
  | _ => none

def takeItem : Event ι β κ → Option (Item ι β)
  | .take x => some x
  | _ => none

def removeItem : Event ι β κ → Option (Item ι β)
  | .take x => some x
  | .evict _ x => some x
  | _ => none

def emitItem : Event ι β κ → Option (Item ι β)
  | .emit x => some x
  | _ => none

def evictor : Event ι β κ → Option ι
  | .evict i _ => some i
  | _ => none

def counter : Event ι β κ → Option ι
  | .count i => some i
  | _ => none

def returnItem : Event ι β κ → Option (Item ι β)
  | .ret x => some x
  | _ => none

def sinkCloser : Event ι β κ → Option κ
  | .sinkClose k => some k
  | _ => none

def outward : Event ι β κ → Bool
  | .emit _ => true
  | .exit => true
  | .closeCall _ => true
  | .sinkSync _ => true
  | .sinkClose _ => true
  | .closeRet _ => true
  | _ => false

end Event

attribute [simp] Event.callItem Event.acceptItem Event.refuseItem Event.discardItem
  Event.resolveItem Event.takeItem Event.removeItem Event.emitItem Event.evictor Event.counter
  Event.returnItem Event.sinkCloser Event.outward

section Logs

variable (log : List (Event ι β κ))

def calls : List (Item ι β) := log.filterMap Event.callItem
def accepted : List (Item ι β) := log.filterMap Event.acceptItem
def refused : List (Item ι β) := log.filterMap Event.refuseItem
def discarded : List (Item ι β) := log.filterMap Event.discardItem
def resolved : List (Item ι β) := log.filterMap Event.resolveItem
def taken : List (Item ι β) := log.filterMap Event.takeItem
def removed : List (Item ι β) := log.filterMap Event.removeItem
def emitted : List (Item ι β) := log.filterMap Event.emitItem
def evictors : List ι := log.filterMap Event.evictor
def counters : List ι := log.filterMap Event.counter
def returns : List (Item ι β) := log.filterMap Event.returnItem
def sinkCloses : List κ := log.filterMap Event.sinkCloser

-- The records counted as dropped.
def spilled : Nat := (counters log).length + (refused log).length

end Logs

theorem calls_append (log evs : List (Event ι β κ)) : calls (log ++ evs) = calls log ++ calls evs :=
  List.filterMap_append

theorem accepted_append (log evs : List (Event ι β κ)) :
    accepted (log ++ evs) = accepted log ++ accepted evs :=
  List.filterMap_append

theorem removed_append (log evs : List (Event ι β κ)) :
    removed (log ++ evs) = removed log ++ removed evs :=
  List.filterMap_append

theorem discarded_append (log evs : List (Event ι β κ)) :
    discarded (log ++ evs) = discarded log ++ discarded evs :=
  List.filterMap_append

theorem emitted_append (log evs : List (Event ι β κ)) :
    emitted (log ++ evs) = emitted log ++ emitted evs :=
  List.filterMap_append

theorem sinkCloses_append (log evs : List (Event ι β κ)) :
    sinkCloses (log ++ evs) = sinkCloses log ++ sinkCloses evs :=
  List.filterMap_append

theorem resolved_length (log : List (Event ι β κ)) :
    (resolved log).length = (accepted log).length + (refused log).length + (discarded log).length := by
  induction log with
  | nil => rfl
  | cons e log ih =>
    simp only [resolved, accepted, refused, discarded] at ih ⊢
    cases e <;> simp [List.filterMap_cons] <;> omega

theorem removed_length (log : List (Event ι β κ)) :
    (removed log).length = (taken log).length + (evictors log).length := by
  induction log with
  | nil => rfl
  | cons e log ih =>
    simp only [removed, taken, evictors] at ih ⊢
    cases e <;> simp [List.filterMap_cons] <;> omega

theorem taken_eq_removed {log : List (Event ι β κ)} (h : evictors log = []) :
    taken log = removed log := by
  have hlen : (taken log).length = (removed log).length := by
    rw [removed_length, h, List.length_nil, Nat.add_zero]
  refine List.Sublist.eq_of_length (filterMap_sublist ?_ log) hlen
  intro e y he
  cases e <;> simp_all

theorem accepted_sublist_resolved (log : List (Event ι β κ)) :
    (accepted log).Sublist (resolved log) := by
  refine filterMap_sublist (fun e y he => ?_) log
  cases e <;> simp_all

theorem taken_sublist_removed (log : List (Event ι β κ)) : (taken log).Sublist (removed log) := by
  refine filterMap_sublist (fun e y he => ?_) log
  cases e <;> simp_all

theorem resolved_eq_accepted {log : List (Event ι β κ)} (hr : refused log = [])
    (hd : discarded log = []) : resolved log = accepted log := by
  have hlen := resolved_length log
  rw [hr, hd] at hlen
  exact ((accepted_sublist_resolved log).eq_of_length hlen.symm).symm

section Orderly

variable {log evs : List (Event ι β κ)}

def Orderly (log : List (Event ι β κ)) : Prop :=
  ∀ before after k, log = before ++ .closeCall k :: after →
    (∀ x ∈ calls before, x ∈ returns before) ∧ calls after = []

theorem Orderly.of_append (h : Orderly (log ++ evs)) : Orderly log := by
  intro before after k hlog
  obtain ⟨hret, hcalls⟩ := h before (after ++ evs) k (by rw [hlog]; simp)
  rw [calls_append, List.append_eq_nil_iff] at hcalls
  exact ⟨hret, hcalls.1⟩

theorem Orderly.all_returned (h : Orderly log) {k : κ} (hk : .closeCall k ∈ log) :
    ∀ x ∈ calls log, x ∈ returns log := by
  obtain ⟨before, after, rfl⟩ := List.append_of_mem hk
  obtain ⟨hret, hcalls⟩ := h before after k rfl
  intro x hx
  have hsplit : calls (before ++ .closeCall k :: after) = calls before ++ calls after :=
    calls_append before (.closeCall k :: after)
  rw [hsplit, hcalls, List.append_nil] at hx
  rw [returns, List.filterMap_append]
  exact List.mem_append_left _ (hret x hx)

end Orderly

section BeforeClose

def Event.closing : Event ι β κ → Bool
  | .closeCall _ => true
  | _ => false

def beforeClose (log : List (Event ι β κ)) : List (Event ι β κ) := log.takeWhile fun e => !e.closing

def afterClose (log : List (Event ι β κ)) : List (Event ι β κ) := log.dropWhile fun e => !e.closing

variable {log evs : List (Event ι β κ)}

theorem beforeClose_append {k : κ} (hk : .closeCall k ∈ log) :
    beforeClose (log ++ evs) = beforeClose log := by
  rw [beforeClose, List.takeWhile_append]
  split
  next hlen =>
    have hall := List.takeWhile_eq_self_iff.mp ((List.takeWhile_prefix _).eq_of_length hlen)
    exact absurd (hall _ hk) (by simp [Event.closing])
  next => rfl

theorem close_split (before after : List (Event ι β κ)) (k : κ) :
    beforeClose (before ++ .closeCall k :: after) = beforeClose before ∧
      afterClose (before ++ .closeCall k :: after) = afterClose before ++ .closeCall k :: after := by
  induction before with
  | nil => exact ⟨rfl, rfl⟩
  | cons e before ih =>
    obtain ⟨hbefore, hafter⟩ := ih
    simp only [beforeClose, afterClose] at hbefore hafter ⊢
    cases he : e.closing <;> simp [he, hbefore, hafter]

theorem orderly_of_split (hret : ∀ x ∈ calls (beforeClose log), x ∈ returns (beforeClose log))
    (hcalls : calls (afterClose log) = []) : Orderly log := by
  rintro before after k rfl
  obtain ⟨hbefore, hafter⟩ := close_split before after k
  rw [hbefore] at hret
  rw [hafter, calls_append, List.append_eq_nil_iff] at hcalls
  have hsplit : calls before = calls (beforeClose before) := by
    conv_lhs => rw [← List.takeWhile_append_dropWhile (p := fun e => !e.closing) (l := before)]
    rw [calls_append]
    exact (congrArg _ hcalls.1).trans (List.append_nil _)
  refine ⟨fun x hx => ?_, hcalls.2⟩
  rw [hsplit] at hx
  exact ((List.takeWhile_prefix _).sublist.filterMap _).subset (hret x hx)

theorem returns_beforeClose {x : Item ι β} (hx : x ∈ returns (beforeClose log)) : x ∈ returns log :=
  ((List.takeWhile_prefix _).sublist.filterMap _).subset hx

end BeforeClose

inductive Client (ι β : Type) where
  | idle
  | pending (x : Item ι β) (owed : Bool)
  | settled (x : Item ι β)

def Client.item : Client ι β → Option (Item ι β)
  | .pending x _ => some x
  | _ => none

def Client.owed : Client ι β → Nat
  | .pending _ true => 1
  | _ => 0

def Client.current : Client ι β → Option (Item ι β)
  | .pending x _ => some x
  | .settled x => some x
  | .idle => none

structure Flow (ι β : Type) where
  calls : Nat
  queue : List (Item ι β)
  hand : Option (Item ι β)
  client : ι → Client ι β
  dropped : Nat

section Monitor

variable [DecidableEq ι]

def Flow.setClient (f : Flow ι β) (i : ι) (c : Client ι β) : Flow ι β :=
  { f with client := Function.update f.client i c }

@[simp, grind =] theorem Flow.setClient_client (f : Flow ι β) (i j : ι) (c : Client ι β) :
    (f.setClient i c).client j = if j = i then c else f.client j :=
  Function.update_apply f.client i c j

section Producers

-- The clients as the producers of a transport show them.
variable {ρ : Type} {view : ρ → Client ι β} {producer : ι → ρ} {f : Flow ι β}

theorem Flow.client_set (h : ∀ i, f.client i = view (producer i)) (i : ι) (p : ρ) (j : ι) :
    (f.setClient i (view p)).client j = view (Function.update producer i p j) := by
  rw [Flow.setClient_client, Function.update_apply]
  split
  · rfl
  · exact h j

theorem Flow.client_keep (h : ∀ i, f.client i = view (producer i)) {i : ι} {p : ρ}
    (hp : view p = view (producer i)) (j : ι) :
    f.client j = view (Function.update producer i p j) := by
  rw [Function.update_apply]
  split
  next hj => rw [h j, hj, hp]
  next => exact h j

end Producers

inductive Flow.Next (cap : Nat) (policy : OverflowPolicy) (f : Flow ι β) :
    Event ι β κ → Flow ι β → Prop
  | call (x : Item ι β) (hc : f.client x.producer = .idle) (hn : x.call = f.calls) :
      Next cap policy f (.call x) { f.setClient x.producer (.pending x false) with calls := f.calls + 1 }
  | accept (x : Item ι β) (hc : f.client x.producer = .pending x false)
      (hroom : f.queue.length < cap) :
      Next cap policy f (.accept x) { f.setClient x.producer (.settled x) with queue := f.queue ++ [x] }
  | evict (i : ι) (x y : Item ι β) (rest : List (Item ι β)) (hp : policy = .dropOldest)
      (hc : f.client i = .pending x false) (hq : f.queue = y :: rest) :
      Next cap policy f (.evict i y) { f.setClient i (.pending x true) with queue := rest }
  | count (i : ι) (x : Item ι β) (hc : f.client i = .pending x true) :
      Next cap policy f (.count i) { f.setClient i (.pending x false) with dropped := f.dropped + 1 }
  | refuse (x : Item ι β) (hp : policy = .dropNewest)
      (hc : f.client x.producer = .pending x false) :
      Next cap policy f (.refuse x) { f.setClient x.producer (.settled x) with dropped := f.dropped + 1 }
  | discard (x : Item ι β) (hc : f.client x.producer = .pending x false) :
      Next cap policy f (.discard x) (f.setClient x.producer (.settled x))
  | ret (x : Item ι β) (hc : f.client x.producer = .settled x) :
      Next cap policy f (.ret x) (f.setClient x.producer .idle)
  | take (x : Item ι β) (rest : List (Item ι β)) (hh : f.hand = none) (hq : f.queue = x :: rest) :
      Next cap policy f (.take x) { f with queue := rest, hand := some x }
  | emit (x : Item ι β) (hh : f.hand = some x) : Next cap policy f (.emit x) { f with hand := none }
  | exit : Next cap policy f .exit f
  | closeCall (k : κ) : Next cap policy f (.closeCall k) f
  | sinkSync (k : κ) : Next cap policy f (.sinkSync k) f
  | sinkClose (k : κ) : Next cap policy f (.sinkClose k) f
  | closeRet (k : κ) : Next cap policy f (.closeRet k) f

def flow (κ : Type) (cap : Nat) (policy : OverflowPolicy) : Monitor (Flow ι β) (Event ι β κ) where
  init := ⟨0, [], none, fun _ => .idle, 0⟩
  next := Flow.Next cap policy

end Monitor

end UbgoLogger.Transport
