import UbgoLogger.Transport.DisruptorDrain
import UbgoLogger.Transport.RingDrain
import Mathlib.Data.Fintype.Basic

namespace UbgoLogger.Transport
open Foundation

variable {ι β : Type} [DecidableEq ι]

theorem Ring.balance_after_close {capacity : Int} {policy : OverflowPolicy}
    {log : List (Event ι β Unit)} {s : Ring.State ι β Unit}
    (h : (Ring.machine capacity policy).Exec Ring.LocksOpen log s) (hk : .closeRet () ∈ log)
    (hidle : ∀ i, s.producer i = .idle) :
    (calls log).length = (emitted log).length + spilled log := by
  obtain ⟨f, hacc, hrel⟩ := Ring.ring_accepted h
  obtain ⟨hq, hh, -⟩ := Ring.ring_drained h hrel hk
  have hled := ledger hacc
  have hbalance := hled.balance fun i => by rw [hrel.client i, hidle i]; rfl
  rw [hq, hh, Ring.discarded_open h, hled.lost] at hbalance
  exact hbalance

theorem Disruptor.balance_after_close {capacity : Int} {policy : OverflowPolicy}
    {log : List (Event ι β Unit)} {s : Disruptor.State ι β Unit}
    (h : (Disruptor.machine capacity policy).Exec
      (fun s a => Disruptor.ReadsPublished s a ∧ Disruptor.EnqueuesInTime s a) log s)
    (hk : .closeRet () ∈ log) (hidle : ∀ i, s.producer i = .idle) :
    (calls log).length = (emitted log).length + spilled log := by
  obtain ⟨f, hacc, hrel⟩ := Disruptor.disruptor_accepted h
  have hled := ledger hacc
  have hexit := Disruptor.disruptor_exited h hk
  have hq : f.queue = [] := by
    have hqueued := hled.queued
    rwa [Disruptor.disruptor_emptied h (by rw [hexit]; rfl), List.self_eq_append_right] at hqueued
  have hh : f.hand = none := by
    rw [hrel.hand, hexit]
    rfl
  have hbalance := hled.balance fun i => by rw [hrel.client i, hidle i]; rfl
  rw [hq, hh, Disruptor.disruptor_discarded h, hled.lost] at hbalance
  exact hbalance

-- The counter shows how many of the calls the sink did not get.
def Accounted (log : List (Event ι β Unit)) (dropped : UInt64) : Prop :=
  (emitted log).length ≤ (calls log).length ∧
    dropped = .ofNat ((calls log).length - (emitted log).length)

omit [DecidableEq ι] in
theorem accounted {log : List (Event ι β Unit)} {dropped : UInt64}
    (hbalance : (calls log).length = (emitted log).length + spilled log)
    (hcounted : dropped = .ofNat (spilled log)) : Accounted log dropped := by
  rw [Accounted, hbalance, Nat.add_sub_cancel_left]
  exact ⟨Nat.le_add_right _ _, hcounted⟩

theorem no_silent_loss (capacity : Int) (policy : OverflowPolicy) :
    (∀ (log : List (Event ι β Unit)) (s : Ring.State ι β Unit),
      (Ring.machine capacity policy).Exec Ring.LocksOpen log s → .closeRet () ∈ log →
      (∀ i, s.producer i = .idle) → Accounted log s.dropped) ∧
    (∀ (log : List (Event ι β Unit)) (s : Disruptor.State ι β Unit),
      (Disruptor.machine capacity policy).Exec
        (fun s a => Disruptor.ReadsPublished s a ∧ Disruptor.EnqueuesInTime s a) log s →
      .closeRet () ∈ log → (∀ i, s.producer i = .idle) → Accounted log s.dropped) :=
  ⟨fun _ _ h hk hidle => accounted (Ring.balance_after_close h hk hidle) (Ring.ring_counted h),
    fun _ _ h hk hidle =>
      accounted (Disruptor.balance_after_close h hk hidle) (Disruptor.disruptor_counted h)⟩

theorem no_silent_loss_refusing :
    (∃ (log : List (Event Unit Nat Unit)) (s : Ring.State Unit Nat Unit),
      (Ring.machine 2 .dropNewest).Exec Ring.LocksOpen log s ∧ s.dropped = 1 ∧
        Accounted log s.dropped) ∧
    (∃ (log : List (Event Unit Nat Unit)) (s : Disruptor.State Unit Nat Unit),
      (Disruptor.machine 2 .dropNewest).Exec
        (fun s a => Disruptor.ReadsPublished s a ∧ Disruptor.EnqueuesInTime s a) log s ∧
        s.dropped = 1 ∧ Accounted log s.dropped) := by
  obtain ⟨hring, hdisruptor⟩ := no_silent_loss (ι := Unit) (β := Nat) 2 .dropNewest
  refine ⟨?_, ?_⟩
  · obtain ⟨log, s, hrun, hgood⟩ := Machine.exists_exec (M := Ring.machine 2 .dropNewest)
      (C := Ring.LocksOpen)
      [.dispatch () 10, .produce (), .produce (), .dispatch () 11, .produce (), .produce (),
        .dispatch () 12, .produce (), .produce (), .produce (), .close (), .closer (), .work 0,
        .work 0, .work 0, .work 0, .work 0, .work 0, .closer (), .closer (), .closer (), .closer ()]
      (fun (log : List (Event Unit Nat Unit)) (s : Ring.State Unit Nat Unit) =>
        decide (.closeRet () ∈ log ∧ s.producer () = .idle ∧ s.dropped = 1)) (by decide +kernel)
    obtain ⟨hclose, hidle, hone⟩ := of_decide_eq_true hgood
    exact ⟨log, s, hrun, hone, hring log s hrun hclose fun _ => hidle⟩
  · obtain ⟨log, s, hrun, hgood⟩ := Machine.exists_exec (M := Disruptor.machine 2 .dropNewest)
      (C := fun s a => Disruptor.ReadsPublished s a ∧ Disruptor.EnqueuesInTime s a)
      ([Act.dispatch () 10] ++ List.replicate 7 (Act.produce ()) ++ [Act.dispatch () 11] ++
        List.replicate 7 (Act.produce ()) ++ [Act.dispatch () 12] ++
        List.replicate 5 (Act.produce ()) ++ [Act.close (), Act.closer ()] ++
        List.replicate 24 (Act.work 0) ++ List.replicate 4 (Act.closer ()))
      (fun (log : List (Event Unit Nat Unit)) (s : Disruptor.State Unit Nat Unit) =>
        decide (.closeRet () ∈ log ∧ s.producer () = .idle ∧ s.dropped = 1)) (by decide +kernel)
    obtain ⟨hclose, hidle, hone⟩ := of_decide_eq_true hgood
    exact ⟨log, s, hrun, hone, hdisruptor log s hrun hclose fun _ => hidle⟩

theorem dispatch_after_close_is_lost :
    (∃ (log : List (Event Unit Nat Unit)) (s : Ring.State Unit Nat Unit),
      (Ring.machine 2 .block).Run log s ∧ .closeRet () ∈ log ∧ (∀ i, s.producer i = .idle) ∧
        (calls log).length = 1 ∧ (emitted log).length = 0 ∧ s.dropped = 0) ∧
    (∃ (log : List (Event Unit Nat Unit)) (s : Disruptor.State Unit Nat Unit),
      (Disruptor.machine 2 .block).Run log s ∧ .closeRet () ∈ log ∧ (∀ i, s.producer i = .idle) ∧
        (calls log).length = 1 ∧ (emitted log).length = 0 ∧ s.dropped = 0) := by
  refine ⟨?_, ?_⟩
  · obtain ⟨log, s, hrun, hgood⟩ := Machine.exists_exec (M := Ring.machine 2 .block)
      (C := fun _ _ => True)
      [.close (), .closer (), .work 0, .work 0, .closer (), .closer (), .closer (), .closer (),
        .dispatch () 10, .produce (), .produce ()]
      (fun (log : List (Event Unit Nat Unit)) (s : Ring.State Unit Nat Unit) =>
        decide (.closeRet () ∈ log ∧ s.producer () = .idle ∧ (calls log).length = 1 ∧
          (emitted log).length = 0 ∧ s.dropped = 0)) (by decide +kernel)
    obtain ⟨hclose, hidle, hcalls, hout⟩ := of_decide_eq_true hgood
    exact ⟨log, s, hrun, hclose, fun _ => hidle, hcalls, hout⟩
  · obtain ⟨log, s, hrun, hgood⟩ := Machine.exists_exec (M := Disruptor.machine 2 .block)
      (C := fun _ _ => True)
      ([Act.close (), Act.closer ()] ++ List.replicate 8 (Act.work 0) ++ List.replicate 4 (Act.closer ()) ++
        [Act.dispatch () 10] ++ List.replicate 7 (Act.produce ()))
      (fun (log : List (Event Unit Nat Unit)) (s : Disruptor.State Unit Nat Unit) =>
        decide (.closeRet () ∈ log ∧ s.producer () = .idle ∧ (calls log).length = 1 ∧
          (emitted log).length = 0 ∧ s.dropped = 0)) (by decide +kernel)
    obtain ⟨hclose, hidle, hcalls, hout⟩ := of_decide_eq_true hgood
    exact ⟨log, s, hrun, hclose, fun _ => hidle, hcalls, hout⟩

end UbgoLogger.Transport
