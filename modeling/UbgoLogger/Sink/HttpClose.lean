import UbgoLogger.Foundation.Counter
import UbgoLogger.Sink.HttpBatch

namespace UbgoLogger.Sink.Http
open Foundation

section Logs

variable {ι κ ρ : Type}

def delivered (log : List (Event ι κ ρ)) : List ρ :=
  log.flatMap fun
    | .answered records => records
    | _ => []

def counted (log : List (Event ι κ ρ)) : List ρ :=
  log.flatMap fun
    | .counted records => records
    | _ => []

theorem delivered_append (log evs : List (Event ι κ ρ)) :
    delivered (log ++ evs) = delivered log ++ delivered evs :=
  List.flatMap_append

theorem counted_append (log evs : List (Event ι κ ρ)) :
    counted (log ++ evs) = counted log ++ counted evs :=
  List.flatMap_append

def Send.open (x : Send ρ) : List ρ := if x.stage.finished then [] else x.records

def inFlight (sends : List (Send ρ)) : List ρ := sends.flatMap Send.open

def Idle (sends : List (Send ρ)) : Prop := ∀ x ∈ sends, x.stage.finished = true

instance (sends : List (Send ρ)) : Decidable (Idle sends) :=
  inferInstanceAs (Decidable (∀ x ∈ sends, _))

theorem Idle.inFlight {sends : List (Send ρ)} (h : Idle sends) : inFlight sends = [] :=
  List.flatMap_eq_nil_iff.mpr fun x hx => if_pos (h x hx)

theorem inFlight_begin (p : ρ → Bool) (sends : List (Send ρ)) (batch : List ρ) :
    (inFlight (begin sends batch)).countP p = (inFlight sends).countP p + batch.countP p := by
  unfold begin
  split_ifs with h
  · simp [h]
  · simp [inFlight, Send.open, Stage.finished]

end Logs

section Balance

variable {ι κ ρ : Type} [DecidableEq ι] [DecidableEq κ] {h : HTTPBatchSink} {level : ρ → Level}
variable {s s' : State ι κ ρ} {a : Act ι κ ρ} {evs log : List (Event ι κ ρ)}

structure Balanced (log : List (Event ι κ ρ)) (s : State ι κ ρ) : Prop where
  batches (p : ρ → Bool) : (takes log).flatten.countP p =
    (delivered log).countP p + (counted log).countP p + (inFlight s.sends).countP p
  dropped : s.guarded.dropped = .ofNat (counted log).length
  nonempty : ∀ x ∈ s.sends, x.records ≠ []

omit [DecidableEq ι] [DecidableEq κ] in
theorem Balanced.frame (B : Balanced log s) (htakes : takes evs = []) (hdelivered : delivered evs = [])
    (hcounted : counted evs = []) (hdropped : s'.guarded.dropped = s.guarded.dropped)
    (hsends : s'.sends = s.sends) : Balanced (log ++ evs) s' where
  batches p := by
    rw [takes_append, delivered_append, counted_append, htakes, hdelivered, hcounted, hsends]
    simpa using B.batches p
  dropped := by rw [counted_append, hcounted, hdropped, List.append_nil, B.dropped]
  nonempty := hsends ▸ B.nonempty

omit [DecidableEq ι] [DecidableEq κ] in
theorem Balanced.taken {batch : List ρ} (B : Balanced log s) (htakes : takes evs = [batch])
    (hdelivered : delivered evs = []) (hcounted : counted evs = [])
    (hdropped : s'.guarded.dropped = s.guarded.dropped)
    (hsends : s'.sends = begin s.sends batch) : Balanced (log ++ evs) s' where
  batches p := by
    have := B.batches p
    rw [takes_append, delivered_append, counted_append, htakes, hdelivered, hcounted, hsends,
      inFlight_begin]
    simp only [List.flatten_append, List.countP_append, List.append_nil, List.flatten_cons,
      List.flatten_nil]
    omega
  dropped := by rw [counted_append, hcounted, hdropped, List.append_nil, B.dropped]
  nonempty := by
    rw [hsends]
    unfold begin
    split_ifs with hbatch
    · exact B.nonempty
    · simpa [or_imp, forall_and] using ⟨B.nonempty, hbatch⟩

omit [DecidableEq ι] [DecidableEq κ] in
theorem Balanced.finish {n : Nat} {records : List ρ} {old stage : Stage} (B : Balanced log s)
    (hn : s.sends[n]? = some ⟨records, old⟩) (hold : old.finished = false)
    (htakes : takes evs = [])
    (hevs : ∀ p : ρ → Bool, (delivered evs).countP p + (counted evs).countP p +
      (Send.open ⟨records, stage⟩).countP p = records.countP p)
    (hdropped : s'.guarded.dropped = s.guarded.dropped + .ofNat (counted evs).length)
    (hsends : s'.sends = s.sends.set n ⟨records, stage⟩) : Balanced (log ++ evs) s' where
  batches p := by
    have hset := countP_flatMap_set p Send.open ⟨records, stage⟩ hn
    have hopen : Send.open ⟨records, old⟩ = records := if_neg (Bool.eq_false_iff.mp hold)
    have hbatches := B.batches p
    have hp := hevs p
    rw [takes_append, delivered_append, counted_append, htakes, hsends]
    rw [hopen] at hset
    simp only [inFlight, List.append_nil, List.countP_append] at hbatches ⊢
    omega
  dropped := by rw [hdropped, counted_append, List.length_append, Counter.add B.dropped]
  nonempty x hx := by
    rw [hsends] at hx
    rcases List.mem_or_eq_of_mem_set hx with hx | rfl
    · exact B.nonempty x hx
    · exact B.nonempty ⟨records, old⟩ (List.mem_of_getElem? hn)

theorem begin_of_ne_nil {sends : List (Send ρ)} {batch : List ρ} (hb : batch ≠ []) :
    begin sends batch = sends ++ [⟨batch, .posting⟩] :=
  if_neg hb

theorem Balanced.step (B : Balanced log s) (hs : Step h level s a s' evs) :
    Balanced (log ++ evs) s' := by
  cases hs with
  | below | enough | refused | kept | timed | ret | fire | call | leave =>
    exact B.frame rfl rfl rfl rfl rfl
  | flushed i r hi hc hfull =>
    exact B.taken rfl rfl rfl (by simp) (begin_of_ne_nil (by simp)).symm
  | callback t ht => exact B.taken rfl rfl rfl (by simp [State.flushTimer]) (by simp [State.flushTimer])
  | enter k close hk => exact B.taken rfl rfl rfl (by simp [State.enter]) (by simp [State.enter])
  | delivered n o records hn =>
    exact B.finish hn rfl rfl (by simp [delivered, counted, Send.open, Stage.finished])
      (UInt64.add_zero _).symm rfl
  | undelivered n o records hn =>
    exact B.finish hn rfl rfl (by simp [delivered, counted, Send.open, Stage.finished])
      (UInt64.add_zero _).symm rfl
  | count n records hn =>
    exact B.finish hn rfl rfl (by simp [delivered, counted, Send.open, Stage.finished]) (by simp [counted]) rfl

theorem balanced {C : State ι κ ρ → Act ι κ ρ → Prop} (e : (machine h level).Exec C log s) :
    Balanced log s := by
  refine e.invariant (P := Balanced) ?_ fun _ B _ hs => B.step (step_cases hs)
  constructor <;> simp [machine, Guarded.fresh, takes, delivered, counted, inFlight]

end Balance

-- Past the lock section of Close.
def Client.closing : Client → Bool
  | .sending close _ => close
  | .leaving close => close
  | _ => false

section Close

variable {ι κ ρ : Type} [DecidableEq ι] [DecidableEq κ] {h : HTTPBatchSink} {level : ρ → Level}
variable {s s' : State ι κ ρ} {a : Act ι κ ρ} {evs log : List (Event ι κ ρ)}

-- Close takes its last batch only when every send begun before has finished.
def Calm (s : State ι κ ρ) : Act ι κ ρ → Prop
  | .enter k => s.client k = .entering true → Idle s.sends
  | _ => True

instance (s : State ι κ ρ) : ∀ a, Decidable (Calm s a)
  | .enter k => inferInstanceAs (Decidable (s.client k = .entering true → Idle s.sends))
  | .emit _ _ | .lock _ | .ret _ | .fire _ | .callback _ | .call _ _ | .answer _ _ | .count _
  | .leave _ => inferInstanceAs (Decidable True)

structure Quiet (s : State ι κ ρ) : Prop where
  buf : s.guarded.closed = true → s.guarded.buf = []
  closed : ∀ k, (s.client k).closing = true → s.guarded.closed = true
  own : ∀ k n, s.client k = .sending true n → ∀ m x, s.sends[m]? = some x →
    x.stage.finished = false → m = n
  idle : ∀ k, s.client k = .leaving true → Idle s.sends

def NoneBegun (sends sends' : List (Send ρ)) : Prop :=
  ∀ (m : Nat) (y : Send ρ), sends'[m]? = some y → y.stage.finished = false →
    ∃ x : Send ρ, sends[m]? = some x ∧ x.stage.finished = false

theorem NoneBegun.refl (sends : List (Send ρ)) : NoneBegun sends sends :=
  fun _ y hy hf => ⟨y, hy, hf⟩

theorem NoneBegun.set {sends : List (Send ρ)} {n : Nat} {x y : Send ρ} (hn : sends[n]? = some x)
    (hx : x.stage.finished = false) : NoneBegun sends (sends.set n y) := by
  intro m z hz hf
  rw [List.getElem?_set] at hz
  split_ifs at hz with hnm hlt
  · exact ⟨x, hnm ▸ hn, hx⟩
  · exact ⟨z, hz, hf⟩

theorem NoneBegun.idle {sends sends' : List (Send ρ)} (hb : NoneBegun sends sends')
    (hidle : Idle sends) : Idle sends' := by
  intro y hy
  obtain ⟨m, hm⟩ := List.mem_iff_getElem?.mp hy
  by_contra hf
  obtain ⟨x, hx, hxf⟩ := hb m y hm (Bool.eq_false_iff.mpr hf)
  exact Bool.eq_false_iff.mp hxf (hidle x (List.mem_of_getElem? hx))

omit [DecidableEq ι] [DecidableEq κ] in
theorem Quiet.frame (Q : Quiet s) (hbuf : s'.guarded.closed = true → s'.guarded.buf = [])
    (hclosed : s.guarded.closed = true → s'.guarded.closed = true)
    (hclient : ∀ k, s'.client k = s.client k ∨ (s'.client k).closing = false)
    (hsends : s.guarded.closed = true → NoneBegun s.sends s'.sends) : Quiet s' := by
  have hsame : ∀ k, (s'.client k).closing = true → s'.client k = s.client k := fun k hk =>
    (hclient k).resolve_right (by simp [hk])
  have hpast : ∀ k, (s'.client k).closing = true → s.guarded.closed = true := fun k hk =>
    Q.closed k (hsame k hk ▸ hk)
  refine ⟨hbuf, fun k hk => hclosed (hpast k hk), fun k n hk m y hy hf => ?_, fun k hk => ?_⟩
  · have hk' : (s'.client k).closing = true := by rw [hk]; rfl
    obtain ⟨x, hx, hxf⟩ := hsends (hpast k hk') m y hy hf
    exact Q.own k n (hsame k hk' ▸ hk) m x hx hxf
  · have hk' : (s'.client k).closing = true := by rw [hk]; rfl
    exact (hsends (hpast k hk')).idle (Q.idle k (hsame k hk' ▸ hk))

theorem client_update {f : κ → Client} {k : κ} {c : Client} (hc : c.closing = false) (j : κ) :
    Function.update f k c j = f j ∨ (Function.update f k c j).closing = false := by
  by_cases hj : j = k
  · subst hj
    rw [Function.update_self]
    exact .inr hc
  · rw [Function.update_of_ne hj]
    exact .inl rfl

theorem begin_nil (sends : List (Send ρ)) : begin sends [] = sends := if_pos rfl

omit [DecidableEq ι] in
theorem Quiet.enter_close {k : κ} (Q : Quiet s) (hidle : Idle s.sends) :
    Quiet (s.enter k true).1 := by
  have hbuf : (s.enter k true).1.guarded.buf = [] := by simp [State.enter]
  have hclosed : (s.enter k true).1.guarded.closed = true := by simp [State.enter]
  have hsends : (s.enter k true).1.sends = begin s.sends s.guarded.buf := by simp [State.enter]
  have hother : ∀ j, j ≠ k → (s.enter k true).1.client j = s.client j := fun j hj =>
    Function.update_of_ne hj _ _
  have hself : (s.enter k true).1.client k =
      if s.guarded.buf = [] then .leaving true else .sending true s.sends.length := by
    simp [State.enter, State.setClient]
  have hsame : ∀ j, (s.client j).closing = true → begin s.sends s.guarded.buf = s.sends :=
    fun j hj => by rw [Q.buf (Q.closed j hj), begin_nil]
  refine ⟨fun _ => hbuf, fun _ _ => hclosed, fun j n hj m x hx hf => ?_, fun j hj => ?_⟩
  · rw [hsends] at hx
    by_cases hjk : j = k
    · subst hjk
      rw [hself] at hj
      split_ifs at hj with hempty
      obtain rfl : s.sends.length = n := by simpa using hj
      rw [begin_of_ne_nil hempty] at hx
      rcases getElem?_concat_cases hx with hx | ⟨hm, -⟩
      · exact absurd (hidle x (List.mem_of_getElem? hx)) (Bool.eq_false_iff.mp hf)
      · exact hm
    · rw [hother j hjk] at hj
      rw [hsame j (by rw [hj]; rfl)] at hx
      exact Q.own j n hj m x hx hf
  · rw [hsends]
    by_cases hjk : j = k
    · subst hjk
      rw [hself] at hj
      split_ifs at hj with hempty
      rwa [hempty, begin_nil]
    · rw [hother j hjk] at hj
      rw [hsame j (by rw [hj]; rfl)]
      exact hidle

theorem Quiet.step (Q : Quiet s) (hc : Calm s a) (hs : Step h level s a s' evs) : Quiet s' := by
  cases hs with
  | below | enough | refused | ret | fire =>
    exact Q.frame Q.buf id (fun _ => .inl rfl) fun _ => .refl _
  | flushed i r hi hopen hfull =>
    exact Q.frame (by simp) (by simp [hopen]) (fun _ => .inl rfl) (by simp [hopen])
  | kept i r t hi hopen | timed i r hi hopen =>
    exact Q.frame (by simp [hopen]) (by simp [hopen]) (fun _ => .inl rfl) (by simp [hopen])
  | callback t ht =>
    refine Q.frame (by simp [State.flushTimer]) (by simp [State.flushTimer]) (fun _ => .inl rfl) ?_
    intro hclosed
    simp only [State.flushTimer, Guarded.takeLocked_batch, Q.buf hclosed, begin_nil]
    exact .refl _
  | call k close hk => exact Q.frame Q.buf id (client_update rfl) fun _ => .refl _
  | enter k close hk =>
    cases close with
    | true => exact Q.enter_close (hc hk)
    | false =>
      refine Q.frame (by simp [State.enter]) (by simp [State.enter]) (client_update ?_) ?_
      · split_ifs <;> rfl
      · intro hclosed
        simp only [State.enter, Guarded.takeLocked_batch, Q.buf hclosed, begin_nil]
        exact .refl _
  | delivered n o records hn | undelivered n o records hn =>
    exact Q.frame Q.buf id (fun _ => .inl rfl) fun _ => .set hn rfl
  | count n records hn => exact Q.frame Q.buf id (fun _ => .inl rfl) fun _ => .set hn rfl
  | leave k close hk => exact Q.frame Q.buf id (client_update rfl) fun _ => .refl _

theorem quiet (e : (machine h level).Exec Calm log s) : Quiet s := by
  refine e.invariant (P := fun _ => Quiet) ?_ fun _ Q hc hs => Q.step hc (step_cases hs)
  constructor <;> simp [machine, Guarded.fresh, Client.closing]

-- Every record the sink ever accepted has been posted, and was answered or counted as dropped.
structure Completed (h : HTTPBatchSink) (level : ρ → Level) (log : List (Event ι κ ρ))
    (s : State ι κ ρ) : Prop where
  posted : Idle s.sends
  fates : (accepted h level log).Perm (delivered log ++ counted log)
  equation : (accepted h level log).length < 2 ^ 64 →
    (accepted h level log).length = (delivered log).length + s.guarded.dropped.toNat

theorem accepted_countP {C : State ι κ ρ → Act ι κ ρ → Prop} (e : (machine h level).Exec C log s)
    (p : ρ → Bool) : (accepted h level log).countP p = (delivered log).countP p +
      (counted log).countP p + (inFlight s.sends).countP p + s.guarded.buf.countP p := by
  rw [← (conserved e).conserve, List.countP_append, (balanced e).batches]

theorem accepted_length {C : State ι κ ρ → Act ι κ ρ → Prop} (e : (machine h level).Exec C log s) :
    (accepted h level log).length = (delivered log).length + (counted log).length +
      (inFlight s.sends).length + s.guarded.buf.length := by
  have hall := accepted_countP e fun _ => true
  simpa only [List.countP_true] using hall

theorem completed {C : State ι κ ρ → Act ι κ ρ → Prop} (e : (machine h level).Exec C log s)
    (hidle : Idle s.sends) (hbuf : s.guarded.buf = []) : Completed h level log s where
  posted := hidle
  fates := by
    classical
    refine List.perm_iff_count.mpr fun r => ?_
    have hr := accepted_countP e (· == r)
    rw [hidle.inFlight, hbuf, List.countP_nil] at hr
    rw [List.count_append]
    exact hr
  equation hbound := by
    have hlength := accepted_length e
    rw [hidle.inFlight, hbuf, List.length_nil] at hlength
    rw [Counter.toNat_eq (balanced e).dropped (by omega)]
    exact hlength

theorem unbalanced {x : Send ρ} (e : (machine h level).Run log s) (hx : x ∈ s.sends)
    (hf : x.stage.finished = false) :
    (accepted h level log).length ≠ (delivered log).length + s.guarded.dropped.toNat := by
  obtain ⟨r, hr⟩ := List.exists_mem_of_ne_nil _ ((balanced e).nonempty x hx)
  have hopen : r ∈ inFlight s.sends :=
    List.mem_flatMap.mpr ⟨x, hx, by rwa [Send.open, if_neg (Bool.eq_false_iff.mp hf)]⟩
  have hpos := List.length_pos_of_mem hopen
  have hshown : s.guarded.dropped.toNat ≤ (counted log).length := by
    rw [(balanced e).dropped, UInt64.toNat_ofNat']
    exact Nat.mod_le _ _
  rw [accepted_length e]
  omega

theorem Quiet.left {k : κ} (Q : Quiet s) (hs : Step h level s a s' evs) (hk : .left k true ∈ evs) :
    Idle s'.sends ∧ s'.guarded.buf = [] := by
  cases hs with
  | leave j close hj =>
    obtain ⟨rfl, rfl⟩ : k = j ∧ true = close := by simpa using hk
    rcases hj with hj | ⟨n, x, hj, hx, hfinished⟩
    · exact ⟨Q.idle k hj, Q.buf (Q.closed k (by rw [hj]; rfl))⟩
    · refine ⟨fun y hy => ?_, Q.buf (Q.closed k (by rw [hj]; rfl))⟩
      obtain ⟨m, hm⟩ := List.mem_iff_getElem?.mp hy
      by_contra hf
      obtain rfl := Q.own k n hj m y hm (Bool.eq_false_iff.mpr hf)
      exact hf (Option.some.inj (hx.symm.trans hm) ▸ hfinished)
  | _ => simp at hk

theorem close_abandons {k : κ} (e : (machine h level).Run log s) (hk : s.client k = .entering true)
    (hbusy : ¬ Idle s.sends) :
    ∃ as log' s', (machine h level).perform log s (.enter k :: as) = some (log', s') ∧
      log'.getLast? = some (.left k true) ∧
      (accepted h level log').length ≠ (delivered log').length + s'.guarded.dropped.toNat := by
  obtain ⟨x, hx, hf⟩ : ∃ x ∈ s.sends, x.stage.finished = false := by
    simpa [Idle] using hbusy
  by_cases hbuf : s.guarded.buf = []
  · have hp : (machine h level).perform log s [.enter k, .leave k] =
        some (log ++ [.take []] ++ [.left k true], (s.enter k true).1.setClient k .idle) := by
      simp [Machine.perform, Machine.performIf, machine, step, hk, State.enter, State.setClient, hbuf]
    refine ⟨[.leave k], _, _, hp, by simp, unbalanced (Machine.exec_of_performIf e hp) (x := x) ?_ hf⟩
    simpa [State.enter, State.setClient, hbuf, begin_nil] using hx
  · have hp : (machine h level).perform log s
        [.enter k, .answer s.sends.length (.status 200), .leave k] =
        some (log ++ [.take s.guarded.buf] ++ [.answered s.guarded.buf] ++ [.left k true],
          { (s.enter k true).1.setClient k .idle with
            sends := s.sends ++ [⟨s.guarded.buf, .delivered⟩] }) := by
      simp [Machine.perform, Machine.performIf, machine, step, hk, State.enter, State.setClient, hbuf,
        begin_of_ne_nil, Outcome.success, Stage.finished]
    refine ⟨_, _, _, hp, by simp, unbalanced (Machine.exec_of_performIf e hp) (x := x) ?_ hf⟩
    exact List.mem_append_left _ hx

theorem close_completes_when_sends_finished :
    (∀ {log : List (Event ι κ ρ)} {s s' : State ι κ ρ} {k : κ} {evs : List (Event ι κ ρ)},
      (machine h level).Exec Calm log s → (machine h level).step s (.leave k) = some (s', evs) →
      .left k true ∈ evs → Completed h level (log ++ evs) s') ∧
    (∀ {log : List (Event ι κ ρ)} {s : State ι κ ρ} {k : κ}, (machine h level).Run log s →
      s.client k = .entering true → ¬ Idle s.sends →
      ∃ as log' s', (machine h level).perform log s (.enter k :: as) = some (log', s') ∧
        log'.getLast? = some (.left k true) ∧
        (accepted h level log').length ≠ (delivered log').length + s'.guarded.dropped.toNat) := by
  refine ⟨@fun log s s' k evs e hs hk => ?_, close_abandons⟩
  have hstep : Step h level s (.leave k) s' evs := step_cases hs
  obtain ⟨hidle, hbuf⟩ := (quiet e).left hstep hk
  have hcalm : Calm s (.leave k) := trivial
  exact completed (e.step hcalm hs) hidle hbuf

end Close

theorem close_completes_when_sends_finished_runs :
    (∃ (log : List (Event Unit Unit Nat)) (s : State Unit Unit Nat),
      (machine ⟨1, 0⟩ (fun _ => 0)).Exec Calm log s ∧ accepted ⟨1, 0⟩ (fun _ => 0) log = [0] ∧
      Completed ⟨1, 0⟩ (fun _ => 0) log s) ∧
    ∃ (log : List (Event Unit Unit Nat)) (s : State Unit Unit Nat),
      (machine ⟨1, 0⟩ (fun _ => 0)).Run log s ∧ log.getLast? = some (.left () true) ∧
      (accepted ⟨1, 0⟩ (fun _ => 0) log).length ≠
        (delivered log).length + s.guarded.dropped.toNat := by
  constructor
  · obtain ⟨log, s, e, hs⟩ := Machine.exists_exec (M := machine ⟨1, 0⟩ (fun _ : Nat => 0)) (C := Calm)
      [.emit () 0, .lock (), .ret (), .answer 0 (.status 200), .call () true, .enter ()]
      (fun log s => s.client () = .leaving true ∧ accepted ⟨1, 0⟩ (fun _ => 0) log = [0])
      (by decide +kernel)
    obtain ⟨hclient, hlog⟩ := of_decide_eq_true hs
    have hleave : (machine ⟨1, 0⟩ (fun _ : Nat => 0)).step s (.leave ()) =
        some (s.setClient () .idle, [.left () true]) := by
      simp [machine, step, hclient]
    have hcalm : Calm s (.leave ()) := trivial
    refine ⟨_, _, e.step hcalm hleave, ?_,
      close_completes_when_sends_finished.1 e hleave (List.mem_singleton.mpr rfl)⟩
    rw [accepted_append, hlog]
    rfl
  · obtain ⟨log, s, e, hs⟩ := Machine.exists_exec (M := machine ⟨1, 0⟩ (fun _ : Nat => 0))
      (C := fun _ _ => True) [.emit () 0, .lock (), .ret (), .call () true]
      (fun _ s => s.client () = .entering true ∧ ¬ Idle s.sends) (by decide +kernel)
    obtain ⟨hclient, hbusy⟩ := of_decide_eq_true hs
    obtain ⟨as, log', s', hp, hlast, hne⟩ :=
      close_completes_when_sends_finished.2 e hclient hbusy
    exact ⟨log', s', Machine.exec_of_performIf e hp, hlast, hne⟩

theorem close_returns_before_post :
    ∃ (log : List (Event Unit Unit Nat)) (s : State Unit Unit Nat),
      (machine ⟨1, 0⟩ (fun _ => 0)).Run log s ∧
      log = [.locked () 0 false, .take [0], .emitRet (), .called () true, .take [], .left () true] ∧
      accepted ⟨1, 0⟩ (fun _ => 0) log = [0] ∧ delivered log = [] ∧ s.guarded.dropped = 0 ∧
      s.sends = [⟨[0], .posting⟩] := by
  obtain ⟨log, s, e, hs⟩ := Machine.exists_exec (M := machine ⟨1, 0⟩ (fun _ : Nat => 0))
    (C := fun _ _ => True)
    [.emit () 0, .lock (), .ret (), .call () true, .enter (), .leave ()]
    (fun log s => log = [.locked () 0 false, .take [0], .emitRet (), .called () true, .take [],
        .left () true] ∧ s.guarded.dropped = 0 ∧ s.sends = [⟨[0], .posting⟩]) (by decide +kernel)
  obtain ⟨rfl, hdropped, hsends⟩ := of_decide_eq_true hs
  exact ⟨_, s, e, rfl, by decide, by decide, hdropped, hsends⟩

end UbgoLogger.Sink.Http
