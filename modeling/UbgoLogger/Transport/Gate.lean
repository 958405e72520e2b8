import UbgoLogger.Transport.Flow

namespace UbgoLogger.Transport
open Foundation

variable {ι β κ : Type}

inductive Closer where
  | idle
  | entering
  | awaiting
  | syncing
  | closing
  | leaving
  deriving DecidableEq

structure Gate (κ : Type) where
  closed : Bool
  done : Bool
  closer : κ → Closer

theorem sinkCloses_inward {evs : List (Event ι β κ)} (h : ∀ e ∈ evs, e.outward = false) :
    sinkCloses evs = [] := by
  refine List.filterMap_eq_nil_iff.mpr fun e he => ?_
  have hout := h e he
  cases e <;> simp_all

theorem emitted_inward {evs : List (Event ι β κ)} (h : ∀ e ∈ evs, e.outward = false) :
    emitted evs = [] := by
  refine List.filterMap_eq_nil_iff.mpr fun e he => ?_
  have hout := h e he
  cases e <;> simp_all

namespace Gate

def fresh : Gate κ := ⟨false, false, fun _ => .idle⟩

variable {g g' : Gate κ} {k : κ} {evs log : List (Event ι β κ)}

structure Inv (g : Gate κ) (log : List (Event ι β κ)) : Prop where
  waited : ∀ k, g.closed = true → g.done = true ∨ g.closer k = .awaiting
  active : ∀ k, g.closer k ≠ .idle → g.closer k ≠ .entering → g.closed = true
  returned : ∀ k, .closeRet k ∈ log → g.done = true
  called : ∀ k, g.closer k ≠ .idle → .closeCall k ∈ log
  shut : g.closed = true → ∃ k, .closeCall k ∈ log

theorem inv_fresh : (fresh : Gate κ).Inv ([] : List (Event ι β κ)) where
  waited := fun _ h => by cases h
  active := fun k h => absurd rfl h
  returned := fun k h => by cases h
  called := fun k h => absurd rfl h
  shut := fun h => by cases h

theorem Inv.again [DecidableEq κ] [Subsingleton κ] (h : g.Inv log) (hk : g.closer k = .entering)
    (hc : g.closed = true) :
    ({ g with closer := Function.update g.closer k .syncing } : Gate κ).Inv log where
  waited := fun j _ => (h.waited k hc).imp_right fun he => by rw [hk] at he; cases he
  active := fun _ _ _ => hc
  returned := h.returned
  called := fun j _ => Subsingleton.elim k j ▸ h.called k (by rw [hk]; nofun)
  shut := h.shut

theorem Inv.quiet (h : g.Inv log) (hq : ∀ k, .closeRet k ∉ evs) : g.Inv (log ++ evs) where
  waited := h.waited
  active := h.active
  returned := fun k hk => (List.mem_append.mp hk).elim (h.returned k) fun hm => absurd hm (hq k)
  called := fun k hk => List.mem_append_left evs (h.called k hk)
  shut := fun hc => (h.shut hc).imp fun _ hk => List.mem_append_left evs hk

theorem Inv.finish (h : g.Inv log) : ({ g with done := true } : Gate κ).Inv log where
  waited := fun _ _ => .inl rfl
  active := h.active
  returned := fun _ _ => rfl
  called := h.called
  shut := h.shut

structure Joined (g : Gate κ) (log : List (Event ι β κ)) : Prop where
  shut : ∀ k, g.closer k = .awaiting → g.closed = true
  joined : ∀ k, g.closer k = .syncing ∨ g.closer k = .closing → g.done = true
  finished : sinkCloses log ≠ [] → g.done = true

theorem joined_fresh : (fresh : Gate κ).Joined ([] : List (Event ι β κ)) where
  shut := nofun
  joined := fun k h => by rcases h with h | h <;> cases h
  finished := fun h => absurd rfl h

theorem Joined.quiet (h : g.Joined log) (hq : sinkCloses evs = []) : g.Joined (log ++ evs) where
  shut := h.shut
  joined := h.joined
  finished := fun hne => h.finished (by rwa [sinkCloses_append, hq, List.append_nil] at hne)

theorem Joined.finish (h : g.Joined log) : ({ g with done := true } : Gate κ).Joined log where
  shut := h.shut
  joined := fun _ _ => rfl
  finished := fun _ => rfl

variable [DecidableEq κ]

def setCloser (g : Gate κ) (k : κ) (c : Closer) : Gate κ :=
  { g with closer := Function.update g.closer k c }

@[simp, grind =] theorem setCloser_closer (g : Gate κ) (k j : κ) (c : Closer) :
    (g.setCloser k c).closer j = if j = k then c else g.closer j :=
  Function.update_apply g.closer k c j

@[simp, grind =] theorem setCloser_closed (g : Gate κ) (k : κ) (c : Closer) :
    (g.setCloser k c).closed = g.closed := rfl

@[simp, grind =] theorem setCloser_done (g : Gate κ) (k : κ) (c : Closer) :
    (g.setCloser k c).done = g.done := rfl

def call (g : Gate κ) (k : κ) : Option (Gate κ × List (Event ι β κ)) :=
  match g.closer k with
  | .idle => some (g.setCloser k .entering, [.closeCall k])
  | _ => none

def advance (g : Gate κ) (k : κ) : Option (Gate κ × List (Event ι β κ)) :=
  match g.closer k with
  | .idle => none
  | .entering =>
      if g.closed then some (g.setCloser k .leaving, [])
      else some ({ g.setCloser k .awaiting with closed := true }, [])
  | .awaiting => if g.done then some (g.setCloser k .syncing, []) else none
  | .syncing => some (g.setCloser k .closing, [.sinkSync k])
  | .closing => some (g.setCloser k .leaving, [.sinkClose k])
  | .leaving => some (g.setCloser k .idle, [.closeRet k])

inductive Step (g : Gate κ) : Gate κ → List (Event ι β κ) → Prop
  | call (k : κ) (h : g.closer k = .idle) : Step g (g.setCloser k .entering) [.closeCall k]
  | late (k : κ) (h : g.closer k = .entering) (hc : g.closed = true) :
      Step g (g.setCloser k .leaving) []
  | first (k : κ) (h : g.closer k = .entering) (hc : g.closed = false) :
      Step g { g.setCloser k .awaiting with closed := true } []
  | joined (k : κ) (h : g.closer k = .awaiting) (hd : g.done = true) :
      Step g (g.setCloser k .syncing) []
  | sinkSync (k : κ) (h : g.closer k = .syncing) : Step g (g.setCloser k .closing) [.sinkSync k]
  | sinkClose (k : κ) (h : g.closer k = .closing) : Step g (g.setCloser k .leaving) [.sinkClose k]
  | ret (k : κ) (h : g.closer k = .leaving) : Step g (g.setCloser k .idle) [.closeRet k]

theorem call_cases (h : g.call k = some (g', evs)) : Step g g' evs := by
  rw [call] at h
  split at h
  next hk =>
    cases h
    exact .call k hk
  next => cases h

theorem call_closed (h : g.call k = some (g', evs)) : g'.closed = g.closed := by
  rw [call] at h
  split at h
  next =>
    cases h
    rfl
  next => cases h

theorem advance_cases (h : g.advance k = some (g', evs)) : Step g g' evs := by
  rw [advance] at h
  split at h
  next => cases h
  next hk =>
    split at h
    next hc =>
      cases h
      exact .late k hk hc
    next hc =>
      cases h
      exact .first k hk (Bool.eq_false_iff.mpr hc)
  next hk =>
    split at h
    next hd =>
      cases h
      exact .joined k hk hd
    next => cases h
  next hk =>
    cases h
    exact .sinkSync k hk
  next hk =>
    cases h
    exact .sinkClose k hk
  next hk =>
    cases h
    exact .ret k hk

theorem Step.queue_quiet (h : Step g g' evs) :
    accepted evs = [] ∧ removed evs = [] := by
  cases h <;> exact ⟨rfl, rfl⟩

theorem Step.closed_mono (hs : Step g g' evs) (hc : g.closed = true) : g'.closed = true := by
  cases hs <;> simp_all

theorem Step.done_eq (hs : Step g g' evs) : g'.done = g.done := by
  cases hs <;> rfl

theorem Joined.step (h : g.Joined log) (hs : Step g g' evs) : g'.Joined (log ++ evs) := by
  have hshut := h.shut
  have hjoined := h.joined
  refine ⟨fun k => ?_, fun k => ?_, fun hne => ?_⟩
  · cases hs <;> grind
  · cases hs <;> grind
  · rw [hs.done_eq]
    rw [sinkCloses_append] at hne
    cases hs with
    | sinkClose k hk => exact h.joined k (.inr hk)
    | _ => exact h.finished (by simpa [sinkCloses] using hne)

theorem Inv.step [Subsingleton κ] (h : g.Inv log) (hs : Step g g' evs) : g'.Inv (log ++ evs) := by
  have hwaited := h.waited
  have hactive := h.active
  have hset : ∀ k j c, (g.setCloser k c).closer j = c := fun k j c => by
    rw [setCloser_closer, if_pos (Subsingleton.elim j k)]
  have hcall : ∀ k, g'.closer k ≠ .idle → .closeCall k ∈ log ++ evs := by
    intro k hk
    rcases ne_or_eq (g.closer k) .idle with hold | hold
    · exact List.mem_append_left evs (h.called k hold)
    · cases hs <;> grind
  refine ⟨?_, ?_, fun k hk => ?_, hcall, fun hc => ?_⟩
  · intro k
    cases hs <;> grind
  · intro k
    cases hs <;> grind
  · rw [hs.done_eq]
    rcases List.mem_append.mp hk with hold | hnew
    · exact h.returned k hold
    · cases hs <;> grind
  · cases hs with
    | first k hk => exact ⟨k, List.mem_append_left _ (h.called k (by rw [hk]; nofun))⟩
    | _ => exact (h.shut hc).imp fun _ hk => List.mem_append_left _ hk

inductive Tick (again : Prop) (g : Gate κ) : Gate κ → List (Event ι β κ) → Prop
  | gate {g' : Gate κ} {evs : List (Event ι β κ)} (h : Step g g' evs) : Tick again g g' evs
  | repeated (k : κ) (ha : again) (h : g.closer k = .entering) (hc : g.closed = true)
      (hd : g.done = true) : Tick again g (g.setCloser k .syncing) []
  | finish : Tick again g { g with done := true } [.exit]
  | emit (x : Item ι β) (hd : g.done = false) : Tick again g g [.emit x]
  | inward {evs : List (Event ι β κ)} (h : ∀ e ∈ evs, e.outward = false) : Tick again g g evs

theorem Inv.tick [Subsingleton κ] {again : Prop} (h : g.Inv log) (ht : g.Tick again g' evs) :
    g'.Inv (log ++ evs) := by
  cases ht with
  | gate hs => exact h.step hs
  | repeated k ha hk hc hd => exact (h.again hk hc).quiet fun _ => List.not_mem_nil
  | finish => exact h.finish.quiet (by simp)
  | emit x hd => exact h.quiet (by simp)
  | inward hq => exact h.quiet fun k hk => Bool.false_ne_true (hq _ hk).symm

theorem Joined.tick {again : Prop} (h : g.Joined log) (ht : g.Tick again g' evs) :
    g'.Joined (log ++ evs) := by
  cases ht with
  | gate hs => exact h.step hs
  | repeated k ha hk hc hd =>
    have hshut := h.shut
    have hsame : (g.setCloser k .syncing).Joined log :=
      ⟨fun j => by grind, fun _ _ => hd, fun _ => hd⟩
    exact hsame.quiet rfl
  | finish => exact h.finish.quiet rfl
  | emit x hd => exact h.quiet rfl
  | inward hq => exact h.quiet (sinkCloses_inward hq)

end Gate

theorem gate_path [DecidableEq ι] [DecidableEq κ] {cap : Nat} {policy : OverflowPolicy}
    {f : Flow ι β} {g g' : Gate κ} {evs : List (Event ι β κ)} (h : Gate.Step g g' evs) :
    (flow κ cap policy).Path f evs f := by
  cases h with
  | call k => exact .single (.closeCall k)
  | late => exact .nil f
  | first => exact .nil f
  | joined => exact .nil f
  | sinkSync k => exact .single (.sinkSync k)
  | sinkClose k => exact .single (.sinkClose k)
  | ret k => exact .single (.closeRet k)

end UbgoLogger.Transport
