import Mathlib.Logic.Basic
import Mathlib.Data.List.Basic

namespace Foundation

-- Each step is chosen by an action and reports the events it makes visible.
structure Machine (σ α ε : Type) where
  init : σ
  step : σ → α → Option (σ × List ε)

namespace Machine

variable {σ α ε : Type}

-- The runs all of whose steps meet C in the state they start from, with their event log.
inductive Exec (M : Machine σ α ε) (C : σ → α → Prop) : List ε → σ → Prop
  | start : Exec M C [] M.init
  | step {log : List ε} {s s' : σ} {a : α} {evs : List ε} :
      Exec M C log s → C s a → M.step s a = some (s', evs) → Exec M C (log ++ evs) s'

abbrev Run (M : Machine σ α ε) : List ε → σ → Prop := M.Exec fun _ _ => True

variable {M : Machine σ α ε} {C : σ → α → Prop}

theorem Exec.invariant {P : List ε → σ → Prop} (start : P [] M.init)
    (keep : ∀ {log s a s' evs}, M.Exec C log s → P log s → C s a →
      M.step s a = some (s', evs) → P (log ++ evs) s')
    {log : List ε} {s : σ} (h : M.Exec C log s) : P log s := by
  induction h with
  | start => exact start
  | step h hc hs ih => exact keep h ih hc hs

theorem Exec.weaken {D : σ → α → Prop} (hCD : ∀ s a, C s a → D s a) {log : List ε} {s : σ}
    (h : M.Exec C log s) : M.Exec D log s := by
  induction h with
  | start => exact .start
  | step _ hc hs ih => exact .step ih (hCD _ _ hc) hs

theorem Exec.run {log : List ε} {s : σ} (h : M.Exec C log s) : M.Run log s :=
  h.weaken fun _ _ _ => trivial

-- A condition on steps that each step adds to what holds so far is what holds at the end.
theorem exec_iff {G : List ε → σ → Prop} (start : G [] M.init)
    (step : ∀ {log s a s' evs}, M.Run log s → M.step s a = some (s', evs) →
      (G (log ++ evs) s' ↔ G log s ∧ C s a)) {log : List ε} {s : σ} :
    M.Exec C log s ↔ M.Run log s ∧ G log s := by
  constructor
  · intro h
    exact ⟨h.run, h.invariant (P := G) start fun h hg hc hs => (step h.run hs).mpr ⟨hg, hc⟩⟩
  · rintro ⟨h, hg⟩
    refine h.invariant (P := fun log s => G log s → M.Exec C log s) (fun _ => .start) ?_ hg
    intro log s a s' evs h hexec _ hs hg
    obtain ⟨hbefore, hc⟩ := (step h hs).mp hg
    exact (hexec hbefore).step hc hs

def performIf (M : Machine σ α ε) (C : σ → α → Prop) [∀ s a, Decidable (C s a)] :
    List ε → σ → List α → Option (List ε × σ)
  | log, s, [] => some (log, s)
  | log, s, a :: as =>
      if C s a then
        match M.step s a with
        | none => none
        | some (s', evs) => M.performIf C (log ++ evs) s' as
      else none

abbrev perform (M : Machine σ α ε) : List ε → σ → List α → Option (List ε × σ) :=
  M.performIf fun _ _ => True

theorem performIf_invariant [∀ s a, Decidable (C s a)] {P : List ε → σ → Prop}
    (keep : ∀ {log s a s' evs}, P log s → C s a → M.step s a = some (s', evs) → P (log ++ evs) s')
    {as : List α} {log log' : List ε} {s s' : σ} (h : P log s)
    (hp : M.performIf C log s as = some (log', s')) : P log' s' := by
  induction as generalizing log s with
  | nil =>
    simp only [performIf, Option.some.injEq, Prod.mk.injEq] at hp
    obtain ⟨rfl, rfl⟩ := hp
    exact h
  | cons a as ih =>
    simp only [performIf] at hp
    split at hp
    next hc =>
      cases hs : M.step s a with
      | none => simp [hs] at hp
      | some p =>
        obtain ⟨s₁, evs⟩ := p
        rw [hs] at hp
        exact ih (keep h hc hs) hp
    next => cases hp

theorem exec_of_performIf [∀ s a, Decidable (C s a)] {as : List α} {log log' : List ε} {s s' : σ}
    (h : M.Exec C log s) (hp : M.performIf C log s as = some (log', s')) : M.Exec C log' s' :=
  performIf_invariant (P := M.Exec C) (fun h hc hs => h.step hc hs) h hp

theorem run_of_perform {as : List α} {log : List ε} {s : σ}
    (hp : M.perform [] M.init as = some (log, s)) : M.Run log s :=
  exec_of_performIf .start hp

theorem exists_exec [∀ s a, Decidable (C s a)] (as : List α) (good : List ε → σ → Bool)
    (h : (M.performIf C [] M.init as).any (fun p => good p.1 p.2) = true) :
    ∃ log s, M.Exec C log s ∧ good log s = true := by
  cases hp : M.performIf C [] M.init as with
  | none => simp [hp] at h
  | some p =>
    rw [hp] at h
    exact ⟨p.1, p.2, exec_of_performIf .start hp, h⟩

end Machine

end Foundation
