import UbgoLogger.Foundation.Machine

namespace Foundation.Machine

variable {σ τ α β ε δ : Type} {M : Machine σ α ε} {C : σ → α → Prop}

-- Each step of the upper machine extends any run of the lower one that got as far.
theorem Exec.simulate {N : Machine τ β δ} (f : σ → τ) (g : ε → Option δ) (start : f M.init = N.init)
    (step : ∀ {log s a s' evs}, M.Exec C log s → M.step s a = some (s', evs) →
      ∀ {before}, N.Run before (f s) → N.Run (before ++ evs.filterMap g) (f s'))
    {log : List ε} {s : σ} (h : M.Exec C log s) : N.Run (log.filterMap g) (f s) := by
  induction h with
  | start =>
    rw [start]
    exact .start
  | step h _ hs ih =>
    rw [List.filterMap_append]
    exact step h hs ih

-- Each step of the upper machine is a step of the lower one or leaves it alone.
theorem Exec.project {N : Machine τ β δ} (f : σ → τ) (g : ε → Option δ) (start : f M.init = N.init)
    (step : ∀ {log s a s' evs}, M.Exec C log s → M.step s a = some (s', evs) →
      (∃ b, N.step (f s) b = some (f s', evs.filterMap g)) ∨ f s' = f s ∧ evs.filterMap g = [])
    {log : List ε} {s : σ} (h : M.Exec C log s) : N.Run (log.filterMap g) (f s) := by
  refine h.simulate f g start fun hexec hs before hrun => ?_
  rcases step hexec hs with ⟨b, hb⟩ | ⟨hsame, hnone⟩
  · exact hrun.step trivial hb
  · rw [hsame, hnone, List.append_nil]
    exact hrun

end Foundation.Machine
