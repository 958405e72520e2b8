import UbgoLogger.Foundation.Machine

namespace Foundation

structure Monitor (ρ ε : Type) where
  init : ρ
  next : ρ → ε → ρ → Prop

namespace Monitor

variable {ρ ε : Type} {N : Monitor ρ ε}

inductive Path (N : Monitor ρ ε) : ρ → List ε → ρ → Prop
  | nil (f : ρ) : Path N f [] f
  | cons {f f₁ f₂ : ρ} {e : ε} {es : List ε} :
      N.next f e f₁ → Path N f₁ es f₂ → Path N f (e :: es) f₂

abbrev Accepts (N : Monitor ρ ε) (log : List ε) (f : ρ) : Prop := N.Path N.init log f

theorem Path.single {f f₁ : ρ} {e : ε} (h : N.next f e f₁) : N.Path f [e] f₁ := .cons h (.nil f₁)

theorem Path.append {f f₁ f₂ : ρ} {xs ys : List ε} (hx : N.Path f xs f₁) (hy : N.Path f₁ ys f₂) :
    N.Path f (xs ++ ys) f₂ := by
  induction hx with
  | nil => exact hy
  | cons h _ ih => exact .cons h (ih hy)

theorem Path.invariant {P : List ε → ρ → Prop}
    (keep : ∀ {log f e f'}, P log f → N.next f e f' → P (log ++ [e]) f')
    {f f' : ρ} {es : List ε} (h : N.Path f es f') :
    ∀ {log}, P log f → P (log ++ es) f' := by
  induction h with
  | nil f =>
    intro log hp
    rwa [List.append_nil]
  | @cons f f₁ f₂ e es he _ ih =>
    intro log hp
    rw [List.append_cons]
    exact ih (keep hp he)

theorem Path.accepted_invariant {P : List ε → ρ → Prop} (start : P [] N.init)
    (keep : ∀ {log f e f'}, P log f → N.next f e f' → P (log ++ [e]) f')
    {log : List ε} {f : ρ} (h : N.Accepts log f) : P log f :=
  h.invariant keep start

end Monitor

theorem Machine.Exec.accepted {σ α ε ρ : Type} {M : Machine σ α ε} {C : σ → α → Prop}
    {N : Monitor ρ ε} {R : List ε → σ → ρ → Prop} (start : R [] M.init N.init)
    (keep : ∀ {log s a s' evs f}, M.Exec C log s → N.Accepts log f → R log s f → C s a →
      M.step s a = some (s', evs) → ∃ f', N.Path f evs f' ∧ R (log ++ evs) s' f')
    {log : List ε} {s : σ} (h : M.Exec C log s) : ∃ f, N.Accepts log f ∧ R log s f := by
  induction h with
  | start => exact ⟨N.init, .nil _, start⟩
  | step h hc hs ih =>
    obtain ⟨f, hf, hr⟩ := ih
    obtain ⟨f', hf', hr'⟩ := keep h hf hr hc hs
    exact ⟨f', hf.append hf', hr'⟩

end Foundation
