import Mathlib.Data.List.Induction

namespace Foundation.HashChain

-- Digests and payloads are glued into one hash input; the gluing must stay readable for the
-- digests that can occur, the anchor and the outputs of the hash.
structure Scheme (H P X : Type) where
  genesis : H
  digest : X → H
  glue : H → P → X
  separable : ∀ {h h' : H} {p p' : P}, (h = genesis ∨ ∃ x, h = digest x) →
    (h' = genesis ∨ ∃ x, h' = digest x) → glue h p = glue h' p' → h = h' ∧ p = p'

namespace Scheme

variable {H P X : Type} (c : Scheme H P X)

def next (h : H) (p : P) : H := c.digest (c.glue h p)

def tip (ps : List P) : H := ps.foldl c.next c.genesis

def inputs : H → List P → List X
  | _, [] => []
  | h, p :: ps => c.glue h p :: inputs (c.next h p) ps

theorem foldl_next_produced (ps : List P) {h : H} (hh : h = c.genesis ∨ ∃ x, h = c.digest x) :
    ps.foldl c.next h = c.genesis ∨ ∃ x, ps.foldl c.next h = c.digest x := by
  induction ps generalizing h with
  | nil => exact hh
  | cons p ps ih => exact ih (.inr ⟨c.glue h p, rfl⟩)

theorem tip_produced (ps : List P) : c.tip ps = c.genesis ∨ ∃ x, c.tip ps = c.digest x :=
  c.foldl_next_produced ps (.inl rfl)

theorem tip_concat (ps : List P) (p : P) : c.tip (ps ++ [p]) = c.digest (c.glue (c.tip ps) p) := by
  simp [tip, next]

theorem inputs_append (h : H) (ps qs : List P) :
    c.inputs h (ps ++ qs) = c.inputs h ps ++ c.inputs (ps.foldl c.next h) qs := by
  induction ps generalizing h with
  | nil => rfl
  | cons p ps ih => simp [inputs, ih]

theorem inputs_concat (ps : List P) (p : P) :
    c.inputs c.genesis (ps ++ [p]) = c.inputs c.genesis ps ++ [c.glue (c.tip ps) p] := by
  rw [inputs_append]
  rfl

def Collision (xs ys : List X) : Prop := ∃ x ∈ xs, ∃ y ∈ ys, x ≠ y ∧ c.digest x = c.digest y

theorem Collision.mono {xs xs' ys ys' : List X} (hx : xs ⊆ xs') (hy : ys ⊆ ys')
    (h : c.Collision xs ys) : c.Collision xs' ys' := by
  obtain ⟨x, mx, y, my, hne, heq⟩ := h
  exact ⟨x, hx mx, y, hy my, hne, heq⟩

theorem binding {ps qs : List P} (hlen : ps.length = qs.length) (htip : c.tip ps = c.tip qs) :
    ps = qs ∨ c.Collision (c.inputs c.genesis ps) (c.inputs c.genesis qs) := by
  induction ps using List.reverseRecOn generalizing qs with
  | nil =>
    left
    exact (List.length_eq_zero_iff.mp hlen.symm).symm
  | append_singleton ps p ih =>
    obtain rfl | ⟨qs, q, rfl⟩ := List.eq_nil_or_concat qs
    · simp at hlen
    rw [List.concat_eq_append] at hlen htip ⊢
    rw [tip_concat, tip_concat] at htip
    rw [inputs_concat, inputs_concat]
    by_cases hin : c.glue (c.tip ps) p = c.glue (c.tip qs) q
    · obtain ⟨ht, rfl⟩ := c.separable (c.tip_produced ps) (c.tip_produced qs) hin
      rcases ih (by simpa using hlen) ht with rfl | hcol
      · exact .inl rfl
      · exact .inr (Collision.mono c (by simp) (by simp) hcol)
    · exact .inr ⟨_, by simp, _, by simp, hin, htip⟩

end Scheme

end Foundation.HashChain
