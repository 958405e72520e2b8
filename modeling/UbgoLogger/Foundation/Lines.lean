import UbgoLogger.Foundation.Text

namespace Foundation.Lines
open Foundation.Text

def newline : Byte := 10

def carriageReturn : Byte := 13

def space : Byte := 32

def lines : Bytes → List Bytes
  | [] => []
  | b :: s =>
      if b = newline then [] :: lines s
      else match lines s with
        | [] => [[b]]
        | l :: ls => (b :: l) :: ls

def unlines (ls : List Bytes) : Bytes := ls.flatMap (· ++ [newline])

@[simp] theorem unlines_nil : unlines [] = [] := rfl

@[simp] theorem unlines_cons (l : Bytes) (ls : List Bytes) :
    unlines (l :: ls) = l ++ newline :: unlines ls := by
  simp [unlines]

@[simp] theorem unlines_append (ls ms : List Bytes) :
    unlines (ls ++ ms) = unlines ls ++ unlines ms := by
  simp [unlines]

theorem lines_cons_ne_nil (b : Byte) (s : Bytes) : lines (b :: s) ≠ [] := by
  simp only [lines]
  split
  · simp
  · split <;> simp

theorem lines_append_newline {l : Bytes} (h : newline ∉ l) (s : Bytes) :
    lines (l ++ newline :: s) = l :: lines s := by
  induction l with
  | nil => simp [lines]
  | cons b l ih =>
    simp only [List.mem_cons, not_or] at h
    simp [lines, ih h.2, Ne.symm h.1]

theorem lines_unlines {ls : List Bytes} (h : ∀ l ∈ ls, newline ∉ l) : lines (unlines ls) = ls := by
  induction ls with
  | nil => rfl
  | cons l ls ih =>
    rw [unlines_cons, lines_append_newline (h l (by simp)), ih (fun m hm => h m (by simp [hm]))]

theorem newline_notMem_lines {s l : Bytes} (h : l ∈ lines s) : newline ∉ l := by
  induction s generalizing l with
  | nil => simp [lines] at h
  | cons b s ih =>
    simp only [lines] at h
    split at h
    · rcases List.mem_cons.mp h with rfl | h
      · simp
      · exact ih h
    · rename_i hb
      split at h
      · simp only [List.mem_singleton] at h
        subst h
        simpa using Ne.symm hb
      · rename_i m ms hm
        rcases List.mem_cons.mp h with rfl | h
        · simp only [List.mem_cons, not_or]
          exact ⟨Ne.symm hb, ih (by simp [hm])⟩
        · exact ih (by simp [hm, h])

theorem unlines_lines (s : Bytes) : unlines (lines s) = s ∨ unlines (lines s) = s ++ [newline] := by
  induction s with
  | nil => exact .inl rfl
  | cons b s ih =>
    by_cases hb : b = newline
    · simpa [lines, hb] using ih
    · cases hm : lines s with
      | nil =>
        have : s = [] := by
          cases s with
          | nil => rfl
          | cons c s => exact absurd hm (lines_cons_ne_nil c s)
        subst this
        right
        simp [lines, hb]
      | cons m ms =>
        rw [hm] at ih
        simpa [lines, hb, hm] using ih

theorem unlines_injective {ls ms : List Bytes} (hl : ∀ l ∈ ls, newline ∉ l)
    (hm : ∀ m ∈ ms, newline ∉ m) (h : unlines ls = unlines ms) : ls = ms := by
  rw [← lines_unlines hl, ← lines_unlines hm, h]

def dropCR (l : Bytes) : Bytes :=
  if l.getLast? = some carriageReturn then l.dropLast else l

theorem dropCR_of_not {l : Bytes} (h : l.getLast? ≠ some carriageReturn) : dropCR l = l :=
  if_neg h

theorem newline_notMem_dropCR {l : Bytes} (h : newline ∉ l) : newline ∉ dropCR l := by
  unfold dropCR
  split
  · exact fun hm => h (List.mem_of_mem_dropLast hm)
  · exact h

-- The tokens handed out before the first line that does not fit, and whether there was one.
def scanLines (limit : Nat) (s : Bytes) : List Bytes × Bool :=
  (((lines s).takeWhile fun l => l.length < limit).map dropCR,
    (lines s).any fun l => limit ≤ l.length)

def splitN (sep : Byte) : Nat → Bytes → List Bytes
  | 0, _ => []
  | 1, s => [s]
  | n + 2, s =>
      if sep ∈ s then s.takeWhile (· ≠ sep) :: splitN sep (n + 1) (s.dropWhile (· ≠ sep)).tail
      else [s]

theorem ne_of_notMem {sep : Byte} {a : Bytes} (h : sep ∉ a) :
    ∀ x ∈ a, decide (x ≠ sep) = true := by
  intro x hx
  simpa using ne_of_mem_of_not_mem hx h

theorem takeWhile_sep {sep : Byte} {a : Bytes} (h : sep ∉ a) (b : Bytes) :
    (a ++ sep :: b).takeWhile (· ≠ sep) = a := by
  rw [List.takeWhile_append_of_pos (ne_of_notMem h)]
  simp

theorem dropWhile_sep {sep : Byte} {a : Bytes} (h : sep ∉ a) (b : Bytes) :
    (a ++ sep :: b).dropWhile (· ≠ sep) = sep :: b := by
  rw [List.dropWhile_append_of_pos (ne_of_notMem h)]
  simp

theorem splitN_append {sep : Byte} {a : Bytes} (h : sep ∉ a) (n : Nat) (b : Bytes) :
    splitN sep (n + 2) (a ++ sep :: b) = a :: splitN sep (n + 1) b := by
  rw [splitN, if_pos (by simp), takeWhile_sep h, dropWhile_sep h, List.tail_cons]

theorem mem_of_mem_splitN {b sep : Byte} {n i : Nat} {s : Bytes}
    (h : b ∈ (splitN sep n s).getD i []) : b ∈ s := by
  induction n generalizing s i with
  | zero => simp [splitN] at h
  | succ n ih =>
    cases n with
    | zero =>
      cases i with
      | zero => simpa [splitN] using h
      | succ i => simp [splitN] at h
    | succ n =>
      rw [splitN] at h
      split at h
      · cases i with
        | zero => exact (List.takeWhile_sublist _).mem h
        | succ i => exact (List.dropWhile_sublist _).mem (List.mem_of_mem_tail (ih h))
      · cases i with
        | zero => exact h
        | succ i => simp at h

theorem splitN_length {sep : Byte} {n : Nat} {s : Bytes} (h : 1 < (splitN sep (n + 2) s).length) :
    ∃ a b, sep ∉ a ∧ s = a ++ sep :: b ∧
      splitN sep (n + 2) s = a :: splitN sep (n + 1) b := by
  by_cases hs : sep ∈ s
  · obtain ⟨a, b, rfl, ha⟩ := List.eq_append_cons_of_mem hs
    exact ⟨a, b, ha, rfl, splitN_append ha n b⟩
  · rw [splitN, if_neg hs] at h
    simp at h

theorem splitN_four {sep : Byte} {s a b c d : Bytes} :
    splitN sep 4 s = [a, b, c, d] ↔
      sep ∉ a ∧ sep ∉ b ∧ sep ∉ c ∧ s = a ++ sep :: (b ++ sep :: (c ++ sep :: d)) := by
  constructor
  · intro h
    obtain ⟨a', s₁, ha, rfl, e₁⟩ := splitN_length (n := 2) (by rw [h]; simp)
    rw [e₁, List.cons.injEq] at h
    obtain ⟨rfl, h⟩ := h
    obtain ⟨b', s₂, hb, rfl, e₂⟩ := splitN_length (n := 1) (by rw [h]; simp)
    rw [e₂, List.cons.injEq] at h
    obtain ⟨rfl, h⟩ := h
    obtain ⟨c', s₃, hc, rfl, e₃⟩ := splitN_length (n := 0) (by rw [h]; simp)
    rw [e₃, List.cons.injEq] at h
    obtain ⟨rfl, h⟩ := h
    have hd : s₃ = d := by simpa [splitN] using h
    exact ⟨ha, hb, hc, by rw [hd]⟩
  · rintro ⟨ha, hb, hc, rfl⟩
    rw [splitN_append ha, splitN_append hb, splitN_append hc, splitN]

end Foundation.Lines
