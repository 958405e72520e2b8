import UbgoLogger.Transport.Mpmc

namespace UbgoLogger.Mpmc
open Foundation

variable {α τ : Type}

def Event.claimed : Event α → Option α
  | .claimEnq _ v => some v
  | _ => none

def own (n : Nat) : Pc α → Option Nat
  | .enqWrite _ pos => some pos
  | .enqStore _ pos => some pos
  | .deqRead pos => some (pos + n)
  | .deqClear pos _ => some (pos + n)
  | .deqStore pos _ => some (pos + n)
  | _ => none

-- wr p: the value of position p has been written; rd p: it has been read.
def Facts (q : Queue α) (hist : List α) (wr rd : Nat → Prop) : Pc α → Prop
  | .enqSeq _ pos => pos ≤ q.enq
  | .enqCas _ pos => pos ≤ q.enq ∧ (pos = q.enq → (q.cell pos).seq = pos)
  | .enqWrite v pos => q.deq ≤ pos ∧ pos < q.enq ∧ (q.cell pos).seq = pos ∧ hist[pos]? = some v ∧
      (q.cell pos).val = none ∧ (q.size ≤ pos → rd (pos - q.size))
  | .enqStore v pos => q.deq ≤ pos ∧ pos < q.enq ∧ (q.cell pos).seq = pos ∧ hist[pos]? = some v ∧
      (q.cell pos).val = some v ∧ wr pos
  | .deqSeq pos => pos ≤ q.deq
  | .deqCas pos => pos ≤ q.deq ∧ (pos = q.deq → (q.cell pos).seq = pos + 1)
  | .deqRead pos => pos < q.deq ∧ q.enq ≤ pos + q.size ∧ (q.cell pos).seq = pos + 1 ∧
      (q.cell pos).val = hist[pos]? ∧ wr pos
  | .deqClear pos v => pos < q.deq ∧ q.enq ≤ pos + q.size ∧ (q.cell pos).seq = pos + 1 ∧
      v = hist[pos]? ∧ rd pos ∧ (q.cell pos).val = v
  | .deqStore pos v => pos < q.deq ∧ q.enq ≤ pos + q.size ∧ (q.cell pos).seq = pos + 1 ∧
      v = hist[pos]? ∧ rd pos ∧ (q.cell pos).val = none
  | _ => True

def Filled (q : Queue α) (pcs : τ → Pc α) (hist : List α) (wr : Nat → Prop) (w : Nat) : Prop :=
  ((q.cell w).seq = w + 1 ∧ (q.cell w).val = hist[w]? ∧ wr w) ∨
    ((q.cell w).seq = w ∧ ∃ t, own q.size (pcs t) = some w)

def Vacant (q : Queue α) (pcs : τ → Pc α) (rd : Nat → Prop) (w : Nat) : Prop :=
  ((q.cell w).seq = w ∧ (q.cell w).val = none ∧ (q.size ≤ w → rd (w - q.size))) ∨
    ((q.cell w).seq + q.size = w + 1 ∧ ∃ t, own q.size (pcs t) = some w)

structure Inv (q : Queue α) (pcs : τ → Pc α) (hist : List α) (wr rd : Nat → Prop) : Prop where
  length : hist.length = q.enq
  low : q.deq ≤ q.enq
  high : q.enq ≤ q.deq + q.size
  filled : ∀ w, q.deq ≤ w → w < q.enq → Filled q pcs hist wr w
  vacant : ∀ w, q.enq ≤ w → w < q.deq + q.size → Vacant q pcs rd w
  facts : ∀ t, Facts q hist wr rd (pcs t)
  owner : ∀ t u w, own q.size (pcs t) = some w → own q.size (pcs u) = some w → t = u

variable {q : Queue α} {pcs : τ → Pc α} {hist : List α} {wr rd : Nat → Prop}

theorem own_cell {pc : Pc α} {w : Nat} (hf : Facts q hist wr rd pc) (h : own q.size pc = some w) :
    q.deq ≤ w ∧ w < q.enq ∧ (q.cell w).seq = w ∨
      q.enq ≤ w ∧ w < q.deq + q.size ∧ (q.cell w).seq + q.size = w + 1 := by
  cases pc <;> simp only [own, Option.some.injEq, reduceCtorEq] at h <;> subst h <;>
    simp only [Facts, cell_add_size] at hf ⊢ <;> omega

theorem own_enqueue {pc : Pc α} {w : Nat} (hf : Facts q hist wr rd pc) (h : own q.size pc = some w)
    (hw : w < q.enq) : ∃ v, pc = .enqWrite v w ∨ pc = .enqStore v w := by
  cases pc with
  | enqWrite v pos => exact ⟨v, .inl (by rw [Option.some.inj h])⟩
  | enqStore v pos => exact ⟨v, .inr (by rw [Option.some.inj h])⟩
  | deqRead pos => exact absurd (Option.some.inj h ▸ hf.2.1) (not_le.mpr hw)
  | deqClear pos v => exact absurd (Option.some.inj h ▸ hf.2.1) (not_le.mpr hw)
  | deqStore pos v => exact absurd (Option.some.inj h ▸ hf.2.1) (not_le.mpr hw)
  | _ => cases h

theorem Inv.not_full (h : Inv q pcs hist wr rd) (hseq : (q.cell q.enq).seq = q.enq) :
    q.enq < q.deq + q.size := by
  have hn := size_ge_two q
  by_contra hfull
  have he : q.enq = q.deq + q.size := le_antisymm h.high (not_lt.mp hfull)
  rw [he, cell_add_size] at hseq
  rcases h.filled q.deq le_rfl (by omega) with ⟨hs, -⟩ | ⟨hs, -⟩ <;> omega

theorem Inv.not_empty (h : Inv q pcs hist wr rd) (hseq : (q.cell q.deq).seq = q.deq + 1) :
    q.deq < q.enq := by
  have hn := size_ge_two q
  by_contra hempty
  have he : q.deq = q.enq := le_antisymm h.low (not_lt.mp hempty)
  rcases h.vacant q.deq he.ge (by omega) with ⟨hs, -⟩ | ⟨hs, -⟩ <;> omega

theorem Inv.own_window (h : Inv q pcs hist wr rd) {t : τ} {w : Nat}
    (ht : own q.size (pcs t) = some w) : q.deq ≤ w ∧ w < q.deq + q.size := by
  have hlow := h.low
  have hhigh := h.high
  rcases own_cell (h.facts t) ht with ⟨h1, h2, -⟩ | ⟨h1, h2, -⟩ <;> omega

theorem Inv.own_ne_enq (h : Inv q pcs hist wr rd) (hseq : (q.cell q.enq).seq = q.enq)
    {t : τ} {w : Nat} (ht : own q.size (pcs t) = some w) : w ≠ q.enq := by
  have hn := size_ge_two q
  rintro rfl
  rcases own_cell (h.facts t) ht with ⟨-, h2, -⟩ | ⟨-, -, h2⟩ <;> omega

theorem Inv.own_ne_deq (h : Inv q pcs hist wr rd) (hseq : (q.cell q.deq).seq = q.deq + 1)
    {t : τ} {w : Nat} (ht : own q.size (pcs t) = some w) : w ≠ q.deq := by
  have hn := size_ge_two q
  rintro rfl
  rcases own_cell (h.facts t) ht with ⟨-, -, h2⟩ | ⟨-, -, h2⟩ <;> omega

theorem slot_ne {w r : Nat} (hw : q.deq ≤ w ∧ w < q.deq + q.size)
    (hr : q.deq ≤ r ∧ r < q.deq + q.size) (hne : w ≠ r) : q.slot w ≠ q.slot r := by
  intro he
  rcases le_total w r with hle | hle
  · exact hne (slot_inj q hle (by omega) he)
  · exact hne (slot_inj q hle (by omega) he.symm).symm

theorem Inv.mono {wr' rd' : Nat → Prop} (h : Inv q pcs hist wr rd)
    (hwr : ∀ p, wr p → wr' p) (hrd : ∀ p, rd p → rd' p) : Inv q pcs hist wr' rd' where
  length := h.length
  low := h.low
  high := h.high
  filled := fun w h1 h2 => (h.filled w h1 h2).imp (fun ⟨a, b, c⟩ => ⟨a, b, hwr w c⟩) id
  vacant := fun w h1 h2 => (h.vacant w h1 h2).imp (fun ⟨a, b, c⟩ => ⟨a, b, fun hn => hrd _ (c hn)⟩) id
  facts := by
    intro t
    have hf := h.facts t
    cases hpc : pcs t <;> rw [hpc] at hf <;> simp only [Facts] at hf ⊢ <;> grind
  owner := h.owner

theorem window_position {n pos deq : Nat} (hn : 0 < n) (hpos : pos < deq) :
    ∃ k, deq ≤ pos + k * n ∧ pos + k * n < deq + n ∧ n ≤ k * n := by
  have hdiv := Nat.div_add_mod (deq - pos + (n - 1)) n
  have hmod := Nat.mod_lt (deq - pos + (n - 1)) hn
  rw [Nat.mul_comm] at hdiv
  have hone : 0 < (deq - pos + (n - 1)) / n := Nat.div_pos (by omega) hn
  refine ⟨(deq - pos + (n - 1)) / n, by omega, by omega, Nat.le_mul_of_pos_left n hone⟩

theorem Inv.seq_gt (h : Inv q pcs hist wr rd) {pos : Nat} (hpos : pos < q.deq) :
    pos < (q.cell pos).seq := by
  have hn := size_ge_two q
  obtain ⟨k, h1, h2, h3⟩ := window_position (n := q.size) (by omega) hpos
  have hcell : q.cell (pos + k * q.size) = q.cell pos := by
    rw [Queue.cell, Queue.cell, slot_eq_mod, slot_eq_mod, Nat.add_mul_mod_self_right]
  rw [← hcell]
  rcases lt_or_ge (pos + k * q.size) q.enq with hlt | hge
  · rcases h.filled _ h1 hlt with ⟨hs, -⟩ | ⟨hs, -⟩ <;> omega
  · rcases h.vacant _ hge h2 with ⟨hs, -⟩ | ⟨hs, -⟩ <;> omega

theorem Inv.empty_read (h : Inv q pcs hist wr rd) {pos : Nat} (hpos : pos ≤ q.deq)
    (hseq : (q.cell pos).seq < pos + 1)
    (hpub : ∀ t v, pcs t ≠ .enqWrite v pos ∧ pcs t ≠ .enqStore v pos) : q.deq = q.enq := by
  rcases Nat.lt_or_eq_of_le hpos with hlt | rfl
  · have := h.seq_gt hlt
    omega
  · by_contra hne
    have hlow := h.low
    rcases h.filled q.deq le_rfl (by omega) with ⟨hs, -⟩ | ⟨-, t, ht⟩
    · omega
    · obtain ⟨v, hv | hv⟩ := own_enqueue (h.facts t) ht (by omega)
      · exact (hpub t v).1 hv
      · exact (hpub t v).2 hv

structure Touches (q q' : Queue α) (r : Nat) : Prop where
  mask : q'.mask = q.mask
  enq : q'.enq = q.enq
  deq : q'.deq = q.deq
  cell : ∀ w, q.slot w ≠ q.slot r → q'.cell w = q.cell w

theorem touches_setVal (r : Nat) (v : Option α) : Touches q (q.setVal r v) r :=
  ⟨rfl, rfl, rfl, fun _ hw => cell_setVal_of_ne q hw v⟩

theorem touches_setSeq (r seq : Nat) : Touches q (q.setSeq r seq) r :=
  ⟨rfl, rfl, rfl, fun _ hw => cell_setSeq_of_ne q hw seq⟩

theorem Touches.add_size {q' : Queue α} {r : Nat} (h : Touches q q' r) :
    Touches q q' (r + q.size) :=
  ⟨h.mask, h.enq, h.deq, fun w hw => h.cell w (slot_add_size q r ▸ hw)⟩

theorem Touches.size {q' : Queue α} {r : Nat} (h : Touches q q' r) : q'.size = q.size := by
  rw [Queue.size, h.mask, Queue.size]

theorem Inv.claimed_value (h : Inv q pcs hist wr rd) {t : τ} (hpc : pcs t = .deqCas q.deq) :
    q.deq < q.enq ∧ (q.cell q.deq).seq = q.deq + 1 ∧ (q.cell q.deq).val = hist[q.deq]? ∧
      wr q.deq := by
  have hf := h.facts t
  rw [hpc] at hf
  have hseq := hf.2 rfl
  have hlt := h.not_empty hseq
  rcases h.filled q.deq le_rfl hlt with ⟨-, h2, h3⟩ | ⟨h2, -⟩
  · exact ⟨hlt, hseq, h2, h3⟩
  · omega

theorem Inv.facts_touch (h : Inv q pcs hist wr rd) {t u : τ} {r : Nat} {q' : Queue α}
    (ht : own q.size (pcs t) = some r) (hq : Touches q q' r) (hut : u ≠ t) :
    Facts q' hist wr rd (pcs u) := by
  have hr := h.own_window ht
  have hlow := h.low
  have hsize := hq.size
  have hown : ∀ w, own q.size (pcs u) = some w → q'.cell w = q.cell w := fun w hw =>
    hq.cell w (slot_ne (h.own_window hw) hr fun he => hut (h.owner u t r (he ▸ hw) ht))
  have henq : (q.cell q.enq).seq = q.enq → q'.cell q.enq = q.cell q.enq := fun hs =>
    hq.cell _ (slot_ne ⟨hlow, h.not_full hs⟩ hr (h.own_ne_enq hs ht).symm)
  have hdeq : (q.cell q.deq).seq = q.deq + 1 → q'.cell q.deq = q.cell q.deq := fun hs =>
    hq.cell _ (slot_ne ⟨le_rfl, by have := h.not_empty hs; have := h.high; omega⟩ hr
      (h.own_ne_deq hs ht).symm)
  have hadd : ∀ p, q'.cell (p + q.size) = q'.cell p := fun p => hsize ▸ cell_add_size q' p
  have hf := h.facts u
  cases hpc : pcs u <;> rw [hpc] at hf hown <;>
    simp only [Facts, own, Option.some.injEq, forall_eq', hq.enq, hq.deq, hsize, hadd,
      cell_add_size] at hf hown ⊢ <;> grind

section Thread

variable [DecidableEq τ]

theorem exists_own_update {n w : Nat} {t : τ} {pc : Pc α}
    (hkeep : own n (pcs t) = some w → own n pc = some w)
    (h : ∃ u, own n (pcs u) = some w) : ∃ u, own n (Function.update pcs t pc u) = some w := by
  obtain ⟨u, hu⟩ := h
  rcases eq_or_ne u t with rfl | hut
  · exact ⟨u, by rw [Function.update_self]; exact hkeep hu⟩
  · exact ⟨u, by rw [Function.update_of_ne hut]; exact hu⟩

theorem owner_update {n : Nat} {t : τ} {pc : Pc α}
    (howner : ∀ t u w, own n (pcs t) = some w → own n (pcs u) = some w → t = u)
    (hnew : ∀ u w, u ≠ t → own n pc = some w → own n (pcs u) ≠ some w) :
    ∀ t₁ t₂ w, own n (Function.update pcs t pc t₁) = some w →
      own n (Function.update pcs t pc t₂) = some w → t₁ = t₂ := by
  intro t₁ t₂ w h₁ h₂
  rcases eq_or_ne t₁ t with rfl | hne₁ <;> rcases eq_or_ne t₂ t₁ with rfl | hne₂
  · rfl
  · rw [Function.update_self] at h₁
    rw [Function.update_of_ne hne₂] at h₂
    exact absurd h₂ (hnew t₂ w hne₂ h₁)
  · rfl
  · rw [Function.update_of_ne hne₁] at h₁
    rcases eq_or_ne t₂ t with rfl | hne₃
    · rw [Function.update_self] at h₂
      exact absurd h₁ (hnew t₁ w hne₁ h₂)
    · rw [Function.update_of_ne hne₃] at h₂
      exact howner t₁ t₂ w h₁ h₂

theorem Inv.setPc (h : Inv q pcs hist wr rd) {t : τ} {pc : Pc α} (hf : Facts q hist wr rd pc)
    (ho : own q.size pc = own q.size (pcs t)) :
    Inv q (Function.update pcs t pc) hist wr rd where
  length := h.length
  low := h.low
  high := h.high
  filled := fun w h1 h2 =>
    (h.filled w h1 h2).imp id (And.imp_right (exists_own_update (ho.trans ·)))
  vacant := fun w h1 h2 =>
    (h.vacant w h1 h2).imp id (And.imp_right (exists_own_update (ho.trans ·)))
  facts := by
    intro u
    rcases eq_or_ne u t with rfl | hut
    · rwa [Function.update_self]
    · rw [Function.update_of_ne hut]
      exact h.facts u
  owner := owner_update h.owner fun u w hut hw hu => hut (h.owner u t w hu (ho ▸ hw))

theorem Inv.touch (h : Inv q pcs hist wr rd) {t : τ} {r : Nat} {q' : Queue α} {pc : Pc α}
    (ht : own q.size (pcs t) = some r) (hq : Touches q q' r) (hf : Facts q' hist wr rd pc)
    (ho : ∀ w, own q.size pc = some w → w = r)
    (hfill : r < q.enq → Filled q' (Function.update pcs t pc) hist wr r)
    (hvac : q.enq ≤ r → Vacant q' (Function.update pcs t pc) rd r) :
    Inv q' (Function.update pcs t pc) hist wr rd := by
  have hr := h.own_window ht
  have hlow := h.low
  have hhigh := h.high
  have hkeep : ∀ w, w ≠ r → (∃ u, own q.size (pcs u) = some w) →
      ∃ u, own q.size (Function.update pcs t pc u) = some w := fun w hw =>
    exists_own_update fun he => absurd (Option.some.inj (he.symm.trans ht)) hw
  have hframe : ∀ w, q.deq ≤ w → w < q.deq + q.size → w ≠ r → q'.cell w = q.cell w :=
    fun w h1 h2 hw => hq.cell w (slot_ne ⟨h1, h2⟩ hr hw)
  refine ⟨hq.enq ▸ h.length, ?_, ?_, ?_, ?_, ?_, ?_⟩
  · rw [hq.enq, hq.deq]
    exact hlow
  · rw [hq.enq, hq.deq, hq.size]
    exact hhigh
  · intro w h1 h2
    rw [hq.enq] at h2
    rw [hq.deq] at h1
    rcases eq_or_ne w r with rfl | hw
    · exact hfill h2
    · rw [Filled, hframe w h1 (by omega) hw, hq.size]
      exact (h.filled w h1 h2).imp id (And.imp_right (hkeep w hw))
  · intro w h1 h2
    rw [hq.enq] at h1
    rw [hq.deq, hq.size] at h2
    rcases eq_or_ne w r with rfl | hw
    · exact hvac h1
    · rw [Vacant, hframe w (by omega) h2 hw, hq.size]
      exact (h.vacant w h1 h2).imp id (And.imp_right (hkeep w hw))
  · intro u
    rcases eq_or_ne u t with rfl | hut
    · rwa [Function.update_self]
    · rw [Function.update_of_ne hut]
      exact h.facts_touch ht hq hut
  · rw [hq.size]
    refine owner_update h.owner fun u w hut hw hu => hut (h.owner u t w hu ?_)
    rw [ho w hw]
    exact ht

theorem Inv.claimEnq (h : Inv q pcs hist wr rd) {t : τ} {v : α} (hpc : pcs t = .enqCas v q.enq) :
    Inv { q with enq := q.enq + 1 } (Function.update pcs t (.enqWrite v q.enq)) (hist ++ [v])
      wr rd := by
  have hn := size_ge_two q
  have hlow := h.low
  have hlen := h.length
  have hseq : (q.cell q.enq).seq = q.enq := by
    have hf := h.facts t
    rw [hpc] at hf
    exact hf.2 rfl
  have hroom := h.not_full hseq
  have hown : own q.size (pcs t) = none := by rw [hpc]; rfl
  have hkeep : ∀ w, own q.size (pcs t) = some w → own q.size (.enqWrite v q.enq) = some w := by
    simp [hown]
  have hget : ∀ w, w < q.enq → (hist ++ [v])[w]? = hist[w]? := fun w hw =>
    List.getElem?_append_left (by omega)
  have hlast : (hist ++ [v])[q.enq]? = some v := by simp [← hlen]
  have hvac : (q.cell q.enq).val = none ∧ (q.size ≤ q.enq → rd (q.enq - q.size)) := by
    rcases h.vacant q.enq le_rfl hroom with ⟨-, h2, h3⟩ | ⟨h2, -⟩
    · exact ⟨h2, h3⟩
    · omega
  refine ⟨by simp [hlen], Nat.le_succ_of_le hlow, hroom, ?_, ?_, ?_, ?_⟩
  · intro w h1 h2
    rcases Nat.lt_succ_iff_lt_or_eq.mp h2 with hw | rfl
    · refine (h.filled w h1 hw).imp ?_ (And.imp_right (exists_own_update (hkeep w)))
      rintro ⟨a, b, c⟩
      exact ⟨a, (hget w hw).symm ▸ b, c⟩
    · exact .inr ⟨hseq, t, by rw [Function.update_self, own]⟩
  · intro w h1 h2
    exact (h.vacant w (Nat.le_of_succ_le h1) h2).imp id
      (And.imp_right (exists_own_update (hkeep w)))
  · intro u
    rcases eq_or_ne u t with rfl | hut
    · rw [Function.update_self]
      exact ⟨hlow, Nat.lt_succ_self _, hseq, hlast, hvac⟩
    · rw [Function.update_of_ne hut]
      have hne := fun w => h.own_ne_enq hseq (t := u) (w := w)
      have hf := h.facts u
      cases hu : pcs u <;> rw [hu] at hf hne <;>
        simp only [Facts, own, Option.some.injEq, forall_eq', Queue.size, Queue.cell, Queue.slot]
          at hf hne ⊢ <;> grind
  · refine owner_update h.owner fun u w _ hw hu => h.own_ne_enq hseq hu ?_
    exact (Option.some.inj hw).symm

theorem Inv.write (h : Inv q pcs hist wr rd) {t : τ} {v : α} {p : Nat}
    (hpc : pcs t = .enqWrite v p) (hwr : wr p) :
    Inv (q.setVal p (some v)) (Function.update pcs t (.enqStore v p)) hist wr rd := by
  have hf := h.facts t
  rw [hpc] at hf
  obtain ⟨h1, h2, h3, h4, -, -⟩ := hf
  refine h.touch (by rw [hpc, own]) (touches_setVal p (some v)) ?_ (by simp [own]) ?_ (by omega)
  · exact ⟨h1, h2, by rw [cell_setVal_self]; exact h3, h4, by rw [cell_setVal_self], hwr⟩
  · exact fun _ => .inr ⟨by rw [cell_setVal_self]; exact h3, t, by rw [Function.update_self, own]⟩

theorem Inv.publish (h : Inv q pcs hist wr rd) {t : τ} {v : α} {p : Nat}
    (hpc : pcs t = .enqStore v p) :
    Inv (q.setSeq p (p + 1)) (Function.update pcs t (.enqRet true)) hist wr rd := by
  have hf := h.facts t
  rw [hpc] at hf
  obtain ⟨-, h2, -, h4, h5, h6⟩ := hf
  refine h.touch (by rw [hpc, own]) (touches_setSeq p (p + 1)) trivial (by simp [own]) ?_ (by omega)
  refine fun _ => .inl ⟨by rw [cell_setSeq_self], ?_, h6⟩
  rw [cell_setSeq_self, h4]
  exact h5

theorem Inv.claimDeq (h : Inv q pcs hist wr rd) {t : τ} (hpc : pcs t = .deqCas q.deq) :
    Inv { q with deq := q.deq + 1 } (Function.update pcs t (.deqRead q.deq)) hist wr rd := by
  obtain ⟨hlt, hseq, hval, hwr⟩ := h.claimed_value hpc
  have hhigh := h.high
  have hown : own q.size (pcs t) = none := by rw [hpc]; rfl
  have hkeep : ∀ w, own q.size (pcs t) = some w → own q.size (.deqRead q.deq : Pc α) = some w := by
    simp [hown]
  refine ⟨h.length, hlt, ?_, ?_, ?_, ?_, ?_⟩
  · change q.enq ≤ q.deq + 1 + q.size
    omega
  · intro w h1 h2
    exact (h.filled w (Nat.le_of_succ_le h1) h2).imp id
      (And.imp_right (exists_own_update (hkeep w)))
  · intro w h1 h2
    have h3 : w < q.deq + q.size ∨ w = q.deq + q.size := by
      change w < q.deq + 1 + q.size at h2
      omega
    rcases h3 with hw | rfl
    · exact (h.vacant w h1 hw).imp id (And.imp_right (exists_own_update (hkeep w)))
    · refine .inr ⟨?_, t, by rw [Function.update_self]; rfl⟩
      change (q.cell (q.deq + q.size)).seq + q.size = q.deq + q.size + 1
      rw [cell_add_size, hseq]
      omega
  · intro u
    rcases eq_or_ne u t with rfl | hut
    · rw [Function.update_self]
      exact ⟨Nat.lt_succ_self _, hhigh, hseq, hval, hwr⟩
    · rw [Function.update_of_ne hut]
      have hne := fun w => h.own_ne_deq hseq (t := u) (w := w)
      have hf := h.facts u
      cases hu : pcs u <;> rw [hu] at hf hne <;>
        simp only [Facts, own, Option.some.injEq, forall_eq', Queue.size, Queue.cell, Queue.slot]
          at hf hne ⊢ <;> grind
  · refine owner_update h.owner fun u w _ hw hu => ?_
    have hwin := h.own_window hu
    have hw' : q.deq + q.size = w := Option.some.inj hw
    omega

theorem Inv.clear (h : Inv q pcs hist wr rd) {t : τ} {v : Option α} {p : Nat}
    (hpc : pcs t = .deqClear p v) :
    Inv (q.setVal p none) (Function.update pcs t (.deqStore p v)) hist wr rd := by
  have hf := h.facts t
  rw [hpc] at hf
  obtain ⟨h1, h2, h3, h4, h5, -⟩ := hf
  have hself : ((q.setVal p none).cell p).seq = p + 1 := by rw [cell_setVal_self]; exact h3
  refine h.touch (by rw [hpc, own]) (touches_setVal p none).add_size ?_ (by simp [own])
    (by omega) ?_
  · exact ⟨h1, h2, hself, h4, h5, by rw [cell_setVal_self]⟩
  · refine fun _ => .inr ⟨?_, t, by rw [Function.update_self]; rfl⟩
    change ((q.setVal p none).cell (p + (q.setVal p none).size)).seq + q.size = p + q.size + 1
    rw [cell_add_size, hself]
    omega

theorem Inv.release (h : Inv q pcs hist wr rd) {t : τ} {v : Option α} {p : Nat}
    (hpc : pcs t = .deqStore p v) :
    Inv (q.setSeq p (p + q.mask + 1)) (Function.update pcs t (.deqRet v true)) hist wr rd := by
  have hf := h.facts t
  rw [hpc] at hf
  obtain ⟨h1, h2, h3, h4, h5, h6⟩ := hf
  refine h.touch (by rw [hpc, own]) (touches_setSeq p _).add_size trivial (by simp [own])
    (by omega) ?_
  have hcell : (q.setSeq p (p + q.mask + 1)).cell (p + q.size) =
      { q.cell p with seq := p + q.mask + 1 } :=
    (cell_add_size (q.setSeq p (p + q.mask + 1)) p).trans (cell_setSeq_self q p _)
  refine fun _ => .inl ?_
  rw [hcell]
  refine ⟨rfl, h6, fun _ => ?_⟩
  change rd (p + q.size - q.size)
  rwa [Nat.add_sub_cancel]

theorem Inv.opStep {q' : Queue α} {pc : Pc α} {evs : List (Event α)} {t : τ}
    (h : Inv q pcs hist wr rd) (hs : OpStep q (pcs t) q' pc evs)
    (hwr : ∀ p, .wrote p ∈ evs → wr p) (hrd : ∀ p, .read p ∈ evs → rd p) :
    Inv q' (Function.update pcs t pc) (hist ++ evs.filterMap Event.claimed) wr rd := by
  have hf := h.facts t
  have hstay : ∀ {pc'}, own q.size pc' = own q.size (pcs t) → Facts q hist wr rd pc' →
      Inv q (Function.update pcs t pc') (hist ++ []) wr rd := fun ho hf' => by
    rw [List.append_nil]
    exact h.setPc hf' ho
  generalize hpc : pcs t = pc₀ at hs hf hstay
  cases hs with
  | enqLoad v => exact hstay rfl (le_refl q.enq)
  | enqFree v pos hseq => exact hstay rfl ⟨hf, fun _ => hseq⟩
  | enqFull v pos hseq => exact hstay rfl trivial
  | enqLate v pos hseq => exact hstay rfl trivial
  | enqClaim v => exact h.claimEnq hpc
  | enqLost v pos hne => exact hstay rfl hf.1
  | enqWrite v pos => exact (List.append_nil hist).symm ▸ h.write hpc (hwr pos (List.mem_singleton_self _))
  | enqStore v pos => exact (List.append_nil hist).symm ▸ h.publish hpc
  | deqLoad => exact hstay rfl (le_refl q.deq)
  | deqReady pos hseq => exact hstay rfl ⟨hf, fun _ => hseq⟩
  | deqEmpty pos hseq => exact hstay rfl trivial
  | deqLate pos hseq => exact hstay rfl trivial
  | deqClaim => exact (List.append_nil hist).symm ▸ h.claimDeq hpc
  | deqLost pos hne => exact hstay rfl hf.1
  | deqRead pos =>
    obtain ⟨h1, h2, h3, h4, -⟩ := hf
    exact hstay rfl ⟨h1, h2, h3, h4, hrd pos (List.mem_singleton_self _), rfl⟩
  | deqClear pos v => exact (List.append_nil hist).symm ▸ h.clear hpc
  | deqStore pos v => exact (List.append_nil hist).symm ▸ h.release hpc

end Thread

theorem cell_newMPMC {size w : Nat} (hw : w < (newMPMC size : Queue α).size) :
    (newMPMC size : Queue α).cell w = ⟨w, none⟩ := by
  rw [Queue.cell, slot_eq_mod, Nat.mod_eq_of_lt hw]
  rfl

theorem inv_newMPMC (size : Nat) (hown : ∀ t n, own n (pcs t) = none)
    (hfacts : ∀ t, Facts (newMPMC size) [] wr rd (pcs t)) : Inv (newMPMC size) pcs [] wr rd := by
  refine ⟨rfl, le_rfl, Nat.zero_le _, ?_, ?_, hfacts, ?_⟩
  · intro w _ h2
    exact absurd h2 (Nat.not_lt_zero w)
  · intro w _ h2
    have hw : w < (newMPMC size : Queue α).size := by simpa [newMPMC] using h2
    refine .inl ?_
    rw [cell_newMPMC hw]
    exact ⟨rfl, rfl, fun hge => absurd hw (not_lt.mpr hge)⟩
  · intro t u w ht
    rw [hown t] at ht
    cases ht

end UbgoLogger.Mpmc
