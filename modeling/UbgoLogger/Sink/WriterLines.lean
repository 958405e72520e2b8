import UbgoLogger.Encode.JsonValid
import UbgoLogger.Foundation.Between
import UbgoLogger.Foundation.Lease
import UbgoLogger.Sink.WriterSink

namespace UbgoLogger.Sink.Writer
open Foundation Foundation.Text Foundation.Lines

variable {ι σ ρ ε : Type}

-- How a call of Emit ends: nil when it was filtered, else what Write returned.
structure Outcome (ι σ ρ ε : Type) where
  emission : Emission ι σ ρ
  err : Option ε

def Outcome.caller (o : Outcome ι σ ρ ε) : ι := o.emission.caller

namespace Phase

def held : Phase ι σ ρ ε → Option Nat
  | .encoding _ a _ | .locking _ a | .writing _ a _ | .unlocking _ a _ | .putting _ a _ => some a
  | _ => none

def locks : Phase ι σ ρ ε → Option σ
  | .writing e _ _ | .unlocking e _ _ => some e.sink
  | _ => none

def emission : Phase ι σ ρ ε → Option (Emission ι σ ρ)
  | .idle => none
  | .entered e | .getting e | .encoding e _ _ | .locking e _ | .writing e _ _ | .unlocking e _ _
  | .putting e _ _ | .sending e _ | .returning e _ => some e

-- What the destination has of a Write that has not returned.
def handed (buf : Nat → Buf) : Phase ι σ ρ ε → Bytes
  | .writing _ a n => (buf a).b.take n
  | _ => []

def undecided : Phase ι σ ρ ε → List (Emission ι σ ρ)
  | .entered e | .getting e | .encoding e _ _ | .locking e _ | .writing e _ _
  | .putting e _ (.copied _) | .sending e _ => [e]
  | .idle | .unlocking _ _ _ | .putting _ _ (.written _) | .returning _ _ => []

def leaving : Phase ι σ ρ ε → List (Outcome ι σ ρ ε)
  | .unlocking e _ err | .putting e _ (.written err) | .returning e err => [⟨e, err⟩]
  | _ => []

def Good (p : Config σ ρ) (buf : Nat → Buf) : Phase ι σ ρ ε → Prop
  | .encoding e a n => (buf a).b = (p.line e).take n
  | .locking e a | .writing e a _ => p.outlet e.sink = .writer ∧ (buf a).b = p.line e
  | .unlocking e _ _ => p.outlet e.sink = .writer
  | .putting e _ (.copied msg) | .sending e msg => p.outlet e.sink = .syslog ∧ msg = p.line e
  | _ => True

theorem Good.elsewhere {p : Config σ ρ} {buf : Nat → Buf} {ph : Phase ι σ ρ ε}
    (h : ph.Good p buf) {a : Nat} (hne : ph.held ≠ some a) (b : Buf) :
    ph.Good p (Function.update buf a b) := by
  have hother {c : Nat} (hc : ph.held = some c) : Function.update buf a b c = buf c := by
    refine Function.update_of_ne (fun he : c = a => hne ?_) b buf
    rw [hc, he]
  cases ph with
  | encoding e c n => simpa only [Good, hother rfl] using h
  | locking e c => simpa only [Good, hother rfl] using h
  | writing e c n => simpa only [Good, hother rfl] using h
  | putting e c next => cases next <;> exact h
  | _ => exact h

theorem handed_elsewhere {buf : Nat → Buf} {ph : Phase ι σ ρ ε} {a : Nat}
    (hne : ph.held ≠ some a) (b : Buf) : ph.handed (Function.update buf a b) = ph.handed buf := by
  cases ph with
  | writing e c n =>
    have hca : c ≠ a := by
      rintro rfl
      exact hne rfl
    simp [handed, Function.update_of_ne hca]
  | _ => rfl

theorem Good.writer {p : Config σ ρ} {buf : Nat → Buf} {ph : Phase ι σ ρ ε} (h : ph.Good p buf)
    {k : σ} (hk : ph.locks = some k) : p.outlet k = .writer := by
  cases ph with
  | writing e a n => exact Option.some.inj hk ▸ h.1
  | unlocking e a err => exact Option.some.inj hk ▸ h
  | _ => cases hk

end Phase

section Buffers

variable {p : Config σ ρ} {client : ι → Phase ι σ ρ ε} {buf : Nat → Buf} {pool : List Nat}
  {next a : Nat} {i : ι} {ph : Phase ι σ ρ ε}

structure Buffers (p : Config σ ρ) (client : ι → Phase ι σ ρ ε) (buf : Nat → Buf)
    (pool : List Nat) (next : Nat) : Prop where
  lease : Lease (Phase.held ∘ client) pool next
  blank : ∀ a ∈ pool, (buf a).b = [] ∧ (buf a).cap ≤ 65536
  good : ∀ i, (client i).Good p buf

namespace Buffers

theorem held_ne (h : Buffers p client buf pool next) (hi : (client i).held = some a) {j : ι}
    (hj : j ≠ i) : (client j).held ≠ some a :=
  fun he => hj (h.lease.alone j i a he hi)

theorem fresh : Buffers p (fun _ : ι => (.idle : Phase ι σ ρ ε)) buf [] 0 where
  lease := Lease.fresh
  blank := by simp
  good := fun _ => trivial

theorem collect (h : Buffers p client buf pool next) (a : Nat) :
    Buffers p client buf (pool.erase a) next :=
  ⟨h.lease.discard a, fun b hb => h.blank b (List.mem_of_mem_erase hb), h.good⟩

variable [DecidableEq ι]

theorem lease_move (h : Buffers p client buf pool next) (hheld : ph.held = (client i).held) :
    Lease (Phase.held ∘ Function.update client i ph) pool next := by
  have hsame : (client i).held = (Phase.held ∘ client) i := rfl
  rw [Function.comp_update, hheld, hsame, Function.update_eq_self]
  exact h.lease

theorem move (h : Buffers p client buf pool next) (hheld : ph.held = (client i).held)
    (hgood : ph.Good p buf) : Buffers p (Function.update client i ph) buf pool next :=
  ⟨h.lease_move hheld, h.blank,
    (Function.forall_update_iff client _).mpr ⟨hgood, fun j _ => h.good j⟩⟩

theorem lose (h : Buffers p client buf pool next) (hheld : ph.held = none)
    (hgood : ph.Good p buf) : Buffers p (Function.update client i ph) buf pool next := by
  refine ⟨?_, h.blank, (Function.forall_update_iff client _).mpr ⟨hgood, fun j _ => h.good j⟩⟩
  rw [Function.comp_update, hheld]
  exact h.lease.lose i

theorem create (h : Buffers p client buf pool next) (e : Emission ι σ ρ) :
    Buffers p (Function.update client i (.encoding e next 0)) (Function.update buf next .new) pool
      (next + 1) := by
  have hnew (j : ι) : (client j).held ≠ some next :=
    fun he => Nat.lt_irrefl next (h.lease.held_lt j next he)
  refine ⟨?_, fun a ha => ?_, (Function.forall_update_iff client _).mpr
    ⟨?_, fun j _ => (h.good j).elsewhere (hnew j) _⟩⟩
  · rw [Function.comp_update]
    exact h.lease.create i
  · have hne : a ≠ next := Nat.ne_of_lt (h.lease.pooled_lt a ha)
    rw [Function.update_of_ne hne]
    exact h.blank a ha
  · simp [Phase.Good, Buf.new]

theorem reuse (h : Buffers p client buf pool next) (ha : a ∈ pool) (e : Emission ι σ ρ) :
    Buffers p (Function.update client i (.encoding e a 0)) buf (pool.erase a) next := by
  refine ⟨?_, fun b hb => h.blank b (List.mem_of_mem_erase hb),
    (Function.forall_update_iff client _).mpr ⟨?_, fun j _ => h.good j⟩⟩
  · rw [Function.comp_update]
    exact h.lease.take ha i
  · simp [Phase.Good, (h.blank a ha).1]

theorem append (h : Buffers p client buf pool next) {e : Emission ι σ ρ} {m n : Nat}
    (hi : client i = .encoding e a m) :
    Buffers p (Function.update client i (.encoding e a (m + n)))
      (Function.update buf a ((buf a).append p.grow (((p.line e).drop m).take n))) pool next := by
  have hheld : (client i).held = some a := by rw [hi]; rfl
  have hgood := h.good i
  rw [hi] at hgood
  refine ⟨h.lease_move hheld.symm, fun b hb => ?_, (Function.forall_update_iff client _).mpr
    ⟨?_, fun j hj => (h.good j).elsewhere (h.held_ne hheld hj) _⟩⟩
  · rw [Function.update_of_ne (h.lease.ne_pooled hheld hb)]
    exact h.blank b hb
  · change (Function.update buf a _ a).b = _
    rw [Function.update_self, List.take_add, ← hgood]
    rfl

theorem keep (h : Buffers p client buf pool next) {e : Emission ι σ ρ} {after : After ε}
    (hi : client i = .putting e a after) (hcap : (buf a).cap ≤ 65536) :
    Buffers p (Function.update client i (after.phase e)) (Function.update buf a (buf a).reset)
      (a :: pool) next := by
  have hheld : (client i).held = some a := by rw [hi]; rfl
  have hgood := h.good i
  rw [hi] at hgood
  refine ⟨?_, List.forall_mem_cons.mpr ⟨?_, fun b hb => ?_⟩, (Function.forall_update_iff client _).mpr
    ⟨?_, fun j hj => (h.good j).elsewhere (h.held_ne hheld hj) _⟩⟩
  · have hnone : Phase.held (after.phase e) = none := by cases after <;> rfl
    rw [Function.comp_update, hnone]
    exact h.lease.give hheld
  · rw [Function.update_self]
    exact ⟨rfl, hcap⟩
  · rw [Function.update_of_ne (h.lease.ne_pooled hheld hb)]
    exact h.blank b hb
  · cases after with
    | written err => trivial
    | copied msg => exact hgood

variable [DecidableEq σ] {s s' : State ι σ ρ ε} {act : Act ι σ ρ ε} {evs : List (Event ι σ ρ ε)}

theorem step (h : Buffers p s.client s.buf s.pool s.next) (hs : Step p s act s' evs) :
    Buffers p s'.client s'.buf s'.pool s'.next := by
  have hgood {i : ι} {ph : Phase ι σ ρ ε} (hi : s.client i = ph) : ph.Good p s.buf := hi ▸ h.good i
  have hsame {i : ι} {ph ph' : Phase ι σ ρ ε} (hi : s.client i = ph) (hheld : ph'.held = ph.held) :
      ph'.held = (s.client i).held := by rw [hi, hheld]
  cases hs with
  | call i k r hi => exact h.move (hsame hi rfl) trivial
  | filter i e hi _ => exact h.move (hsame hi rfl) trivial
  | pass i e hi _ => exact h.move (hsame hi rfl) trivial
  | create i e hi => exact h.create e
  | reuse i e a hi ha => exact h.reuse ha e
  | append i e a m n hi hn => exact h.append hi
  | encoded i e a m hi hm ho =>
    have hbuf := hgood hi
    rw [Phase.Good, hm, List.take_length] at hbuf
    exact h.move (hsame hi rfl) ⟨ho, hbuf⟩
  | copy i e a m hi hm ho =>
    have hbuf := hgood hi
    rw [Phase.Good, hm, List.take_length] at hbuf
    exact h.move (hsame hi rfl) ⟨ho, hbuf⟩
  | lock i e a hi hfree =>
    have hline := hgood hi
    exact h.move (hsame hi rfl) hline
  | hand i e a m n hi hn =>
    have hline := hgood hi
    exact h.move (hsame hi rfl) hline
  | wrote i e a m err hi hm => exact h.move (hsame hi rfl) (hgood hi).1
  | unlock i e a err hi => exact h.move (hsame hi rfl) trivial
  | keep i e a after hi hcap => exact h.keep hi hcap
  | drop i e a after hi hcap =>
    have hafter := hgood hi
    cases after with
    | written err => exact h.lose rfl trivial
    | copied msg => exact h.lose rfl hafter
  | send i e msg n err hi hn => exact h.move (hsame hi rfl) trivial
  | ret i e err hi => exact h.move (hsame hi rfl) trivial
  | setLevel k l => exact h
  | collect a => exact h.collect a

end Buffers

end Buffers

section Streams

structure Streams (tx : σ → Bytes) (client : ι → Phase ι σ ρ ε) (buf : Nat → Buf)
    (lock : σ → Option ι) (stream : σ → Bytes) : Prop where
  locked : Locked lock (Phase.locks ∘ client)
  rest : ∀ k, lock k = none → stream k = tx k
  part : ∀ i k, (client i).locks = some k → stream k = tx k ++ (client i).handed buf

namespace Streams

variable {tx : σ → Bytes} {client : ι → Phase ι σ ρ ε} {buf buf' : Nat → Buf}
  {lock : σ → Option ι} {stream : σ → Bytes} {i : ι} {ph : Phase ι σ ρ ε} {k : σ}

theorem fresh :
    Streams (fun _ => []) (fun _ : ι => (.idle : Phase ι σ ρ ε)) buf (fun _ : σ => none)
      fun _ => [] where
  locked := Locked.fresh
  rest := fun _ _ => rfl
  part := by simp [Phase.locks]

variable [DecidableEq ι]

theorem move (h : Streams tx client buf lock stream) (hi : (client i).locks = none)
    (hph : ph.locks = none) (hbuf : ∀ j, j ≠ i → (client j).handed buf' = (client j).handed buf) :
    Streams tx (Function.update client i ph) buf' lock stream := by
  refine ⟨?_, h.rest, (Function.forall_update_iff client fun j ph => ∀ k, ph.locks = some k →
    stream k = tx k ++ ph.handed buf').mpr ⟨?_, fun j hj k hk => ?_⟩⟩
  · have hsame : Phase.locks ph = (Phase.locks ∘ client) i := hph.trans hi.symm
    rw [Function.comp_update, hsame, Function.update_eq_self]
    exact h.locked
  · simp [hph]
  · rw [hbuf j hj]
    exact h.part j k hk

variable [DecidableEq σ]

theorem acquire (h : Streams tx client buf lock stream) (hi : (client i).locks = none)
    (hfree : lock k = none) (hph : ph.locks = some k) (hnone : ph.handed buf = []) :
    Streams tx (Function.update client i ph) buf (Function.update lock k (some i)) stream := by
  refine ⟨?_, fun l hl => ?_, (Function.forall_update_iff client fun j ph => ∀ k, ph.locks = some k →
    stream k = tx k ++ ph.handed buf).mpr ⟨fun l hl => ?_, fun j _ => h.part j⟩⟩
  · rw [Function.comp_update, hph]
    exact h.locked.acquire hfree hi
  · rw [Function.update_apply] at hl
    split at hl
    next => cases hl
    next => exact h.rest l hl
  · obtain rfl := Option.some.inj (hph.symm.trans hl)
    rw [hnone, List.append_nil]
    exact h.rest k hfree

-- The holder of k changes what k has taken and what of it counts as written.
theorem advance (h : Streams tx client buf lock stream) (hi : (client i).locks = some k)
    (hph : ph.locks = some k) {now done : Bytes} (hnow : now = done ++ ph.handed buf) :
    Streams (Function.update tx k done) (Function.update client i ph) buf lock
      (Function.update stream k now) := by
  have hother {l : σ} (hl : l ≠ k) (t : Bytes) (he : stream l = tx l ++ t) :
      Function.update stream k now l = Function.update tx k done l ++ t := by
    rwa [Function.update_of_ne hl, Function.update_of_ne hl]
  refine ⟨?_, fun l hl => ?_, (Function.forall_update_iff client fun j ph => ∀ l, ph.locks = some l →
    Function.update stream k now l = Function.update tx k done l ++ ph.handed buf).mpr
      ⟨fun l hl => ?_, fun j hj l hl => ?_⟩⟩
  · have hsame : Phase.locks ph = (Phase.locks ∘ client) i := hph.trans hi.symm
    rw [Function.comp_update, hsame, Function.update_eq_self]
    exact h.locked
  · have hne : l ≠ k := by
      rintro rfl
      rw [(h.locked l i).mpr hi] at hl
      cases hl
    have hrest := hother hne [] (by rw [List.append_nil]; exact h.rest l hl)
    rwa [List.append_nil] at hrest
  · obtain rfl := Option.some.inj (hph.symm.trans hl)
    rw [Function.update_self, Function.update_self, hnow]
  · have hne : l ≠ k := by
      rintro rfl
      exact hj (h.locked.alone hi hl)
    exact hother hne _ (h.part j l hl)

theorem release (h : Streams tx client buf lock stream) (hi : (client i).locks = some k)
    (hdone : (client i).handed buf = []) (hph : ph.locks = none) :
    Streams tx (Function.update client i ph) buf (Function.update lock k none) stream := by
  refine ⟨?_, fun l hl => ?_, (Function.forall_update_iff client fun j ph => ∀ k, ph.locks = some k →
    stream k = tx k ++ ph.handed buf).mpr ⟨?_, fun j _ => h.part j⟩⟩
  · rw [Function.comp_update, hph]
    exact h.locked.release hi
  · rw [Function.update_apply] at hl
    split at hl
    next he =>
      have hpart := h.part i k hi
      rwa [hdone, List.append_nil, ← he] at hpart
    next => exact h.rest l hl
  · simp [hph]

-- A destination that nobody locks takes a whole message at once.
theorem message (h : Streams tx client buf lock stream) (hi : (client i).locks = none)
    (hph : ph.locks = none) (hfree : ∀ j, (client j).locks ≠ some k) (t : Bytes) :
    Streams (Function.update tx k (tx k ++ t)) (Function.update client i ph) buf lock
      (Function.update stream k (stream k ++ t)) := by
  have hmoved : Streams tx (Function.update client i ph) buf lock stream :=
    h.move hi hph fun _ _ => rfl
  have hlock : lock k = none := by
    cases hl : lock k with
    | none => rfl
    | some j => exact absurd ((h.locked k j).mp hl) (hfree j)
  have hnobody (j : ι) : (Function.update client i ph j).locks ≠ some k := by
    revert j
    refine (Function.forall_update_iff client fun _ ph => ph.locks ≠ some k).mpr ⟨?_, fun j _ => hfree j⟩
    simp [hph]
  refine ⟨hmoved.locked, fun l hl => ?_, fun j l hl => ?_⟩
  · by_cases hlk : l = k
    · rw [hlk, Function.update_self, Function.update_self, h.rest k hlock]
    · rw [Function.update_of_ne hlk, Function.update_of_ne hlk]
      exact h.rest l hl
  · have hlk : l ≠ k := by
      rintro rfl
      exact hnobody j hl
    rw [Function.update_of_ne hlk, Function.update_of_ne hlk]
    exact hmoved.part j l hl

end Streams

end Streams

section Texts

variable [DecidableEq σ]

def Event.writeAt (k : σ) : Event ι σ ρ ε → Option (Written ι σ ρ ε)
  | .wrote w => if w.emission.sink = k then some w else none
  | _ => none

def writes (k : σ) (log : List (Event ι σ ρ ε)) : List (Written ι σ ρ ε) :=
  log.filterMap (Event.writeAt k)

def texts (log : List (Event ι σ ρ ε)) (k : σ) : Bytes := (writes k log).flatMap Written.text

theorem mem_writes {k : σ} {log : List (Event ι σ ρ ε)} {w : Written ι σ ρ ε} :
    w ∈ writes k log ↔ .wrote w ∈ log ∧ w.emission.sink = k := by
  rw [writes, List.mem_filterMap]
  constructor
  · rintro ⟨ev, hev, hw⟩
    cases ev with
    | wrote v =>
      rw [Event.writeAt] at hw
      split at hw
      next hk =>
        cases hw
        exact ⟨hev, hk⟩
      next => cases hw
    | _ => cases hw
  · rintro ⟨hmem, hk⟩
    exact ⟨_, hmem, if_pos hk⟩

theorem texts_concat (log : List (Event ι σ ρ ε)) (ev : Event ι σ ρ ε) (k : σ) :
    texts (log ++ [ev]) k = texts log k ++ (ev.writeAt k).toList.flatMap Written.text := by
  rw [texts, writes, filterMap_concat, List.flatMap_append]
  rfl

theorem texts_silent {log : List (Event ι σ ρ ε)} {ev : Event ι σ ρ ε}
    (h : ∀ k, ev.writeAt k = none) : texts (log ++ [ev]) = texts log := by
  funext k
  simp [texts_concat, h]

theorem texts_wrote (log : List (Event ι σ ρ ε)) (w : Written ι σ ρ ε) :
    texts (log ++ [.wrote w]) =
      Function.update (texts log) w.emission.sink (texts log w.emission.sink ++ w.text) := by
  funext k
  rw [texts_concat, Function.update_apply]
  by_cases hk : w.emission.sink = k
  · simp [Event.writeAt, hk]
  · simp [Event.writeAt, hk, Ne.symm hk]

variable [DecidableEq ι] {p : Config σ ρ} {levels : σ → Level} {s s' : State ι σ ρ ε}
  {act : Act ι σ ρ ε} {log evs : List (Event ι σ ρ ε)}

theorem Streams.step (hb : Buffers p s.client s.buf s.pool s.next)
    (h : Streams (texts log) s.client s.buf s.lock s.stream) (hs : Step p s act s' evs) :
    Streams (texts (log ++ evs)) s'.client s'.buf s'.lock s'.stream := by
  have hlocks {i : ι} {ph : Phase ι σ ρ ε} (hi : s.client i = ph) : (s.client i).locks = ph.locks := by
    rw [hi]
  cases hs with
  | call i k r hi =>
    rw [texts_silent fun _ => rfl]
    exact h.move (hlocks hi) rfl fun _ _ => rfl
  | filter i e hi _ =>
    rw [texts_silent fun _ => rfl]
    exact h.move (hlocks hi) rfl fun _ _ => rfl
  | pass i e hi _ =>
    rw [List.append_nil]
    exact h.move (hlocks hi) rfl fun _ _ => rfl
  | create i e hi =>
    rw [List.append_nil]
    refine h.move (hlocks hi) rfl fun j _ => Phase.handed_elsewhere (fun he => ?_) _
    exact Nat.lt_irrefl s.next (hb.lease.held_lt j s.next he)
  | reuse i e a hi ha =>
    rw [List.append_nil]
    exact h.move (hlocks hi) rfl fun _ _ => rfl
  | append i e a m n hi hn =>
    rw [List.append_nil]
    have hheld : (s.client i).held = some a := by rw [hi]; rfl
    exact h.move (hlocks hi) rfl fun j hj => Phase.handed_elsewhere (hb.held_ne hheld hj) _
  | encoded i e a m hi hm ho =>
    rw [List.append_nil]
    exact h.move (hlocks hi) rfl fun _ _ => rfl
  | copy i e a m hi hm ho =>
    rw [List.append_nil]
    exact h.move (hlocks hi) rfl fun _ _ => rfl
  | lock i e a hi hfree =>
    rw [List.append_nil]
    exact h.acquire (hlocks hi) hfree rfl (by simp [Phase.handed])
  | hand i e a m n hi hn =>
    have hpart := h.part i e.sink (hlocks hi)
    rw [hi, Phase.handed] at hpart
    rw [List.append_nil, ← Function.update_eq_self e.sink (texts log)]
    refine h.advance (hlocks hi) rfl ?_
    rw [hpart, Phase.handed, List.take_add, List.append_assoc]
  | wrote i e a m err hi hm =>
    have hpart := h.part i e.sink (hlocks hi)
    rw [hi, Phase.handed] at hpart
    have hnow : s.stream e.sink = (texts log e.sink ++ (s.buf a).b.take m) ++
        (Phase.unlocking e a err : Phase ι σ ρ ε).handed s.buf := by
      rw [hpart]
      exact (List.append_nil _).symm
    have hadvance := h.advance (hlocks hi) rfl hnow
    rw [Function.update_eq_self] at hadvance
    rw [texts_wrote]
    exact hadvance
  | unlock i e a err hi =>
    rw [List.append_nil]
    exact h.release (hlocks hi) (by rw [hi]; rfl) rfl
  | keep i e a after hi hcap =>
    rw [List.append_nil]
    have hheld : (s.client i).held = some a := by rw [hi]; rfl
    exact h.move (hlocks hi) (by cases after <;> rfl) fun j hj =>
      Phase.handed_elsewhere (hb.held_ne hheld hj) _
  | drop i e a after hi hcap =>
    rw [List.append_nil]
    exact h.move (hlocks hi) (by cases after <;> rfl) fun _ _ => rfl
  | send i e msg n err hi hn =>
    have hgood := hb.good i
    rw [hi] at hgood
    rw [texts_wrote]
    refine h.message (hlocks hi) rfl (fun j hj => ?_) (msg.take n)
    have hwriter := (hb.good j).writer hj
    rw [hgood.1] at hwriter
    cases hwriter
  | ret i e err hi =>
    rw [texts_silent fun _ => rfl]
    exact h.move (hlocks hi) rfl fun _ _ => rfl
  | setLevel k l =>
    rw [texts_silent fun _ => rfl]
    exact h
  | collect a =>
    rw [List.append_nil]
    exact h

theorem run_buffers (h : (machine p levels).Run log s) :
    Buffers p s.client s.buf s.pool s.next :=
  h.invariant (P := fun _ s => Buffers p s.client s.buf s.pool s.next) Buffers.fresh
    fun _ hb _ hs => hb.step (step_cases hs)

theorem run_streams (h : (machine p levels).Run log s) :
    Streams (texts log) s.client s.buf s.lock s.stream :=
  h.invariant (P := fun log s => Streams (texts log) s.client s.buf s.lock s.stream) Streams.fresh
    fun hexec hst _ hs => hst.step (run_buffers hexec) (step_cases hs)

end Texts

section Accounting

namespace Event

def called : Event ι σ ρ ε → Option (Emission ι σ ρ)
  | .call e => some e
  | .filtered _ | .wrote _ | .ret _ _ | .setLevel _ _ => none

def decided : Event ι σ ρ ε → Option (Outcome ι σ ρ ε)
  | .filtered e => some ⟨e, none⟩
  | .wrote w => some ⟨w.emission, w.err⟩
  | .call _ | .ret _ _ | .setLevel _ _ => none

def returned : Event ι σ ρ ε → Option (Outcome ι σ ρ ε)
  | .ret e err => some ⟨e, err⟩
  | .call _ | .filtered _ | .wrote _ | .setLevel _ _ => none

def threshold [DecidableEq σ] (k : σ) : Event ι σ ρ ε → Option Level
  | .setLevel l x => if l = k then some x else none
  | _ => none

end Event

def calls (log : List (Event ι σ ρ ε)) : List (Emission ι σ ρ) := log.filterMap Event.called

def decided (log : List (Event ι σ ρ ε)) : List (Outcome ι σ ρ ε) := log.filterMap Event.decided

def returned (log : List (Event ι σ ρ ε)) : List (Outcome ι σ ρ ε) := log.filterMap Event.returned

-- The levels a sink had so far.
def thresholds [DecidableEq σ] (levels : σ → Level) (log : List (Event ι σ ρ ε)) (k : σ) :
    List Level :=
  levels k :: log.filterMap (Event.threshold k)

variable [DecidableEq ι] {p : Config σ ρ} {levels : σ → Level} {s s' : State ι σ ρ ε}
  {act : Act ι σ ρ ε} {log evs : List (Event ι σ ρ ε)}

structure Accounts (log : List (Event ι σ ρ ε)) (client : ι → Phase ι σ ρ ε) : Prop where
  mine : ∀ i e, (client i).emission = some e → e.caller = i
  undecided : Between Emission.caller (calls log) ((decided log).map Outcome.emission)
    (Phase.undecided ∘ client)
  leaving : Between Outcome.caller (decided log) (returned log) (Phase.leaving ∘ client)

namespace Accounts

variable {client : ι → Phase ι σ ρ ε} {i : ι} {ph ph' : Phase ι σ ρ ε} {e : Emission ι σ ρ}
  {ev : Event ι σ ρ ε}

theorem fresh : Accounts [] fun _ : ι => (.idle : Phase ι σ ρ ε) where
  mine := by simp [Phase.emission]
  undecided := Between.fresh
  leaving := Between.fresh

theorem mine_move (h : Accounts log client) (hi : client i = ph)
    (hsame : ∀ e, ph'.emission = some e → ph.emission = some e) (j : ι) (e : Emission ι σ ρ)
    (hj : (Function.update client i ph' j).emission = some e) : e.caller = j := by
  revert j e
  refine (Function.forall_update_iff client fun i ph => ∀ e, ph.emission = some e →
    e.caller = i).mpr ⟨fun e he => h.mine i e ?_, fun j _ => h.mine j⟩
  rw [hi]
  exact hsame e he

theorem move (h : Accounts log client) (hi : client i = ph) (hsame : ph'.emission = ph.emission)
    (hundecided : ph'.undecided = ph.undecided) (hleaving : ph'.leaving = ph.leaving) :
    Accounts (log ++ []) (Function.update client i ph') := by
  rw [List.append_nil]
  refine ⟨h.mine_move hi fun e he => hsame ▸ he, ?_, ?_⟩
  · have hold : ph'.undecided = (Phase.undecided ∘ client) i := by simp [hi, hundecided]
    rw [Function.comp_update, hold, Function.update_eq_self]
    exact h.undecided
  · have hold : ph'.leaving = (Phase.leaving ∘ client) i := by simp [hi, hleaving]
    rw [Function.comp_update, hold, Function.update_eq_self]
    exact h.leaving

theorem noted (h : Accounts log client) (hc : ev.called = none) (hd : ev.decided = none)
    (hr : ev.returned = none) : Accounts (log ++ [ev]) client := by
  have hcalls : calls (log ++ [ev]) = calls log := by simp [calls, hc]
  have hdecided : decided (log ++ [ev]) = decided log := by simp [decided, hd]
  have hreturned : returned (log ++ [ev]) = returned log := by simp [returned, hr]
  refine ⟨h.mine, ?_, ?_⟩
  · rw [hcalls, hdecided]
    exact h.undecided
  · rw [hdecided, hreturned]
    exact h.leaving

theorem call (h : Accounts log client) (hi : client i = .idle) (he : e.caller = i) :
    Accounts (log ++ [.call e]) (Function.update client i (.entered e)) := by
  have hcalls : calls (log ++ [.call e]) = calls log ++ [e] := by simp [calls, Event.called]
  have hdecided : decided (log ++ [.call e]) = decided log := by simp [decided, Event.decided]
  have hreturned : returned (log ++ [.call e]) = returned log := by simp [returned, Event.returned]
  refine ⟨(Function.forall_update_iff client fun i ph => ∀ e, ph.emission = some e →
    e.caller = i).mpr ⟨fun x hx => Option.some.inj hx ▸ he, fun j _ => h.mine j⟩, ?_, ?_⟩
  · have henter := h.undecided.enter he
    rw [Function.comp_apply, hi] at henter
    rw [hcalls, hdecided, Function.comp_update]
    exact henter
  · have hold : (Phase.entered e : Phase ι σ ρ ε).leaving = (Phase.leaving ∘ client) i := by
      simp [hi, Phase.leaving]
    rw [hdecided, hreturned, Function.comp_update, hold, Function.update_eq_self]
    exact h.leaving

theorem decide (h : Accounts log client) {err : Option ε} (hi : client i = ph)
    (hem : ph.emission = some e) (hem' : ph'.emission = some e) (hu : ph.undecided = [e])
    (hl : ph.leaving = []) (hu' : ph'.undecided = []) (hl' : ph'.leaving = [⟨e, err⟩])
    (hc : ev.called = none) (hd : ev.decided = some ⟨e, err⟩) (hr : ev.returned = none) :
    Accounts (log ++ [ev]) (Function.update client i ph') := by
  have hcalls : calls (log ++ [ev]) = calls log := by simp [calls, hc]
  have hdecided : decided (log ++ [ev]) = decided log ++ [⟨e, err⟩] := by simp [decided, hd]
  have hreturned : returned (log ++ [ev]) = returned log := by simp [returned, hr]
  have hmine : e.caller = i := h.mine i e (hi ▸ hem)
  refine ⟨h.mine_move hi fun x hx => (hem'.symm.trans hx) ▸ hem, ?_, ?_⟩
  · rw [hcalls, hdecided, List.map_append, Function.comp_update, hu']
    exact h.undecided.leave hmine (by simp [hi, hu])
  · have houtcome : (⟨e, err⟩ : Outcome ι σ ρ ε).caller = i := hmine
    have henter := h.leaving.enter houtcome
    rw [Function.comp_apply, hi, hl, List.nil_append] at henter
    rw [hdecided, hreturned, Function.comp_update, hl']
    exact henter

theorem ret (h : Accounts log client) {err : Option ε} (hi : client i = .returning e err) :
    Accounts (log ++ [.ret e err]) (Function.update client i .idle) := by
  have hcalls : calls (log ++ [.ret e err]) = calls log := by simp [calls, Event.called]
  have hdecided : decided (log ++ [.ret e err]) = decided log := by simp [decided, Event.decided]
  have hreturned : returned (log ++ [.ret e err]) = returned log ++ [⟨e, err⟩] := by
    simp [returned, Event.returned]
  have hmine : e.caller = i := h.mine i e (by rw [hi]; rfl)
  refine ⟨h.mine_move hi (by simp [Phase.emission]), ?_, ?_⟩
  · have hold : Phase.undecided (.idle : Phase ι σ ρ ε) = (Phase.undecided ∘ client) i := by
      simp [hi, Phase.undecided]
    rw [hcalls, hdecided, Function.comp_update, hold, Function.update_eq_self]
    exact h.undecided
  · have houtcome : (⟨e, err⟩ : Outcome ι σ ρ ε).caller = i := hmine
    rw [hdecided, hreturned, Function.comp_update]
    exact h.leaving.leave houtcome (by simp [hi, Phase.leaving])

variable [DecidableEq σ]

theorem step (h : Accounts log s.client) (hs : Step p s act s' evs) :
    Accounts (log ++ evs) s'.client := by
  cases hs with
  | call i k r hi => exact h.call hi rfl
  | filter i e hi _ => exact h.decide hi rfl rfl rfl rfl rfl rfl rfl rfl rfl
  | pass i e hi _ => exact h.move hi rfl rfl rfl
  | create i e hi => exact h.move hi rfl rfl rfl
  | reuse i e a hi ha => exact h.move hi rfl rfl rfl
  | append i e a m n hi hn => exact h.move hi rfl rfl rfl
  | encoded i e a m hi hm ho => exact h.move hi rfl rfl rfl
  | copy i e a m hi hm ho => exact h.move hi rfl rfl rfl
  | lock i e a hi hfree => exact h.move hi rfl rfl rfl
  | hand i e a m n hi hn => exact h.move hi rfl rfl rfl
  | wrote i e a m err hi hm => exact h.decide hi rfl rfl rfl rfl rfl rfl rfl rfl rfl
  | unlock i e a err hi => exact h.move hi rfl rfl rfl
  | keep i e a after hi hcap => cases after <;> exact h.move hi rfl rfl rfl
  | drop i e a after hi hcap => cases after <;> exact h.move hi rfl rfl rfl
  | send i e msg n err hi hn => exact h.decide hi rfl rfl rfl rfl rfl rfl rfl rfl rfl
  | ret i e err hi => exact h.ret hi
  | setLevel k l => exact h.noted rfl rfl rfl
  | collect a =>
    rw [List.append_nil]
    exact h

end Accounts

end Accounting

section Reasons

variable [DecidableEq σ]

def Passed (p : Config σ ρ) (levels : σ → Level) (log : List (Event ι σ ρ ε))
    (e : Emission ι σ ρ) : Prop :=
  ∃ l ∈ thresholds levels log e.sink, l ≤ p.level e.record

def Refused (p : Config σ ρ) (levels : σ → Level) (log : List (Event ι σ ρ ε))
    (e : Emission ι σ ρ) : Prop :=
  ∃ l ∈ thresholds levels log e.sink, p.level e.record < l

def Phase.Explained (p : Config σ ρ) (levels : σ → Level) (log : List (Event ι σ ρ ε)) :
    Phase ι σ ρ ε → Prop
  | .getting e | .encoding e _ _ | .locking e _ | .writing e _ _ | .putting e _ (.copied _)
  | .sending e _ => Passed p levels log e
  | .idle | .entered _ | .unlocking _ _ _ | .putting _ _ (.written _) | .returning _ _ => True

def Event.Explained (p : Config σ ρ) (levels : σ → Level) (log : List (Event ι σ ρ ε)) :
    Event ι σ ρ ε → Prop
  | .filtered e => Refused p levels log e
  | .wrote w => Passed p levels log w.emission ∧ w.sev = p.severity w.emission ∧
      w.text <+: p.line w.emission ∧ (w.err = none → w.text = p.line w.emission)
  | .call _ | .ret _ _ | .setLevel _ _ => True

variable {p : Config σ ρ} {levels : σ → Level} {log : List (Event ι σ ρ ε)}

theorem mem_thresholds_append {k : σ} {l : Level} (h : l ∈ thresholds levels log k)
    (evs : List (Event ι σ ρ ε)) : l ∈ thresholds levels (log ++ evs) k := by
  rw [thresholds, List.filterMap_append, ← List.cons_append]
  exact List.mem_append_left _ h

theorem Passed.append {e : Emission ι σ ρ} (h : Passed p levels log e)
    (evs : List (Event ι σ ρ ε)) : Passed p levels (log ++ evs) e := by
  obtain ⟨l, hl, hle⟩ := h
  exact ⟨l, mem_thresholds_append hl evs, hle⟩

theorem Refused.append {e : Emission ι σ ρ} (h : Refused p levels log e)
    (evs : List (Event ι σ ρ ε)) : Refused p levels (log ++ evs) e := by
  obtain ⟨l, hl, hlt⟩ := h
  exact ⟨l, mem_thresholds_append hl evs, hlt⟩

theorem Phase.Explained.append {ph : Phase ι σ ρ ε} (h : ph.Explained p levels log)
    (evs : List (Event ι σ ρ ε)) : ph.Explained p levels (log ++ evs) := by
  cases ph with
  | getting e => exact Passed.append h evs
  | encoding e a n => exact Passed.append h evs
  | locking e a => exact Passed.append h evs
  | writing e a n => exact Passed.append h evs
  | putting e a next =>
    cases next with
    | written err => trivial
    | copied msg => exact Passed.append h evs
  | sending e msg => exact Passed.append h evs
  | _ => trivial

theorem Event.Explained.append {ev : Event ι σ ρ ε} (h : ev.Explained p levels log)
    (evs : List (Event ι σ ρ ε)) : ev.Explained p levels (log ++ evs) := by
  cases ev with
  | filtered e => exact Refused.append h evs
  | wrote w => exact ⟨h.1.append evs, h.2⟩
  | _ => trivial

structure Reasons (p : Config σ ρ) (levels : σ → Level) (log : List (Event ι σ ρ ε))
    (client : ι → Phase ι σ ρ ε) (minLvl : σ → Level) : Prop where
  level : ∀ k, minLvl k ∈ thresholds levels log k
  phase : ∀ i, (client i).Explained p levels log
  event : ∀ ev ∈ log, ev.Explained p levels log

namespace Reasons

variable {client : ι → Phase ι σ ρ ε} {minLvl : σ → Level} {i : ι} {ph : Phase ι σ ρ ε}

theorem fresh : Reasons p levels [] (fun _ : ι => (.idle : Phase ι σ ρ ε)) levels where
  level := fun _ => List.mem_cons_self
  phase := fun _ => trivial
  event := by simp

theorem setLevel (h : Reasons p levels log client minLvl) (k : σ) (l : Level) :
    Reasons p levels (log ++ [.setLevel k l]) client (Function.update minLvl k l) := by
  have hnow : l ∈ thresholds levels (log ++ [.setLevel k l]) k := by
    simp [thresholds, Event.threshold]
  refine ⟨fun j => ?_, fun i => (h.phase i).append _, fun ev hev => ?_⟩
  · rw [Function.update_apply]
    split
    next hj => rwa [hj]
    next => exact mem_thresholds_append (h.level j) _
  · rcases List.mem_append.mp hev with hold | hnew
    · exact (h.event ev hold).append _
    · rw [List.mem_singleton.mp hnew]
      trivial

variable [DecidableEq ι]

theorem move (h : Reasons p levels log client minLvl) {evs : List (Event ι σ ρ ε)}
    (hph : ph.Explained p levels (log ++ evs))
    (hevs : ∀ ev ∈ evs, ev.Explained p levels (log ++ evs)) :
    Reasons p levels (log ++ evs) (Function.update client i ph) minLvl := by
  refine ⟨fun k => mem_thresholds_append (h.level k) evs,
    (Function.forall_update_iff client fun _ ph => ph.Explained p levels (log ++ evs)).mpr
      ⟨hph, fun j _ => (h.phase j).append evs⟩, fun ev hev => ?_⟩
  rcases List.mem_append.mp hev with hold | hnew
  · exact (h.event ev hold).append evs
  · exact hevs ev hnew

theorem silent (h : Reasons p levels log client minLvl) (hph : ph.Explained p levels log) :
    Reasons p levels (log ++ []) (Function.update client i ph) minLvl :=
  h.move (hph.append []) (by simp)

variable {s s' : State ι σ ρ ε} {act : Act ι σ ρ ε} {evs : List (Event ι σ ρ ε)}

theorem step (hb : Buffers p s.client s.buf s.pool s.next)
    (h : Reasons p levels log s.client s.minLvl) (hs : Step p s act s' evs) :
    Reasons p levels (log ++ evs) s'.client s'.minLvl := by
  have hphase {i : ι} {ph : Phase ι σ ρ ε} (hi : s.client i = ph) : ph.Explained p levels log :=
    hi ▸ h.phase i
  have hgood {i : ι} {ph : Phase ι σ ρ ε} (hi : s.client i = ph) : ph.Good p s.buf := hi ▸ hb.good i
  cases hs with
  | call i k r hi => exact h.move trivial (by simp [Event.Explained])
  | filter i e hi hlt =>
    refine h.move trivial (List.forall_mem_singleton.mpr ?_)
    exact Refused.append ⟨s.minLvl e.sink, h.level e.sink, hlt⟩ _
  | pass i e hi hle => exact h.silent ⟨s.minLvl e.sink, h.level e.sink, Int.not_lt.mp hle⟩
  | create i e hi =>
    have hpassed := hphase hi
    exact h.silent hpassed
  | reuse i e a hi ha =>
    have hpassed := hphase hi
    exact h.silent hpassed
  | append i e a m n hi hn =>
    have hpassed := hphase hi
    exact h.silent hpassed
  | encoded i e a m hi hm ho =>
    have hpassed := hphase hi
    exact h.silent hpassed
  | copy i e a m hi hm ho =>
    have hpassed := hphase hi
    exact h.silent hpassed
  | lock i e a hi hfree =>
    have hpassed := hphase hi
    exact h.silent hpassed
  | hand i e a m n hi hn =>
    have hpassed := hphase hi
    exact h.silent hpassed
  | wrote i e a m err hi hm =>
    have hpassed : Passed p levels log e := hphase hi
    obtain ⟨hwriter, hline⟩ := hgood hi
    refine h.move trivial (List.forall_mem_singleton.mpr
      ⟨hpassed.append _, by simp [Config.severity, hwriter], ?_, fun herr => ?_⟩)
    · rw [← hline]
      exact List.take_prefix m _
    · have hall : m = (s.buf a).b.length := hm.resolve_right (by simp [show err = none from herr])
      rw [← hline, hall, List.take_length]
  | unlock i e a err hi => exact h.silent trivial
  | keep i e a after hi hcap =>
    have hafter := hphase hi
    cases after with
    | written err => exact h.silent trivial
    | copied msg => exact h.silent hafter
  | drop i e a after hi hcap =>
    have hafter := hphase hi
    cases after with
    | written err => exact h.silent trivial
    | copied msg => exact h.silent hafter
  | send i e msg n err hi hn =>
    have hpassed : Passed p levels log e := hphase hi
    obtain ⟨hsyslog, hmsg⟩ := hgood hi
    refine h.move trivial (List.forall_mem_singleton.mpr
      ⟨hpassed.append _, by simp [Config.severity, hsyslog], ?_, fun herr => ?_⟩)
    · rw [← hmsg]
      exact List.take_prefix n _
    · have hall : n = msg.length := hn.resolve_right (by simp [show err = none from herr])
      rw [← hmsg, hall, List.take_length]
  | ret i e err hi => exact h.move trivial (by simp [Event.Explained])
  | setLevel k l => exact h.setLevel k l
  | collect a =>
    rw [List.append_nil]
    exact h

end Reasons

end Reasons

section Results

variable [DecidableEq ι] [DecidableEq σ] {p : Config σ ρ} {levels : σ → Level} {s : State ι σ ρ ε}
  {log : List (Event ι σ ρ ε)}

theorem run_accounts (h : (machine p levels).Run log s) : Accounts log s.client :=
  h.invariant (P := fun log s => Accounts log s.client) Accounts.fresh
    fun _ ha _ hs => ha.step (step_cases hs)

theorem run_reasons (h : (machine p levels).Run log s) :
    Reasons p levels log s.client s.minLvl :=
  h.invariant (P := fun log s => Reasons p levels log s.client s.minLvl) Reasons.fresh
    fun hexec hr _ hs => hr.step (run_buffers hexec) (step_cases hs)

theorem calls_numbered (h : (machine p levels).Run log s) :
    (calls log).map Emission.number = List.range s.calls := by
  refine h.invariant (P := fun log s => (calls log).map Emission.number = List.range s.calls) rfl ?_
  intro log s act s' evs _ ih _ hs
  cases step_cases hs with
  | call i k r hi => simpa [calls, Event.called, List.range_succ] using ih
  | _ => simpa [calls, List.filterMap_cons, Event.called] using ih

theorem calls_nodup (h : (machine p levels).Run log s) : (calls log).Nodup :=
  List.Nodup.of_map Emission.number (calls_numbered h ▸ List.nodup_range)

-- A destination that nobody is writing to has the text of every finished Write, in order.
theorem stream_of_rest (h : (machine p levels).Run log s) {k : σ}
    (hk : ∀ i e a n, s.client i = .writing e a n → e.sink ≠ k) :
    s.stream k = (writes k log).flatMap Written.text := by
  have hst := run_streams h
  cases hl : s.lock k with
  | none => exact hst.rest k hl
  | some i =>
    have hlocks : (s.client i).locks = some k := (hst.locked k i).mp hl
    have hpart := hst.part i k hlocks
    cases hi : s.client i with
    | writing e a n =>
      rw [hi] at hlocks
      exact absurd (Option.some.inj hlocks) (hk i e a n hi)
    | _ =>
      rw [hi] at hpart
      exact hpart.trans (List.append_nil _)

theorem streams_whole_lines (h : (machine p levels).Run log s) :
    (∀ i e a n, s.client i = .writing e a n →
      s.stream e.sink = (writes e.sink log).flatMap Written.text ++ (p.line e).take n) ∧
    (∀ k, (∀ i e a n, s.client i = .writing e a n → e.sink ≠ k) →
      s.stream k = (writes k log).flatMap Written.text) ∧
    (∀ w, .wrote w ∈ log → w.sev = p.severity w.emission ∧ w.text <+: p.line w.emission ∧
      (w.err = none → w.text = p.line w.emission)) ∧
    Lease (Phase.held ∘ s.client) s.pool s.next ∧
    ∀ a ∈ s.pool, (s.buf a).b = [] ∧ (s.buf a).cap ≤ 65536 := by
  have hb := run_buffers h
  refine ⟨fun i e a n hi => ?_, fun k hk => stream_of_rest h hk,
    fun w hw => ((run_reasons h).event _ hw).2, hb.lease, hb.blank⟩
  have hpart := (run_streams h).part i e.sink (by rw [hi]; rfl)
  have hgood := hb.good i
  rw [hi] at hgood hpart
  rw [hpart, Phase.handed, hgood.2]
  rfl

def rawEncoder : Encoder Bytes where
  encode := fun buf r => buf ++ (r ++ [newline])
  appends := fun _ _ => rfl

def rawConfig : Config Outlet Bytes where
  outlet := id
  enc := fun _ => rawEncoder
  level := fun r => r.length
  grow := fun cap _ => 2 * cap

-- Two callers encode at the same time; the first is in the middle of its Write.
def midWrite : List (Act Bool Outlet Bytes Unit) :=
  [.emit false .writer [97, 97], .emit true .writer [98], .check false, .check true,
    .getBuffer false none, .getBuffer true none, .append false 1, .append true 2, .append false 2,
    .encoded true, .encoded false, .lock true, .hand true 2, .wrote true none, .unlock true,
    .lock false, .hand false 1]

theorem streams_whole_midWrite :
    ∃ log s, (machine (ι := Bool) (ε := Unit) rawConfig fun _ => 0).Run log s ∧
      s.stream .writer = [98, 10, 97] ∧ s.lock .writer = some false ∧
      Lease (Phase.held ∘ s.client) s.pool s.next := by
  obtain ⟨log, s, hrun, hgood⟩ := Machine.exists_exec
    (M := machine (ι := Bool) (ε := Unit) rawConfig fun _ => 0) (C := fun _ _ => True) midWrite
    (fun _ s => s.stream .writer == [98, 10, 97] && s.lock .writer == some false) (by decide +kernel)
  rw [Bool.and_eq_true, beq_iff_eq, beq_iff_eq] at hgood
  exact ⟨log, s, hrun, hgood.1, hgood.2, (streams_whole_lines hrun).2.2.2.1⟩

theorem emissions_accounted (h : (machine p levels).Run log s) :
    (calls log).map Emission.number = List.range s.calls ∧
    ((decided log).map Outcome.emission).Nodup ∧
    (∀ i, fibre Outcome.caller i (returned log) <+: fibre Outcome.caller i (decided log) ∧
      fibre Emission.caller i ((decided log).map Outcome.emission) <+:
        fibre Emission.caller i (calls log)) ∧
    (∀ e, .filtered e ∈ log → Refused p levels log e) ∧
    (∀ w, .wrote w ∈ log → Passed p levels log w.emission) ∧
    ((∀ i, s.client i = .idle) →
      (calls log).Perm ((decided log).map Outcome.emission) ∧ (decided log).Perm (returned log)) := by
  have ha := run_accounts h
  have hr := run_reasons h
  refine ⟨calls_numbered h, ?_, fun i => ⟨ha.leaving.fibre_starts i, ha.undecided.fibre_starts i⟩,
    fun e he => hr.event _ he, fun w hw => (hr.event _ hw).1, fun hidle => ⟨?_, ?_⟩⟩
  · exact nodup_of_fibre Emission.caller fun i =>
      ((calls_nodup h).sublist (fibre_sublist _ i _)).sublist (ha.undecided.fibre_starts i).sublist
  · exact ha.undecided.perm fun i => by simp [hidle i, Phase.undecided]
  · exact ha.leaving.perm fun i => by simp [hidle i, Phase.leaving]

-- One caller is filtered, the other's syslog call fails half way; both return.
def bothReturn : List (Act Bool Outlet Bytes Unit) :=
  [.emit false .writer [], .emit true .syslog [98], .check false, .check true, .ret false,
    .getBuffer true none, .append true 2, .encoded true, .putBuffer true, .send true 1 (some ()),
    .ret true]

theorem emissions_accounted_bothReturn :
    ∃ log s, (machine (ι := Bool) (ε := Unit) rawConfig fun _ => 1).Run log s ∧
      (returned log).length = 2 ∧ s.stream .syslog = [98] ∧
      ((decided log).map Outcome.emission).Nodup := by
  obtain ⟨log, s, hrun, hgood⟩ := Machine.exists_exec
    (M := machine (ι := Bool) (ε := Unit) rawConfig fun _ => 1) (C := fun _ _ => True) bothReturn
    (fun log s => (returned log).length == 2 && s.stream .syslog == [98]) (by decide +kernel)
  rw [Bool.and_eq_true, beq_iff_eq, beq_iff_eq] at hgood
  exact ⟨log, s, hrun, hgood.1, hgood.2, (emissions_accounted hrun).2.1⟩

end Results

section Json

variable {χ κ : Type}

theorem texts_unlines (rt : Runtime χ) (e : JSONEncoder) (ws : List (Written ι σ (Record χ κ) ε))
    (h : ∀ w ∈ ws, w.text = e.encode rt [] w.emission.record) :
    ws.flatMap Written.text = unlines (ws.map fun w => e.body rt w.emission.record) := by
  induction ws with
  | nil => rfl
  | cons w ws ih =>
    rw [List.forall_mem_cons] at h
    rw [List.flatMap_cons, ih h.2, h.1, JSONEncoder.encode_line]
    rfl

variable [DecidableEq ι] [DecidableEq σ] {p : Config σ (Record χ κ)} {levels : σ → Level}
  {s : State ι σ (Record χ κ) ε} {log : List (Event ι σ (Record χ κ) ε)}

theorem json_stream_lines (h : (machine p levels).Run log s) (rt : Runtime χ) (hrt : rt.Marshals)
    (hcompact : rt.Compact) (e : JSONEncoder) (k : σ) (hk : p.enc k = e.encoder rt)
    (hclean : ∀ w ∈ writes k log, w.emission.record.CallerPlain rt)
    (hok : ∀ w ∈ writes k log, w.err = none) (hfree : s.lock k = none) :
    List.Forall₂ (fun l w => l ++ [newline] = e.encode rt [] w.emission.record ∧
        (OneObject (l ++ [newline]) ↔ ∀ f ∈ w.emission.record.fields, f.Finite))
      (lines (s.stream k)) (writes k log) := by
  have hline (w : Written ι σ (Record χ κ) ε) (hw : w ∈ writes k log) :
      w.text = e.encode rt [] w.emission.record := by
    obtain ⟨hmem, hsink⟩ := mem_writes.mp hw
    rw [((run_reasons h).event _ hmem).2.2.2 (hok w hw), Config.line, hsink, hk]
    rfl
  have hstream : s.stream k = unlines ((writes k log).map fun w => e.body rt w.emission.record) :=
    ((run_streams h).rest k hfree).trans (texts_unlines rt e _ hline)
  have hbody : ∀ l ∈ (writes k log).map fun w => e.body rt w.emission.record, newline ∉ l := by
    intro l hl
    obtain ⟨w, hw, rfl⟩ := List.mem_map.mp hl
    exact JSONEncoder.newline_notMem_line e hcompact (hclean w hw)
  rw [hstream, lines_unlines hbody, List.forall₂_map_left_iff, List.forall₂_same]
  intro w hw
  have hsame : e.body rt w.emission.record ++ [newline] = e.encode rt [] w.emission.record :=
    (JSONEncoder.encode_line rt e w.emission.record).symm
  rw [hsame]
  exact ⟨rfl, JSONEncoder.oneObject_iff e hrt hcompact (hclean w hw)⟩

def jsonConfig : Config Unit (Record Unit Unit) where
  outlet := fun _ => .writer
  enc := fun _ => JSONEncoder.new.encoder bareRuntime
  level := Record.level
  grow := fun cap _ => 2 * cap

-- Two callers encode at the same time, one of them a NaN; the first then logs again into a buffer
-- of the pool.
def threeRecords (n m : Nat) : List (Act Bool Unit (Record Unit Unit) Unit) :=
  [.emit false () JSONEncoder.finiteRecord, .emit true () JSONEncoder.nanRecord, .check false,
    .check true, .getBuffer false none, .getBuffer true none, .append true m, .append false n,
    .encoded false, .encoded true, .lock true, .hand true m, .wrote true none, .unlock true,
    .lock false, .hand false n, .wrote false none, .unlock false, .putBuffer false, .ret false,
    .emit false () JSONEncoder.finiteRecord, .check false, .getBuffer false (some 0),
    .append false n, .encoded false, .lock false, .hand false n, .wrote false none, .unlock false]

theorem json_stream_threeRecords :
    ∃ log s, (machine (ι := Bool) (ε := Unit) jsonConfig fun _ => 0).Run log s ∧
      (writes () log).map (fun w => w.emission.caller) = [true, false, false] ∧
      List.Forall₂ (fun l w =>
          l ++ [newline] = JSONEncoder.new.encode bareRuntime [] w.emission.record ∧
          (OneObject (l ++ [newline]) ↔ ∀ f ∈ w.emission.record.fields, f.Finite))
        (lines (s.stream ())) (writes () log) := by
  obtain ⟨log, s, hrun, hgood⟩ := Machine.exists_exec
    (M := machine (ι := Bool) (ε := Unit) jsonConfig fun _ => 0) (C := fun _ _ => True)
    (threeRecords (JSONEncoder.new.encode bareRuntime [] JSONEncoder.finiteRecord).length
      (JSONEncoder.new.encode bareRuntime [] JSONEncoder.nanRecord).length)
    (fun log s => (writes () log).map (fun w => w.emission.caller) == [true, false, false] &&
      s.lock () == none &&
      (writes () log).all fun w => w.err == none && w.emission.record.pc == 0) (by decide +kernel)
  simp only [Bool.and_eq_true, beq_iff_eq, List.all_eq_true] at hgood
  obtain ⟨⟨hthree, hfree⟩, hall⟩ := hgood
  refine ⟨log, s, hrun, hthree, json_stream_lines hrun bareRuntime bareRuntime_marshals
    JSONEncoder.bareRuntime_compact JSONEncoder.new () rfl (fun w hw src hs => ?_)
    (fun w hw => (hall w hw).1) hfree⟩
  simp [Record.source, (hall w hw).2] at hs

end Json

end UbgoLogger.Sink.Writer
