import UbgoLogger.Foundation.Layer
import UbgoLogger.Sink.FileBlocks
import UbgoLogger.Sink.WriterLines

namespace UbgoLogger.Sink.FileSink
open Foundation Foundation.Text File

variable {ι σ ρ φ : Type}

-- Sinks made by NewFileSink, each over one of the rotating files.
structure Config (σ ρ φ : Type) where
  enc : σ → Encoder ρ
  level : ρ → Level
  grow : Nat → Nat → Nat
  file : σ → φ
  rotating : φ → RotatingFile

def Config.writer (c : Config σ ρ φ) : Writer.Config σ ρ := ⟨fun _ => .writer, c.enc, c.level, c.grow⟩

structure State (ι σ ρ φ : Type) where
  sink : Writer.State ι σ ρ Failure
  file : φ → File.State

inductive Act (ι σ ρ φ : Type) where
  | sink (a : Writer.Act ι σ ρ Failure)
  | write (i : ι) (w : Answers)
  | file (f : φ) (a : File.Act)

abbrev Event (ι σ ρ : Type) := Writer.Event ι σ ρ Failure

-- The steps of a WriterSink that are not those of its writer.
def own : Writer.Act ι σ ρ Failure → Bool
  | .hand _ _ | .wrote _ _ => false
  | _ => true

-- The calls of a RotatingFile that do not come from a sink.
def apart : File.Act → Bool
  | .write _ _ => false
  | _ => true

-- The Writes that the sinks over f made, in the order of its lock.
def written [DecidableEq φ] (c : Config σ ρ φ) (f : φ) (log : List (Event ι σ ρ)) :
    List (Writer.Written ι σ ρ Failure) :=
  log.filterMap fun
    | .wrote w => if c.file w.emission.sink = f then some w else none
    | .call _ | .filtered _ | .ret _ _ | .setLevel _ _ => none

theorem written_silent [DecidableEq φ] {c : Config σ ρ φ} {log evs : List (Event ι σ ρ)} (f : φ)
    (h : ∀ w, .wrote w ∉ evs) : written c f (log ++ evs) = written c f log := by
  have hnone : written c f evs = [] := by
    refine List.filterMap_eq_nil_iff.mpr fun ev hev => ?_
    cases ev with
    | wrote w => exact absurd hev (h w)
    | _ => rfl
  rw [written, List.filterMap_append, ← written, ← written, hnone, List.append_nil]

theorem mem_log_of_mem_written [DecidableEq φ] {c : Config σ ρ φ} {f : φ} {log : List (Event ι σ ρ)}
    {w : Writer.Written ι σ ρ Failure} (h : w ∈ written c f log) : .wrote w ∈ log := by
  obtain ⟨ev, hev, hw⟩ := List.mem_filterMap.mp h
  cases ev with
  | wrote v =>
    dsimp only at hw
    split at hw
    · exact Option.some.inj hw ▸ hev
    · cases hw
  | _ => cases hw

theorem written_wrote [DecidableEq φ] (c : Config σ ρ φ) (f : φ) (log : List (Event ι σ ρ))
    (w : Writer.Written ι σ ρ Failure) :
    written c f (log ++ [.wrote w]) =
      written c f log ++ if c.file w.emission.sink = f then [w] else [] := by
  rw [written, List.filterMap_append, ← written]
  split
  next h => simp [h]
  next h => simp [h]

theorem set_set [DecidableEq ι] (s : Writer.State ι σ ρ Failure) (i : ι) (ph ph' : Writer.Phase ι σ ρ Failure) :
    (s.set i ph).set i ph' = s.set i ph' := by
  simp [Writer.State.set]

variable [DecidableEq ι] [DecidableEq σ] [DecidableEq φ]

def step (c : Config σ ρ φ) (s : State ι σ ρ φ) :
    Act ι σ ρ φ → Option (State ι σ ρ φ × List (Event ι σ ρ))
  | .sink a =>
      if own a then (Writer.step c.writer s.sink a).map fun q => ({ s with sink := q.1 }, q.2)
      else none
  | .write i w =>
      match s.sink.client i with
      | .writing e a 0 =>
          let f := c.file e.sink
          let p := (s.sink.buf a).b
          let q := (c.rotating f).write w p (s.file f)
          some (⟨(s.sink.take e.sink (p.take q.2.1)).set i (.unlocking e a q.2.2),
              Function.update s.file f q.1⟩, [.wrote ⟨e, none, p.take q.2.1, q.2.2⟩])
      | _ => none
  | .file f a =>
      if apart a then
        ((c.rotating f).step (s.file f) a).map fun q =>
          ({ s with file := Function.update s.file f q.1 }, [])
      else none

def machine (c : Config σ ρ φ) (levels : σ → Level) (mtime : Int) (dir : φ → Dir) :
    Machine (State ι σ ρ φ) (Act ι σ ρ φ) (Event ι σ ρ) where
  init := ⟨(Writer.machine c.writer levels).init, fun f => (c.rotating f).start mtime (dir f)⟩
  step := step c

inductive Step (c : Config σ ρ φ) (s : State ι σ ρ φ) :
    Act ι σ ρ φ → State ι σ ρ φ → List (Event ι σ ρ) → Prop
  | sink (a : Writer.Act ι σ ρ Failure) (ha : own a = true) {t : Writer.State ι σ ρ Failure}
      {evs : List (Event ι σ ρ)} (h : Writer.step c.writer s.sink a = some (t, evs)) :
      Step c s (.sink a) { s with sink := t } evs
  | write (i : ι) (w : Answers) (e : Writer.Emission ι σ ρ) (a : Nat)
      (h : s.sink.client i = .writing e a 0) {t : File.State} {n : Nat} {err : Option Failure}
      (hq : (c.rotating (c.file e.sink)).write w (s.sink.buf a).b (s.file (c.file e.sink)) =
        (t, n, err)) :
      Step c s (.write i w)
        ⟨(s.sink.take e.sink ((s.sink.buf a).b.take n)).set i (.unlocking e a err),
          Function.update s.file (c.file e.sink) t⟩
        [.wrote ⟨e, none, (s.sink.buf a).b.take n, err⟩]
  | file (f : φ) (a : File.Act) (ha : apart a = true) {t : File.State} {fevs : List File.Event}
      (h : (c.rotating f).step (s.file f) a = some (t, fevs)) :
      Step c s (.file f a) { s with file := Function.update s.file f t } []

variable {c : Config σ ρ φ} {s s' : State ι σ ρ φ} {evs log : List (Event ι σ ρ)} {levels : σ → Level}
  {mtime : Int} {dir : φ → Dir}

theorem step_cases {act : Act ι σ ρ φ} (h : step c s act = some (s', evs)) : Step c s act s' evs := by
  cases act with
  | sink a =>
    rw [step] at h
    split at h
    next ha =>
      obtain ⟨⟨t, evs'⟩, ht, he⟩ := Option.map_eq_some_iff.mp h
      cases he
      exact .sink a ha ht
    next => cases h
  | write i w =>
    rw [step] at h
    split at h
    next e a hi =>
      cases h
      exact .write i w e a hi rfl
    next => cases h
  | file f a =>
    rw [step] at h
    split at h
    next ha =>
      obtain ⟨⟨t, fevs⟩, ht, he⟩ := Option.map_eq_some_iff.mp h
      cases he
      exact .file f a ha ht
    next => cases h

-- A Write that is short returns an error, and none is longer than what it was given.
theorem write_result {r : RotatingFile} {w : Answers} {p : Bytes} {s t : File.State} {n : Nat}
    {err : Option Failure} (h : r.write w p s = (t, n, err)) :
    n ≤ p.length ∧ (n = p.length ∨ err.isSome) := by
  have hhandle (s : File.State) : (r.handleWrite w p s).2.1 ≤ p.length ∧
      ((r.handleWrite w p s).2.1 = p.length ∨ (r.handleWrite w p s).2.2.isSome) := by
    unfold RotatingFile.handleWrite
    split_ifs
    · simp
    · split <;> simp
  unfold RotatingFile.write at h
  split at h
  · split at h
    next =>
      cases h
      simp
    next s₁ _ =>
      have hs := hhandle s₁
      rw [h] at hs
      exact hs
  · have hs := hhandle s
    rw [h] at hs
    exact hs

-- A Write of the file is the two steps of a writer that hands over n bytes and returns err.
theorem writer_writes {p : Writer.Config σ ρ} {s : Writer.State ι σ ρ Failure} {i : ι}
    {e : Writer.Emission ι σ ρ} {a n : Nat} {err : Option Failure}
    (hi : s.client i = .writing e a 0) (hle : n ≤ (s.buf a).b.length)
    (herr : n = (s.buf a).b.length ∨ err.isSome) {before : List (Event ι σ ρ)}
    (h : (Writer.machine p levels).Run before s) :
    (Writer.machine p levels).Run (before ++ [.wrote ⟨e, none, (s.buf a).b.take n, err⟩])
      ((s.take e.sink ((s.buf a).b.take n)).set i (.unlocking e a err)) := by
  have hhand : (Writer.machine p levels).step s (.hand i n) =
      some ((s.take e.sink ((s.buf a).b.take n)).set i (.writing e a n), []) := by
    simp [Writer.machine, Writer.step, hi, hle]
  have hwrote : (Writer.machine p levels).step
      ((s.take e.sink ((s.buf a).b.take n)).set i (.writing e a n)) (.wrote i err) =
        some ((s.take e.sink ((s.buf a).b.take n)).set i (.unlocking e a err),
        [.wrote ⟨e, none, (s.buf a).b.take n, err⟩]) := by
    have hclient : ((s.take e.sink ((s.buf a).b.take n)).set i (.writing e a n)).client i =
        .writing e a n := Function.update_self ..
    simp only [Writer.machine, Writer.step, hclient, set_set]
    exact if_pos herr
  have hrun := (h.step trivial hhand).step trivial hwrote
  rwa [List.append_nil] at hrun

theorem run_writer (h : (machine c levels mtime dir).Run log s) :
    (Writer.machine c.writer levels).Run log s.sink := by
  rw [← List.filterMap_some (l := log)]
  refine h.simulate State.sink some rfl ?_
  intro log s act s' evs _ hs before hrun
  rw [List.filterMap_some]
  cases step_cases hs with
  | sink a ha ht => exact hrun.step trivial ht
  | write i w e a hi hq =>
    obtain ⟨hle, herr⟩ := write_result hq
    exact writer_writes hi hle herr hrun
  | file f a ha ht =>
    rw [List.append_nil]
    exact hrun

theorem own_silent {p : Writer.Config σ ρ} {s t : Writer.State ι σ ρ Failure}
    {a : Writer.Act ι σ ρ Failure} (hb : ∀ i, (s.client i).Good p s.buf)
    (hp : ∀ k, p.outlet k = .writer) (ha : own a = true)
    (hs : Writer.Step p s a t evs) : ∀ w, .wrote w ∉ evs := by
  cases hs with
  | hand => cases ha
  | wrote => cases ha
  | send i e msg n err hi hn =>
    have hgood := hb i
    rw [hi] at hgood
    exact absurd (hgood.1.symm.trans (hp e.sink)) (by decide)
  | _ => simp

theorem divides_run (h : (machine c levels mtime dir).Run log s) (f : φ) :
    (c.rotating f).Divides (s.file f)
      (RotatingFile.content ((c.rotating f).start mtime (dir f)) (c.rotating f).base ::
        (written c f log).map Writer.Written.text) := by
  refine h.invariant (P := fun log s => (c.rotating f).Divides (s.file f)
    (_ :: (written c f log).map Writer.Written.text)) (RotatingFile.Divides.start mtime (dir f)) ?_
  intro log s act s' evs hexec hd _ hs
  cases step_cases hs with
  | sink a ha ht =>
    have hgood := (Writer.run_buffers (run_writer hexec)).good
    rw [written_silent f (own_silent hgood (fun _ => rfl) ha (Writer.step_cases ht))]
    exact hd
  | @write i w e a hi t n err hq =>
    rw [written_wrote]
    by_cases hf : c.file e.sink = f
    · subst hf
      have hwrite := hd.write w (s.sink.buf a).b
      rw [hq] at hwrite
      simpa using hwrite
    · simpa [hf, Function.update_of_ne (Ne.symm hf)] using hd
  | file f' a ha ht =>
    rw [List.append_nil]
    by_cases hf : f = f'
    · subst hf
      have hstep := hd.step ht fun w p he => by simp [he, apart] at ha
      simpa using hstep
    · simpa [Function.update_of_ne hf] using hd

theorem files_hold_whole_lines (h : (machine c levels mtime dir).Run log s) (f : φ) :
    ∃ bs last, (c.rotating f).Blocks (s.file f) bs last ∧
      bs.flatten ++ last =
        RotatingFile.content ((c.rotating f).start mtime (dir f)) (c.rotating f).base ::
          (written c f log).map Writer.Written.text ∧
      ∀ w ∈ written c f log, w.text <+: c.writer.line w.emission ∧
        (w.err = none → w.text = c.writer.line w.emission) := by
  obtain ⟨bs, last, hblocks, htexts⟩ := divides_run h f
  refine ⟨bs, last, hblocks, htexts, fun w hw => ?_⟩
  have hmem : .wrote w ∈ log := mem_log_of_mem_written hw
  exact ((Writer.run_reasons (run_writer h)).event _ hmem).2.2

-- Two sinks over one file with room for three bytes.
def pairConfig : Config Bool Bytes Unit where
  enc := fun _ => Writer.rawEncoder
  level := fun r => r.length
  grow := fun cap _ => 2 * cap
  file := fun _ => ()
  rotating := fun _ => ⟨ascii "a", 3, 0, 0, false⟩

def emitVia (k : Bool) (r : Bytes) (now : Time) : List (Act Unit Bool Bytes Unit) :=
  [.sink (.emit () k r), .sink (.check ()), .sink (.getBuffer () none), .sink (.append () (r.length + 1)),
    .sink (.encoded ()), .sink (.lock ()), .write () (.full now 0), .sink (.unlock ()),
    .sink (.putBuffer ()), .sink (.ret ())]

theorem files_hold_whole_lines_rotated :
    ∃ log s, (machine (ι := Unit) pairConfig (fun _ => 0) 0 fun _ => ∅).Run log s ∧
      (s.file ()).rotations.map (RotatingFile.content (s.file ())) = [[97, 97, 10]] ∧
      ∃ bs last, (pairConfig.rotating ()).Blocks (s.file ()) bs last ∧
        bs.flatten ++ last = [[], [97, 97, 10], [98, 10]] := by
  obtain ⟨log, s, hrun, hgood⟩ := Machine.exists_exec
    (M := machine (ι := Unit) pairConfig (fun _ => 0) 0 fun _ => ∅) (C := fun _ _ => True)
    (emitVia false [97, 97] RotatingFile.noon ++ emitVia true [98] RotatingFile.noon)
    (fun log s => (s.file ()).rotations.map (RotatingFile.content (s.file ())) == [[97, 97, 10]] &&
      (written pairConfig () log).map Writer.Written.text == [[97, 97, 10], [98, 10]])
    (by decide +kernel)
  rw [Bool.and_eq_true, beq_iff_eq, beq_iff_eq] at hgood
  obtain ⟨bs, last, hblocks, htexts, -⟩ := files_hold_whole_lines hrun ()
  rw [hgood.2] at htexts
  exact ⟨log, s, hrun, hgood.1, bs, last, hblocks, htexts⟩

end UbgoLogger.Sink.FileSink
