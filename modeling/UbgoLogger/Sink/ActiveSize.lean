import UbgoLogger.Sink.Rotation

namespace UbgoLogger.Sink.File.RotatingFile
open Foundation Foundation.Text

-- What happens to the directory: calls on r and its jobs, other programs at work on other files,
-- and a Reopen that finds the whole directory changed, the active file with it.
inductive Shared where
  | own (a : Act)
  | others (d : Dir)
  | reopenOver (w : Answers) (d : Dir)

section Model

variable (r : RotatingFile)

def replaceOthers (d : Dir) (s : State) : State :=
  match s.dir.lookup r.base with
  | some file => { s with dir := d.insert r.base file }
  | none => { s with dir := d.erase r.base }

def sharedStep (s : State) : Shared → Option (State × List Event)
  | .own a => r.step s a
  | .others d => some (r.replaceOthers d s, [])
  | .reopenOver w d => r.step { s with dir := d } (.reopen w)

def shared (mtime : Int) (d : Dir) : Machine State Shared Event where
  init := r.start mtime d
  step := r.sharedStep

structure Sized (s : State) : Prop where
  size : s.opened = true → ∃ file, s.dir.lookup r.base = some file ∧ s.size = file.data.length
  jobs : ∀ j ∈ s.jobs, r.dotted <+: j.name

end Model

variable {r : RotatingFile} {s s' : State} {w : Answers} {p : Bytes} {log evs : List Event}

theorem Sized.of_base {dir : Dir} {jobs : List Job} (h : r.Sized s)
    (hdir : dir.lookup r.base = s.dir.lookup r.base) (hjobs : ∀ j ∈ jobs, r.dotted <+: j.name) :
    r.Sized { s with dir := dir, jobs := jobs } :=
  ⟨fun ho => hdir ▸ h.size ho, hjobs⟩

theorem Sized.of_closed (h : r.Sized s) (hopened : s'.opened = false) (hjobs : s'.jobs = s.jobs) :
    r.Sized s' :=
  ⟨fun ho => absurd (ho.symm.trans hopened) nofun, hjobs ▸ h.jobs⟩

theorem Sized.append (h : r.Sized s) (hopened : s.opened = true) (mtime : Int) (p : Bytes) :
    r.Sized (r.append mtime p s) := by
  obtain ⟨file, hfile, hsize⟩ := h.size hopened
  have hcontent : content s r.base = file.data := by rw [content, hfile]
  refine ⟨fun _ => ⟨⟨content s r.base ++ p, mtime⟩, AList.lookup_insert _, ?_⟩, h.jobs⟩
  rw [hcontent, List.length_append, ← hsize]
  rfl

theorem Sized.handleWrite (h : r.Sized s) (w : Answers) (p : Bytes) :
    r.Sized (r.handleWrite w p s).1 := by
  unfold RotatingFile.handleWrite
  cases hopened : s.opened with
  | false => exact h
  | true =>
    cases w.write with
    | none => exact h.append hopened w.mtime p
    | some n => exact h.append hopened w.mtime (p.take n)

theorem Sized.turned (h : r.Sized s) (file : Inode) : r.Sized (r.turned w file s) :=
  ⟨fun _ => ⟨⟨[], w.mtime⟩, lookup_turned_base file, rfl⟩, dotted_of_mem_turned h.jobs file⟩

theorem Sized.write (h : r.Sized s) (w : Answers) (p : Bytes) : r.Sized (r.write w p s).1 := by
  have hwriting := write_cases (r := r) (w := w) (s := s) (p := p)
  generalize r.write w p s = q at hwriting ⊢
  generalize r.writeEvents w p s = evs at hwriting
  cases hwriting with
  | failed s' e hopened hjobs => exact h.of_closed hopened hjobs
  | rotated file => exact (h.turned file).handleWrite w p
  | fits => exact h.handleWrite w p

theorem Sized.reopen (h : r.Sized s) (w : Answers) : r.Sized (r.reopen w s).1 := by
  unfold RotatingFile.reopen
  have hopening := openExisting_cases (r := r) (w := w) (s := shut s)
  generalize r.openExisting w (shut s) = q at hopening ⊢
  cases hopening with
  | failed s' e hopened hjobs => exact h.of_closed hopened hjobs
  | done hw =>
    refine ⟨fun _ => ?_, h.jobs⟩
    obtain ⟨file, hfile⟩ := Option.isSome_iff_exists.mp
      (AList.lookup_isSome.mpr (mem_create (r := r) w.mtime s.dir))
    refine ⟨file, hfile, ?_⟩
    simp only [content, shut, hfile]

theorem lookup_zipFile_base {name : Bytes} (h : r.dotted <+: name) (z : Zip) (mtime : Int) (d : Dir) :
    (zipFile name z mtime d).1.lookup r.base = d.lookup r.base := by
  have hne : r.base ≠ zipped name :=
    (r.ne_base_of_dotted (h.trans (List.prefix_append _ _))).symm
  unfold zipFile
  split
  · exact AList.lookup_insert_ne hne
  · exact AList.lookup_insert_ne hne
  · rfl

theorem Sized.step (h : r.Sized s) {a : Act} (hs : r.step s a = some (s', evs)) : r.Sized s' := by
  cases r.step_cases hs with
  | write w p => exact h.write w p
  | reopen w => exact h.reopen w
  | sync => exact h
  | close => exact h.of_closed rfl rfl
  | zip n z mtime name hn =>
    exact h.of_base (lookup_zipFile_base (h.jobs _ (List.mem_of_getElem? hn)) z mtime s.dir)
      (dotted_of_mem_set h.jobs hn)
  | remove n ok name hn =>
    refine h.of_base ?_ (dotted_of_mem_set h.jobs hn)
    split_ifs
    · exact AList.lookup_erase_ne (r.ne_base_of_dotted (h.jobs _ (List.mem_of_getElem? hn))).symm
    · rfl
  | prune n l name hn =>
    exact h.of_base (lookup_prune_base s.dir) fun j hj => h.jobs j (List.mem_of_mem_eraseIdx hj)

theorem Sized.replaceOthers (h : r.Sized s) (d : Dir) : r.Sized (r.replaceOthers d s) := by
  unfold RotatingFile.replaceOthers
  split
  next file hfile => exact h.of_base ((AList.lookup_insert _).trans hfile.symm) h.jobs
  next hnone => exact h.of_base ((AList.lookup_erase _ _).trans hnone.symm) h.jobs

theorem Sized.sharedStep (h : r.Sized s) {c : Shared} (hs : r.sharedStep s c = some (s', evs)) :
    r.Sized s' := by
  cases c with
  | own a => exact h.step hs
  | others d =>
    obtain ⟨rfl, -⟩ := Prod.mk.inj (Option.some.inj hs)
    exact h.replaceOthers d
  | reopenOver w d =>
    obtain ⟨rfl, -⟩ := Prod.mk.inj (Option.some.inj hs)
    -- Reopen closes the handle first, so the directory it finds may be any.
    have hshut : r.Sized (shut { s with dir := d }) := h.of_closed rfl rfl
    exact hshut.reopen w

theorem sized_start (r : RotatingFile) (mtime : Int) (d : Dir) : r.Sized (r.start mtime d) := by
  have H := holding_start (r := r) mtime d
  obtain ⟨file, hfile⟩ := Option.isSome_iff_exists.mp (AList.lookup_isSome.mpr H.active)
  refine ⟨fun _ => ⟨file, hfile, ?_⟩, nofun⟩
  rw [H.size, content, hfile]

theorem sized_run {mtime : Int} {d : Dir} (h : (r.shared mtime d).Run log s) : r.Sized s :=
  h.invariant (P := fun _ s => r.Sized s) (sized_start r mtime d) fun _ ih _ hs => ih.sharedStep hs

theorem handleWrite_ok (h : (r.handleWrite w p s).2.2 = none) :
    s.opened = true ∧ (r.handleWrite w p s).1 = r.append w.mtime p s := by
  unfold RotatingFile.handleWrite at h ⊢
  cases hopened : s.opened with
  | false => simp [hopened] at h
  | true =>
    cases hw : w.write with
    | none => exact ⟨rfl, by simp⟩
    | some n => simp [hopened, hw] at h

theorem Sized.write_le (h : r.Sized s) (hok : (r.write w p s).2.2 = none) :
    ((content (r.write w p s).1 r.base).length : Int) ≤ Max.max r.max p.length := by
  have hwriting := write_cases (r := r) (w := w) (s := s) (p := p)
  generalize r.write w p s = q at hwriting hok ⊢
  generalize r.writeEvents w p s = evs at hwriting
  cases hwriting with
  | failed s' e => cases hok
  | rotated file =>
    rw [(handleWrite_ok hok).2, content_append, content_turned_base]
    exact le_max_right _ _
  | fits hfits =>
    obtain ⟨hopened, hwrite⟩ := handleWrite_ok hok
    obtain ⟨file, hfile, hsize⟩ := h.size hopened
    have hlength : (content s r.base).length = s.size := by rw [content, hfile, hsize]
    have hroom : ¬ (r.max < s.size + p.length ∧ 0 < s.size) := of_decide_eq_false hfits
    rw [hwrite, content_append, List.length_append, hlength, Nat.cast_add]
    omega

theorem active_size_bounded (r : RotatingFile) {mtime : Int} {d : Dir} {log : List Event}
    {s : State} (h : (r.shared mtime d).Run log s) :
    (s.opened = true → ∃ file, s.dir.lookup r.base = some file ∧ s.size = file.data.length) ∧
    ∀ w p, (r.write w p s).2.2 = none →
      ((content (r.write w p s).1 r.base).length : Int) ≤ Max.max r.max p.length :=
  ⟨(sized_run h).size, fun _ _ hok => (sized_run h).write_le hok⟩

-- A rotation, one that fails, and a Reopen that finds another active file.
def replaced : List Shared :=
  renameRefused.map Shared.own ++
    [.reopenOver (.full noon 0) ((∅ : Dir).insert tiny.base ⟨ascii "long", 0⟩)]

theorem active_size_bounded_reopened :
    ∃ (log : List Event) (s : State), (tiny.shared 0 ∅).Run log s ∧
      log = [.opened, .rotationFailed .rename, .opened] ∧
      (∃ file, s.dir.lookup tiny.base = some file ∧ file.data.length = 4) ∧
      (content (tiny.write (.full noon 0) (ascii "xy") s).1 tiny.base).length ≤ 2 := by
  obtain ⟨log, s, hrun, hgood⟩ := Machine.exists_exec (M := tiny.shared 0 ∅) (C := fun _ _ => True)
    replaced (fun log s => decide (log = [.opened, .rotationFailed .rename, .opened] ∧
      s.opened = true ∧ s.size = 4 ∧ (tiny.write (.full noon 0) (ascii "xy") s).2.2 = none))
    (by decide +kernel)
  obtain ⟨hlog, hopened, hsize, hok⟩ := of_decide_eq_true hgood
  obtain ⟨hreal, hbound⟩ := active_size_bounded tiny hrun
  obtain ⟨file, hfile, hlength⟩ := hreal hopened
  have hle := hbound (.full noon 0) (ascii "xy") hok
  exact ⟨log, s, hrun, hlog, ⟨file, hfile, hlength ▸ hsize⟩,
    by simpa [tiny, RotatingFile.max, ascii] using hle⟩

end UbgoLogger.Sink.File.RotatingFile
