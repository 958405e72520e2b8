import Mathlib.Algebra.BigOperators.Group.Finset.Basic
import Mathlib.Data.List.Dedup
import UbgoLogger.Sink.RotatingFile

namespace UbgoLogger.Sink.File.RotatingFile
open Foundation Foundation.Text

section Recovery

variable {r : RotatingFile} {s s' : State} {a : Act} {evs log : List Event} {w : Answers} {p : Bytes}

-- No rotation failed and no Close came after the last successful open.
def live (log : List Event) : Bool :=
  match log.getLast? with
  | some e => e = .opened
  | none => true

theorem live_concat (log : List Event) (e : Event) : live (log ++ [e]) = decide (e = .opened) := by
  simp [live]

structure Intact (r : RotatingFile) (log : List Event) (s : State) : Prop where
  handle : s.opened = live log
  active : s.opened = true → r.base ∈ s.dir
  jobs : ∀ j ∈ s.jobs, r.dotted <+: j.name

theorem base_mem_turned {file : Inode} : r.base ∈ (r.turned w file s).dir :=
  AList.lookup_isSome.mp (by rw [lookup_turned_base]; rfl)

theorem Intact.job {dir : Dir} {jobs : List Job} (I : Intact r log s)
    (hdir : r.base ∈ s.dir → r.base ∈ dir) (hjobs : ∀ j ∈ jobs, r.dotted <+: j.name) :
    Intact r (log ++ []) { s with dir := dir, jobs := jobs } := by
  rw [List.append_nil]
  exact ⟨I.handle, fun h => hdir (I.active h), hjobs⟩

theorem Intact.closes {e : Event} (I : Intact r log s) (hopened : s'.opened = false)
    (hjobs : s'.jobs = s.jobs) (he : e ≠ .opened) : Intact r (log ++ [e]) s' := by
  refine ⟨?_, fun h => ?_, hjobs ▸ I.jobs⟩
  · rw [live_concat, hopened, decide_eq_false he]
  · rw [hopened] at h
    cases h

theorem dotted_of_mem_set {jobs : List Job} {n : Nat} {name : Bytes} {stage stage' : Stage}
    (h : ∀ j ∈ jobs, r.dotted <+: j.name) (hn : jobs[n]? = some ⟨name, stage⟩) :
    ∀ j ∈ jobs.set n ⟨name, stage'⟩, r.dotted <+: j.name := by
  intro j hj
  rcases List.mem_or_eq_of_mem_set hj with hj | rfl
  · exact h j hj
  · exact h ⟨name, stage⟩ (List.mem_of_getElem? hn)

theorem dotted_of_mem_turned (h : ∀ j ∈ s.jobs, r.dotted <+: j.name) (file : Inode) :
    ∀ j ∈ (r.turned w file s).jobs, r.dotted <+: j.name := by
  unfold turned
  dsimp only
  split_ifs
  · rw [List.forall_mem_append, List.forall_mem_singleton]
    exact ⟨h, List.prefix_append _ _⟩
  · exact h

theorem Intact.write (I : Intact r log s) (w : Answers) (p : Bytes) :
    Intact r (log ++ r.writeEvents w p s) (r.write w p s).1 := by
  have hwriting := write_cases (r := r) (w := w) (s := s) (p := p)
  generalize r.write w p s = q at hwriting ⊢
  generalize r.writeEvents w p s = evs at hwriting ⊢
  cases hwriting with
  | failed s' e hopened hjobs => exact I.closes hopened hjobs nofun
  | rotated file hrotate hw hopened hlookup =>
    obtain ⟨hopen, hjobs, hbase⟩ := handleWrite_frame (r := r) (w := w) (s := r.turned w file s) p
    refine ⟨?_, fun _ => hbase base_mem_turned, ?_⟩
    · rw [live_concat, hopen]
      rfl
    · rw [hjobs]
      exact dotted_of_mem_turned I.jobs file
  | fits hfits =>
    obtain ⟨hopen, hjobs, hbase⟩ := handleWrite_frame (r := r) (w := w) (s := s) p
    rw [List.append_nil]
    exact ⟨hopen ▸ I.handle, fun h => hbase (I.active (hopen ▸ h)), hjobs ▸ I.jobs⟩

theorem Intact.reopen (I : Intact r log s) (w : Answers) :
    Intact r (log ++ if (r.reopen w s).2 = none then [.opened] else [.closed]) (r.reopen w s).1 := by
  unfold RotatingFile.reopen
  have hopening := openExisting_cases (r := r) (w := w) (s := shut s)
  generalize r.openExisting w (shut s) = q at hopening ⊢
  cases hopening with
  | failed s' e hopened hjobs =>
    rw [if_neg (by simp)]
    exact I.closes hopened hjobs nofun
  | done hw =>
    rw [if_pos rfl]
    refine ⟨?_, fun _ => mem_create _ _, I.jobs⟩
    rw [live_concat]
    rfl

theorem base_mem_zipFile {name : Bytes} {z : Zip} {mtime : Int} {d : Dir} (h : r.base ∈ d) :
    r.base ∈ (zipFile name z mtime d).1 := by
  unfold zipFile
  split <;> simp [h]

theorem Intact.step (I : Intact r log s) (hs : r.step s a = some (s', evs)) :
    Intact r (log ++ evs) s' := by
  cases r.step_cases hs with
  | write w p => exact I.write w p
  | reopen w => exact I.reopen w
  | sync => rwa [List.append_nil]
  | close => exact I.closes rfl rfl nofun
  | zip n z mtime name hn => exact I.job base_mem_zipFile (dotted_of_mem_set I.jobs hn)
  | remove n ok name hn =>
    refine I.job (fun h => ?_) (dotted_of_mem_set I.jobs hn)
    split_ifs
    · have hne := r.ne_base_of_dotted (I.jobs _ (List.mem_of_getElem? hn))
      exact AList.mem_erase.mpr ⟨hne.symm, h⟩
    · exact h
  | prune n l name hn =>
    refine I.job (fun h => ?_) fun j hj => I.jobs j (List.mem_of_mem_eraseIdx hj)
    rw [← AList.lookup_isSome, lookup_prune_base, AList.lookup_isSome]
    exact h

theorem intact {mtime : Int} {d : Dir} {C : State → Act → Prop}
    (e : (r.machine mtime d).Exec C log s) : Intact r log s := by
  refine e.invariant (P := Intact r) ⟨rfl, fun _ => mem_create _ _, ?_⟩ fun _ I _ hs => I.step hs
  simp [machine, start]

theorem write_of_opened (hw : w.Succeed) (hopened : s.opened = true) (hbase : r.base ∈ s.dir) :
    ∃ t, t.opened = true ∧ r.write w p s = (r.append w.mtime p t, p.length, none) := by
  unfold RotatingFile.write
  split_ifs with hrotate
  · obtain ⟨file, hfile⟩ := Option.isSome_iff_exists.mp (AList.lookup_isSome.mpr hbase)
    rw [rotateLocked_succeeds hw hopened hfile]
    exact ⟨r.turned w file s, rfl, handleWrite_succeeds hw rfl⟩
  · exact ⟨s, hopened, handleWrite_succeeds hw hopened⟩

theorem rotateLocked_of_closed (hopened : s.opened = false) :
    r.rotateLocked w s = (s, some .closed) := by
  simp [rotateLocked, hopened]

theorem write_of_closed (hopened : s.opened = false) : r.write w p s = (s, 0, some .closed) := by
  unfold RotatingFile.write
  rw [rotateLocked_of_closed hopened, handleWrite_closed hopened]
  split_ifs <;> rfl

theorem write_of_failed_rotation (hrotate : r.mustRotate s p = true) (hw : w.rotates = false) :
    ∃ e, (r.write w p s).2 = (0, some e) ∧ r.writeEvents w p s = [.rotationFailed e] := by
  have hwriting := write_cases (r := r) (w := w) (s := s) (p := p)
  generalize r.write w p s = q at hwriting ⊢
  generalize r.writeEvents w p s = evs at hwriting ⊢
  cases hwriting with
  | failed s' e => exact ⟨e, rfl, rfl⟩
  | rotated file hrotate hw' => simp [hw] at hw'
  | fits hfits => simp [hrotate] at hfits

theorem writeEvents_of_closed (hopened : s.opened = false) (w : Answers) (p : Bytes) :
    .opened ∉ r.writeEvents w p s := by
  unfold writeEvents
  rw [rotateLocked_of_closed hopened]
  split_ifs <;> simp

theorem write_recovers_iff_live {mtime : Int} {d : Dir} (e : (r.machine mtime d).Run log s) :
    (∀ w p, r.mustRotate s p = true → w.rotates = false →
      ∃ e, (r.write w p s).2 = (0, some e) ∧ r.writeEvents w p s = [.rotationFailed e]) ∧
    (∀ w p, w.Succeed → (((r.write w p s).2 = (p.length, none) ∧
      ∃ c, content (r.write w p s).1 r.base = c ++ p) ↔ live log = true)) ∧
    (live log = false → ∀ w p, .opened ∉ r.writeEvents w p s) := by
  have I := intact e
  refine ⟨fun w p => write_of_failed_rotation, fun w p hw => ?_,
    fun hlive => writeEvents_of_closed (I.handle.trans hlive)⟩
  rw [← I.handle]
  constructor
  · rintro ⟨hresult, -⟩
    by_contra hopened
    rw [write_of_closed (Bool.eq_false_iff.mpr hopened)] at hresult
    simp at hresult
  · intro hopened
    obtain ⟨t, -, ht⟩ := write_of_opened (p := p) hw hopened (I.active hopened)
    rw [ht]
    exact ⟨rfl, content t r.base, content_append w.mtime p⟩

end Recovery

def noon : Time := ⟨43200, 0, 0, Time.zero_nsec_lt⟩

def tiny : RotatingFile := ⟨ascii "a", 1, 0, 0, false⟩

-- Each of the calls a rotation makes, failing alone.
def refusals : List Answers :=
  [{ Answers.full noon 0 with close := false }, { Answers.full noon 0 with rename := false },
    { Answers.full noon 0 with mkdir := false }, { Answers.full noon 0 with openFile := false },
    { Answers.full noon 0 with stat := false }]

-- A rotation, then one that fails at the rename.
def renameRefused : List Act :=
  [.write (.full noon 0) (ascii "x"), .write (.full noon 0) (ascii "y"),
    .write { Answers.full noon 0 with rename := false } (ascii "z")]

theorem write_recovers_iff_live_reopened :
    ∃ (log log' : List Event) (s s' : State),
      (tiny.machine 0 ∅).Run log s ∧ log = [.opened, .rotationFailed .rename] ∧
      (∀ w p, w.Succeed → (tiny.write w p s).2 ≠ (p.length, none) ∨
        ∀ c, content (tiny.write w p s).1 tiny.base ≠ c ++ p) ∧
      (tiny.machine 0 ∅).Run log' s' ∧ log' = [.opened, .rotationFailed .rename, .opened] ∧
      (∀ w p, w.Succeed → (tiny.write w p s').2 = (p.length, none)) ∧
      ∃ e, (tiny.write { Answers.full noon 0 with mkdir := false } (ascii "v") s').2 =
        (0, some e) := by
  obtain ⟨log, s, hrun, hlog⟩ := Machine.exists_exec (M := tiny.machine 0 ∅) (C := fun _ _ => True)
    renameRefused (fun log _ => decide (log = [.opened, .rotationFailed .rename]))
    (by decide +kernel)
  obtain ⟨log', s', hrun', hgood⟩ := Machine.exists_exec (M := tiny.machine 0 ∅)
    (C := fun _ _ => True) (renameRefused ++ [.reopen (.full noon 0)])
    (fun log s => decide (log = [.opened, .rotationFailed .rename, .opened] ∧
      tiny.mustRotate s (ascii "v") = true)) (by decide +kernel)
  obtain rfl := of_decide_eq_true hlog
  obtain ⟨rfl, hrotate⟩ := of_decide_eq_true hgood
  refine ⟨_, _, s, s', hrun, rfl, fun w p hw => ?_, hrun', rfl, fun w p hw => ?_, ?_⟩
  · have hdead := mt ((write_recovers_iff_live hrun).2.1 w p hw).mp (by decide)
    rwa [not_and_or, not_exists] at hdead
  · exact (((write_recovers_iff_live hrun').2.1 w p hw).mpr (by decide)).1
  · obtain ⟨e, he, -⟩ := (write_recovers_iff_live hrun').1
      { Answers.full noon 0 with mkdir := false } _ hrotate rfl
    exact ⟨e, he⟩

theorem failed_rotation_wedges_writes : refusals.Forall fun w =>
    let s := (tiny.write (.full noon 0) (ascii "x") (tiny.start 0 ∅)).1
    let failed := tiny.write w (ascii "y") s
    failed.2.2.isSome = true ∧
      (tiny.write (.full noon 0) (ascii "z") failed.1).2 = (0, some .closed) :=
  List.forall_iff_forall_mem.mpr (List.all_iff_forall_prop.mp (by decide +kernel))

section Conservation

variable {r : RotatingFile} {s : State} {w : Answers} {p total : Bytes}

def writeAll (r : RotatingFile) (s : State) (calls : List (Answers × Bytes)) : State :=
  calls.foldl (fun s c => (r.write c.1 c.2 s).1) s

-- The rotated files on disk, each once, by the last rotation that made it.
def segments (s : State) : Bytes := (s.rotations.dedup.map (content s)).flatten

-- A rotation never takes a name that an earlier rotation gave.
def FreshNames (r : RotatingFile) : State → List (Answers × Bytes) → Prop
  | _, [] => True
  | s, (w, p) :: calls =>
      (r.mustRotate s p = true → r.rotated w.now ∉ s.rotations) ∧
        FreshNames r (r.write w p s).1 calls

instance decidableFreshNames (r : RotatingFile) :
    ∀ s calls, Decidable (FreshNames r s calls)
  | _, [] => isTrue trivial
  | s, (w, p) :: calls =>
      have := decidableFreshNames r (r.write w p s).1 calls
      inferInstanceAs (Decidable (_ ∧ _))

theorem segments_length (s : State) :
    (segments s).length = ∑ name ∈ s.rotations.toFinset, (content s name).length := by
  rw [segments, List.length_flatten, List.map_map]
  have hnames : s.rotations.dedup.toFinset = s.rotations.toFinset := by
    ext
    simp
  rw [← hnames]
  exact (List.sum_toFinset _ s.rotations.nodup_dedup).symm

structure Holding (r : RotatingFile) (total : Bytes) (s : State) : Prop where
  opened : s.opened = true
  active : r.base ∈ s.dir
  size : s.size = (content s r.base).length
  names : r.base ∉ s.rotations
  filled : ∀ name ∈ s.rotations, content s name ≠ []
  whole : s.rotations.Nodup → segments s ++ content s r.base = total
  lost : ¬ s.rotations.Nodup → (segments s).length + (content s r.base).length < total.length

theorem Holding.le (H : Holding r total s) :
    (segments s).length + (content s r.base).length ≤ total.length := by
  by_cases hnodup : s.rotations.Nodup
  · rw [← H.whole hnodup, List.length_append]
  · exact (H.lost hnodup).le

theorem content_append_ne {name : Bytes} (mtime : Int) (h : name ≠ r.base) :
    content (r.append mtime p s) name = content s name := by
  simp [content, append, AList.lookup_insert_ne h]

theorem segments_congr {t : State} (hrotations : t.rotations = s.rotations)
    (hcontent : ∀ name ∈ s.rotations, content t name = content s name) :
    segments t = segments s := by
  unfold segments
  rw [hrotations]
  congr 1
  exact List.map_congr_left fun name hname => hcontent name (List.mem_dedup.mp hname)

theorem Holding.append (H : Holding r total s) (mtime : Int) (p : Bytes) :
    Holding r (total ++ p) (r.append mtime p s) := by
  have hother : ∀ name ∈ s.rotations, content (r.append mtime p s) name = content s name :=
    fun name hname => content_append_ne mtime fun h => H.names (h ▸ hname)
  have hsegments : segments (r.append mtime p s) = segments s := segments_congr rfl hother
  constructor
  case opened => exact H.opened
  case active => simp [RotatingFile.append]
  case size => rw [content_append, List.length_append, ← H.size]; rfl
  case names => exact H.names
  case filled => exact fun name hname => hother name hname ▸ H.filled name hname
  case whole =>
    intro hnodup
    rw [hsegments, content_append, ← List.append_assoc, H.whole hnodup]
  case lost =>
    intro hnodup
    have := H.lost hnodup
    rw [hsegments, content_append, List.length_append, List.length_append]
    omega

theorem content_turned_base (file : Inode) : content (r.turned w file s) r.base = [] := by
  rw [content, lookup_turned_base]

theorem lookup_turned (hbackups : r.maxBackups = 0) (hage : r.maxAge = 0) {name : Bytes}
    (file : Inode) (h : name ≠ r.base) : (r.turned w file s).dir.lookup name =
      if name = r.rotated w.now then some file else s.dir.lookup name := by
  simp only [turned, prune_of_unlimited hbackups hage, lookup_create _ _ h]
  split_ifs with hname
  · rw [hname, AList.lookup_insert]
  · rw [AList.lookup_insert_ne hname, AList.lookup_erase_ne h]

theorem content_turned_rotated (hbackups : r.maxBackups = 0) (hage : r.maxAge = 0) (file : Inode) :
    content (r.turned w file s) (r.rotated w.now) = file.data := by
  rw [content, lookup_turned hbackups hage file (r.rotated_ne_base w.now), if_pos rfl]

theorem content_turned_ne (hbackups : r.maxBackups = 0) (hage : r.maxAge = 0) {name : Bytes}
    (file : Inode) (hbase : name ≠ r.base) (hname : name ≠ r.rotated w.now) :
    content (r.turned w file s) name = content s name := by
  rw [content, lookup_turned hbackups hage file hbase, if_neg hname]
  rfl

theorem segments_length_fresh (hbackups : r.maxBackups = 0) (hage : r.maxAge = 0) (file : Inode)
    (hbase : r.base ∉ s.rotations) (hfresh : r.rotated w.now ∉ s.rotations) :
    (segments (r.turned w file s)).length = (segments s).length + file.data.length := by
  have hnames : (r.turned w file s).rotations.toFinset =
      insert (r.rotated w.now) s.rotations.toFinset := by
    simp [turned]
  rw [segments_length, segments_length, hnames, Finset.sum_insert (by simpa using hfresh),
    content_turned_rotated hbackups hage, Nat.add_comm]
  congr 1
  refine Finset.sum_congr rfl fun name hname => ?_
  rw [List.mem_toFinset] at hname
  rw [content_turned_ne hbackups hage file (fun h => hbase (h ▸ hname)) fun h => hfresh (h ▸ hname)]

theorem segments_length_reused (hbackups : r.maxBackups = 0) (hage : r.maxAge = 0) (file : Inode)
    (hbase : r.base ∉ s.rotations) (hreused : r.rotated w.now ∈ s.rotations) :
    (segments (r.turned w file s)).length + (content s (r.rotated w.now)).length =
      (segments s).length + file.data.length := by
  have hmem : r.rotated w.now ∈ s.rotations.toFinset := List.mem_toFinset.mpr hreused
  have hnames : (r.turned w file s).rotations.toFinset = s.rotations.toFinset := by
    simp [turned, hmem]
  rw [segments_length, segments_length, hnames, ← Finset.add_sum_erase _ _ hmem,
    ← Finset.add_sum_erase _ _ hmem, content_turned_rotated hbackups hage]
  have hrest : ∑ name ∈ s.rotations.toFinset.erase (r.rotated w.now),
      (content (r.turned w file s) name).length =
      ∑ name ∈ s.rotations.toFinset.erase (r.rotated w.now), (content s name).length := by
    refine Finset.sum_congr rfl fun name hname => ?_
    obtain ⟨hne, hname⟩ := Finset.mem_erase.mp hname
    rw [List.mem_toFinset] at hname
    rw [content_turned_ne hbackups hage file (fun h => hbase (h ▸ hname)) hne]
  omega

theorem nodup_concat_iff {names : List Bytes} {name : Bytes} :
    (names ++ [name]).Nodup ↔ names.Nodup ∧ name ∉ names := by
  rw [List.nodup_append_comm]
  exact List.nodup_cons.trans and_comm

theorem segments_of_fresh (hbackups : r.maxBackups = 0) (hage : r.maxAge = 0) (file : Inode)
    (hbase : r.base ∉ s.rotations) (hnodup : (s.rotations ++ [r.rotated w.now]).Nodup) :
    segments (r.turned w file s) = segments s ++ file.data := by
  obtain ⟨hold, hfresh⟩ := nodup_concat_iff.mp hnodup
  have hsame : s.rotations.map (content (r.turned w file s)) = s.rotations.map (content s) :=
    List.map_congr_left fun name hname =>
      content_turned_ne hbackups hage file (fun h => hbase (h ▸ hname)) fun h => hfresh (h ▸ hname)
  unfold segments
  rw [hold.dedup, show (r.turned w file s).rotations = s.rotations ++ [r.rotated w.now] from rfl,
    hnodup.dedup, List.map_append, hsame, List.flatten_append, List.map_singleton,
    content_turned_rotated hbackups hage]
  simp

theorem Holding.turned {file : Inode} (H : Holding r total s) (hbackups : r.maxBackups = 0)
    (hage : r.maxAge = 0) (hsize : 0 < s.size) (hlookup : s.dir.lookup r.base = some file) :
    Holding r total (r.turned w file s) := by
  have hactive : content s r.base = file.data := by rw [content, hlookup]
  have hdata : file.data ≠ [] := by
    rw [← hactive, ← List.length_pos_iff, ← H.size]
    exact hsize
  have hle := H.le
  constructor
  case opened => rfl
  case active => exact base_mem_turned
  case size => rw [content_turned_base]; rfl
  case names =>
    intro hmem
    rcases List.mem_append.mp hmem with hmem | hmem
    · exact H.names hmem
    · exact r.rotated_ne_base w.now (List.mem_singleton.mp hmem).symm
  case filled =>
    intro name hmem
    by_cases hname : name = r.rotated w.now
    · rw [hname, content_turned_rotated hbackups hage]
      exact hdata
    · have hold : name ∈ s.rotations :=
        (List.mem_append.mp hmem).resolve_right fun h => hname (List.mem_singleton.mp h)
      rw [content_turned_ne hbackups hage file (fun h => H.names (h ▸ hold)) hname]
      exact H.filled name hold
  case whole =>
    intro hnodup
    rw [segments_of_fresh hbackups hage file H.names hnodup, content_turned_base, List.append_nil,
      ← hactive]
    exact H.whole (nodup_concat_iff.mp hnodup).1
  case lost =>
    intro hnodup
    rw [hactive] at hle
    rw [content_turned_base, List.length_nil, Nat.add_zero]
    by_cases hreused : r.rotated w.now ∈ s.rotations
    · have hlength := segments_length_reused (w := w) hbackups hage file H.names hreused
      have hgone := List.length_pos_iff.mpr (H.filled _ hreused)
      omega
    · have hold : ¬ s.rotations.Nodup := fun h => hnodup (nodup_concat_iff.mpr ⟨h, hreused⟩)
      have hlost := H.lost hold
      rw [hactive] at hlost
      rw [segments_length_fresh hbackups hage file H.names hreused]
      exact hlost

theorem Holding.write (H : Holding r total s) (hbackups : r.maxBackups = 0) (hage : r.maxAge = 0)
    (hw : w.Succeed) (p : Bytes) : Holding r (total ++ p) (r.write w p s).1 ∧
      (r.write w p s).1.rotations =
        if r.mustRotate s p then s.rotations ++ [r.rotated w.now] else s.rotations := by
  unfold RotatingFile.write
  split_ifs with hrotate
  · obtain ⟨file, hfile⟩ := Option.isSome_iff_exists.mp (AList.lookup_isSome.mpr H.active)
    have hsize : 0 < s.size := (of_decide_eq_true hrotate).2
    have H' := H.turned (w := w) hbackups hage hsize hfile
    rw [rotateLocked_succeeds hw H.opened hfile]
    dsimp only
    rw [handleWrite_succeeds hw H'.opened]
    exact ⟨H'.append w.mtime p, rfl⟩
  · rw [handleWrite_succeeds hw H.opened]
    exact ⟨H.append w.mtime p, rfl⟩

theorem Holding.writeAll {calls : List (Answers × Bytes)} (H : Holding r total s)
    (hbackups : r.maxBackups = 0) (hage : r.maxAge = 0) (hcalls : ∀ c ∈ calls, c.1.Succeed) :
    Holding r (total ++ (calls.map Prod.snd).flatten) (r.writeAll s calls) ∧
      (s.rotations.Nodup ∧ FreshNames r s calls ↔ (r.writeAll s calls).rotations.Nodup) := by
  induction calls generalizing s total with
  | nil => simpa [RotatingFile.writeAll, FreshNames] using H
  | cons c calls ih =>
    obtain ⟨hwrite, hrotations⟩ := H.write hbackups hage (hcalls c List.mem_cons_self) c.2
    obtain ⟨hrest, hfresh⟩ := ih hwrite fun c hc => hcalls c (List.mem_cons_of_mem _ hc)
    refine ⟨?_, Iff.trans ?_ hfresh⟩
    · rw [List.map_cons, List.flatten_cons, ← List.append_assoc]
      exact hrest
    rw [hrotations, FreshNames, ← and_assoc]
    refine and_congr_left fun _ => ?_
    split_ifs with hrotate
    · rw [nodup_concat_iff]
      simp [hrotate]
    · simp [hrotate]

theorem holding_start (mtime : Int) (d : Dir) :
    Holding r (content (r.start mtime d) r.base) (r.start mtime d) := by
  constructor
  case opened => rfl
  case active => exact mem_create mtime d
  case size =>
    simp only [start, content, create]
    split_ifs with hbase
    · cases d.lookup r.base <;> rfl
    · rw [AList.lookup_insert, AList.lookup_eq_none.mpr hbase]
      rfl
  case names => simp [start]
  case filled => simp [start]
  case whole => simp [start, segments]
  case lost => simp [start]

theorem rotation_loses_nothing_iff (hbackups : r.maxBackups = 0) (hage : r.maxAge = 0)
    (mtime : Int) (d : Dir) (calls : List (Answers × Bytes))
    (hcalls : ∀ c ∈ calls, c.1.Succeed) :
    segments (r.writeAll (r.start mtime d) calls) ++
        content (r.writeAll (r.start mtime d) calls) r.base =
      content (r.start mtime d) r.base ++ (calls.map Prod.snd).flatten ↔
    FreshNames r (r.start mtime d) calls := by
  obtain ⟨H, hfresh⟩ := (holding_start (r := r) mtime d).writeAll hbackups hage hcalls
  have hempty : (r.start mtime d).rotations.Nodup := List.nodup_nil
  rw [← and_iff_right (b := FreshNames _ _ _) hempty, hfresh]
  refine ⟨fun heq => ?_, H.whole⟩
  by_contra hnodup
  have hlost := H.lost hnodup
  rw [← List.length_append, heq] at hlost
  exact lt_irrefl _ hlost

end Conservation

def afternoon : Time := ⟨43201, 0, 0, Time.zero_nsec_lt⟩

def spread : List (Answers × Bytes) :=
  [(.full noon 0, ascii "x"), (.full noon 0, ascii "y"), (.full afternoon 1, ascii "z")]

theorem rotation_loses_nothing_iff_spread : FreshNames tiny (tiny.start 0 ∅) spread ∧
    segments (tiny.writeAll (tiny.start 0 ∅) spread) ++
        content (tiny.writeAll (tiny.start 0 ∅) spread) tiny.base =
      content (tiny.start 0 ∅) tiny.base ++ ascii "xyz" := by
  have hfresh : FreshNames tiny (tiny.start 0 ∅) spread := by decide +kernel
  exact ⟨hfresh,
    (rotation_loses_nothing_iff rfl rfl 0 ∅ spread (by decide)).mpr hfresh⟩

theorem rotations_within_a_tick_overwrite :
    let s := tiny.writeAll (tiny.start 0 ∅)
      [(.full noon 0, ascii "x"), (.full noon 0, ascii "y"), (.full noon 0, ascii "z")]
    content (tiny.start 0 ∅) tiny.base = [] ∧ segments s = ascii "y" ∧
      content s tiny.base = ascii "z" := by
  decide +kernel

end UbgoLogger.Sink.File.RotatingFile
