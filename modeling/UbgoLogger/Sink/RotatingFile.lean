import Mathlib.Data.List.AList
import Mathlib.Data.List.Sort
import UbgoLogger.Core.Clock
import UbgoLogger.Foundation.Machine

namespace UbgoLogger

-- Time.Format with the layout 20060102T150405.000
def Time.stamp (t : Time) : Foundation.Text.Bytes :=
  let abs := t.sec + t.offset
  let (year, month, day) := civil (abs / 86400)
  let clock := abs % 86400
  formatIntWidth year 4 ++ formatIntWidth month 2 ++ formatIntWidth day 2 ++ [84] ++
    formatIntWidth (clock / 3600) 2 ++ formatIntWidth (clock % 3600 / 60) 2 ++
    formatIntWidth (clock % 60) 2 ++ [46] ++ formatIntWidth (t.nsec / 1000000) 3

namespace Sink.File
open Foundation Foundation.Text

structure RotatingFile where
  base : Bytes
  maxSizeBytes : Int
  maxBackups : Int
  maxAge : Int
  compress : Bool

structure Inode where
  data : Bytes
  mod : Int

-- The directory of Path; its entries are known by their names in it.
abbrev Dir := AList fun _ : Bytes => Inode

structure Seg where
  name : Bytes
  mod : Int
  deriving DecidableEq

-- What prune asks of the system: ReadDir, Info and Remove by name, the clock, and sort.Slice, which
-- is free to order equal elements.
structure Listing where
  readDir : Bool
  info : Bytes → Bool
  order : List Seg → List Seg
  order_perm : ∀ segs, (order segs).Perm segs
  order_sorted : ∀ segs, (order segs).Pairwise fun a b => ¬ a.mod < b.mod
  now : Int
  remove : Bytes → Bool

def newestFirst (segs : List Seg) : List Seg := segs.insertionSort fun a b => b.mod ≤ a.mod

-- A system that refuses nothing.
def Listing.full (now : Int) : Listing where
  readDir := true
  info _ := true
  order := newestFirst
  order_perm segs := List.perm_insertionSort _ segs
  order_sorted segs := by
    have : Std.Total fun a b : Seg => b.mod ≤ a.mod := ⟨fun a b => le_total b.mod a.mod⟩
    have : IsTrans Seg fun a b => b.mod ≤ a.mod := ⟨fun _ _ _ hab hbc => hbc.trans hab⟩
    exact (List.pairwise_insertionSort _ segs).imp fun hab => not_lt.mpr hab
  now := now
  remove _ := true

namespace RotatingFile

variable (r : RotatingFile)

def dotted : Bytes := r.base ++ [46]

def rotated (t : Time) : Bytes := r.dotted ++ t.stamp

def selects (name : Bytes) : Bool := name ≠ r.base ∧ r.dotted <+: name

def segs (l : Listing) (d : Dir) : List Seg :=
  d.entries.filterMap fun e =>
    if r.selects e.1 && l.info e.1 then some ⟨e.1, e.2.mod⟩ else none

def overBackups (i : Nat) : Bool := 0 < r.maxBackups ∧ r.maxBackups ≤ i

def old (now : Int) (s : Seg) : Bool := 0 < r.maxAge ∧ r.maxAge < Duration.sub now s.mod

def pruneLoop (l : Listing) : Nat → List Seg → Dir → Dir
  | _, [], d => d
  | i, s :: segs, d =>
      pruneLoop l (i + 1) segs
        (if (r.overBackups i || r.old l.now s) && l.remove s.name then d.erase s.name else d)

def prune (l : Listing) (d : Dir) : Dir :=
  if l.readDir then r.pruneLoop l 0 (l.order (r.segs l d)) d else d

end RotatingFile

inductive Failure where
  | closed
  | close
  | rename
  | mkdir
  | openFile
  | stat
  | write
  deriving DecidableEq

-- What the system answers during one call: which calls fail, how many bytes a failing write still
-- wrote, and the clocks.
structure Answers where
  close : Bool
  rename : Bool
  mkdir : Bool
  openFile : Bool
  stat : Bool
  write : Option Nat
  now : Time
  mtime : Int
  listing : Listing

def Answers.Succeed (w : Answers) : Prop :=
  w.close = true ∧ w.rename = true ∧ w.mkdir = true ∧ w.openFile = true ∧ w.stat = true ∧ w.write = none

instance (w : Answers) : Decidable w.Succeed := inferInstanceAs (Decidable (_ ∧ _))

def Answers.full (now : Time) (mtime : Int) : Answers :=
  ⟨true, true, true, true, true, none, now, mtime, .full mtime⟩

def Answers.rotates (w : Answers) : Bool :=
  w.close && w.rename && w.mkdir && w.openFile && w.stat

-- The goroutine that compresses a rotated segment.
inductive Stage where
  | zip
  | remove
  | prune
  deriving DecidableEq

structure Job where
  name : Bytes
  stage : Stage
  deriving DecidableEq

-- How gzipFile ends once the segment is open: without creating the output, or with what it wrote.
inductive Zip where
  | noOutput
  | failed (partially : Bytes)
  | done (compressed : Bytes)

-- opened tells whether r.f is an open handle, which is then one on the active file.
structure State where
  dir : Dir
  opened : Bool
  size : Nat
  rotations : List Bytes
  jobs : List Job

namespace RotatingFile

variable (r : RotatingFile)

def content (s : State) (name : Bytes) : Bytes :=
  match s.dir.lookup name with
  | some file => file.data
  | none => []

def create (mtime : Int) (d : Dir) : Dir :=
  if r.base ∈ d then d else d.insert r.base ⟨[], mtime⟩

def openExisting (w : Answers) (s : State) : State × Option Failure :=
  if !w.mkdir then (s, some .mkdir)
  else if !w.openFile then (s, some .openFile)
  else
    let s := { s with dir := r.create w.mtime s.dir }
    if !w.stat then (s, some .stat)
    else ({ s with opened := true, size := (content s r.base).length }, none)

def rename (t : Time) (file : Inode) (s : State) : State :=
  { s with dir := (s.dir.erase r.base).insert (r.rotated t) file
           rotations := s.rotations ++ [r.rotated t] }

def shut (s : State) : State := { s with opened := false }

-- What rotateLocked does once the new active file is open.
def finish (w : Answers) (s : State) : State :=
  { s with size := 0
           jobs := if r.compress then s.jobs ++ [⟨r.rotated w.now, .zip⟩] else s.jobs
           dir := r.prune w.listing s.dir }

def rotateLocked (w : Answers) (s : State) : State × Option Failure :=
  if !s.opened then (s, some .closed)
  else if !w.close then (shut s, some .close)
  else
    match s.dir.lookup r.base with
    | none => (shut s, some .rename)
    | some file =>
        if !w.rename then (shut s, some .rename)
        else
          match r.openExisting w (r.rename w.now file (shut s)) with
          | (s, some e) => (s, some e)
          | (s, none) => (r.finish w s, none)

def max : Int := if r.maxSizeBytes ≤ 0 then 100 * 2 ^ 20 else r.maxSizeBytes

def mustRotate (s : State) (p : Bytes) : Bool := r.max < s.size + p.length ∧ 0 < s.size

def append (mtime : Int) (p : Bytes) (s : State) : State :=
  { s with dir := s.dir.insert r.base ⟨content s r.base ++ p, mtime⟩, size := s.size + p.length }

def handleWrite (w : Answers) (p : Bytes) (s : State) : State × Nat × Option Failure :=
  if !s.opened then (s, 0, some .closed)
  else
    match w.write with
    | none => (r.append w.mtime p s, p.length, none)
    | some n => (r.append w.mtime (p.take n) s, (p.take n).length, some .write)

def write (w : Answers) (p : Bytes) (s : State) : State × Nat × Option Failure :=
  if r.mustRotate s p then
    match r.rotateLocked w s with
    | (s, some e) => (s, 0, some e)
    | (s, none) => r.handleWrite w p s
  else r.handleWrite w p s

def reopen (w : Answers) (s : State) : State × Option Failure :=
  r.openExisting w (shut s)

end RotatingFile

inductive Act where
  | write (w : Answers) (p : Bytes)
  | reopen (w : Answers)
  | sync
  | close
  | zip (n : Nat) (z : Zip) (mtime : Int)
  | remove (n : Nat) (ok : Bool)
  | prune (n : Nat) (l : Listing)

-- What happens to r.f: an open succeeded, or the handle was closed without another taking its place.
inductive Event where
  | opened
  | rotationFailed (e : Failure)
  | closed
  deriving DecidableEq

namespace RotatingFile

variable (r : RotatingFile)

def writeEvents (w : Answers) (p : Bytes) (s : State) : List Event :=
  if r.mustRotate s p then
    match (r.rotateLocked w s).2 with
    | some e => [.rotationFailed e]
    | none => [.opened]
  else []

def zipped (name : Bytes) : Bytes := name ++ ascii ".gz"

def zipFile (name : Bytes) (z : Zip) (mtime : Int) (d : Dir) : Dir × Stage :=
  match d.lookup name, z with
  | some _, .done compressed => (d.insert (zipped name) ⟨compressed, mtime⟩, .remove)
  | some _, .failed partially => (d.insert (zipped name) ⟨partially, mtime⟩, .prune)
  | _, _ => (d, .prune)

def step (s : State) : Act → Option (State × List Event)
  | .write w p => some ((r.write w p s).1, r.writeEvents w p s)
  | .reopen w => some ((r.reopen w s).1, if (r.reopen w s).2 = none then [.opened] else [.closed])
  | .sync => some (s, [])
  | .close => some (shut s, [.closed])
  | .zip n z mtime =>
      match s.jobs[n]? with
      | some ⟨name, .zip⟩ =>
          let q := zipFile name z mtime s.dir
          some ({ s with dir := q.1, jobs := s.jobs.set n ⟨name, q.2⟩ }, [])
      | _ => none
  | .remove n ok =>
      match s.jobs[n]? with
      | some ⟨name, .remove⟩ =>
          some ({ s with dir := if ok then s.dir.erase name else s.dir
                         jobs := s.jobs.set n ⟨name, .prune⟩ }, [])
      | _ => none
  | .prune n l =>
      match s.jobs[n]? with
      | some ⟨_, .prune⟩ =>
          some ({ s with dir := r.prune l s.dir, jobs := s.jobs.eraseIdx n }, [])
      | _ => none

-- NewRotatingFile over the directory d
def start (mtime : Int) (d : Dir) : State where
  dir := r.create mtime d
  opened := true
  size := match d.lookup r.base with | some file => file.data.length | none => 0
  rotations := []
  jobs := []

def machine (mtime : Int) (d : Dir) : Machine State Act Event where
  init := r.start mtime d
  step := r.step

inductive Step (s : State) : Act → State → List Event → Prop
  | write (w : Answers) (p : Bytes) : Step s (.write w p) (r.write w p s).1 (r.writeEvents w p s)
  | reopen (w : Answers) : Step s (.reopen w) (r.reopen w s).1
      (if (r.reopen w s).2 = none then [.opened] else [.closed])
  | sync : Step s .sync s []
  | close : Step s .close (shut s) [.closed]
  | zip (n : Nat) (z : Zip) (mtime : Int) (name : Bytes) (hn : s.jobs[n]? = some ⟨name, .zip⟩) :
      Step s (.zip n z mtime) { s with dir := (zipFile name z mtime s.dir).1
                                       jobs := s.jobs.set n ⟨name, (zipFile name z mtime s.dir).2⟩ } []
  | remove (n : Nat) (ok : Bool) (name : Bytes) (hn : s.jobs[n]? = some ⟨name, .remove⟩) :
      Step s (.remove n ok) { s with dir := if ok then s.dir.erase name else s.dir
                                     jobs := s.jobs.set n ⟨name, .prune⟩ } []
  | prune (n : Nat) (l : Listing) (name : Bytes) (hn : s.jobs[n]? = some ⟨name, .prune⟩) :
      Step s (.prune n l) { s with dir := r.prune l s.dir, jobs := s.jobs.eraseIdx n } []

theorem step_cases {s s' : State} {a : Act} {evs : List Event} (h : r.step s a = some (s', evs)) :
    r.Step s a s' evs := by
  cases a with
  | write w p =>
    cases h
    exact .write w p
  | reopen w =>
    cases h
    exact .reopen w
  | sync =>
    cases h
    exact .sync
  | close =>
    cases h
    exact .close
  | zip n z mtime =>
    simp only [step] at h
    split at h
    next name hn =>
      cases h
      exact .zip n z mtime name hn
    next => cases h
  | remove n ok =>
    simp only [step] at h
    split at h
    next name hn =>
      cases h
      exact .remove n ok name hn
    next => cases h
  | prune n l =>
    simp only [step] at h
    split at h
    next name hn =>
      cases h
      exact .prune n l name hn
    next => cases h

theorem ne_base_of_dotted {name : Bytes} (h : r.dotted <+: name) : name ≠ r.base := by
  rintro rfl
  have := h.length_le
  simp [dotted] at this

theorem rotated_ne_base (t : Time) : r.rotated t ≠ r.base :=
  r.ne_base_of_dotted (List.prefix_append _ _)

theorem selects_base : r.selects r.base = false := by
  simp [selects]

variable {r} {l : Listing} {s : State} {w : Answers}

theorem mem_segs {d : Dir} {x : Seg} :
    x ∈ r.segs l d ↔ ∃ file, d.lookup x.name = some file ∧ file.mod = x.mod ∧
      r.selects x.name = true ∧ l.info x.name = true := by
  simp only [segs, List.mem_filterMap, Option.ite_none_right_eq_some, Bool.and_eq_true,
    Option.some.injEq]
  constructor
  · rintro ⟨⟨name, file⟩, hmem, hsel, rfl⟩
    exact ⟨file, AList.mem_lookup_iff.mpr hmem, rfl, hsel.1, hsel.2⟩
  · rintro ⟨file, hlookup, hmod, hsel, hinfo⟩
    refine ⟨⟨x.name, file⟩, AList.mem_lookup_iff.mp hlookup, ⟨hsel, hinfo⟩, ?_⟩
    rw [hmod]

def doomed (r : RotatingFile) (l : Listing) (i : Nat) (x : Seg) : Bool :=
  (r.overBackups i || r.old l.now x) && l.remove x.name

theorem lookup_pruneLoop_of_spared {name : Bytes} {i : Nat} {segs : List Seg} {d : Dir}
    (h : ∀ k x, segs[k]? = some x → x.name = name → r.doomed l (i + k) x = false) :
    (r.pruneLoop l i segs d).lookup name = d.lookup name := by
  induction segs generalizing i d with
  | nil => rfl
  | cons x segs ih =>
    have htail := ih (i := i + 1) (d := if r.doomed l i x then d.erase x.name else d) fun k y hk hy =>
      Nat.add_assoc i 1 k ▸ Nat.add_comm 1 k ▸ h (k + 1) y hk hy
    refine htail.trans ?_
    split_ifs with hx
    · refine AList.lookup_erase_ne fun hname => ?_
      have := h 0 x rfl hname.symm
      simp [hx] at this
    · rfl

theorem lookup_prune_of_not_selected {name : Bytes} {d : Dir} (h : r.selects name = false) :
    (r.prune l d).lookup name = d.lookup name := by
  unfold prune
  split_ifs
  · refine lookup_pruneLoop_of_spared fun k x hk hname => ?_
    obtain ⟨_, _, _, hsel, _⟩ := mem_segs.mp ((l.order_perm _).mem_iff.mp (List.mem_of_getElem? hk))
    rw [hname, h] at hsel
    cases hsel
  · rfl

theorem lookup_prune_base (d : Dir) : (r.prune l d).lookup r.base = d.lookup r.base :=
  lookup_prune_of_not_selected r.selects_base

theorem prune_of_unlimited {d : Dir} (hbackups : r.maxBackups = 0) (hage : r.maxAge = 0)
    (name : Bytes) : (r.prune l d).lookup name = d.lookup name := by
  unfold prune
  split_ifs
  · exact lookup_pruneLoop_of_spared fun k x _ _ => by simp [doomed, overBackups, old, hbackups, hage]
  · rfl

theorem lookup_create (mtime : Int) (d : Dir) {name : Bytes} (h : name ≠ r.base) :
    (r.create mtime d).lookup name = d.lookup name := by
  unfold create
  split_ifs
  · rfl
  · exact AList.lookup_insert_ne h

theorem mem_create (mtime : Int) (d : Dir) : r.base ∈ r.create mtime d := by
  unfold create
  split_ifs with h
  · exact h
  · simp

inductive Opening (r : RotatingFile) (w : Answers) (s : State) : State × Option Failure → Prop
  | failed (s' : State) (e : Failure) (hopened : s'.opened = s.opened) (hjobs : s'.jobs = s.jobs) :
      Opening r w s (s', some e)
  | done (hw : w.mkdir = true ∧ w.openFile = true ∧ w.stat = true) : Opening r w s
      ({ s with
          dir := r.create w.mtime s.dir, opened := true
          size := (content { s with dir := r.create w.mtime s.dir } r.base).length }, none)

theorem openExisting_cases : r.Opening w s (r.openExisting w s) := by
  unfold openExisting
  split_ifs with hmkdir hopen hstat
  · exact .failed _ _ rfl rfl
  · exact .failed _ _ rfl rfl
  · exact .failed _ _ rfl rfl
  · exact .done (by simp_all)

theorem openExisting_succeeds (hw : w.Succeed) :
    r.openExisting w s =
      ({ s with
          dir := r.create w.mtime s.dir, opened := true
          size := (content { s with dir := r.create w.mtime s.dir } r.base).length }, none) := by
  obtain ⟨-, -, hmkdir, hopen, hstat, -⟩ := hw
  simp [openExisting, hmkdir, hopen, hstat]

-- The state a rotation that succeeds leaves.
def turned (r : RotatingFile) (w : Answers) (file : Inode) (s : State) : State where
  dir := r.prune w.listing
    (r.create w.mtime ((s.dir.erase r.base).insert (r.rotated w.now) file))
  opened := true
  size := 0
  rotations := s.rotations ++ [r.rotated w.now]
  jobs := if r.compress then s.jobs ++ [⟨r.rotated w.now, .zip⟩] else s.jobs

inductive Rotation (r : RotatingFile) (w : Answers) (s : State) : State × Option Failure → Prop
  | failed (s' : State) (e : Failure) (hopened : s'.opened = false) (hjobs : s'.jobs = s.jobs) :
      Rotation r w s (s', some e)
  | done (file : Inode) (hw : w.rotates = true) (hopened : s.opened = true)
      (hlookup : s.dir.lookup r.base = some file) :
      Rotation r w s (r.turned w file s, none)

theorem rotateLocked_cases : r.Rotation w s (r.rotateLocked w s) := by
  unfold rotateLocked
  by_cases hopened : s.opened = true
  · by_cases hclose : w.close = true
    · simp only [hopened, hclose, Bool.not_true, Bool.false_eq_true, if_false]
      cases hlookup : s.dir.lookup r.base with
      | none => exact .failed _ _ rfl rfl
      | some file =>
        dsimp only
        split_ifs with hrename
        · exact .failed _ _ rfl rfl
        · have hopen := openExisting_cases (r := r) (w := w) (s := r.rename w.now file (shut s))
          generalize r.openExisting w (r.rename w.now file (shut s)) = q at hopen ⊢
          cases hopen with
          | failed s' e hs hjobs => exact .failed s' e hs hjobs
          | done hw => exact .done file (by simp_all [Answers.rotates]) hopened hlookup
    · simp only [hopened, hclose, Bool.not_true, Bool.false_eq_true, if_false]
      exact .failed _ _ rfl rfl
  · rw [if_pos (by simpa using hopened)]
    exact .failed _ _ (Bool.eq_false_iff.mpr hopened) rfl

theorem rotateLocked_succeeds {file : Inode} (hw : w.Succeed) (hopened : s.opened = true)
    (hlookup : s.dir.lookup r.base = some file) :
    r.rotateLocked w s = (r.turned w file s, none) := by
  have hclose := hw.1
  have hrename := hw.2.1
  simp [rotateLocked, hopened, hclose, hlookup, hrename, openExisting_succeeds hw, finish, turned,
    rename, shut]

theorem lookup_turned_base (file : Inode) :
    (r.turned w file s).dir.lookup r.base = some ⟨[], w.mtime⟩ := by
  have habsent : r.base ∉ (s.dir.erase r.base).insert (r.rotated w.now) file := by
    simp [(r.rotated_ne_base w.now).symm]
  simp only [turned, lookup_prune_base, create, if_neg habsent, AList.lookup_insert]

inductive Writing (r : RotatingFile) (w : Answers) (p : Bytes) (s : State) :
    State × Nat × Option Failure → List Event → Prop
  | failed (s' : State) (e : Failure) (hopened : s'.opened = false) (hjobs : s'.jobs = s.jobs) :
      Writing r w p s (s', 0, some e) [.rotationFailed e]
  | rotated (file : Inode) (hrotate : r.mustRotate s p = true) (hw : w.rotates = true)
      (hopened : s.opened = true) (hlookup : s.dir.lookup r.base = some file) :
      Writing r w p s (r.handleWrite w p (r.turned w file s)) [.opened]
  | fits (hfits : r.mustRotate s p = false) : Writing r w p s (r.handleWrite w p s) []

theorem write_cases {p : Bytes} : r.Writing w p s (r.write w p s) (r.writeEvents w p s) := by
  unfold write writeEvents
  cases hrotate : r.mustRotate s p with
  | true =>
    simp only [if_true]
    have hrotation := rotateLocked_cases (r := r) (w := w) (s := s)
    generalize r.rotateLocked w s = q at hrotation ⊢
    cases hrotation with
    | failed s' e hopened hjobs => exact .failed s' e hopened hjobs
    | done file hw hopened hlookup => exact .rotated file hrotate hw hopened hlookup
  | false =>
    simp only [Bool.false_eq_true, if_false]
    exact .fits hrotate

theorem handleWrite_succeeds {p : Bytes} (hw : w.Succeed) (hopened : s.opened = true) :
    r.handleWrite w p s = (r.append w.mtime p s, p.length, none) := by
  simp [handleWrite, hopened, hw.2.2.2.2.2]

theorem handleWrite_closed {p : Bytes} (hopened : s.opened = false) :
    r.handleWrite w p s = (s, 0, some .closed) := by
  simp [handleWrite, hopened]

theorem handleWrite_frame (p : Bytes) :
    (r.handleWrite w p s).1.opened = s.opened ∧ (r.handleWrite w p s).1.jobs = s.jobs ∧
      (r.base ∈ s.dir → r.base ∈ (r.handleWrite w p s).1.dir) := by
  unfold handleWrite
  split_ifs
  · exact ⟨rfl, rfl, id⟩
  · split <;> exact ⟨rfl, rfl, fun _ => by simp [append]⟩

theorem content_append (mtime : Int) (p : Bytes) :
    content (r.append mtime p s) r.base = content s r.base ++ p := by
  simp [content, append]

end RotatingFile

end Sink.File

end UbgoLogger
