import UbgoLogger.Foundation.History
import UbgoLogger.Sink.RotatingFile

namespace UbgoLogger.Sink.File.RotatingFile
open Foundation Foundation.Text

variable {r : RotatingFile} {l : Listing} {d : Dir} {name : Bytes} {file : Inode}

def IsSegment (r : RotatingFile) (name : Bytes) : Prop :=
  ∃ t : Time, name = r.rotated t ∨ name = zipped (r.rotated t)

-- Where the newest-first listing of the matching entries has x.
def place (r : RotatingFile) (l : Listing) (d : Dir) (x : Seg) : Nat :=
  (l.order (r.segs l d)).idxOf x

-- Retention leaves x alone: the system does, or it is recent enough by number and by age.
def Spared (r : RotatingFile) (l : Listing) (d : Dir) (x : Seg) : Prop :=
  l.readDir = true → l.info x.name = true → l.remove x.name = true →
    (0 < r.maxBackups → r.place l d x < r.maxBackups) ∧
    (0 < r.maxAge → Duration.sub l.now x.mod ≤ r.maxAge)

theorem pruneLoop_cons (i : Nat) (x : Seg) (segs : List Seg) :
    r.pruneLoop l i (x :: segs) d =
      r.pruneLoop l (i + 1) segs (if r.doomed l i x then d.erase x.name else d) :=
  rfl

theorem lookup_pruneLoop_of_none {i : Nat} {segs : List Seg} (h : d.lookup name = none) :
    (r.pruneLoop l i segs d).lookup name = none := by
  induction segs generalizing i d with
  | nil => exact h
  | cons x segs ih =>
    rw [pruneLoop_cons]
    refine ih ?_
    split_ifs
    · rw [AList.lookup_eq_none] at h ⊢
      exact fun hmem => h (AList.mem_erase.mp hmem).2
    · exact h

theorem lookup_pruneLoop_of_doomed {i k : Nat} {segs : List Seg} {x : Seg}
    (hk : segs[k]? = some x) (hx : r.doomed l (i + k) x = true) :
    (r.pruneLoop l i segs d).lookup x.name = none := by
  induction segs generalizing i k d with
  | nil => simp at hk
  | cons y segs ih =>
    cases k with
    | zero =>
      obtain rfl : y = x := by simpa using hk
      rw [Nat.add_zero] at hx
      rw [pruneLoop_cons, if_pos hx]
      exact lookup_pruneLoop_of_none (AList.lookup_erase y.name d)
    | succ k => exact ih (i := i + 1) hk (by rwa [Nat.add_assoc, Nat.add_comm 1 k])

theorem nodup_segs (r : RotatingFile) (l : Listing) (d : Dir) : (r.segs l d).Nodup := by
  have hnames : ((r.segs l d).map Seg.name).Sublist (d.entries.filterMap fun e => some e.1) := by
    rw [segs, List.map_filterMap]
    refine filterMap_sublist ?_ d.entries
    intro e name h
    split_ifs at h
    · exact h
    · cases h
  refine List.Nodup.of_map Seg.name (hnames.nodup ?_)
  rw [show (fun e : Sigma fun _ : Bytes => Inode => some e.1) = some ∘ Sigma.fst from rfl,
    List.filterMap_eq_map]
  exact d.nodupKeys

theorem eq_of_mem_segs {x y : Seg} (hx : x ∈ r.segs l d) (hy : y ∈ r.segs l d)
    (h : x.name = y.name) : x = y := by
  obtain ⟨file, hfile, hmod, -, -⟩ := mem_segs.mp hx
  obtain ⟨file', hfile', hmod', -, -⟩ := mem_segs.mp hy
  rw [h, hfile'] at hfile
  obtain rfl := Option.some.inj hfile
  cases x
  cases y
  simp_all

theorem lookup_prune_of_mem {x : Seg} (hread : l.readDir = true) (hx : x ∈ r.segs l d) :
    (r.prune l d).lookup x.name =
      if r.doomed l (r.place l d x) x then none else d.lookup x.name := by
  have hmem : x ∈ l.order (r.segs l d) := (l.order_perm _).mem_iff.mpr hx
  have hat : (l.order (r.segs l d))[r.place l d x]? = some x := List.getElem?_idxOf hmem
  rw [prune, if_pos hread]
  split_ifs with hdoomed
  · exact lookup_pruneLoop_of_doomed hat (by rwa [Nat.zero_add])
  · refine lookup_pruneLoop_of_spared fun k y hk hy => ?_
    obtain rfl := eq_of_mem_segs ((l.order_perm _).mem_iff.mp (List.mem_of_getElem? hk)) hx hy
    have hnodup : (l.order (r.segs l d)).Nodup := (l.order_perm _).nodup_iff.mpr (nodup_segs r l d)
    obtain ⟨hlt, hget⟩ := List.getElem?_eq_some_iff.mp hk
    have hplace : k = r.place l d y := by
      rw [place, ← hget]
      exact (List.get_idxOf hnodup ⟨k, hlt⟩).symm
    rw [Nat.zero_add, hplace]
    exact Bool.eq_false_iff.mpr hdoomed

theorem spared_iff {x : Seg} : r.Spared l d x ↔
    (l.readDir = true → l.info x.name = true → r.doomed l (r.place l d x) x = false) := by
  unfold Spared
  refine imp_congr_right fun _ => imp_congr_right fun _ => ?_
  by_cases hremove : l.remove x.name = true
  · simp [doomed, overBackups, old, hremove]
  · simp [doomed, hremove]

theorem lookup_prune_of_spared (hfile : d.lookup name = some file)
    (h : r.Spared l d ⟨name, file.mod⟩) : (r.prune l d).lookup name = some file := by
  by_cases hread : l.readDir = true
  · by_cases hmem : (⟨name, file.mod⟩ : Seg) ∈ r.segs l d
    · obtain ⟨-, -, -, -, hinfo⟩ := mem_segs.mp hmem
      have hlookup := lookup_prune_of_mem hread hmem
      rw [spared_iff.mp h hread hinfo] at hlookup
      exact hlookup.trans hfile
    · rw [prune, if_pos hread]
      refine (lookup_pruneLoop_of_spared fun k x hk hname => absurd ?_ hmem).trans hfile
      have hx := (l.order_perm _).mem_iff.mp (List.mem_of_getElem? hk)
      obtain ⟨file', hfile', hmod, -, -⟩ := mem_segs.mp hx
      rw [hname, hfile] at hfile'
      obtain rfl := Option.some.inj hfile'
      obtain ⟨xname, xmod⟩ := x
      obtain rfl : xname = name := hname
      exact hmod ▸ hx
  · rw [prune, if_neg hread]
    exact hfile

theorem lookup_prune_of_not_spared (hfile : d.lookup name = some file)
    (hsel : r.selects name = true) (h : ¬ r.Spared l d ⟨name, file.mod⟩) :
    (r.prune l d).lookup name = none := by
  rw [spared_iff] at h
  push Not at h
  obtain ⟨hread, hinfo, hdoomed⟩ := h
  have hlookup := lookup_prune_of_mem hread (mem_segs.mpr ⟨file, hfile, rfl, hsel, hinfo⟩)
  rwa [if_pos (Bool.eq_true_of_not_eq_false hdoomed)] at hlookup

theorem lookup_prune_of_none (h : d.lookup name = none) : (r.prune l d).lookup name = none := by
  unfold prune
  split_ifs
  · exact lookup_pruneLoop_of_none h
  · exact h

theorem selects_of_dotted (h : r.dotted <+: name) : r.selects name = true := by
  simp [selects, r.ne_base_of_dotted h, h]

theorem selects_of_not_dotted (h : ¬ r.dotted <+: name) : r.selects name = false := by
  simp [selects, h]

theorem prune_removes_only_segments_iff :
    ((∀ name ∈ d, name ∉ r.prune l d → r.IsSegment name) ∧
      ∀ name, ¬ r.IsSegment name → (r.prune l d).lookup name = d.lookup name) ↔
    ∀ name file, d.lookup name = some file → r.dotted <+: name → ¬ r.IsSegment name →
      r.Spared l d ⟨name, file.mod⟩ := by
  constructor
  · rintro ⟨-, hkept⟩ name file hfile hdotted hforeign
    by_contra hdoomed
    have hgone := lookup_prune_of_not_spared hfile (selects_of_dotted hdotted) hdoomed
    rw [hkept name hforeign, hfile] at hgone
    cases hgone
  · intro hspared
    have hkept : ∀ name, ¬ r.IsSegment name → (r.prune l d).lookup name = d.lookup name := by
      intro name hforeign
      cases hfile : d.lookup name with
      | none => exact lookup_prune_of_none hfile
      | some file =>
        by_cases hdotted : r.dotted <+: name
        · exact lookup_prune_of_spared hfile (hspared name file hfile hdotted hforeign)
        · exact (lookup_prune_of_not_selected (selects_of_not_dotted hdotted)).trans hfile
    refine ⟨fun name hmem hgone => ?_, hkept⟩
    by_contra hforeign
    rw [← AList.lookup_isSome, hkept name hforeign, AList.lookup_isSome] at hgone
    exact hgone hmem

theorem mem_stamp_T (t : Time) : 84 ∈ t.stamp := by
  simp [Time.stamp]

def app : RotatingFile := ⟨ascii "app.log", 1, 1, 0, false⟩

theorem old_not_segment : ¬ app.IsSegment (ascii "app.log.old") := by
  rintro ⟨t, h | h⟩
  · have hstamp : t.stamp = ascii "old" := by
      simpa [rotated, dotted, app, ascii] using h.symm
    have := mem_stamp_T t
    rw [hstamp] at this
    exact absurd this (by decide)
  · have hstamp : t.stamp ++ ascii ".gz" = ascii "old" := by
      simpa [zipped, rotated, dotted, app, ascii] using h.symm
    have := List.mem_append_left (ascii ".gz") (mem_stamp_T t)
    rw [hstamp] at this
    exact absurd this (by decide)

def newYear : Time := ⟨1704067200, 0, 0, Time.zero_nsec_lt⟩

def segmentsOnly : Dir :=
  ((∅ : Dir).insert (zipped (app.rotated newYear)) ⟨ascii "x", 1⟩).insert
    (app.rotated newYear) ⟨ascii "x", 2⟩

theorem prune_removes_only_segments_iff_two :
    zipped (app.rotated newYear) ∉ app.prune (.full 3) segmentsOnly ∧
      ∀ name ∈ segmentsOnly, name ∉ app.prune (.full 3) segmentsOnly → app.IsSegment name := by
  refine ⟨by decide +kernel, (prune_removes_only_segments_iff.mpr ?_).1⟩
  intro name file hfile _ hforeign
  have hmem : name ∈ segmentsOnly := AList.lookup_isSome.mp (by rw [hfile]; rfl)
  simp only [segmentsOnly, AList.mem_insert] at hmem
  rcases hmem with rfl | rfl | hmem
  · exact absurd ⟨newYear, .inl rfl⟩ hforeign
  · exact absurd ⟨newYear, .inr rfl⟩ hforeign
  · exact absurd hmem (AList.notMem_empty name)

-- One backup is kept; the older entry is a copy made by hand next to the log.
def withCopy : Dir :=
  ((∅ : Dir).insert (ascii "app.log.old") ⟨ascii "mine", 1⟩).insert
    (app.rotated newYear) ⟨ascii "x", 2⟩

theorem prune_removes_foreign_file :
    ¬ app.IsSegment (ascii "app.log.old") ∧ ascii "app.log.old" ∈ withCopy ∧
      ascii "app.log.old" ∉ app.prune (.full 3) withCopy :=
  ⟨old_not_segment, by decide +kernel, by decide +kernel⟩

end UbgoLogger.Sink.File.RotatingFile
