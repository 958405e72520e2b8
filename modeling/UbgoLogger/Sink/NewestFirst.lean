import UbgoLogger.Sink.Retention

namespace UbgoLogger.Sink.File.RotatingFile
open Foundation Foundation.Text

-- The system lists the directory, describes each matching file and removes whatever it is told to.
structure Grants (r : RotatingFile) (l : Listing) (d : Dir) : Prop where
  readDir : l.readDir = true
  info : ∀ name ∈ d, r.selects name = true → l.info name = true
  remove : ∀ name ∈ d, r.selects name = true → l.remove name = true

-- A matching file of the directory, with its modification time.
def Matches (r : RotatingFile) (d : Dir) (x : Seg) : Prop :=
  r.selects x.name = true ∧ ∃ file, d.lookup x.name = some file ∧ file.mod = x.mod

def survivors (r : RotatingFile) (l : Listing) (d : Dir) : List Bytes :=
  (r.prune l d).keys.filter r.selects

variable {r : RotatingFile} {l : Listing} {d : Dir} {x y : Seg}

theorem Grants.mem_segs (h : r.Grants l d) : x ∈ r.segs l d ↔ r.Matches d x := by
  rw [RotatingFile.mem_segs]
  constructor
  · rintro ⟨file, hfile, hmod, hsel, -⟩
    exact ⟨hsel, file, hfile, hmod⟩
  · rintro ⟨hsel, file, hfile, hmod⟩
    have hmem : x.name ∈ d := AList.lookup_isSome.mp (by rw [hfile]; rfl)
    exact ⟨file, hfile, hmod, hsel, h.info _ hmem hsel⟩

-- The newest-first listing x stands in drops it by its place or by its age.
def Dropped (r : RotatingFile) (l : Listing) (d : Dir) (x : Seg) : Prop :=
  (0 < r.maxBackups ∧ r.maxBackups ≤ r.place l d x) ∨
    (0 < r.maxAge ∧ r.maxAge < Duration.sub l.now x.mod)

theorem Grants.mem_prune_iff (h : r.Grants l d) (hx : r.Matches d x) :
    x.name ∈ r.prune l d ↔ ¬ r.Dropped l d x := by
  obtain ⟨hsel, file, hfile, hmod⟩ := hx
  have hmem : x.name ∈ d := AList.lookup_isSome.mp (by rw [hfile]; rfl)
  have hlookup := lookup_prune_of_mem h.readDir (h.mem_segs.mpr ⟨hsel, file, hfile, hmod⟩)
  have hdoomed : r.doomed l (r.place l d x) x = true ↔ r.Dropped l d x := by
    simp [doomed, overBackups, old, h.remove _ hmem hsel, Dropped]
  rw [← AList.lookup_isSome, hlookup, ← hdoomed]
  split_ifs with hdrop
  · simp [hdrop]
  · simp [hdrop, hfile]

theorem mem_of_mem_prune {name : Bytes} (h : name ∈ r.prune l d) : name ∈ d := by
  rw [← AList.lookup_isSome] at h ⊢
  by_contra hnone
  rw [Bool.not_eq_true, Option.isSome_eq_false_iff, Option.isNone_iff_eq_none] at hnone
  rw [lookup_prune_of_none hnone] at h
  cases h

theorem Grants.getElem_place (h : r.Grants l d) (hx : r.Matches d x) :
    ∃ hlt : r.place l d x < (l.order (r.segs l d)).length,
      (l.order (r.segs l d))[r.place l d x] = x := by
  have hmem : x ∈ l.order (r.segs l d) := (l.order_perm _).mem_iff.mpr (h.mem_segs.mpr hx)
  exact ⟨List.idxOf_lt_length_of_mem hmem, List.getElem_idxOf _⟩

theorem Grants.place_lt (h : r.Grants l d) (hx : r.Matches d x) (hy : r.Matches d y)
    (hnewer : y.mod < x.mod) : r.place l d x < r.place l d y := by
  obtain ⟨hx', hgetx⟩ := h.getElem_place hx
  obtain ⟨hy', hgety⟩ := h.getElem_place hy
  by_contra hle
  rcases Nat.lt_or_eq_of_le (not_lt.mp hle) with hlt | heq
  · have hsorted := List.pairwise_iff_getElem.mp (l.order_sorted (r.segs l d)) _ _ hy' hx' hlt
    rw [hgetx, hgety] at hsorted
    exact hsorted hnewer
  · have hsame : y = x := by
      rw [← hgetx, ← hgety]
      congr 1
    exact lt_irrefl _ (hsame ▸ hnewer)

theorem sub_le_sub {t u now : Int} (h : t ≤ u) : Duration.sub now u ≤ Duration.sub now t := by
  unfold Duration.sub
  omega

theorem lt_sub_iff {age now t : Int} (hmin : -2 ^ 63 ≤ age) (hage : age < 2 ^ 63 - 1) :
    age < Duration.sub now t ↔ age < now - t := by
  unfold Duration.sub
  omega

theorem Grants.survivors_le (h : r.Grants l d) (hbackups : 0 < r.maxBackups) :
    ((r.survivors l d).length : Int) ≤ r.maxBackups := by
  have hsubset : r.survivors l d ⊆
      ((l.order (r.segs l d)).take r.maxBackups.toNat).map Seg.name := by
    intro name hname
    obtain ⟨hmem, hsel⟩ := List.mem_filter.mp hname
    obtain ⟨file, hfile⟩ := Option.isSome_iff_exists.mp
      (AList.lookup_isSome.mpr (mem_of_mem_prune hmem))
    have hmatch : r.Matches d ⟨name, file.mod⟩ := ⟨hsel, file, hfile, rfl⟩
    have hkept := (h.mem_prune_iff hmatch).mp hmem
    obtain ⟨hlt, hget⟩ := h.getElem_place hmatch
    have hplace : r.place l d ⟨name, file.mod⟩ < r.maxBackups.toNat := by
      by_contra hover
      exact hkept (.inl ⟨hbackups, by omega⟩)
    refine List.mem_map.mpr ⟨⟨name, file.mod⟩, ?_, rfl⟩
    exact List.mem_take_iff_getElem.mpr ⟨_, lt_min hplace hlt, hget⟩
  have hnodup : (r.survivors l d).Nodup := (AList.keys_nodup _).filter _
  have hlength := (hnodup.subperm hsubset).length_le
  rw [List.length_map, List.length_take] at hlength
  omega

-- The files listed before x are others, and at least as new.
theorem Grants.newer (h : r.Grants l d) (hx : r.Matches d x) :
    ∃ names : List Bytes, names.Nodup ∧ x.name ∉ names ∧ names.length = r.place l d x ∧
      ∀ name ∈ names, ∃ y, y.name = name ∧ r.Matches d y ∧ x.mod ≤ y.mod := by
  have hsegs : ∀ y ∈ (l.order (r.segs l d)).take (r.place l d x), y ∈ r.segs l d :=
    fun y hy => (l.order_perm _).mem_iff.mp (List.mem_of_mem_take hy)
  obtain ⟨hlt, hget⟩ := h.getElem_place hx
  refine ⟨((l.order (r.segs l d)).take (r.place l d x)).map Seg.name, ?_, ?_, ?_, ?_⟩
  · have hnodup : (l.order (r.segs l d)).Nodup := (l.order_perm _).nodup_iff.mpr (nodup_segs r l d)
    exact (hnodup.sublist (List.take_sublist _ _)).map_on fun y hy z hz =>
      eq_of_mem_segs (hsegs y hy) (hsegs z hz)
  · intro hname
    obtain ⟨y, hy, hsame⟩ := List.mem_map.mp hname
    obtain rfl := eq_of_mem_segs (hsegs y hy) (h.mem_segs.mpr hx) hsame
    have hmem : y ∈ l.order (r.segs l d) := List.mem_of_mem_take hy
    exact lt_irrefl _ ((List.mem_take_iff_idxOf_lt hmem).mp hy)
  · rw [List.length_map, List.length_take, min_eq_left hlt.le]
  · intro name hname
    obtain ⟨y, hy, hsame⟩ := List.mem_map.mp hname
    refine ⟨y, hsame, h.mem_segs.mp (hsegs y hy), not_lt.mp ?_⟩
    obtain ⟨i, hi, rfl⟩ := List.mem_take_iff_getElem.mp hy
    have hsorted := List.pairwise_iff_getElem.mp (l.order_sorted (r.segs l d)) i (r.place l d x)
      (by omega) hlt (by omega)
    rwa [hget] at hsorted

theorem Grants.not_newer (h : r.Grants l d) (hx : r.Matches d x) (hy : r.Matches d y)
    (hdropped : r.Dropped l d x) (hkept : ¬ r.Dropped l d y) : ¬ y.mod < x.mod := by
  intro hnewer
  refine hkept (hdropped.imp ?_ ?_)
  · rintro ⟨hbackups, hover⟩
    have hplace := h.place_lt hx hy hnewer
    exact ⟨hbackups, by omega⟩
  · rintro ⟨hage, hold⟩
    exact ⟨hage, hold.trans_le (sub_le_sub hnewer.le)⟩

theorem prune_keeps_newest_first (h : r.Grants l d) :
    (0 < r.maxBackups → ((r.survivors l d).length : Int) ≤ r.maxBackups) ∧
    (0 < r.maxAge → ∀ x, r.Matches d x → x.name ∈ r.prune l d →
      Duration.sub l.now x.mod ≤ r.maxAge ∧ (r.maxAge < 2 ^ 63 - 1 → l.now - x.mod ≤ r.maxAge)) ∧
    (∀ x y, r.Matches d x → r.Matches d y → x.name ∉ r.prune l d → y.name ∈ r.prune l d →
      ¬ y.mod < x.mod) ∧
    ∀ x, r.Matches d x → x.name ∉ r.prune l d →
      (0 < r.maxBackups ∧ ∃ names : List Bytes, names.Nodup ∧ x.name ∉ names ∧
        r.maxBackups ≤ names.length ∧
        ∀ name ∈ names, ∃ y, y.name = name ∧ r.Matches d y ∧ x.mod ≤ y.mod) ∨
      (0 < r.maxAge ∧ r.maxAge < Duration.sub l.now x.mod ∧ r.maxAge < l.now - x.mod) := by
  have hsurvives : ∀ x, r.Matches d x → (x.name ∈ r.prune l d ↔ ¬ r.Dropped l d x) :=
    fun x hx => h.mem_prune_iff hx
  refine ⟨h.survivors_le, fun hage x hx hmem => ?_, fun x y hx hy hgone hmem => ?_,
    fun x hx hgone => ?_⟩
  · have hkept := (hsurvives x hx).mp hmem
    have hyoung : Duration.sub l.now x.mod ≤ r.maxAge :=
      not_lt.mp fun hold => hkept (.inr ⟨hage, hold⟩)
    refine ⟨hyoung, fun hmax => ?_⟩
    rw [← not_lt, ← lt_sub_iff (by omega) hmax]
    exact not_lt.mpr hyoung
  · have hdropped := not_not.mp (mt (hsurvives x hx).mpr hgone)
    exact h.not_newer hx hy hdropped ((hsurvives y hy).mp hmem)
  · rcases not_not.mp (mt (hsurvives x hx).mpr hgone) with ⟨hbackups, hover⟩ | ⟨hage, hold⟩
    · obtain ⟨names, hnodup, hself, hlength, hnewer⟩ := h.newer hx
      exact .inl ⟨hbackups, names, hnodup, hself, hlength ▸ hover, hnewer⟩
    · refine .inr ⟨hage, hold, ?_⟩
      unfold Duration.sub at hold
      omega

-- Three segments of one age and a newer one under two backups; the system lists equal ones as it likes.
def crowded : Dir :=
  (segmentsOnly.insert (ascii "app.log.a") ⟨ascii "x", 1⟩).insert (ascii "app.log.b") ⟨ascii "x", 1⟩

theorem prune_keeps_newest_first_crowded :
    let r : RotatingFile := { app with maxBackups := 2 }
    r.Grants (.full 3) crowded ∧ ((r.survivors (.full 3) crowded).length : Int) ≤ 2 := by
  intro r
  have h : r.Grants (.full 3) crowded := ⟨rfl, fun _ _ _ => rfl, fun _ _ _ => rfl⟩
  exact ⟨h, (prune_keeps_newest_first h).1 (by decide)⟩

end UbgoLogger.Sink.File.RotatingFile
