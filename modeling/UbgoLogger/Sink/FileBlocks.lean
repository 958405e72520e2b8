import UbgoLogger.Sink.Retention
import UbgoLogger.Sink.Rotation

namespace UbgoLogger.Sink.File.RotatingFile
open Foundation Foundation.Text

section Names

theorem notMem_formatIntWidth {b : Byte} (hdigit : isDigit b = false) (hsign : b ≠ 45) (x : Int)
    (width : Nat) : b ∉ formatIntWidth x width := by
  have hzero : b ≠ 48 := by
    rintro rfl
    cases hdigit
  have hdecimal : b ∉ decimal x.natAbs := by
    intro hb
    rw [decimal_isDigit hb] at hdigit
    cases hdigit
  unfold formatIntWidth
  split <;> simp [hzero, hsign, hdecimal]

theorem z_notMem_stamp (t : Time) : 122 ∉ t.stamp := by
  have hwidth := notMem_formatIntWidth (b := 122) (by decide) (by decide)
  simp [Time.stamp, hwidth]

variable (r : RotatingFile)

theorem zipped_ne_rotated (t u : Time) : zipped (r.rotated t) ≠ r.rotated u := by
  intro he
  rw [zipped, rotated, rotated, List.append_assoc, List.append_cancel_left_eq] at he
  refine z_notMem_stamp u (he ▸ List.mem_append_right _ ?_)
  decide

end Names

variable {r : RotatingFile} {s s' : State} {w : Answers} {bs : List (List Bytes)} {last : List Bytes}

theorem lookup_of_lookup_prune {l : Listing} {d : Dir} {name : Bytes} {file : Inode}
    (h : (r.prune l d).lookup name = some file) : d.lookup name = some file := by
  by_cases hmem : ∃ x ∈ r.segs l d, x.name = name ∧ l.readDir = true
  · obtain ⟨x, hx, rfl, hread⟩ := hmem
    rw [lookup_prune_of_mem hread hx] at h
    split at h
    · cases h
    · exact h
  · unfold prune at h
    split at h
    next hread =>
      rwa [lookup_pruneLoop_of_spared fun k x hk hname => absurd ⟨x, ?_, hname, hread⟩ hmem] at h
      exact (l.order_perm _).mem_iff.mp (List.mem_of_getElem? hk)
    next => exact h

-- The Writes so far fall into blocks, one for each rotation and one that is still active; a rotated
-- file that is there has the block of the last rotation to its name.
structure Blocks (r : RotatingFile) (s : State) (bs : List (List Bytes)) (last : List Bytes) :
    Prop where
  count : bs.length = s.rotations.length
  active : content s r.base = last.flatten
  segment : ∀ j name file, s.rotations[j]? = some name → name ∉ s.rotations.drop (j + 1) →
    s.dir.lookup name = some file → bs[j]?.map List.flatten = some file.data
  names : ∀ name ∈ s.rotations, ∃ t, name = r.rotated t
  jobs : ∀ j ∈ s.jobs, ∃ t, j.name = r.rotated t

namespace Blocks

-- Files may go and others may come; the rotated ones that stay are as they were.
theorem frame (h : Blocks r s bs last) (hrotations : s'.rotations = s.rotations)
    (hjobs : ∀ j ∈ s'.jobs, ∃ t, j.name = r.rotated t)
    (hbase : content s' r.base = content s r.base)
    (hkept : ∀ t file, s'.dir.lookup (r.rotated t) = some file →
      s.dir.lookup (r.rotated t) = some file) : Blocks r s' bs last := by
  refine ⟨hrotations ▸ h.count, hbase.trans h.active, ?_, hrotations ▸ h.names, hjobs⟩
  rw [hrotations]
  intro j name file hj hlast hfile
  obtain ⟨t, rfl⟩ := h.names name (List.mem_of_getElem? hj)
  exact h.segment j _ file hj hlast (hkept t file hfile)

theorem shut (h : Blocks r s bs last) : Blocks r (shut s) bs last :=
  ⟨h.count, h.active, h.segment, h.names, h.jobs⟩

theorem create (h : Blocks r s bs last) (mtime : Int) :
    Blocks r { s with dir := r.create mtime s.dir } bs last := by
  refine h.frame rfl h.jobs ?_ fun t file hfile => ?_
  · unfold content RotatingFile.create
    split_ifs with hbase
    · rfl
    · rw [AList.lookup_insert, AList.lookup_eq_none.mpr hbase]
  · rwa [lookup_create mtime s.dir (r.rotated_ne_base t)] at hfile

theorem openExisting (h : Blocks r s bs last) (w : Answers) :
    Blocks r (r.openExisting w s).1 bs last := by
  have hcreate := h.create w.mtime
  unfold RotatingFile.openExisting
  split_ifs
  · exact h
  · exact h
  · exact hcreate
  · exact ⟨hcreate.count, hcreate.active, hcreate.segment, hcreate.names, hcreate.jobs⟩

theorem prune (h : Blocks r s bs last) (l : Listing) :
    Blocks r { s with dir := r.prune l s.dir } bs last := by
  refine h.frame rfl h.jobs ?_ fun t file hfile => lookup_of_lookup_prune hfile
  unfold content
  rw [lookup_prune_base]

theorem append (h : Blocks r s bs last) (mtime : Int) (p : Bytes) :
    Blocks r (r.append mtime p s) bs (last ++ [p]) := by
  refine ⟨h.count, ?_, fun j name file hj hlast hfile => ?_, h.names, h.jobs⟩
  · rw [content_append, h.active, List.flatten_append]
    simp
  · obtain ⟨t, rfl⟩ := h.names name (List.mem_of_getElem? hj)
    refine h.segment j _ file hj hlast ?_
    rwa [RotatingFile.append, AList.lookup_insert_ne (r.rotated_ne_base t)] at hfile

theorem nothing (h : Blocks r s bs last) : Blocks r s bs (last ++ [[]]) := by
  refine ⟨h.count, ?_, h.segment, h.names, h.jobs⟩
  rw [h.active, List.flatten_append]
  simp

-- What was in the active file becomes the block of the name it is renamed to.
theorem rename {file : Inode} (h : Blocks r s bs last) (hfile : s.dir.lookup r.base = some file)
    (t : Time) : Blocks r (r.rename t file s) (bs ++ [last]) [] := by
  have hdata : file.data = last.flatten := by
    rw [← h.active, content, hfile]
  refine ⟨?_, ?_, fun j name file' hj hlast hfile' => ?_, ?_, h.jobs⟩
  · simp [RotatingFile.rename, h.count]
  · have hgone : r.base ∉ (s.dir.erase r.base).insert (r.rotated t) file := by
      simp [(r.rotated_ne_base t).symm]
    rw [content, RotatingFile.rename, AList.lookup_eq_none.mpr hgone]
    rfl
  · simp only [RotatingFile.rename] at hj hlast hfile'
    rcases getElem?_concat_cases hj with hold | ⟨rfl, rfl⟩
    · have hlt := (List.getElem?_eq_some_iff.mp hold).1
      rw [List.drop_append_of_le_length hlt, List.mem_append, List.mem_singleton, not_or] at hlast
      obtain ⟨u, rfl⟩ := h.names name (List.mem_of_getElem? hold)
      rw [AList.lookup_insert_ne hlast.2, AList.lookup_erase_ne (r.rotated_ne_base u)] at hfile'
      rw [List.getElem?_append_left (h.count ▸ hlt)]
      exact h.segment j _ file' hold hlast.1 hfile'
    · rw [AList.lookup_insert, Option.some.injEq] at hfile'
      rw [← h.count, List.getElem?_concat_length, Option.map_some, ← hdata, hfile']
  · simp only [RotatingFile.rename, List.forall_mem_append, List.forall_mem_singleton]
    exact ⟨h.names, t, rfl⟩

theorem jobs_set (h : Blocks r s bs last) {n : Nat} {name : Bytes} {stage : Stage}
    (hn : s.jobs[n]? = some ⟨name, stage⟩) (stage' : Stage) :
    ∀ j ∈ s.jobs.set n ⟨name, stage'⟩, ∃ t, j.name = r.rotated t := by
  intro j hj
  rcases List.mem_or_eq_of_mem_set hj with hj | rfl
  · exact h.jobs j hj
  · exact h.jobs ⟨name, stage⟩ (List.mem_of_getElem? hn)

theorem zip (h : Blocks r s bs last) {n : Nat} {name : Bytes} (hn : s.jobs[n]? = some ⟨name, .zip⟩)
    (z : Zip) (mtime : Int) :
    Blocks r { s with dir := (zipFile name z mtime s.dir).1
                      jobs := s.jobs.set n ⟨name, (zipFile name z mtime s.dir).2⟩ } bs last := by
  obtain ⟨u, hname⟩ := h.jobs _ (List.mem_of_getElem? hn)
  obtain rfl : name = r.rotated u := hname
  have hkept (other : Bytes) (hne : other ≠ zipped (r.rotated u)) :
      (zipFile (r.rotated u) z mtime s.dir).1.lookup other = s.dir.lookup other := by
    unfold zipFile
    split
    · exact AList.lookup_insert_ne hne
    · exact AList.lookup_insert_ne hne
    · rfl
  have hbase : r.base ≠ zipped (r.rotated u) :=
    (r.ne_base_of_dotted ((List.prefix_append _ _).trans (List.prefix_append _ _))).symm
  refine h.frame rfl (h.jobs_set hn _) ?_ fun t file hfile => ?_
  · simp only [content]
    rw [hkept r.base hbase]
  · exact (hkept _ (r.zipped_ne_rotated u t).symm).symm.trans hfile

theorem remove (h : Blocks r s bs last) {n : Nat} {name : Bytes}
    (hn : s.jobs[n]? = some ⟨name, .remove⟩) (ok : Bool) :
    Blocks r { s with dir := if ok then s.dir.erase name else s.dir
                      jobs := s.jobs.set n ⟨name, .prune⟩ } bs last := by
  obtain ⟨u, hname⟩ := h.jobs _ (List.mem_of_getElem? hn)
  obtain rfl : name = r.rotated u := hname
  refine h.frame rfl (h.jobs_set hn _) ?_ fun t file hfile => ?_
  · cases ok with
    | false => rfl
    | true => simp [content, AList.lookup_erase_ne (r.rotated_ne_base u).symm]
  · cases ok with
    | false => exact hfile
    | true =>
      rw [if_pos rfl] at hfile
      by_cases htu : r.rotated t = r.rotated u
      · rw [htu, AList.lookup_erase] at hfile
        cases hfile
      · rwa [AList.lookup_erase_ne htu] at hfile

theorem finish (h : Blocks r s bs last) (w : Answers) : Blocks r (r.finish w s) bs last := by
  have hpruned := h.prune w.listing
  refine ⟨hpruned.count, hpruned.active, hpruned.segment, hpruned.names, ?_⟩
  unfold RotatingFile.finish
  dsimp only
  split_ifs
  · rw [List.forall_mem_append, List.forall_mem_singleton]
    exact ⟨h.jobs, w.now, rfl⟩
  · exact h.jobs

end Blocks

-- The texts of the Writes so far are those of the blocks.
def Divides (r : RotatingFile) (s : State) (texts : List Bytes) : Prop :=
  ∃ bs last, Blocks r s bs last ∧ bs.flatten ++ last = texts

namespace Divides

variable {texts : List Bytes}

theorem map (h : Divides r s texts)
    (hmap : ∀ {bs last}, Blocks r s bs last → Blocks r s' bs last) : Divides r s' texts := by
  obtain ⟨bs, last, hblocks, htexts⟩ := h
  exact ⟨bs, last, hmap hblocks, htexts⟩

theorem start (mtime : Int) (d : Dir) :
    Divides r (r.start mtime d) [content (r.start mtime d) r.base] := by
  refine ⟨[], [_], ⟨rfl, (List.flatten_singleton).symm, ?_, ?_, ?_⟩, rfl⟩ <;>
    simp [RotatingFile.start]

theorem rotateLocked (h : Divides r s texts) (w : Answers) :
    Divides r (r.rotateLocked w s).1 texts := by
  unfold RotatingFile.rotateLocked
  cases hfile : s.dir.lookup r.base with
  | none =>
    dsimp only
    split_ifs
    · exact h
    · exact h.map Blocks.shut
    · exact h.map Blocks.shut
  | some file =>
    dsimp only
    split_ifs
    · exact h
    · exact h.map Blocks.shut
    · exact h.map Blocks.shut
    · have hopened : Divides r (r.openExisting w (r.rename w.now file (shut s))).1 texts := by
        obtain ⟨bs, last, hblocks, htexts⟩ := h
        refine ⟨bs ++ [last], [], (hblocks.shut.rename hfile w.now).openExisting w, ?_⟩
        rw [← htexts]
        simp
      split
      next s' e hs =>
        rw [hs] at hopened
        exact hopened
      next s' hs =>
        rw [hs] at hopened
        exact hopened.map fun hb => hb.finish w

theorem handleWrite (h : Divides r s texts) (w : Answers) (p : Bytes) :
    Divides r (r.handleWrite w p s).1 (texts ++ [p.take (r.handleWrite w p s).2.1]) := by
  obtain ⟨bs, last, hblocks, rfl⟩ := h
  unfold RotatingFile.handleWrite
  split_ifs
  · exact ⟨bs, last ++ [[]], hblocks.nothing, by simp⟩
  · split
    next => exact ⟨bs, last ++ [p], hblocks.append w.mtime p, by simp⟩
    next n _ => exact ⟨bs, last ++ [p.take n], hblocks.append w.mtime (p.take n), by simp⟩

theorem write (h : Divides r s texts) (w : Answers) (p : Bytes) :
    Divides r (r.write w p s).1 (texts ++ [p.take (r.write w p s).2.1]) := by
  have hrotated := h.rotateLocked w
  unfold RotatingFile.write
  split_ifs
  · split
    next s' e hs =>
      rw [hs] at hrotated
      obtain ⟨bs, last, hblocks, rfl⟩ := hrotated
      exact ⟨bs, last ++ [[]], hblocks.nothing, by simp⟩
    next s' hs =>
      rw [hs] at hrotated
      exact hrotated.handleWrite w p
  · exact h.handleWrite w p

theorem step {a : Act} {evs : List Event} (h : Divides r s texts)
    (hs : r.step s a = some (s', evs)) (ha : ∀ w p, a ≠ .write w p) : Divides r s' texts := by
  cases r.step_cases hs with
  | write w p => exact absurd rfl (ha w p)
  | reopen w => exact h.map fun hb => hb.shut.openExisting w
  | sync => exact h
  | close => exact h.map Blocks.shut
  | zip n z mtime name hn => exact h.map fun hb => hb.zip hn z mtime
  | remove n ok name hn => exact h.map fun hb => hb.remove hn ok
  | prune n l name hn =>
    refine h.map fun hb => ?_
    have hpruned := hb.prune l
    exact ⟨hpruned.count, hpruned.active, hpruned.segment, hpruned.names,
      fun j hj => hb.jobs j (List.mem_of_mem_eraseIdx hj)⟩

end Divides

end UbgoLogger.Sink.File.RotatingFile
