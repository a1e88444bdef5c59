import JfsFuse.Journal.Replay
import Mathlib.Data.List.Induction

/-!
# Which after-image a replayed block ends with

The backward pass meets the newest image of a block first, and means to skip the
older ones: `update_page` asks a page tracker whether the page is complete.  The
tracker it puts into the table is a fresh one, and later images only set the
bits 0x07 of it, so no page ever becomes complete.

On a log of the writer's own records the pass therefore writes the committed
images in reverse log order (`passWrites_eq`), and every block ends with its
oldest committed image.  It holds the newest one exactly when the two agree
(`backward_newest_iff`).
-/

namespace JfsFuse

open ByteBuf Program

/-! ## The committed images of a log -/

/-- An after-image as the log writer emits it. -/
def IsImage (record : LogRecord) : Prop :=
  record.1.type = logRedopage ∧ record.1.redopageType = logInode ∧ record.2.length = blockSize

/-- The record is of a kind the log writer emits. -/
def IsWriterRecord (record : LogRecord) : Prop :=
  IsImage record ∨ record.1.type = logCommit

instance (record : LogRecord) : Decidable (IsImage record) :=
  inferInstanceAs (Decidable (_ ∧ _))

/-- The images whose transaction commits later in the log, in log order. -/
def committedImages : List LogRecord → List BlockWrite
  | [] => []
  | record :: rest =>
      if IsImage record ∧ CommittedIn rest record.1.logtid then
        imageOf record :: committedImages rest
      else committedImages rest

/-- The committed images of `block`, in log order. -/
def imagesOf (records : List LogRecord) (block : ℕ) : List BlockWrite :=
  (committedImages records).filter fun w => w.1 = block

/-- Every block with a committed image holds the last one. -/
def HoldsNewest (records : List LogRecord) (fs : Storage) : Prop :=
  ∀ block newest, (imagesOf records block).getLast? = some newest →
    Memory.read fs.data (block * blockSize) blockSize = newest.2

/-- For every block, the first and the last committed image are the same. -/
def OldestIsNewest (records : List LogRecord) : Prop :=
  ∀ block oldest newest, (imagesOf records block).head? = some oldest →
    (imagesOf records block).getLast? = some newest → oldest.2 = newest.2

/-- The storage takes whole blocks, and every image's block is inside it. -/
def InRange (records : List LogRecord) (fs : Storage) : Prop :=
  fs.backend ≠ .file true ∧
    ∀ record ∈ records, IsImage record → record.1.redopagePxd.address < fs.sizeBlocks

/-! ## The pass over writer records -/

/-- `committedImages` with the transactions `tids` taken as committed. -/
private def imagesWith (tids : List UInt32) : List LogRecord → List BlockWrite
  | [] => []
  | record :: rest =>
      if IsImage record ∧ (record.1.logtid ∈ tids ∨ CommittedIn rest record.1.logtid) then
        imageOf record :: imagesWith tids rest
      else imagesWith tids rest

private theorem imagesWith_nil (records : List LogRecord) :
    imagesWith [] records = committedImages records := by
  induction records with
  | nil => rfl
  | cons record rest ih => simp [imagesWith, committedImages, ih]

private theorem committedIn_append_commit {records : List LogRecord} {last : LogRecord}
    (hlast : last.1.isCommit) (tid : UInt32) :
    CommittedIn (records ++ [last]) tid ↔ last.1.logtid = tid ∨ CommittedIn records tid := by
  constructor
  · rintro ⟨record, hmem, hcommit, htid⟩
    rcases List.mem_append.mp hmem with hmem | hmem
    · exact Or.inr ⟨record, hmem, hcommit, htid⟩
    · rw [List.mem_singleton.mp hmem] at htid
      exact Or.inl htid
  · rintro (htid | ⟨record, hmem, hcommit, htid⟩)
    · exact ⟨last, by simp, hlast, htid⟩
    · exact ⟨record, List.mem_append_left _ hmem, hcommit, htid⟩

private theorem committedIn_append_image {records : List LogRecord} {last : LogRecord}
    (hlast : ¬ last.1.isCommit) (tid : UInt32) :
    CommittedIn (records ++ [last]) tid ↔ CommittedIn records tid := by
  constructor
  · rintro ⟨record, hmem, hcommit, htid⟩
    rcases List.mem_append.mp hmem with hmem | hmem
    · exact ⟨record, hmem, hcommit, htid⟩
    · rw [List.mem_singleton.mp hmem] at hcommit
      exact absurd hcommit hlast
  · rintro ⟨record, hmem, hcommit, htid⟩
    exact ⟨record, List.mem_append_left _ hmem, hcommit, htid⟩

/-- A commit at the end of the log commits one more transaction. -/
private theorem imagesWith_append_commit (tids : List UInt32) (records : List LogRecord)
    {last : LogRecord} (hlast : last.1.isCommit) (hkind : ¬ IsImage last) :
    imagesWith tids (records ++ [last]) = imagesWith (last.1.logtid :: tids) records := by
  induction records with
  | nil => simp [imagesWith, hkind]
  | cons record rest ih =>
      have hiff : (record.1.logtid ∈ tids ∨ CommittedIn (rest ++ [last]) record.1.logtid) ↔
          (record.1.logtid ∈ last.1.logtid :: tids ∨ CommittedIn rest record.1.logtid) := by
        rw [committedIn_append_commit hlast, List.mem_cons, eq_comm]
        tauto
      rw [List.cons_append, imagesWith, imagesWith, ih]
      simp only [hiff]

/-- An image at the end of the log counts if its transaction is committed. -/
private theorem imagesWith_append_image (tids : List UInt32) (records : List LogRecord)
    {last : LogRecord} (hlast : ¬ last.1.isCommit) (hkind : IsImage last) :
    imagesWith tids (records ++ [last]) = imagesWith tids records ++
      if last.1.logtid ∈ tids then [imageOf last] else [] := by
  induction records with
  | nil => simp [imagesWith, hkind, CommittedIn]
  | cons record rest ih =>
      rw [List.cons_append, imagesWith, imagesWith, ih]
      simp only [committedIn_append_image hlast]
      split <;> rfl

namespace JournalRecovery

/-- No filter stops an image: all volumes are dirty, no file and no page is
excluded. -/
private structure Unfiltered (r : JournalRecovery) : Prop where
  volumes : ∀ aggregate, r.volumes aggregate = .dirty
  files : r.noRedoFiles = []
  pages : ∀ addr tracker, r.pages addr = some tracker →
    tracker.summary = 0 ∨ tracker.summary = 0x07

private theorem Unfiltered.not_complete {r : JournalRecovery} (h : Unfiltered r) (addr : ℕ) :
    (r.pages addr).any PageTracker.isComplete = false := by
  cases hpage : r.pages addr with
  | none => rfl
  | some tracker =>
      rcases h.pages addr tracker hpage with hsum | hsum <;>
        rw [Option.any_some, PageTracker.isComplete, hsum] <;> rfl

/-- Noting an inode page never completes it. -/
private theorem Unfiltered.noteInodePage {r : JournalRecovery} (h : Unfiltered r) (addr : ℕ) :
    Unfiltered (noteInodePage addr r) := by
  obtain ⟨pages, hpages⟩ := noteInodePage_sameButPages addr r
  refine ⟨?_, ?_, ?_⟩
  · rw [hpages]
    exact h.volumes
  · rw [hpages]
    exact h.files
  · intro other tracker hfind
    rw [JournalRecovery.noteInodePage] at hfind
    cases hpage : r.pages addr with
    | some old =>
        simp only [hpage] at hfind
        by_cases heq : other = addr
        · simp only [heq, Function.update_self, Option.some.injEq] at hfind
          rw [← hfind]
          rcases h.pages addr old hpage with hsum | hsum <;> rw [hsum] <;> decide
        · rw [Function.update_of_ne heq] at hfind
          exact h.pages other tracker hfind
    | none =>
        rw [hpage] at hfind
        simp only [findOrCreate, hpage] at hfind
        by_cases heq : other = addr
        · simp only [heq, Function.update_self, Option.some.injEq] at hfind
          rw [← hfind]
          exact Or.inl rfl
        · rw [Function.update_of_ne heq] at hfind
          exact h.pages other tracker hfind

theorem isImage_flags {record : LogRecord} (h : IsImage record) :
    record.1.isCommit = false ∧ record.1.isMount = false ∧ record.1.isSyncpt = false ∧
      record.1.isRedopage = true := by
  refine ⟨?_, ?_, ?_, ?_⟩ <;>
    simp only [Lrd.isCommit, Lrd.isMount, Lrd.isSyncpt, Lrd.isRedopage, Lrd.has, h.1] <;> rfl

theorem commit_flags {record : LogRecord} (h : record.1.type = logCommit) :
    record.1.isCommit = true ∧ record.1.isSyncpt = false ∧ ¬ IsImage record := by
  refine ⟨?_, ?_, ?_⟩
  · simp only [Lrd.isCommit, Lrd.has, h]
    rfl
  · simp only [Lrd.isSyncpt, Lrd.has, h]
    rfl
  · intro himage
    have htype := himage.1
    rw [h] at htype
    exact absurd htype (by decide)

/-- Before any sync point, the pass goes on to the next record. -/
private theorem passWrites_cons (dataStart readerPos : ℕ) {record : LogRecord}
    (hsync : record.1.isSyncpt = false) (rest : List LogRecord) (r : JournalRecovery) :
    passWrites dataStart readerPos 0 (record :: rest) r =
      (r.recordWrite record).toList ++
        passWrites dataStart readerPos 0 rest (r.recordTables record) := by
  simp [passWrites, hsync]

/-- The pass over a writer's log, with the tables in any state that filters nothing. -/
private theorem passWrites_imagesWith (dataStart readerPos : ℕ) {records : List LogRecord}
    (hkinds : ∀ record ∈ records, IsWriterRecord record) {r : JournalRecovery}
    (h : Unfiltered r) :
    passWrites dataStart readerPos 0 records.reverse r = (imagesWith r.commits records).reverse := by
  induction records using List.reverseRecOn generalizing r with
  | nil => rfl
  | append_singleton records last ih =>
      have hrest : ∀ record ∈ records, IsWriterRecord record := fun record hmem =>
        hkinds record (List.mem_append_left _ hmem)
      rw [List.reverse_append, List.reverse_singleton, List.singleton_append]
      rcases hkinds last (by simp) with himage | hcommit
      · obtain ⟨hnotCommit, hmount, hsync, hredo⟩ := isImage_flags himage
        have hwrite : r.recordWrite last =
            if last.1.logtid ∈ r.commits then some (imageOf last) else none := by
          simp [recordWrite, hnotCommit, hmount, hsync, hredo, h.volumes, h.files,
            h.not_complete, himage.2.1, imageOf]
        have htables : Unfiltered (r.recordTables last) ∧
            (r.recordTables last).commits = r.commits := by
          refine ⟨?_, (recordTables_of_not_commit (by simp [hnotCommit])).2⟩
          simp only [recordTables, hnotCommit, hmount, hsync, hredo]
          by_cases htid : last.1.logtid ∈ r.commits
          · simpa [htid, hwrite, himage.2.1] using h.noteInodePage _
          · simpa [htid] using h
        rw [passWrites_cons _ _ hsync, hwrite, ih hrest htables.1, htables.2,
          imagesWith_append_image _ _ (by simp [hnotCommit]) himage, List.reverse_append]
        split <;> rfl
      · obtain ⟨hisCommit, hsync, hkind⟩ := commit_flags hcommit
        have hwrite : r.recordWrite last = none := if_pos (Or.inl hisCommit)
        have htables := recordTables_of_commit (r := r) hisCommit
        have hunf : Unfiltered (r.recordTables last) := by
          rw [htables]
          exact ⟨h.volumes, h.files, h.pages⟩
        rw [passWrites_cons _ _ hsync, hwrite, ih hrest hunf, htables,
          imagesWith_append_commit _ _ hisCommit hkind]
        rfl

/-- **The pass over a writer's log writes the committed images, newest first.** -/
theorem passWrites_eq (dataStart readerPos : ℕ) {records : List LogRecord}
    (hkinds : ∀ record ∈ records, IsWriterRecord record) (logsuper : LogSuper) :
    passWrites dataStart readerPos 0 records.reverse (new logsuper) =
      (committedImages records).reverse := by
  have hnew : Unfiltered (new logsuper) := by
    refine ⟨fun _ => rfl, rfl, ?_⟩
    intro addr tracker hfind
    cases hfind
  rw [passWrites_imagesWith dataStart readerPos hkinds hnew, ← imagesWith_nil]
  rfl

end JournalRecovery

/-! ## What the blocks end with -/

theorem mem_committedImages {records : List LogRecord} {w : BlockWrite}
    (h : w ∈ committedImages records) : ∃ record ∈ records, IsImage record ∧ w = imageOf record := by
  induction records with
  | nil => simp [committedImages] at h
  | cons record rest ih =>
      rw [committedImages] at h
      split at h
      · next hcond =>
          rcases List.mem_cons.mp h with rfl | h
          · exact ⟨record, List.mem_cons_self .., hcond.1, rfl⟩
          · obtain ⟨other, hmem, hother⟩ := ih h
            exact ⟨other, List.mem_cons_of_mem _ hmem, hother⟩
      · obtain ⟨other, hmem, hother⟩ := ih h
        exact ⟨other, List.mem_cons_of_mem _ hmem, hother⟩

/-- After whole-block writes a block holds what the last write to it wrote. -/
theorem read_afterWrites {writes before after : List BlockWrite} {w : BlockWrite}
    (hwrites : writes = before ++ w :: after) (hlen : ∀ w' ∈ writes, w'.2.length = blockSize)
    (hlast : ∀ w' ∈ after, w'.1 ≠ w.1) (data : ℕ → UInt8) :
    Memory.read (afterWrites writes data) (w.1 * blockSize) blockSize = w.2 := by
  have hw : w.2.length = blockSize := hlen w (by rw [hwrites]; simp)
  refine ByteBuf.ext_getD 0 (by rw [Memory.length_read, hw]) fun i hi => ?_
  rw [Memory.length_read] at hi
  have hblock : (w.1 * blockSize + i) / blockSize = w.1 := by
    simp only [blockSize] at hi ⊢
    omega
  rw [Memory.getD_read _ _ hi, afterWrites, hwrites, List.map_append, List.map_cons,
    Memory.writeAll_of_last 0 ((covers_iff_block hw _).mpr hblock)]
  · change w.2.getD (w.1 * blockSize + i - w.1 * blockSize) 0 = _
    rw [Nat.add_sub_cancel_left]
  · intro entry hentry hcov
    obtain ⟨w', hw', rfl⟩ := List.mem_map.mp hentry
    have hlen' := hlen w' (by rw [hwrites]; simp [hw'])
    exact hlast w' hw' (((covers_iff_block hlen' _).mp hcov).symm.trans hblock)

/-- The images of a block, written newest first, leave the oldest. -/
theorem read_oldest {records : List LogRecord} {block : ℕ} {oldest : BlockWrite}
    (holdest : (imagesOf records block).head? = some oldest) (data : ℕ → UInt8) :
    Memory.read (afterWrites (committedImages records).reverse data) (block * blockSize)
      blockSize = oldest.2 := by
  obtain ⟨rest, hfilter⟩ := List.head?_eq_some_iff.mp holdest
  obtain ⟨before, after, hsplit, hbefore, hold, -⟩ := List.filter_eq_cons_iff.mp hfilter
  have hblock : oldest.1 = block := by simpa using hold
  have hreverse : (committedImages records).reverse =
      after.reverse ++ oldest :: before.reverse := by
    rw [hsplit]
    simp
  rw [← hblock]
  refine read_afterWrites hreverse ?_ ?_ data
  · intro w hw
    obtain ⟨record, -, himage, rfl⟩ := mem_committedImages (List.mem_reverse.mp hw)
    exact himage.2.2
  · intro w hw heq
    exact hbefore w (List.mem_reverse.mp hw) (by simp [heq, hblock])

/-- The content the pass leaves holds the newest images exactly when they are
the oldest ones. -/
theorem holdsNewest_iff {records : List LogRecord} {fs : Storage} {data : ℕ → UInt8}
    (hdata : fs.data = afterWrites (committedImages records).reverse data) :
    HoldsNewest records fs ↔ OldestIsNewest records := by
  constructor
  · intro h block oldest newest holdest hnewest
    rw [← h block newest hnewest, hdata, read_oldest holdest]
  · intro h block newest hnewest
    cases holdest : (imagesOf records block).head? with
    | none =>
        rw [List.head?_eq_none_iff] at holdest
        rw [holdest] at hnewest
        cases hnewest
    | some oldest => rw [hdata, read_oldest holdest, h block oldest newest holdest hnewest]

/-- The writes of the pass are accepted. -/
theorem accepted_of_inRange {records : List LogRecord} {fs : Storage} (h : InRange records fs) :
    ∀ w ∈ (committedImages records).reverse, fs.writeBlockRefused w.1 w.2 = none := by
  intro w hw
  obtain ⟨record, hmem, himage, rfl⟩ := mem_committedImages (List.mem_reverse.mp hw)
  exact Storage.accepted_of_lt h.1 himage.2.2 (h.2 record hmem himage)

/-- The pass over a writer's log returns, and leaves the committed images
written in reverse order. -/
theorem backward_writer_log (logsuper : LogSuper) (m : Media) (dataStart readerPos : ℕ)
    {records : List LogRecord} (hkinds : ∀ record ∈ records, IsWriterRecord record)
    (hrange : InRange records m.fs) (hfaults : m.fs.faults = []) :
    ∃ s, JournalRecovery.backward dataStart readerPos 0 records.reverse ⟨.new logsuper, m⟩ =
        .ok () s ∧
      s.media.fs.data = afterWrites (committedImages records).reverse m.fs.data := by
  obtain ⟨r', -, hrun⟩ := JournalRecovery.backward_eq dataStart readerPos 0 records.reverse
    ⟨.new logsuper, m⟩
  obtain ⟨fs, hissue, -⟩ := issue_of_accepted hfaults (accepted_of_inRange hrange)
  rw [JournalRecovery.passWrites_eq _ _ hkinds, hissue] at hrun
  exact ⟨_, hrun, (issue_ok hissue).2.2.1⟩

/-- **After the backward pass every block with a committed image holds the
newest one exactly when, for every block, the oldest and the newest committed
image are equal.** -/
theorem backward_newest_iff (logsuper : LogSuper) (m : Media) (dataStart readerPos : ℕ)
    (records : List LogRecord) (hkinds : ∀ record ∈ records, IsWriterRecord record)
    (hrange : InRange records m.fs) (hfaults : m.fs.faults = []) :
    ∃ s, JournalRecovery.backward dataStart readerPos 0 records.reverse ⟨.new logsuper, m⟩ =
        .ok () s ∧
      (HoldsNewest records s.media.fs ↔ OldestIsNewest records) := by
  obtain ⟨s, hrun, hdata⟩ := backward_writer_log logsuper m dataStart readerPos hkinds hrange hfaults
  exact ⟨s, hrun, holdsNewest_iff hdata⟩

/-- Transaction 1 writes block 2 twice, first with bytes 7, then with bytes 9,
and commits. -/
def twoImages : List LogRecord :=
  [(LogManager.redoLrd 1 2 0 blockSize, List.replicate blockSize 7),
    (LogManager.redoLrd 1 2 0 blockSize, List.replicate blockSize 9),
    (LogManager.commitLrd 1 0, [])]

private theorem isImage_redo (byte : UInt8) :
    IsImage (LogManager.redoLrd 1 2 0 blockSize, List.replicate blockSize byte) :=
  ⟨rfl, rfl, List.length_replicate⟩

private theorem twoImages_kinds : ∀ record ∈ twoImages, IsWriterRecord record := by
  intro record hmem
  simp only [twoImages, List.mem_cons, List.not_mem_nil, or_false] at hmem
  rcases hmem with rfl | rfl | rfl
  · exact Or.inl (isImage_redo 7)
  · exact Or.inl (isImage_redo 9)
  · exact Or.inr rfl

private theorem imagesOf_twoImages :
    imagesOf twoImages 2 = [(2, List.replicate blockSize 7), (2, List.replicate blockSize 9)] := by
  have hcommit : CommittedIn [(LogManager.commitLrd 1 0, [])] 1 := by decide
  have hfirst : CommittedIn [(LogManager.redoLrd 1 2 0 blockSize, List.replicate blockSize 9),
      (LogManager.commitLrd 1 0, [])] 1 := by
    obtain ⟨record, hmem, hrecord⟩ := hcommit
    exact ⟨record, List.mem_cons_of_mem _ hmem, hrecord⟩
  have hnot : ¬ IsImage (LogManager.commitLrd 1 0, []) := fun h => absurd h.1 (by decide)
  have hblock : (LogManager.redoLrd 1 2 0 blockSize).redopagePxd.address = 2 := by decide
  rw [imagesOf, twoImages, committedImages, if_pos ⟨isImage_redo 7, hfirst⟩, committedImages,
    if_pos ⟨isImage_redo 9, hcommit⟩, committedImages, if_neg fun h => hnot h.1, committedImages]
  simp [imageOf, hblock]

private theorem twoImages_inRange : InRange twoImages (Storage.newMemory 4) := by
  refine ⟨by decide, ?_⟩
  intro record hmem himage
  simp only [twoImages, List.mem_cons, List.not_mem_nil, or_false] at hmem
  rcases hmem with rfl | rfl | rfl
  · decide
  · decide
  · exact absurd himage.1 (by decide)

theorem backward_newest_iff_twoImages :
    ∃ s, JournalRecovery.backward 0 0 0 twoImages.reverse ⟨.new {}, ⟨.newMemory 4, none⟩⟩ =
        .ok () s ∧
      (HoldsNewest twoImages s.media.fs ↔ OldestIsNewest twoImages) :=
  backward_newest_iff {} ⟨.newMemory 4, none⟩ 0 0 twoImages twoImages_kinds twoImages_inRange rfl

/-- The older of the two images is what block 2 holds afterwards. -/
theorem backward_leaves_older_image :
    ∃ s, JournalRecovery.backward 0 0 0 twoImages.reverse ⟨.new {}, ⟨.newMemory 4, none⟩⟩ =
        .ok () s ∧ ¬ HoldsNewest twoImages s.media.fs := by
  obtain ⟨s, hrun, hdata⟩ := backward_writer_log {} ⟨.newMemory 4, none⟩ 0 0 twoImages_kinds
    twoImages_inRange rfl
  refine ⟨s, hrun, fun hnewest => ?_⟩
  have hsame := (holdsNewest_iff hdata).mp hnewest 2 (2, List.replicate blockSize 7)
    (2, List.replicate blockSize 9) (by rw [imagesOf_twoImages]; rfl)
    (by rw [imagesOf_twoImages]; rfl)
  have hbyte : (7 : UInt8) = 9 := by
    simpa [blockSize] using congrArg List.head? hsame
  exact absurd hbyte (by decide)

end JfsFuse
