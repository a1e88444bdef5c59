import JfsFuse.Journal.Replay

/-!
# Filters for freed pages

A `NOREDOPAGE` or `NOREDOINOEXT` record is meant to keep the older images of the pages it names from
being written.  The pass passes the newest record first, so that what it knows at a record depends on
the later part of the log; `tablesAfter` is what it knows behind that part, and `writeOf` the write it
issues for a record in front of it.

A filter marks the tracker of a page.  If the page has none, a new one is marked and dropped, and
the table gets a fresh one that is not marked: a filter takes effect only where an earlier passed
record has left a tracker.  Of the extent of a `NOREDOPAGE` record only the first block is looked at, and of
that of a `NOREDOINOEXT` record every 4096th block, at most four of them.
-/

namespace JfsFuse

open ByteBuf Program

/-! ## The later part of a log -/

/-- A record with the property, given what is behind it in the log. -/
def Somewhere (p : LogRecord → List LogRecord → Prop) (records : List LogRecord) : Prop :=
  ∃ before record later, records = before ++ record :: later ∧ p record later

theorem somewhere_nil (p : LogRecord → List LogRecord → Prop) : ¬ Somewhere p [] := by
  rintro ⟨before, record, later, h, -⟩
  cases before <;> cases h

theorem somewhere_cons {p : LogRecord → List LogRecord → Prop} {record : LogRecord} {later : List LogRecord} :
    Somewhere p (record :: later) ↔ p record later ∨ Somewhere p later := by
  constructor
  · rintro ⟨before, other, rest, h, hp⟩
    cases before with
    | nil =>
        cases h
        exact Or.inl hp
    | cons first before =>
        cases h
        exact Or.inr ⟨before, other, rest, rfl, hp⟩
  · rintro (hp | ⟨before, other, rest, rfl, hp⟩)
    · exact ⟨[], record, later, rfl, hp⟩
    · exact ⟨record :: before, other, rest, rfl, hp⟩

theorem committedIn_cons {record : LogRecord} {later : List LogRecord} {tid : UInt32} :
    CommittedIn (record :: later) tid ↔ record.1.isCommit ∧ record.1.logtid = tid ∨ CommittedIn later tid := by
  unfold CommittedIn
  simp only [List.mem_cons, exists_eq_or_imp]

/-- The volume has been seen to be mounted. -/
def MountedIn (records : List LogRecord) (aggregate : UInt32) : Prop :=
  ∃ record ∈ records, ¬ record.1.isCommit ∧ record.1.isMount ∧ record.1.aggregate = aggregate

theorem mountedIn_cons {record : LogRecord} {later : List LogRecord} {aggregate : UInt32} :
    MountedIn (record :: later) aggregate ↔
      (¬ record.1.isCommit ∧ record.1.isMount ∧ record.1.aggregate = aggregate) ∨ MountedIn later aggregate := by
  unfold MountedIn
  simp only [List.mem_cons, exists_eq_or_imp]

/-- The record is dispatched to a handler: it is of no other kind, and its transaction commits. -/
def Dispatched (record : LogRecord) (later : List LogRecord) : Prop :=
  ¬ record.1.isCommit ∧ ¬ record.1.isMount ∧ ¬ record.1.isSyncpt ∧ CommittedIn later record.1.logtid

/-- A committed `NOREDOPAGE` or `NOREDOINOEXT` record. -/
def IsFilter (record : LogRecord) (later : List LogRecord) : Prop :=
  Dispatched record later ∧ ¬ record.1.isRedopage ∧ (record.1.isNoredopage ∨ record.1.isNoredoinoext)

/-- A committed after-image of a known page type, in a volume that is not taken as clean. -/
def IsRedo (record : LogRecord) (later : List LogRecord) : Prop :=
  Dispatched record later ∧ record.1.isRedopage ∧
    (record.1.redopageType = logInode ∨ record.1.redopageType &&& logData ≠ 0) ∧
    ¬ MountedIn later record.1.aggregate

/-- The blocks that a filter goes through. -/
def filterAddrs (lrd : Lrd) : List ℕ :=
  if lrd.isNoredopage then [lrd.redopagePxd.address]
  else (List.range (min ((lrd.redopagePxd.length + blockSize - 1) / blockSize) 4)).map fun k =>
    lrd.redopagePxd.address + k * blockSize

/-- The record leaves a tracker for the block, unless there is one.  The key of a new tracker has
40 bits. -/
def Tracks (block : ℕ) (record : LogRecord) (later : List LogRecord) : Prop :=
  IsFilter record later ∧ (∃ addr ∈ filterAddrs record.1, addr % 2 ^ 40 = block) ∨
    IsRedo record later ∧ record.1.redopageType = logInode ∧ record.1.redopagePxd.address = block

/-- The record is a filter that marks the tracker of the block. -/
def Marks (block : ℕ) (record : LogRecord) (later : List LogRecord) : Prop :=
  IsFilter record later ∧ block ∈ filterAddrs record.1 ∧ Somewhere (Tracks block) later

theorem lt_of_somewhere_tracks {block : ℕ} {records : List LogRecord} (h : Somewhere (Tracks block) records) :
    block < 2 ^ 40 := by
  obtain ⟨before, record, later, -, ⟨-, addr, -, rfl⟩ | ⟨-, -, rfl⟩⟩ := h
  · exact Nat.mod_lt _ (by decide)
  · exact Pxd.address_lt _

/-! ## The tables behind the later part -/

namespace JournalRecovery

/-- The tables after the records, which are passed from the last one on. -/
def tablesAfter (logsuper : LogSuper) : List LogRecord → JournalRecovery
  | [] => new logsuper
  | record :: later => (tablesAfter logsuper later).recordTables record

/-- There is a tracker for the block. -/
def HasTracker (r : JournalRecovery) (block : ℕ) : Prop :=
  r.pages block ≠ none

/-- It is marked. -/
def IsMarked (r : JournalRecovery) (block : ℕ) : Prop :=
  (r.pages block).any PageTracker.isComplete = true

theorem HasTracker.of_isMarked {r : JournalRecovery} {block : ℕ} (h : r.IsMarked block) : r.HasTracker block := by
  intro hnone
  unfold IsMarked at h
  rw [hnone] at h
  cases h

section Pages

variable (r : JournalRecovery) (addr block : ℕ)

theorem hasTracker_findOrCreate : (r.findOrCreate addr).HasTracker block ↔ r.HasTracker block ∨ block = addr := by
  unfold findOrCreate HasTracker
  cases hpage : r.pages addr with
  | some tracker =>
      refine ⟨Or.inl, fun h => h.elim id ?_⟩
      rintro rfl
      rw [hpage]
      simp
  | none =>
      by_cases heq : block = addr
      · simp [heq]
      · simp [heq]

theorem isMarked_findOrCreate : (r.findOrCreate addr).IsMarked block ↔ r.IsMarked block := by
  unfold findOrCreate IsMarked
  cases hpage : r.pages addr with
  | some tracker => rfl
  | none =>
      by_cases heq : block = addr
      · rw [heq]
        simp [hpage, PageTracker.isComplete]
      · simp [Function.update_of_ne heq]

theorem hasTracker_filterPage : (filterPage addr r).HasTracker block ↔ r.HasTracker block ∨ block = addr := by
  unfold filterPage
  cases hpage : r.pages addr with
  | none => exact hasTracker_findOrCreate r addr block
  | some tracker =>
      unfold HasTracker
      by_cases heq : block = addr
      · simp [heq]
      · simp [heq]

theorem isMarked_filterPage :
    (filterPage addr r).IsMarked block ↔ r.IsMarked block ∨ block = addr ∧ r.HasTracker block := by
  unfold filterPage
  cases hpage : r.pages addr with
  | none =>
      show (r.findOrCreate addr).IsMarked block ↔ _
      rw [isMarked_findOrCreate]
      refine ⟨Or.inl, fun h => h.elim id ?_⟩
      rintro ⟨rfl, htracker⟩
      exact absurd hpage htracker
  | some tracker =>
      unfold IsMarked HasTracker
      by_cases heq : block = addr
      · rw [heq]
        simp [hpage, PageTracker.isComplete, PageTracker.setNoRedo]
      · simp [heq]

theorem hasTracker_noteInodePage : (noteInodePage addr r).HasTracker block ↔ r.HasTracker block ∨ block = addr := by
  unfold noteInodePage
  cases hpage : r.pages addr with
  | none => exact hasTracker_findOrCreate r addr block
  | some tracker =>
      unfold HasTracker
      by_cases heq : block = addr
      · simp [heq]
      · simp [heq]

theorem isMarked_noteInodePage (hplain : ∀ tracker, r.pages addr = some tracker → tracker.summary = 0 ∨ tracker.summary = 7) :
    (noteInodePage addr r).IsMarked block ↔ r.IsMarked block := by
  unfold noteInodePage
  cases hpage : r.pages addr with
  | none => exact isMarked_findOrCreate r addr block
  | some tracker =>
      unfold IsMarked
      by_cases heq : block = addr
      · rw [heq, hpage]
        rcases hplain tracker hpage with hsummary | hsummary <;>
          simp [PageTracker.isComplete, hsummary]
      · simp [heq]

end Pages

/-- What the summaries of trackers can be. -/
def Summaries (r : JournalRecovery) : Prop :=
  ∀ addr tracker, r.pages addr = some tracker → tracker.summary = 0 ∨ tracker.summary = 7 ∨ tracker.summary = 0xff

section Summaries

variable {r : JournalRecovery}

theorem Summaries.update (h : r.Summaries) {addr : ℕ} {tracker : PageTracker}
    (hnew : tracker.summary = 0 ∨ tracker.summary = 7 ∨ tracker.summary = 0xff) :
    Summaries { r with pages := Function.update r.pages addr (some tracker) } := by
  intro other found hfound
  change Function.update r.pages addr (some tracker) other = some found at hfound
  by_cases heq : other = addr
  · rw [heq, Function.update_self] at hfound
    cases hfound
    exact hnew
  · rw [Function.update_of_ne heq] at hfound
    exact h other found hfound

theorem Summaries.findOrCreate (h : r.Summaries) (addr : ℕ) : (r.findOrCreate addr).Summaries := by
  unfold JournalRecovery.findOrCreate
  cases r.pages addr with
  | some tracker => exact h
  | none => exact h.update (Or.inl rfl)

theorem Summaries.filterPage (h : r.Summaries) (addr : ℕ) : (filterPage addr r).Summaries := by
  unfold JournalRecovery.filterPage
  cases r.pages addr with
  | some tracker => exact h.update (Or.inr (Or.inr rfl))
  | none => exact h.findOrCreate addr

theorem Summaries.filterPages (h : r.Summaries) (addr count : ℕ) : (filterPages r addr count).Summaries := by
  induction count generalizing r addr with
  | zero => exact h
  | succ count ih =>
      unfold JournalRecovery.filterPages
      refine ih ?_ _
      cases r.pages addr with
      | some tracker => exact h.filterPage addr
      | none => exact h.findOrCreate _

theorem Summaries.noteInodePage (h : r.Summaries) (addr : ℕ) : (noteInodePage addr r).Summaries := by
  unfold JournalRecovery.noteInodePage
  cases hpage : r.pages addr with
  | some tracker =>
      refine h.update ?_
      rcases h addr tracker hpage with hsummary | hsummary | hsummary <;>
        simp only [hsummary] <;> decide
  | none => exact h.findOrCreate addr

end Summaries

/-! ### The loop over an inode extent -/

section Loop

variable {r : JournalRecovery}

/-- One round of the loop. -/
def filterRound (addr : ℕ) (r : JournalRecovery) : JournalRecovery :=
  match r.pages addr with
  | some _ => filterPage addr r
  | none => r.findOrCreate ((Pxd.setAddress {} addr).setLength 1).address

theorem filterPages_succ (r : JournalRecovery) (addr count : ℕ) :
    filterPages r addr (count + 1) = filterPages (filterRound addr r) (addr + blockSize) count := rfl

theorem filterRound_spec (hbound : ∀ block, r.HasTracker block → block < 2 ^ 40) (addr block : ℕ) :
    ((filterRound addr r).HasTracker block ↔ r.HasTracker block ∨ addr % 2 ^ 40 = block) ∧
      ((filterRound addr r).IsMarked block ↔ r.IsMarked block ∨ addr = block ∧ r.HasTracker block) := by
  unfold filterRound
  cases hpage : r.pages addr with
  | some tracker =>
      have haddr : addr < 2 ^ 40 := hbound addr (by unfold HasTracker; rw [hpage]; simp)
      dsimp only
      rw [hasTracker_filterPage, isMarked_filterPage, Nat.mod_eq_of_lt haddr, @eq_comm _ block]
      exact ⟨Iff.rfl, Iff.rfl⟩
  | none =>
      dsimp only
      rw [hasTracker_findOrCreate, isMarked_findOrCreate, Pxd.address_setLength, Pxd.address_setAddress,
        @eq_comm _ block]
      refine ⟨Iff.rfl, Or.inl, fun h => h.elim id ?_⟩
      rintro ⟨rfl, htracker⟩
      exact absurd hpage htracker

/-- **The loop** marks the trackers that were there before it. -/
theorem filterPages_spec (hbound : ∀ block, r.HasTracker block → block < 2 ^ 40) (addr count block : ℕ) :
    ((filterPages r addr count).HasTracker block ↔
      r.HasTracker block ∨ ∃ k < count, (addr + k * blockSize) % 2 ^ 40 = block) ∧
    ((filterPages r addr count).IsMarked block ↔
      r.IsMarked block ∨ (∃ k < count, addr + k * blockSize = block) ∧ r.HasTracker block) := by
  induction count generalizing r addr with
  | zero => simp [filterPages]
  | succ count ih =>
      rw [filterPages_succ]
      have hround := filterRound_spec hbound addr
      generalize filterRound addr r = r' at hround ⊢
      have hbound' : ∀ block, r'.HasTracker block → block < 2 ^ 40 := by
        intro block htracker
        rcases (hround block).1.mp htracker with hold | rfl
        · exact hbound block hold
        · exact Nat.mod_lt _ (by decide)
      have hsplit : ∀ p : ℕ → Prop, (∃ k < count + 1, p (addr + k * blockSize)) ↔
          p addr ∨ ∃ k < count, p (addr + blockSize + k * blockSize) := by
        intro p
        constructor
        · rintro ⟨k, hk, hp⟩
          cases k with
          | zero => exact Or.inl (by simpa using hp)
          | succ k => exact Or.inr ⟨k, by omega, by rwa [Nat.succ_mul, Nat.add_comm _ blockSize, ← Nat.add_assoc] at hp⟩
        · rintro (hp | ⟨k, hk, hp⟩)
          · exact ⟨0, by omega, by simpa using hp⟩
          · exact ⟨k + 1, by omega, by rwa [Nat.succ_mul, Nat.add_comm _ blockSize, ← Nat.add_assoc]⟩
      obtain ⟨htracker, hmarked⟩ := ih hbound' (addr + blockSize)
      obtain ⟨htracker₁, hmarked₁⟩ := hround block
      constructor
      · rw [htracker, htracker₁, hsplit fun a => a % 2 ^ 40 = block]
        exact or_assoc
      · rw [hmarked, hmarked₁, htracker₁, hsplit fun a => a = block]
        constructor
        · rintro ((hold | ⟨hhere, hhas⟩) | ⟨hlater, hhas | hnew⟩)
          · exact Or.inl hold
          · exact Or.inr ⟨Or.inl hhere, hhas⟩
          · exact Or.inr ⟨Or.inr hlater, hhas⟩
          · -- a new tracker is not behind the address it was made for
            obtain ⟨k, -, hk⟩ := hlater
            have hle := Nat.mod_le addr (2 ^ 40)
            unfold blockSize at hk
            omega
        · rintro (hold | ⟨hhere | hlater, hhas⟩)
          · exact Or.inl (Or.inl hold)
          · exact Or.inl (Or.inr ⟨hhere, hhas⟩)
          · exact Or.inr ⟨hlater, Or.inl hhas⟩

end Loop

/-! ### What the tables say about the later part -/

/-- The tables hold what there is to know about the records behind. -/
structure Knows (r : JournalRecovery) (later : List LogRecord) : Prop where
  commits : ∀ tid, tid ∈ r.commits ↔ CommittedIn later tid
  volumes : ∀ aggregate, r.volumes aggregate = .clean ∨ r.volumes aggregate = .logredo ↔ MountedIn later aggregate
  files : r.noRedoFiles = []
  summaries : r.Summaries
  trackers : ∀ block, r.HasTracker block ↔ Somewhere (Tracks block) later
  marked : ∀ block, r.IsMarked block ↔ Somewhere (Marks block) later

theorem knows_new (logsuper : LogSuper) : (new logsuper).Knows [] where
  commits tid := by simp [new, CommittedIn]
  volumes aggregate := by simp [new, MountedIn]
  files := rfl
  summaries addr tracker h := by cases h
  trackers block := iff_of_false (fun h => h rfl) (somewhere_nil _)
  marked block := iff_of_false (by simp [IsMarked, new]) (somewhere_nil _)

section Knows

variable {r : JournalRecovery} {later : List LogRecord} (h : r.Knows later) (record : LogRecord)

include h

theorem Knows.lt_of_hasTracker {block : ℕ} (htracker : r.HasTracker block) : block < 2 ^ 40 :=
  lt_of_somewhere_tracks ((h.trackers block).mp htracker)

/-- The write is issued for an after-image of a page that is not marked. -/
theorem Knows.recordWrite_eq_some {w : BlockWrite} : r.recordWrite record = some w ↔
    w = imageOf record ∧ IsRedo record later ∧ ¬ r.IsMarked record.1.redopagePxd.address := by
  unfold recordWrite IsRedo Dispatched IsMarked
  simp only [h.commits, h.files, h.volumes, List.not_mem_nil, and_false, if_false]
  split
  · next hother =>
      refine iff_of_false (by simp) ?_
      rintro ⟨-, ⟨⟨hcommit, hmount, hsync, htid⟩, hredo, -, -⟩, -⟩
      tauto
  split
  · next hmounted => exact iff_of_false (by simp) fun hall => hall.2.1.2.2.2 ((h.volumes _).mp hmounted)
  split
  · next hmarked => exact iff_of_false (by simp) fun hall => hall.2.2 hmarked
  split
  · next hkeep hmounted hmarked htype =>
      rw [Option.some.injEq, eq_comm]
      refine (and_iff_left ⟨⟨?_, ?_, htype, fun hin => hmounted ((h.volumes _).mpr hin)⟩, hmarked⟩).symm
      · exact ⟨by tauto, by tauto, by tauto, by tauto⟩
      · tauto
  · next htype => exact iff_of_false (by simp) fun hall => htype hall.2.1.2.2.1

theorem Knows.isSome_recordWrite : (r.recordWrite record).isSome ↔
    IsRedo record later ∧ ¬ r.IsMarked record.1.redopagePxd.address := by
  rw [Option.isSome_iff_exists]
  simp only [h.recordWrite_eq_some, exists_eq_left]

/-- The tables may change in their trackers only. -/
theorem Knows.of_pages {r' : JournalRecovery} (hcommit : ¬ record.1.isCommit) (hmount : ¬ record.1.isMount)
    (hpages : SameButPages r r') (hsummaries : r'.Summaries)
    (htrackers : ∀ block, r'.HasTracker block ↔ Tracks block record later ∨ r.HasTracker block)
    (hmarked : ∀ block, r'.IsMarked block ↔ Marks block record later ∨ r.IsMarked block) :
    r'.Knows (record :: later) where
  commits tid := by
    obtain ⟨pages, rfl⟩ := hpages
    rw [committedIn_cons, ← h.commits]
    exact (or_iff_right fun hnew => hcommit hnew.1).symm
  volumes aggregate := by
    obtain ⟨pages, rfl⟩ := hpages
    rw [mountedIn_cons, ← h.volumes]
    exact (or_iff_right fun hnew => hmount hnew.2.1).symm
  files := by
    obtain ⟨pages, rfl⟩ := hpages
    exact h.files
  summaries := hsummaries
  trackers block := by rw [htrackers, somewhere_cons, h.trackers]
  marked block := by rw [hmarked, somewhere_cons, h.marked]

/-- A record without an effect on the trackers. -/
theorem Knows.unchanged (hcommit : ¬ record.1.isCommit) (hmount : ¬ record.1.isMount)
    (hfilter : ¬ IsFilter record later) (hredo : ¬ (IsRedo record later ∧ record.1.redopageType = logInode)) :
    r.Knows (record :: later) := by
  refine h.of_pages record hcommit hmount ⟨r.pages, rfl⟩ h.summaries (fun block => ?_) fun block => ?_
  · refine (or_iff_right ?_).symm
    rintro (⟨hin, -⟩ | ⟨hin, htype, -⟩)
    · exact hfilter hin
    · exact hredo ⟨hin, htype⟩
  · exact (or_iff_right fun hmarks => hfilter hmarks.1).symm

/-- A filter that goes through the blocks of its record. -/
theorem Knows.filtered {r' : JournalRecovery} (hcommit : ¬ record.1.isCommit) (hmount : ¬ record.1.isMount)
    (hredo : ¬ record.1.isRedopage) (hfilter : IsFilter record later) (hpages : SameButPages r r') (hsummaries : r'.Summaries)
    (htrackers : ∀ block, r'.HasTracker block ↔
      r.HasTracker block ∨ ∃ addr ∈ filterAddrs record.1, addr % 2 ^ 40 = block)
    (hmarked : ∀ block, r'.IsMarked block ↔
      r.IsMarked block ∨ block ∈ filterAddrs record.1 ∧ r.HasTracker block) :
    r'.Knows (record :: later) := by
  refine h.of_pages record hcommit hmount hpages hsummaries (fun block => ?_) fun block => ?_
  · rw [htrackers, or_comm]
    refine or_congr_left ⟨fun haddr => Or.inl ⟨hfilter, haddr⟩, ?_⟩
    rintro (⟨-, haddr⟩ | ⟨hin, -⟩)
    · exact haddr
    · exact absurd hin.2.1 hredo
  · rw [hmarked, or_comm]
    unfold Marks
    rw [h.trackers]
    exact or_congr_left (and_iff_right hfilter).symm

/-- **One record.** -/
theorem Knows.recordTables : (r.recordTables record).Knows (record :: later) := by
  by_cases hcommit : record.1.isCommit
  · rw [recordTables_of_commit hcommit]
    have hnone : ∀ block, ¬ Tracks block record later ∧ ¬ Marks block record later := by
      refine fun block => ⟨?_, fun hmarks => hmarks.1.1.1 hcommit⟩
      rintro (⟨hin, -⟩ | ⟨hin, -⟩)
      · exact hin.1.1 hcommit
      · exact hin.1.1 hcommit
    refine ⟨fun tid => ?_, fun aggregate => ?_, h.files, h.summaries, fun block => ?_, fun block => ?_⟩
    · rw [committedIn_cons, ← h.commits, List.mem_cons, eq_comm]
      exact or_congr_left (and_iff_right hcommit).symm
    · rw [mountedIn_cons, ← h.volumes]
      exact (or_iff_right fun hnew => hnew.1 hcommit).symm
    · rw [somewhere_cons, ← h.trackers]
      exact (or_iff_right (hnone block).1).symm
    · rw [somewhere_cons, ← h.marked]
      exact (or_iff_right (hnone block).2).symm
  by_cases hmount : record.1.isMount
  · have hnone : ∀ block, ¬ Tracks block record later ∧ ¬ Marks block record later := by
      refine fun block => ⟨?_, fun hmarks => hmarks.1.1.2.1 hmount⟩
      rintro (⟨hin, -⟩ | ⟨hin, -⟩)
      · exact hin.1.2.1 hmount
      · exact hin.1.2.1 hmount
    unfold JournalRecovery.recordTables
    rw [if_neg hcommit, if_pos hmount]
    refine ⟨fun tid => ?_, fun aggregate => ?_, h.files, h.summaries, fun block => ?_, fun block => ?_⟩
    · rw [committedIn_cons, ← h.commits]
      exact (or_iff_right fun hnew => hcommit hnew.1).symm
    · rw [mountedIn_cons, ← h.volumes]
      by_cases heq : aggregate = record.1.aggregate
      · simp [heq, hcommit, hmount]
      · simp [heq, Ne.symm heq]
    · rw [somewhere_cons, ← h.trackers]
      exact (or_iff_right (hnone block).1).symm
    · rw [somewhere_cons, ← h.marked]
      exact (or_iff_right (hnone block).2).symm
  unfold JournalRecovery.recordTables
  rw [if_neg hcommit, if_neg hmount]
  by_cases hskip : record.1.isSyncpt ∨ record.1.logtid ∉ r.commits
  · rw [if_pos hskip]
    have hnot : ¬ Dispatched record later := by
      rintro ⟨-, -, hsync, htid⟩
      exact hskip.elim hsync fun hno => hno ((h.commits _).mpr htid)
    exact h.unchanged record hcommit hmount (fun hin => hnot hin.1) fun hin => hnot hin.1.1
  rw [if_neg hskip]
  push Not at hskip
  have hdispatched : Dispatched record later := ⟨hcommit, hmount, hskip.1, (h.commits _).mp hskip.2⟩
  by_cases hredo : record.1.isRedopage
  · rw [if_pos hredo]
    have hfilter : ¬ IsFilter record later := fun hin => hin.2.1 hredo
    by_cases hwritten : (r.recordWrite record).isSome ∧ record.1.redopageType = logInode
    · rw [if_pos hwritten]
      obtain ⟨hin, hunmarked⟩ := (h.isSome_recordWrite record).mp hwritten.1
      have hplain : ∀ tracker, r.pages record.1.redopagePxd.address = some tracker →
          tracker.summary = 0 ∨ tracker.summary = 7 := by
        intro tracker htracker
        rcases h.summaries _ tracker htracker with hsum | hsum | hsum
        · exact Or.inl hsum
        · exact Or.inr hsum
        · refine absurd ?_ hunmarked
          unfold IsMarked
          rw [htracker, Option.any_some, PageTracker.isComplete, hsum]
          rfl
      refine h.of_pages record hcommit hmount (noteInodePage_sameButPages _ r) (h.summaries.noteInodePage _)
        (fun block => ?_) fun block => ?_
      · rw [hasTracker_noteInodePage, or_comm]
        refine or_congr_left ⟨fun heq => Or.inr ⟨hin, hwritten.2, heq.symm⟩, ?_⟩
        rintro (⟨hno, -⟩ | ⟨-, -, heq⟩)
        · exact absurd hno hfilter
        · exact heq.symm
      · rw [isMarked_noteInodePage r _ block hplain]
        exact (or_iff_right fun hmarks => hfilter hmarks.1).symm
    · rw [if_neg hwritten]
      refine h.of_pages record hcommit hmount ⟨r.pages, rfl⟩ h.summaries (fun block => ?_) fun block => ?_
      · -- an inode page that is not written is marked, and so it has a tracker
        refine (or_iff_right_of_imp ?_).symm
        rintro (⟨hno, -⟩ | ⟨hin, htype, rfl⟩)
        · exact absurd hno hfilter
        · by_contra hnone
          exact hwritten ⟨(h.isSome_recordWrite record).mpr ⟨hin, fun hmarked => hnone (HasTracker.of_isMarked hmarked)⟩,
            htype⟩
      · exact (or_iff_right fun hmarks => hfilter hmarks.1).symm
  rw [if_neg hredo]
  by_cases hpage : record.1.isNoredopage
  · rw [if_pos hpage]
    have hfilter : IsFilter record later := ⟨hdispatched, hredo, Or.inl hpage⟩
    have haddrs : filterAddrs record.1 = [record.1.redopagePxd.address] := if_pos hpage
    refine h.filtered record hcommit hmount hredo hfilter (filterPage_sameButPages _ r) (h.summaries.filterPage _)
      (fun block => ?_) fun block => ?_
    · rw [hasTracker_filterPage, haddrs]
      simp only [List.mem_singleton, exists_eq_left, Nat.mod_eq_of_lt (Pxd.address_lt _), eq_comm]
    · rw [isMarked_filterPage, haddrs, List.mem_singleton]
  rw [if_neg hpage]
  by_cases hext : record.1.isNoredoinoext
  · rw [if_pos hext]
    have hfilter : IsFilter record later := ⟨hdispatched, hredo, Or.inr hext⟩
    have haddrs : filterAddrs record.1 =
        (List.range (min ((record.1.redopagePxd.length + blockSize - 1) / blockSize) 4)).map fun k =>
          record.1.redopagePxd.address + k * blockSize := if_neg hpage
    have hspec := fun block => filterPages_spec (r := r) (fun _ => h.lt_of_hasTracker) record.1.redopagePxd.address
      (min ((record.1.redopagePxd.length + blockSize - 1) / blockSize) 4) block
    refine h.filtered record hcommit hmount hredo hfilter (filterPages_sameButPages r _ _) (h.summaries.filterPages _ _)
      (fun block => ?_) fun block => ?_
    · rw [(hspec block).1, haddrs]
      simp only [List.mem_map, List.mem_range, exists_exists_and_eq_and]
    · rw [(hspec block).2, haddrs]
      simp only [List.mem_map, List.mem_range]
  · rw [if_neg hext]
    refine h.unchanged record hcommit hmount (fun hin => hin.2.2.elim hpage hext) fun hin => hredo hin.1.2.1

end Knows

theorem knows_tablesAfter (logsuper : LogSuper) (later : List LogRecord) : (tablesAfter logsuper later).Knows later := by
  induction later with
  | nil => exact knows_new logsuper
  | cons record later ih => exact ih.recordTables record

/-! ## The writes of the pass, record by record -/

/-- The sync point that is known behind the records, 0 for none. -/
def lastSync (dataStart : ℕ) : List LogRecord → ℕ
  | [] => 0
  | record :: later =>
      if record.1.isSyncpt ∧ 0 < record.1.syncptSync then dataStart + record.1.syncptSync * logPSize
      else lastSync dataStart later

/-- The pass goes on in front of the records. -/
def GoesOn (dataStart readerPos : ℕ) : List LogRecord → Prop
  | [] => True
  | record :: later => GoesOn dataStart readerPos later ∧
      ¬ (0 < lastSync dataStart (record :: later) ∧ readerPos ≤ lastSync dataStart (record :: later))

instance decidableGoesOn (dataStart readerPos : ℕ) : ∀ records, Decidable (GoesOn dataStart readerPos records)
  | [] => isTrue trivial
  | _ :: later =>
      have := decidableGoesOn dataStart readerPos later
      inferInstanceAs (Decidable (GoesOn dataStart readerPos later ∧ _))

/-- The write of the pass for a record with `later` behind it in the log. -/
def writeOf (logsuper : LogSuper) (dataStart readerPos : ℕ) (record : LogRecord) (later : List LogRecord) :
    Option BlockWrite :=
  if GoesOn dataStart readerPos later then (tablesAfter logsuper later).recordWrite record else none

theorem passWrites_step (dataStart readerPos : ℕ) (record : LogRecord) (later rest : List LogRecord) (r : JournalRecovery) :
    passWrites dataStart readerPos (lastSync dataStart later) (record :: rest) r = (r.recordWrite record).toList ++
      if 0 < lastSync dataStart (record :: later) ∧ readerPos ≤ lastSync dataStart (record :: later) then []
      else passWrites dataStart readerPos (lastSync dataStart (record :: later)) rest (r.recordTables record) := rfl

/-- The write for the first record of a part of the log. -/
def writeOfFirst (logsuper : LogSuper) (dataStart readerPos : ℕ) : List LogRecord → Option BlockWrite
  | [] => none
  | record :: later => writeOf logsuper dataStart readerPos record later

/-- The pass over a log is that over its later part, and goes on from there. -/
theorem passWrites_append (logsuper : LogSuper) (dataStart readerPos : ℕ) (later rest : List LogRecord) :
    passWrites dataStart readerPos 0 (later.reverse ++ rest) (new logsuper) =
      passWrites dataStart readerPos 0 later.reverse (new logsuper) ++
        if GoesOn dataStart readerPos later then
          passWrites dataStart readerPos (lastSync dataStart later) rest (tablesAfter logsuper later)
        else [] := by
  induction later generalizing rest with
  | nil => rfl
  | cons record later ih =>
      have hlog : (record :: later).reverse ++ rest = later.reverse ++ record :: rest := by simp
      rw [hlog, ih, List.reverse_cons, ih, List.append_assoc]
      congr 1
      by_cases hgoes : GoesOn dataStart readerPos later
      · have hiff : GoesOn dataStart readerPos (record :: later) ↔
            ¬ (0 < lastSync dataStart (record :: later) ∧ readerPos ≤ lastSync dataStart (record :: later)) :=
          and_iff_right hgoes
        have hrest : passWrites dataStart readerPos (lastSync dataStart (record :: later)) []
            ((tablesAfter logsuper later).recordTables record) = [] := rfl
        rw [if_pos hgoes, if_pos hgoes, passWrites_step, passWrites_step, hrest, ite_self, List.append_nil]
        congr 1
        by_cases hstop : 0 < lastSync dataStart (record :: later) ∧ readerPos ≤ lastSync dataStart (record :: later)
        · rw [if_pos hstop, if_neg (hiff.not.mpr (not_not.mpr hstop))]
        · rw [if_neg hstop, if_pos (hiff.mpr hstop)]
          rfl
      · have hno : ¬ GoesOn dataStart readerPos (record :: later) := fun hin => hgoes hin.1
        rw [if_neg hgoes, if_neg hgoes, if_neg hno]
        rfl

/-- **The writes of the pass** are those of its records, newest first. -/
theorem passWrites_eq_writeOf (logsuper : LogSuper) (dataStart readerPos : ℕ) (records : List LogRecord) :
    passWrites dataStart readerPos 0 records.reverse (new logsuper) =
      records.tails.reverse.filterMap (writeOfFirst logsuper dataStart readerPos) := by
  induction records with
  | nil => rfl
  | cons record later ih =>
      have htails : (record :: later).tails = (record :: later) :: later.tails := rfl
      rw [List.reverse_cons, passWrites_append, ih, htails, List.reverse_cons, List.filterMap_append]
      congr 1
      have hrest : passWrites dataStart readerPos (lastSync dataStart (record :: later)) []
          ((tablesAfter logsuper later).recordTables record) = [] := rfl
      rw [passWrites_step, hrest, ite_self, List.append_nil, List.filterMap_cons, List.filterMap_nil]
      unfold writeOfFirst writeOf
      by_cases hgoes : GoesOn dataStart readerPos later
      · simp only [if_pos hgoes]
        cases (tablesAfter logsuper later).recordWrite record <;> rfl
      · simp only [if_neg hgoes]

/-! ## Freed pages -/

/-- The extent of a committed filter has the block. -/
def Covered (block : ℕ) (record : LogRecord) (later : List LogRecord) : Prop :=
  IsFilter record later ∧ record.1.redopagePxd.address ≤ block ∧
    block < record.1.redopagePxd.address + record.1.redopagePxd.length

/-- Nothing is written to the extent of a committed filter from an image in front of it. -/
def Suppresses (logsuper : LogSuper) (dataStart readerPos : ℕ) (records : List LogRecord) : Prop :=
  ∀ before image later w, records = before ++ image :: later →
    writeOf logsuper dataStart readerPos image later = some w →
      ∀ i, w.Covers i → ¬ Somewhere (Covered (i / blockSize)) later

theorem writeOf_eq_some (logsuper : LogSuper) (dataStart readerPos : ℕ) (record : LogRecord) (later : List LogRecord)
    {w : BlockWrite} : writeOf logsuper dataStart readerPos record later = some w ↔
      w = imageOf record ∧ GoesOn dataStart readerPos later ∧ IsRedo record later ∧
        ¬ Somewhere (Marks record.1.redopagePxd.address) later := by
  have hknows := knows_tablesAfter logsuper later
  unfold writeOf
  rw [← hknows.marked]
  by_cases hgoes : GoesOn dataStart readerPos later
  · rw [if_pos hgoes, hknows.recordWrite_eq_some]
    exact ⟨fun h => ⟨h.1, hgoes, h.2⟩, fun h => ⟨h.1, h.2.2⟩⟩
  · rw [if_neg hgoes]
    exact iff_of_false (by simp) fun h => hgoes h.2.1

/-- **Filters work exactly** where the tracker of the page is marked: where one of the later filters
goes through the block of the image, and a record behind that filter has left a tracker for it. -/
theorem suppresses_iff (logsuper : LogSuper) (dataStart readerPos : ℕ) (records : List LogRecord) :
    Suppresses logsuper dataStart readerPos records ↔
      ∀ before image later, records = before ++ image :: later → GoesOn dataStart readerPos later →
        IsRedo image later → (∃ i, (imageOf image).Covers i ∧ Somewhere (Covered (i / blockSize)) later) →
          Somewhere (Marks image.1.redopagePxd.address) later := by
  constructor
  · intro h before image later hlog hgoes hredo hcovered
    obtain ⟨i, hcovers, hsome⟩ := hcovered
    by_contra hunmarked
    have hwrite := (writeOf_eq_some logsuper dataStart readerPos image later).mpr ⟨rfl, hgoes, hredo, hunmarked⟩
    exact h before image later _ hlog hwrite i hcovers hsome
  · intro h before image later w hlog hwrite i hcovers hsome
    obtain ⟨rfl, hgoes, hredo, hunmarked⟩ := (writeOf_eq_some logsuper dataStart readerPos image later).mp hwrite
    exact hunmarked (h before image later hlog hgoes hredo ⟨i, hcovers, hsome⟩)

/-- An image of block 10. -/
def freedImage (data : List UInt8) : LogRecord :=
  (LogManager.redoLrd 1 10 0 data.length, data)

/-- The same transaction frees the block. -/
def freedFilter : LogRecord :=
  ({ logtid := 1, type := logNoredopage, redopagePxd := (Pxd.setAddress {} 10).setLength 1 }, [])

/-- It commits. -/
def freedCommit : LogRecord :=
  (LogManager.commitLrd 1 0, [])

-- two filters for a page are enough
example : writeOf {} 0 0 (freedImage []) [freedFilter, freedFilter, freedCommit] = none := by
  decide

/-- **A freed page is written.** -/
theorem freed_page_written : ¬ Suppresses {} 0 0 [freedImage (zeros blockSize), freedFilter, freedCommit] ∧
    passWrites 0 0 0 [freedImage (zeros blockSize), freedFilter, freedCommit].reverse (new {}) =
      [(10, zeros blockSize)] := by
  have hgoes : GoesOn 0 0 [freedFilter, freedCommit] := by decide
  have htables : (tablesAfter {} [freedFilter, freedCommit]).commits = [1] ∧
      (tablesAfter {} [freedFilter, freedCommit]).volumes 0 = .dirty ∧
      (tablesAfter {} [freedFilter, freedCommit]).noRedoFiles = [] ∧
      ((tablesAfter {} [freedFilter, freedCommit]).pages 10).any PageTracker.isComplete = false := by
    decide
  have hwrite : ∀ data, writeOf {} 0 0 (freedImage data) [freedFilter, freedCommit] = some (10, data) := by
    intro data
    have hflag : ∀ flag, (freedImage data).1.has flag = (logRedopage &&& flag != 0) := fun _ => rfl
    have hkind : (freedImage data).1.isCommit = false ∧ (freedImage data).1.isMount = false ∧
        (freedImage data).1.isSyncpt = false ∧ (freedImage data).1.isRedopage = true :=
      ⟨(hflag _).trans (by decide), (hflag _).trans (by decide), (hflag _).trans (by decide), (hflag _).trans (by decide)⟩
    have hfields : (freedImage data).1.logtid = 1 ∧ (freedImage data).1.aggregate = 0 ∧
        (freedImage data).1.redopageType = logInode ∧ (freedImage data).1.redopagePxd.address = 10 :=
      ⟨rfl, rfl, rfl, show ((Pxd.setAddress {} 10).setLength 1).address = 10 by decide⟩
    unfold writeOf recordWrite
    rw [if_pos hgoes]
    simp only [hkind, hfields, htables]
    rfl
  constructor
  · intro h
    refine h [] _ _ _ rfl (hwrite _) (10 * blockSize) ?_ ?_
    · exact (covers_iff_block (w := (10, zeros blockSize)) (length_zeros _) _).mpr (Nat.mul_div_cancel _ (by decide))
    · refine ⟨[], freedFilter, [freedCommit], rfl, ⟨⟨by decide, by decide, by decide, by decide⟩, by decide,
        Or.inl (by decide)⟩, ?_, ?_⟩
      · rw [Nat.mul_div_cancel _ (by decide)]
        decide
      · rw [Nat.mul_div_cancel _ (by decide)]
        decide
  · have hnone : writeOf {} 0 0 freedFilter [freedCommit] = none ∧ writeOf {} 0 0 freedCommit [] = none := by decide
    rw [passWrites_eq_writeOf]
    show [[], [freedCommit], [freedFilter, freedCommit], _].filterMap _ = _
    simp only [List.filterMap_cons, List.filterMap_nil, writeOfFirst, hwrite, hnone.1, hnone.2]

end JournalRecovery

end JfsFuse
