import JfsFuse.Journal.Layout
import JfsFuse.Journal.Restart
import JfsFuse.Volume.Mount

/-!
# The fields of the log superblock

`write_super` stores all fields of a log superblock, the table of active volumes among them.
`read_super` reads all but that table.  A superblock that goes through both keeps its table only
if the table is empty, and a recovery sends the superblock of the log through both: it clears the
table on the storage.  The other writer, the finalisation of `replay`, covers fewer fields still,
but `write_super` comes after it and overwrites what it wrote.
-/

namespace JfsFuse

open ByteBuf Program

namespace LogSuper

/-- The table of a log without active volumes. -/
def noActive : Vector (Vector UInt8 16) 128 :=
  Vector.replicate 128 (Vector.replicate 16 0)

/-- All fields in a page, with the table that `read_super` leaves out. -/
def stored (page : List UInt8) : LogSuper :=
  { superOf page with
    active := Vector.ofFn fun i => Vector.ofFn fun j => page.getD (68 + i * 16 + j) 0 }

/-- The log superblock on a storage. -/
def onDisk (logBase : ℕ) (s : Storage) : LogSuper :=
  stored (Memory.read s.data (logBase + blockSize) blockSize)

end LogSuper

namespace LogManager

/-! ## A superblock page -/

theorem slice_superBytes (super : LogSuper) {off n : ℕ} (h : off + n ≤ 2116) :
    slice (superBytes super) off n = slice (superFields super) off n := by
  have hinside := slice_splice_inside (Nat.zero_le (zeros logPSize).length)
    (h.trans_eq (length_superFields super).symm)
  rwa [Nat.zero_add] at hinside

theorem length_superWords (super : LogSuper) : (superWords super).length = 36 := by
  simp [superWords]

theorem readLE_superBytes (super : LogSuper) {i : ℕ} (hi : i < 9) :
    readLE (superBytes super) (4 * i) 4 =
      ([super.magic, super.version, super.serial, super.size, super.bsize, super.l2bsize, super.flag,
        super.state, super.logEnd].getD i 0).toNat := by
  have hwords := length_superWords super
  rw [readLE, slice_superBytes super (by omega), superFields, List.append_assoc, List.append_assoc,
    slice_append_left _ (by omega)]
  exact readLE_flatMap_words _ i

theorem ofFn_of_slice {page : List UInt8} {off : ℕ} {v : Vector UInt8 16}
    (h : slice page off 16 = v.toList) : (Vector.ofFn fun i => page.getD (off + i) 0) = v := by
  ext i hi
  rw [Vector.getElem_ofFn, ← getD_slice page off 16 i 0 hi, h]
  simp [hi]

theorem slice_uuid (super : LogSuper) : slice (superBytes super) 36 16 = super.uuid.toList := by
  have hwords := length_superWords super
  have hself := slice_zero_length super.uuid.toList
  rw [Vector.length_toList] at hself
  rw [slice_superBytes super (by omega), superFields, List.append_assoc, List.append_assoc,
    slice_append_right _ _ (by omega), hwords, slice_append_left _ (by simp)]
  exact hself

theorem slice_label (super : LogSuper) : slice (superBytes super) 52 16 = super.label.toList := by
  have hwords := length_superWords super
  have hself := slice_zero_length super.label.toList
  rw [Vector.length_toList] at hself
  rw [slice_superBytes super (by omega), superFields, List.append_assoc,
    slice_append_right _ _ (by simp [hwords]), slice_append_left _ (by simp [hwords])]
  simpa [hwords] using hself

theorem slice_active (super : LogSuper) {i : ℕ} (hi : i < 128) :
    slice (superBytes super) (68 + i * 16) 16 = super.active[i].toList := by
  have hwords := length_superWords super
  have hpiece := slice_flatMap (f := Vector.toList) (n := 16) (fun v => Vector.length_toList)
    (l := super.active.toList) (i := i) (by rw [Vector.length_toList]; exact hi)
  rw [slice_superBytes super (by omega), superFields, slice_append_right _ _ (by simp [hwords])]
  simpa [hwords] using hpiece

/-- `write_super` stores every field. -/
theorem stored_superBytes (super : LogSuper) : LogSuper.stored (superBytes super) = super := by
  have hword : ∀ i < 9, UInt32.ofNat (readLE (superBytes super) (4 * i) 4) =
      [super.magic, super.version, super.serial, super.size, super.bsize, super.l2bsize, super.flag,
        super.state, super.logEnd].getD i 0 := by
    intro i hi
    rw [readLE_superBytes super hi, UInt32.ofNat_toNat]
  have hactive : (Vector.ofFn fun i : Fin 128 => Vector.ofFn fun j : Fin 16 =>
      (superBytes super).getD (68 + i * 16 + j) 0) = super.active := by
    ext1 i hi
    rw [Vector.getElem_ofFn]
    exact ofFn_of_slice (slice_active super hi)
  unfold LogSuper.stored superOf
  rw [hactive, ofFn_of_slice (slice_uuid super), ofFn_of_slice (slice_label super)]
  obtain ⟨magic, version, serial, size, bsize, l2bsize, flag, state, logEnd, uuid, label, active⟩ := super
  simp only [LogSuper.mk.injEq, and_true]
  exact ⟨hword 0 (by decide), hword 1 (by decide), hword 2 (by decide), hword 3 (by decide),
    hword 4 (by decide), hword 5 (by decide), hword 6 (by decide), hword 7 (by decide), hword 8 (by decide)⟩

/-- `read_super` leaves the table out. -/
theorem superOf_eq (page : List UInt8) :
    superOf page = { LogSuper.stored page with active := LogSuper.noActive } := rfl

theorem superOf_superBytes (super : LogSuper) :
    superOf (superBytes super) = { super with active := LogSuper.noActive } := by
  rw [superOf_eq, stored_superBytes]

/-! ## Through both -/

/-- On a storage that does not fail, `read_super` returns what `write_super` stored, less the
table. -/
theorem readSuper_of_writeSuper {super : LogSuper} {lm : LogManager} {s : Storage} {t : LogState}
    (hfaults : s.faults = []) (h : writeSuper super ⟨lm, s⟩ = .ok () t) :
    readSuper lm.logBase t.storage = .ok { super with active := LogSuper.noActive } t.storage := by
  unfold writeSuper at h
  rw [bind_ok (get_apply _)] at h
  obtain ⟨t', hwrite, rfl⟩ := of_zoom_ok h
  obtain ⟨haccepted, rfl⟩ := writeBytes_accepted hfaults hwrite
  have hlen : (superBytes super).length = blockSize := length_superBytes super
  have hread : Memory.read (Memory.write s.data (lm.logBase + blockSize) (superBytes super))
      (lm.logBase + blockSize) blockSize = superBytes super := by
    rw [← hlen, Memory.read_write_self]
  have hresult : ((s.written (lm.logBase + blockSize) (superBytes super)).record
      (.writeBytes (lm.logBase + blockSize) (superBytes super))).readResult
        (lm.logBase + blockSize) blockSize = .ok (superBytes super) := by
    unfold Storage.writeRefused at haccepted
    unfold Storage.readResult Storage.record Storage.written
    cases hbackend : s.backend with
    | memory =>
        simp only [hbackend] at haccepted ⊢
        split at haccepted
        · cases haccepted
        next hfits =>
          rw [hlen] at hfits
          rw [if_neg hfits, hread]
    | file readOnly =>
        have hne : superBytes super ≠ [] := List.ne_nil_of_length_pos (by rw [hlen]; decide)
        simp only
        rw [if_pos, hread]
        right
        unfold Storage.len
        simp only [if_neg hne]
        omega
  have hstored := readSuper_eq (s := (s.written (lm.logBase + blockSize) (superBytes super)).record
    (.writeBytes (lm.logBase + blockSize) (superBytes super))) hfaults lm.logBase
  rw [hresult] at hstored
  simp only at hstored
  rw [superOf_superBytes] at hstored
  exact hstored

theorem of_readSuper {logBase : ℕ} {s s' : Storage} {super : LogSuper}
    (h : readSuper logBase s = .ok super s') :
    super = { LogSuper.onDisk logBase s with active := LogSuper.noActive } ∧ s'.data = s.data := by
  unfold readSuper at h
  obtain ⟨page, s₁, hread, h⟩ := of_bind_ok h
  have hsame := (LogReader.readBytes_sameButFaults (logBase + blockSize) blockSize s)
  rw [hread] at hsame
  have hdata : s₁.data = s.data := hsame.data
  unfold StorageM.readBytes at hread
  obtain ⟨_, s₂, hattempt, hread⟩ := of_bind_ok hread
  rw [bind_ok (get_apply s₂)] at hread
  obtain ⟨hpage, rfl⟩ := of_returnExcept_ok hread
  cases h
  refine ⟨?_, hdata⟩
  rw [readResult_inv hpage, hdata]
  rfl

end LogManager

namespace Volume

open LogManager

/-- What `init_log` returns was read with `read_super`. -/
theorem of_initLog {sb : Superblock} {s s' : Storage} {lm : LogManager}
    (h : initLog sb s = .ok (some lm) s') : readSuper lm.logBase s = .ok lm.logsuper s' := by
  unfold initLog at h
  by_cases hinline : sb.hasInlineLog
  · rw [if_pos hinline] at h
    obtain ⟨super, s₁, hread, h⟩ := of_bind_ok h
    by_cases hmagic : super.magic.toNat ≠ logMagic
    · rw [if_pos hmagic] at h
      cases h
    by_cases hversion : super.version.toNat ≠ logVersion
    · rw [if_neg hmagic, if_pos hversion] at h
      cases h
    · rw [if_neg hmagic, if_neg hversion] at h
      cases h
      exact hread
  · rw [if_neg hinline] at h
    cases h

/-- The superblock that a replay hands to `write_super`. -/
theorem of_runReplay {lm : LogManager} {s s' : Storage} {recovery : JournalRecovery}
    (h : runReplay lm s = .ok recovery s') :
    recovery.markReplayed.logsuper = replayedSuper lm.logsuper := by
  unfold runReplay at h
  cases hreplay : JournalRecovery.replay lm.dataStart ⟨.new lm.logsuper, { fs := s }⟩ with
  | error e t =>
      rw [hreplay] at h
      cases h
  | ok u t =>
      rw [hreplay] at h
      cases h
      exact JournalRecovery.replay_logsuper hreplay

theorem onDisk_recoverJournal (lm : LogManager) {log : Option LogManager} {s s' : Storage}
    (hstate : lm.logsuper.state.toNat ≠ logRedone) (h : recoverJournal (some lm) s = .ok log s') :
    LogSuper.onDisk lm.logBase s' = replayedSuper lm.logsuper := by
  unfold recoverJournal at h
  simp only at h
  rw [if_neg hstate] at h
  obtain ⟨recovery, s₁, hreplay, h⟩ := of_bind_ok h
  obtain ⟨lm', s₂, hrun, h⟩ := of_bind_ok h
  cases h
  have hsuper := of_runReplay hreplay
  unfold runLog at hrun
  split at hrun
  next u t hbody =>
    cases hrun
    obtain ⟨u, t₁, hwrite, hsync⟩ := of_bind_ok hbody
    unfold writeSuper at hwrite
    rw [bind_ok (get_apply _)] at hwrite
    obtain ⟨s₃, hwritten, rfl⟩ := of_zoom_ok hwrite
    obtain ⟨s₄, hsynced, rfl⟩ := of_zoom_ok hsync
    obtain ⟨u, s₅, hattempt, hrecord⟩ := of_bind_ok hsynced
    cases hrecord
    have hattempted := StorageM.of_attempt_ok hattempt
    have hdata : s₅.data = s₃.data := by
      rw [hattempted]
    have hpage : Memory.read s₅.data (lm.logBase + blockSize) blockSize =
        superBytes (replayedSuper lm.logsuper) := by
      have hlen : (superBytes (replayedSuper lm.logsuper)).length = blockSize := length_superBytes _
      rw [hdata, (StorageM.writeBytes_inv hwritten).1, hsuper, ← hlen, Memory.read_write_self]
    unfold LogSuper.onDisk
    show LogSuper.stored (Memory.read s₅.data _ _) = _
    rw [hpage, stored_superBytes]
  next => cases hrun

/-! ### A log with active volumes and no records -/

def activeSuper : LogSuper where
  magic := 0x87654321
  version := 1
  active := Vector.replicate 128 (Vector.replicate 16 1)

theorem activeSuper_ne : activeSuper.active ≠ LogSuper.noActive := by
  intro h
  have hbyte : (activeSuper.active[0])[0] = (LogSuper.noActive[0])[0] := by rw [h]
  unfold activeSuper LogSuper.noActive at hbyte
  simp at hbyte

/-- An empty log at the start of the storage. -/
def activeLog : Storage where
  backend := .memory
  size := 2 * blockSize
  data := Memory.write (fun _ => 0) blockSize (superBytes activeSuper)

def activeSb : Superblock where
  magic := []
  version := 1
  size := 2
  bsize := 4096
  flag := 0x800
  ait2 := {}
  logpxd := {}

theorem read_activeLog : Memory.read activeLog.data (0 + blockSize) blockSize = superBytes activeSuper := by
  have hlen : (superBytes activeSuper).length = blockSize := length_superBytes _
  have hread := Memory.read_write_self (fun _ => (0 : UInt8)) blockSize (superBytes activeSuper)
  rw [hlen] at hread
  rw [Nat.zero_add]
  exact hread

theorem onDisk_activeLog : LogSuper.onDisk 0 activeLog = activeSuper := by
  unfold LogSuper.onDisk
  rw [read_activeLog, stored_superBytes]

/-- The superblock that `read_super` returns. -/
def activeRead : LogSuper :=
  { activeSuper with active := LogSuper.noActive }

theorem initLog_activeLog :
    initLog activeSb activeLog = .ok (some (LogManager.new activeRead 0)) activeLog := by
  have hfits : LogReader.Readable activeLog (0 + blockSize + blockSize) := by
    show 0 + blockSize + blockSize ≤ 2 * blockSize
    omega
  have hresult : activeLog.readResult (0 + blockSize) blockSize = .ok (superBytes activeSuper) := by
    rw [hfits.readResult, read_activeLog]
  have hread : readSuper 0 activeLog = .ok activeRead activeLog := by
    rw [readSuper_eq rfl, hresult]
    simp only
    rw [superOf_superBytes]
    rfl
  unfold initLog
  have hbase : activeSb.logpxd.address * blockSize = 0 := by decide
  rw [if_pos (by decide), hbase, bind_ok hread, if_neg (by decide), if_neg (by decide)]
  rfl

theorem exists_writeSuper {lm : LogManager} {s : Storage} {super : LogSuper} (hfaults : s.faults = [])
    (hwrite : s.writeRefused (lm.logBase + blockSize) (superBytes super).length = none) :
    ∃ s', s'.faults = [] ∧ writeSuper super ⟨lm, s⟩ = .ok () ⟨lm, s'⟩ := by
  refine ⟨(s.written (lm.logBase + blockSize) (superBytes super)).record
    (.writeBytes (lm.logBase + blockSize) (superBytes super)), hfaults, ?_⟩
  unfold writeSuper
  rw [bind_ok (get_apply _)]
  exact zoom_ok (StorageM.writeBytes_ok hfaults hwrite)

theorem exists_runLog (lm : LogManager) (super : LogSuper) {s : Storage} (hfaults : s.faults = [])
    (hwrite : s.writeRefused (lm.logBase + blockSize) (superBytes super).length = none) :
    ∃ s', runLog lm (do writeSuper super; LogManager.onStorage StorageM.sync) s = .ok lm s' := by
  obtain ⟨s₁, hfaults₁, hsuper⟩ := exists_writeSuper hfaults hwrite
  have hsync : LogManager.onStorage StorageM.sync ⟨lm, s₁⟩ = .ok () ⟨lm, s₁.record .sync⟩ :=
    zoom_ok (StorageM.flush_ok hfaults₁ .sync)
  refine ⟨s₁.record .sync, ?_⟩
  unfold runLog
  rw [bind_ok hsuper, hsync]

/-- The recovery of a log without records goes through. -/
theorem exists_recoverJournal {lm : LogManager} {s : Storage} {pos : ℕ} (hbackend : s.backend = .memory)
    (hfaults : s.faults = []) (hsize : lm.logBase + 2 * blockSize ≤ s.size)
    (hstate : lm.logsuper.state.toNat ≠ logRedone)
    (hscan : LogReader.scan lm.logsuper lm.dataStart s = .ok ([], pos) s) :
    ∃ log s', recoverJournal (some lm) s = .ok log s' := by
  have hplace : lm.dataStart - blockSize = lm.logBase + blockSize := by
    unfold dataStart
    omega
  have hfinal : s.writeRefused (lm.dataStart - blockSize)
      (JournalRecovery.finalBytes (replayedSuper lm.logsuper)).length = none := by
    rw [length_finalBytes, hplace]
    refine Storage.writeRefused_memory hbackend ?_
    unfold blockSize at *
    omega
  obtain ⟨t, hreplay, hmedia⟩ := JournalRecovery.replay_of_parts (m := { fs := s }) hstate hscan rfl
    (StorageM.writeBytes_ok hfaults hfinal)
  have hrun : runReplay lm s = .ok t.recovery t.media.fs := by
    unfold runReplay
    rw [hreplay]
  have hfs : t.media.fs.faults = [] ∧ t.media.fs.backend = .memory ∧ t.media.fs.size = s.size := by
    rw [hmedia]
    exact ⟨hfaults, hbackend, rfl⟩
  obtain ⟨s', hlog⟩ := exists_runLog lm t.recovery.markReplayed.logsuper hfs.1
    (Storage.writeRefused_memory hfs.2.1 (by
      rw [length_superBytes, hfs.2.2]
      unfold blockSize logPSize at *
      omega))
  refine ⟨some lm, s', ?_⟩
  unfold recoverJournal
  simp only
  rw [if_neg hstate, bind_ok hrun]
  exact bind_ok hlog

theorem exists_recoverJournal_activeLog :
    ∃ log s, recoverJournal (some (LogManager.new activeRead 0)) activeLog = .ok log s :=
  exists_recoverJournal rfl rfl (by decide) (by decide) (show LogReader.scan _ _ _ = _ from rfl)

/-- **A superblock with active volumes loses them**, and no other loses anything, between
`write_super` and `read_super` as in a recovery. -/
theorem logSuper_kept_iff (super : LogSuper) (lm : LogManager) (s : Storage) :
    (∀ t : LogState, s.faults = [] → writeSuper super ⟨lm, s⟩ = .ok () t →
        ∃ super', readSuper lm.logBase t.storage = .ok super' t.storage ∧
          (super' = super ↔ super.active = LogSuper.noActive)) ∧
      ∀ (sb : Superblock) (s₁ s₂ : Storage) (log : Option LogManager),
        initLog sb s = .ok (some lm) s₁ → recoverJournal (some lm) s₁ = .ok log s₂ →
        ((∃ state, LogSuper.onDisk lm.logBase s₂ = { LogSuper.onDisk lm.logBase s with state }) ↔
          (LogSuper.onDisk lm.logBase s).state.toNat = logRedone ∨
            (LogSuper.onDisk lm.logBase s).active = LogSuper.noActive) := by
  constructor
  · intro t hfaults hwrite
    refine ⟨_, readSuper_of_writeSuper hfaults hwrite, fun hsame => ?_, fun hactive => ?_⟩
    · exact (congrArg LogSuper.active hsame).symm
    · rw [← hactive]
  intro sb s₁ s₂ log hinit hrecover
  obtain ⟨hsuper, hdata⟩ := of_readSuper (of_initLog hinit)
  have hstate : lm.logsuper.state = (LogSuper.onDisk lm.logBase s).state := by
    rw [hsuper]
  rw [← hstate]
  by_cases hredone : lm.logsuper.state.toNat = logRedone
  · have hsame : s₂ = s₁ := by
      unfold recoverJournal at hrecover
      simp only at hrecover
      rw [if_pos hredone] at hrecover
      cases hrecover
      rfl
    refine iff_of_true ⟨(LogSuper.onDisk lm.logBase s).state, ?_⟩ (.inl hredone)
    unfold LogSuper.onDisk
    rw [hsame, hdata]
  · have hreplayed : LogSuper.onDisk lm.logBase s₂ =
        replayedSuper { LogSuper.onDisk lm.logBase s with active := LogSuper.noActive } := by
      rw [onDisk_recoverJournal _ hredone hrecover, hsuper]
    rw [hreplayed]
    refine ⟨fun ⟨state, hkept⟩ => .inr ?_, fun hcond => ⟨UInt32.ofNat logRedone, ?_⟩⟩
    · exact (congrArg LogSuper.active hkept).symm
    · rw [← hcond.resolve_left hredone]
      rfl

theorem logSuper_kept_iff_activeLog :
    ∃ log s, recoverJournal (some (LogManager.new activeRead 0)) activeLog = .ok log s ∧
      ¬ ∃ state, LogSuper.onDisk 0 s = { LogSuper.onDisk 0 activeLog with state } := by
  obtain ⟨log, s, hrecover⟩ := exists_recoverJournal_activeLog
  refine ⟨log, s, hrecover, fun hkept => ?_⟩
  have hcond := ((logSuper_kept_iff activeSuper (LogManager.new activeRead 0) activeLog).2 activeSb activeLog s log
    initLog_activeLog hrecover).mp hkept
  simp only [LogManager.new, onDisk_activeLog] at hcond
  exact hcond.elim (by decide) activeSuper_ne

theorem activeRead_ne : activeRead ≠ activeSuper :=
  fun h => activeSuper_ne (congrArg LogSuper.active h).symm

/-- `read_super` does not return the table that `write_super` stored, and a recovery clears it. -/
theorem logSuper_not_kept :
    (∃ t super', writeSuper activeSuper ⟨LogManager.new {} 0, activeLog⟩ = .ok () t ∧
        readSuper 0 t.storage = .ok super' t.storage ∧ super' ≠ activeSuper) ∧
      ∃ log s, recoverJournal (some (LogManager.new activeRead 0)) activeLog = .ok log s ∧
        ¬ ∃ state, LogSuper.onDisk 0 s = { LogSuper.onDisk 0 activeLog with state } := by
  constructor
  · have hfits : activeLog.writeRefused ((LogManager.new {} 0).logBase + blockSize)
        (superBytes activeSuper).length = none := by
      refine Storage.writeRefused_memory rfl ?_
      rw [length_superBytes]
      decide
    obtain ⟨s, hfaults, hwrite⟩ := exists_writeSuper rfl hfits
    exact ⟨_, _, hwrite, readSuper_of_writeSuper rfl hwrite, activeRead_ne⟩
  · obtain ⟨log, s, hrecover⟩ := exists_recoverJournal_activeLog
    refine ⟨log, s, hrecover, fun ⟨state, hkept⟩ => activeSuper_ne ?_⟩
    have hcleared : LogSuper.onDisk 0 s = replayedSuper activeRead :=
      onDisk_recoverJournal (LogManager.new activeRead 0) (by decide) hrecover
    rw [hcleared, onDisk_activeLog] at hkept
    exact (congrArg LogSuper.active hkept).symm

end Volume

end JfsFuse
