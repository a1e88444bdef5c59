import JfsFuse.Journal.FirstBuffer
import JfsFuse.Journal.Scan

/-!
# Reading back what was written to the log

A fresh log manager appends images of blocks and commit records to a zeroed log
area, and the reader then walks the area from its start.

The reader takes the zeros behind the last record of the first buffer for the end of
the log.  So it returns all the records exactly when all of them fit in the first
buffer.
-/

namespace JfsFuse

open ByteBuf Program

/-! ## The reader -/

/-- Iterating `next_forward` from `pos` on returns exactly `records`, and then
nothing. -/
def ReadsBack (s : Storage) (areaEnd : ℕ) : ℕ → List LogRecord → Prop
  | pos, [] => LogReader.nextForward areaEnd pos s = .ok none s
  | pos, record :: rest => ∃ pos', LogReader.nextForward areaEnd pos s = .ok (some (record, pos')) s ∧
      ReadsBack s areaEnd pos' rest

/-- What the reader returns is determined. -/
theorem ReadsBack.unique {s : Storage} {areaEnd pos : ℕ} {records records' : List LogRecord}
    (h : ReadsBack s areaEnd pos records) (h' : ReadsBack s areaEnd pos records') :
    records = records' := by
  induction records generalizing pos records' with
  | nil =>
      cases records' with
      | nil => rfl
      | cons record' rest' =>
          obtain ⟨pos', hnext, -⟩ := h'
          have hnone : LogReader.nextForward areaEnd pos s = .ok none s := h
          rw [hnone] at hnext
          cases hnext
  | cons record rest ih =>
      obtain ⟨pos₁, hnext, hrest⟩ := h
      cases records' with
      | nil =>
          have hnone : LogReader.nextForward areaEnd pos s = .ok none s := h'
          rw [hnone] at hnext
          cases hnext
      | cons record' rest' =>
          obtain ⟨pos₂, hnext', hrest'⟩ := h'
          rw [hnext] at hnext'
          cases hnext'
          rw [ih hrest hrest']

/-- A record that the reader can tell from the end of the log, and whose length
field and padding are right. -/
def Framed (record : LogRecord) : Prop :=
  record.1.logtid ≠ 0 ∧ record.1.length.toNat = record.2.length ∧
    (lrdSize + record.2.length) % 4 = 0

theorem read_of_getD {data : ℕ → UInt8} {off : ℕ} {bytes : List UInt8}
    (h : ∀ i, i < bytes.length → data (off + i) = bytes.getD i 0) :
    Memory.read data off bytes.length = bytes := by
  refine ext_getD 0 (Memory.length_read ..) fun i hi => ?_
  rw [Memory.length_read] at hi
  rw [Memory.getD_read data 0 hi, h i hi]

/-- A stored record is returned, unless its transaction number is 0. -/
theorem nextResult_of_record {s : Storage} {areaEnd pos : ℕ} {lrd : Lrd} {data : List UInt8}
    (hpos : pos < areaEnd) (htid : lrd.logtid ≠ 0) (hlength : lrd.length.toNat = data.length)
    (hpad : (lrdSize + data.length) % 4 = 0)
    (hbytes : Memory.read s.data pos (lrdSize + data.length) = recordBytes (lrd, data))
    (hread : LogReader.Readable s (pos + (lrdSize + data.length))) :
    LogReader.nextResult s areaEnd pos =
      .ok (some ((lrd, data), pos + (lrdSize + data.length))) := by
  have hlrd := length_lrdBytes lrd
  have hpart : ∀ off n, off + n ≤ lrdSize + data.length →
      Memory.read s.data (pos + off) n = slice (lrdBytes lrd ++ data) off n := by
    intro off n hle
    rw [← Memory.slice_read s.data hle, hbytes]
    rfl
  have hhead : Memory.read s.data pos lrdSize = lrdBytes lrd := by
    rw [← Nat.add_zero pos, hpart 0 lrdSize (by omega), slice_append_left _ (by omega), ← hlrd,
      slice_zero_length]
  have hpayload : Memory.read s.data (pos + lrdSize) lrd.length.toNat = data := by
    rw [hlength, hpart lrdSize data.length le_rfl, slice_append_right _ _ (by omega), hlrd,
      Nat.sub_self, slice_zero_length]
  have htotal : LogReader.recordTotal lrd.length.toNat = lrdSize + data.length := by
    unfold LogReader.recordTotal
    rw [hlength]
    omega
  have hnext := LogReader.nextResult_of_stored hpos htid hhead
    (hread.mono (by rw [hlength]; omega))
  rwa [hpayload, htotal] at hnext

/-- The first record of a sequence, and the rest of it. -/
theorem read_bytesOf_cons {data : ℕ → UInt8} {pos : ℕ} {record : LogRecord} {rest : List LogRecord}
    (h : Memory.read data pos (bytesOf (record :: rest)).length = bytesOf (record :: rest)) :
    Memory.read data pos (lrdSize + record.2.length) = recordBytes record ∧
      Memory.read data (pos + (lrdSize + record.2.length)) (bytesOf rest).length = bytesOf rest := by
  have hcons : bytesOf (record :: rest) = recordBytes record ++ bytesOf rest := rfl
  have hlen : (recordBytes record).length = lrdSize + record.2.length := by
    unfold recordBytes
    rw [List.length_append, length_lrdBytes]
  have hpart : ∀ off n, off + n ≤ (recordBytes record ++ bytesOf rest).length →
      Memory.read data (pos + off) n = slice (recordBytes record ++ bytesOf rest) off n := by
    intro off n hle
    rw [← Memory.slice_read data (hcons ▸ hle), h, hcons]
  rw [List.length_append] at hpart
  constructor
  · rw [← Nat.add_zero pos, hpart 0 _ (by omega), slice_append_left _ (by omega), ← hlen,
      slice_zero_length]
  · rw [hpart _ _ (by omega), slice_append_right _ _ hlen.le, hlen, Nat.sub_self, slice_zero_length]

theorem length_bytesOf_cons (record : LogRecord) (rest : List LogRecord) :
    (bytesOf (record :: rest)).length = lrdSize + record.2.length + (bytesOf rest).length := by
  show (recordBytes record ++ bytesOf rest).length = _
  unfold recordBytes
  rw [List.length_append, List.length_append, length_lrdBytes]

/-- **Records that follow each other in the area are read back**, up to where the
reader stops. -/
theorem readsBack_of_bytes {s : Storage} (hfaults : s.faults = []) {areaEnd pos : ℕ}
    (hread : LogReader.Readable s areaEnd) {records : List LogRecord}
    (hframed : ∀ record ∈ records, Framed record)
    (hbytes : Memory.read s.data pos (bytesOf records).length = bytesOf records)
    (hin : pos + (bytesOf records).length ≤ areaEnd)
    (hend : LogReader.nextResult s areaEnd (pos + (bytesOf records).length) = .ok none) :
    ReadsBack s areaEnd pos records := by
  induction records generalizing pos with
  | nil =>
      show LogReader.nextForward areaEnd pos s = _
      rw [LogReader.nextForward_eq hfaults]
      have hnone : LogReader.nextResult s areaEnd pos = .ok none := hend
      rw [hnone]
      rfl
  | cons record rest ih =>
      obtain ⟨htid, hlength, hpad⟩ := hframed record (List.mem_cons_self ..)
      obtain ⟨hfirst, hrest⟩ := read_bytesOf_cons hbytes
      have hlen := length_bytesOf_cons record rest
      have hpos : pos < areaEnd := by
        unfold lrdSize at hlen
        omega
      have hnext := nextResult_of_record hpos htid hlength hpad hfirst (hread.mono (by omega))
      refine ⟨pos + (lrdSize + record.2.length), ?_, ih (fun r hr =>
        hframed r (List.mem_cons_of_mem _ hr)) hrest (by omega) ?_⟩
      · rw [LogReader.nextForward_eq hfaults, hnext]
        rfl
      · rw [← hend, hlen, Nat.add_assoc]

/-! ## The round trip -/

/-- What a reader of the log learns about a call: transaction, record type, block and
payload. -/
structure LogEntry where
  tid : ℕ
  type : UInt16
  block : ℕ
  data : List UInt8
  deriving DecidableEq, Repr

/-- The entry in a record. -/
def entryOf (record : LogRecord) : LogEntry :=
  ⟨record.1.logtid.toNat, record.1.type, record.1.redopagePxd.address, record.2⟩

namespace LogOp

/-- The entry that a call stands for. -/
def entry : LogOp → LogEntry
  | append txid block data => ⟨txid % 2 ^ 32, logRedopage, block % 2 ^ 40, data⟩
  | commit txid => ⟨txid % 2 ^ 32, logCommit, 0, []⟩

theorem entryOf_record (op : LogOp) (prev : ℕ) : entryOf (op.record prev) = op.entry := by
  cases op with
  | append txid block data =>
      unfold record entryOf entry LogManager.redoLrd
      rw [UInt32.toNat_ofNat', Pxd.address_setLength, Pxd.address_setAddress]
  | commit txid =>
      have haddr : ({} : Pxd).address = 0 := by decide
      unfold record entryOf entry LogManager.commitLrd
      rw [UInt32.toNat_ofNat', haddr]

theorem map_entryOf_recordsFrom (off prev : ℕ) (ops : List LogOp) :
    (recordsFrom off prev ops).map entryOf = ops.map entry := by
  induction ops generalizing off prev with
  | nil => rfl
  | cons op rest ih =>
      rw [recordsFrom, List.map_cons, List.map_cons, entryOf_record, ih]

theorem framed_record {op : LogOp} (hvalid : op.Valid) (prev : ℕ) : Framed (op.record prev) := by
  cases op with
  | append txid block data =>
      have hlen := hvalid.2 txid block data rfl
      refine ⟨hvalid.1, ?_, ?_⟩
      · show (UInt16.ofNat data.length).toNat = data.length
        rw [hlen]
        decide
      · show (lrdSize + data.length) % 4 = 0
        rw [hlen]
        decide
  | commit txid =>
      refine ⟨hvalid.1, rfl, ?_⟩
      show (lrdSize + 0) % 4 = 0
      decide

theorem framed_recordsFrom {ops : List LogOp} (hvalid : ∀ op ∈ ops, op.Valid) (off prev : ℕ) :
    ∀ record ∈ recordsFrom off prev ops, Framed record := by
  induction ops generalizing off prev with
  | nil => simp [recordsFrom]
  | cons op rest ih =>
      intro record hmem
      rcases List.mem_cons.mp hmem with rfl | hmem
      · exact framed_record (hvalid op (List.mem_cons_self ..)) prev
      · exact ih (fun op' h => hvalid op' (List.mem_cons_of_mem _ h)) _ _ record hmem

theorem total_mod_four {ops : List LogOp} (hvalid : ∀ op ∈ ops, op.Valid) : total ops % 4 = 0 := by
  induction ops with
  | nil => rfl
  | cons op rest ih =>
      have hsize := size_eq_or (hvalid op (List.mem_cons_self ..)).2
      have hrest := ih fun op' h => hvalid op' (List.mem_cons_of_mem _ h)
      have htotal : total (op :: rest) = op.size + total rest := rfl
      omega

end LogOp

/-- A log manager that has just been made, over a zeroed log area on a working
storage. -/
structure FreshLog (logsuper : LogSuper) (logBase : ℕ) (storage : Storage) : Prop where
  faults : storage.faults = []
  writable : storage.backend ≠ .file true
  room : logBase + blockSize * 2 + logsuper.size.toNat * logPSize ≤ storage.size
  zero : ∀ i, i < logsuper.size.toNat * logPSize → storage.data (logBase + blockSize * 2 + i) = 0

theorem FreshLog.filling {logsuper : LogSuper} {logBase : ℕ} {storage : Storage}
    (h : FreshLog logsuper logBase storage) :
    (⟨.new logsuper logBase, storage⟩ : LogState).Filling [] where
  ready := ⟨h.faults, h.writable, h.room, length_zeros _⟩
  offset := rfl
  bounded := by decide
  buffer := rfl
  dirty := fun hne => absurd rfl hne
  rest := fun i _ hi => h.zero i hi

/-- The area can be read to its end. -/
theorem readable_of_size {s : Storage} {stop : ℕ} (h : stop ≤ s.size) :
    LogReader.Readable s stop := by
  unfold LogReader.Readable
  split
  · exact h
  · exact h.trans (Nat.le_add_right ..)

/-- **The calls that an area of `written` bytes and zeros behind it holds are read
back.** -/
theorem readsBack_area {s : LogState} (hready : s.Ready) {ops : List LogOp}
    (hvalid : ∀ op ∈ ops, op.Valid) {limit : ℕ}
    (hlimit : limit ≤ s.manager.logPages * logPSize) (hmod : limit % 4 = 0)
    (hlen : LogOp.total ops ≤ limit)
    (hstop : limit < s.manager.logPages * logPSize → LogOp.total ops < limit)
    (harea : ∀ i, i < limit → s.area i = (bytesOf (LogOp.recordsFrom 0 0 ops)).getD i 0) :
    ReadsBack s.storage (s.manager.dataStart + s.manager.logPages * logPSize) s.manager.dataStart
      (LogOp.recordsFrom 0 0 ops) := by
  have hbytes := LogOp.length_bytesOf 0 0 ops
  have hread := readable_of_size hready.room
  have hfour := LogOp.total_mod_four hvalid
  refine readsBack_of_bytes hready.faults hread (LogOp.framed_recordsFrom hvalid 0 0) ?_ ?_ ?_
  · exact read_of_getD fun i hi => harea i (by omega)
  · omega
  · rw [hbytes]
    by_cases hend : LogOp.total ops = s.manager.logPages * logPSize
    · unfold LogReader.nextResult
      rw [hend, if_pos le_rfl]
    · -- a zero word stands right behind the last record
      have hlt : LogOp.total ops + 4 ≤ limit := by omega
      have hword : Memory.read s.storage.data (s.manager.dataStart + LogOp.total ops)
          (zeros 4).length = zeros 4 := by
        refine read_of_getD fun i hi => ?_
        rw [length_zeros] at hi
        rw [getD_zeros, Nat.add_assoc]
        have hzero := harea (LogOp.total ops + i) (by omega)
        rw [List.getD_eq_default _ _ (by omega)] at hzero
        exact hzero
      exact LogReader.nextResult_of_zero hword (hread.mono (by omega))

/-- The reader, from the start of the data to the end of the area, returns the calls
`ops` in order. -/
def ReadsCalls (logsuper : LogSuper) (logBase : ℕ) (storage : Storage) (ops : List LogOp) : Prop :=
  ∃ records, ReadsBack storage (logBase + blockSize * 2 + logsuper.size.toNat * logPSize)
    (logBase + blockSize * 2) records ∧ records.map entryOf = ops.map LogOp.entry

section RoundTrip

variable {logsuper : LogSuper} {logBase : ℕ} {storage : Storage} {ops : List LogOp}

/-- Calls that fit in the first buffer are read back. -/
theorem readsCalls_of_fits (hfresh : FreshLog logsuper logBase storage)
    (hvalid : ∀ op ∈ ops, op.Valid) (hlast : ∃ txid, ops.getLast? = some (.commit txid))
    (hroom : LogOp.offsetAfter 0 ops ≤ logsuper.size.toNat * logPSize)
    (hfits : LogOp.total ops ≤ logBufferSize) :
    ∃ s, LogOp.performAll ops ⟨.new logsuper logBase, storage⟩ = .ok () s ∧
      s.manager.writeOffset = LogOp.offsetAfter 0 ops ∧
      ReadsCalls logsuper logBase s.storage ops := by
  obtain ⟨txid, hlast⟩ := hlast
  obtain ⟨s, hrun, hfilling, hoff, hbase, hpages, hstored⟩ :=
    hfresh.filling.run ⟨0, 0, rfl⟩ hvalid (by rw [List.length_nil, Nat.zero_add]; exact hfits) hroom
  have hdata : s.manager.dataStart = logBase + blockSize * 2 := congrArg (· + blockSize * 2) hbase
  have hsize : s.manager.logPages = logsuper.size.toNat := hpages
  have hlen : LogOp.total ops ≤ s.manager.logPages * logPSize := by
    rw [← LogOp.length_bytesOf 0 0 ops, hsize]
    exact (hfilling.offset.symm.trans hoff).trans_le hroom
  have hareamod : s.manager.logPages * logPSize % 4 = 0 := by
    unfold logPSize
    omega
  have hback := readsBack_area hfilling.ready hvalid le_rfl hareamod hlen
    (fun h => absurd h (lt_irrefl _)) (hstored txid hlast)
  rw [hdata, hsize] at hback
  exact ⟨s, hrun, hoff, _, hback, LogOp.map_entryOf_recordsFrom 0 0 ops⟩

/-- Of other calls only a first part is read back. -/
theorem not_readsCalls_of_full (hfresh : FreshLog logsuper logBase storage)
    (hvalid : ∀ op ∈ ops, op.Valid)
    (hroom : LogOp.offsetAfter 0 ops ≤ logsuper.size.toNat * logPSize)
    (hfull : logBufferSize < LogOp.total ops) :
    ∃ s, LogOp.performAll ops ⟨.new logsuper logBase, storage⟩ = .ok () s ∧
      s.manager.writeOffset = LogOp.offsetAfter 0 ops ∧
      ¬ ReadsCalls logsuper logBase s.storage ops := by
  obtain ⟨s, k, hrun, hk, hpassed, hshort, hoff, hbase, hpages⟩ :=
    hfresh.filling.run_leave ⟨0, 0, rfl⟩ hvalid
      (by rw [List.length_nil, Nat.zero_add]; exact hfull) hroom
  have hdata : s.manager.dataStart = logBase + blockSize * 2 := congrArg (· + blockSize * 2) hbase
  have hsize : s.manager.logPages = logsuper.size.toNat := hpages
  have hbuffer : logBufferSize ≤ s.manager.logPages * logPSize := by
    rw [hsize]
    exact hpassed.offset.trans (hoff.trans_le hroom)
  rw [List.length_nil, Nat.zero_add] at hshort
  have hback := readsBack_area hpassed.ready
    (fun op hmem => hvalid op (List.mem_of_mem_take hmem)) hbuffer (by decide) hshort.le
    (fun _ => hshort) hpassed.area
  rw [hdata, hsize] at hback
  refine ⟨s, hrun, hoff, ?_⟩
  rintro ⟨records, hreads, hentries⟩
  -- the reader stops at the gap, after `k` records
  rw [hreads.unique hback, LogOp.map_entryOf_recordsFrom] at hentries
  have hcount := congrArg List.length hentries
  rw [List.length_map, List.length_map, List.length_take] at hcount
  omega

end RoundTrip

/-- **The reader returns the calls of a run of the writer, in order, exactly when all
their records fit in one buffer.** -/
theorem reader_undoes_writer_iff (logsuper : LogSuper) (logBase : ℕ) (storage : Storage)
    (hfresh : FreshLog logsuper logBase storage) (ops : List LogOp)
    (hvalid : ∀ op ∈ ops, op.Valid) (hlast : ∃ txid, ops.getLast? = some (.commit txid))
    (hroom : LogOp.offsetAfter 0 ops ≤ logsuper.size.toNat * logPSize) :
    ∃ s, LogOp.performAll ops ⟨.new logsuper logBase, storage⟩ = .ok () s ∧
      s.manager.writeOffset = LogOp.offsetAfter 0 ops ∧
      (ReadsCalls logsuper logBase s.storage ops ↔ LogOp.total ops ≤ logBufferSize) := by
  by_cases hfits : LogOp.total ops ≤ logBufferSize
  · obtain ⟨s, hrun, hoff, hreads⟩ := readsCalls_of_fits hfresh hvalid hlast hroom hfits
    exact ⟨s, hrun, hoff, iff_of_true hreads hfits⟩
  · obtain ⟨s, hrun, hoff, hreads⟩ := not_readsCalls_of_full hfresh hvalid hroom (by omega)
    exact ⟨s, hrun, hoff, iff_of_false hreads hfits⟩

/-- Two images of a transaction and its commit. -/
def twoAppends : List LogOp :=
  [.append 1 5 (List.replicate blockSize 7), .append 1 6 (List.replicate blockSize 8), .commit 1]

/-- A log of four pages. -/
def fourPages : LogSuper :=
  { size := 4 }

private theorem fourPages_fresh : FreshLog fourPages 0 (Storage.newMemory 6) :=
  ⟨rfl, by decide, by decide, fun _ _ => rfl⟩

private theorem twoAppends_valid : ∀ op ∈ twoAppends, op.Valid := by
  have hvalid : ∀ block byte, (LogOp.append 1 block (List.replicate blockSize byte)).Valid := by
    intro block byte
    refine ⟨show UInt32.ofNat 1 ≠ 0 by decide, ?_⟩
    intro txid block' data heq
    cases heq
    exact List.length_replicate
  intro op hmem
  simp only [twoAppends, List.mem_cons, List.not_mem_nil, or_false] at hmem
  rcases hmem with rfl | rfl | rfl
  · exact hvalid 5 7
  · exact hvalid 6 8
  · exact ⟨by decide, fun _ _ _ heq => by cases heq⟩

private theorem size_image (block : ℕ) (byte : UInt8) :
    (LogOp.append 1 block (List.replicate blockSize byte)).size = 4132 := by
  show lrdSize + (List.replicate blockSize byte).length = 4132
  rw [List.length_replicate]
  decide

private theorem twoAppends_total : LogOp.total twoAppends = 8300 := by
  unfold LogOp.total twoAppends
  rw [List.map_cons, List.map_cons, size_image, size_image]
  decide

private theorem twoAppends_offset : LogOp.offsetAfter 0 twoAppends = 12360 := by
  unfold twoAppends LogOp.offsetAfter LogOp.offsetAfter
  rw [size_image, size_image]
  decide

theorem reader_undoes_writer_iff_twoAppends :
    ∃ s, LogOp.performAll twoAppends ⟨.new fourPages 0, Storage.newMemory 6⟩ = .ok () s ∧
      s.manager.writeOffset = LogOp.offsetAfter 0 twoAppends ∧
      (ReadsCalls fourPages 0 s.storage twoAppends ↔ LogOp.total twoAppends ≤ logBufferSize) :=
  reader_undoes_writer_iff fourPages 0 (Storage.newMemory 6) fourPages_fresh twoAppends
    twoAppends_valid ⟨1, rfl⟩ (by rw [twoAppends_offset]; decide)

/-- The second image starts at the next buffer, and the reader does not find it. -/
theorem reader_misses_second_image :
    ∃ s, LogOp.performAll twoAppends ⟨.new fourPages 0, Storage.newMemory 6⟩ = .ok () s ∧
      s.manager.writeOffset ≤ fourPages.size.toNat * logPSize ∧
      ¬ ReadsCalls fourPages 0 s.storage twoAppends := by
  obtain ⟨s, hrun, hoff, hreads⟩ := not_readsCalls_of_full fourPages_fresh twoAppends_valid
    (by rw [twoAppends_offset]; decide) (by rw [twoAppends_total]; decide)
  refine ⟨s, hrun, ?_, hreads⟩
  rw [hoff, twoAppends_offset]
  decide

end JfsFuse
