import JfsFuse.Journal.Replay

/-!
# The forward scan reads a bounded part of the log

The scan changes nothing but the list of coming device faults
(`scan_sameButFaults`).  On a storage that does not fail, it is a function of the
bytes from the start of the log data to the end of the log area, or to the end of
the last record it read if that runs past the area: two storages that agree there
are scanned alike (`scan_congr`).  The last record may run past the area because
`next_forward` only asks whether it starts inside.
-/

namespace JfsFuse

open ByteBuf Program

namespace Storage

/-- At most the list of coming faults differs. -/
def SameButFaults (s t : Storage) : Prop :=
  t = { s with faults := t.faults }

theorem SameButFaults.refl (s : Storage) : SameButFaults s s :=
  rfl

theorem SameButFaults.trans {s t u : Storage} (h : SameButFaults s t) (h' : SameButFaults t u) :
    SameButFaults s u := by
  rw [SameButFaults] at *
  rw [h', h]

theorem SameButFaults.data {s t : Storage} (h : SameButFaults s t) : t.data = s.data := by
  rw [h]

theorem SameButFaults.trace {s t : Storage} (h : SameButFaults s t) : t.trace = s.trace := by
  rw [h]

theorem SameButFaults.sameShape {s t : Storage} (h : SameButFaults s t) : SameShape s t := by
  rw [h]
  exact ⟨rfl, rfl, rfl⟩

end Storage

open Storage

namespace LogReader

/-! ## Reading leaves the storage alone -/

instance : IsPreorder Storage SameButFaults where
  refl := SameButFaults.refl
  trans _ _ _ h h' := h.trans h'

theorem readBytes_sameButFaults (offset n : ℕ) :
    Within SameButFaults (StorageM.readBytes offset n) := by
  refine Within.bind ?_ fun _ => Within.bind Within.get fun s =>
    Within.returnExcept _
  intro s
  rw [StorageM.attempt]
  split <;> rfl

theorem readBytesEofOk_sameButFaults (offset n : ℕ) :
    Within SameButFaults (readBytesEofOk offset n) := by
  refine Within.tryCatch (readBytes_sameButFaults offset n) fun e => ?_
  split
  · exact Within.pure _
  · exact Within.throw _

theorem nextForward_sameButFaults (areaEnd pos : ℕ) :
    Within SameButFaults (nextForward areaEnd pos) := by
  refine Within.ite (Within.pure _) (Within.bind (readBytesEofOk_sameButFaults _ _) fun peek => ?_)
  refine Within.ite (Within.pure _) (Within.bind (readBytesEofOk_sameButFaults _ _) fun bytes => ?_)
  refine Within.bind (Within.ite (readBytes_sameButFaults _ _) (Within.pure _)) fun data => ?_
  exact Within.pure _

theorem findEndFrom_sameButFaults (areaEnd fuel pos : ℕ) :
    Within SameButFaults (findEndFrom areaEnd fuel pos) := by
  induction fuel generalizing pos with
  | zero => exact Within.pure _
  | succ fuel ih =>
      refine Within.ite (Within.pure _)
        (Within.bind (readBytesEofOk_sameButFaults _ _) fun peek => ?_)
      exact Within.ite (Within.pure _)
        (Within.bind (readBytesEofOk_sameButFaults _ _) fun bytes => ih _)

theorem collect_sameButFaults (areaEnd dataStart logEnd fuel pos : ℕ) :
    Within SameButFaults (collect areaEnd dataStart logEnd fuel pos) := by
  induction fuel generalizing pos with
  | zero => exact Within.pure _
  | succ fuel ih =>
      refine Within.bind (nextForward_sameButFaults _ _) fun next => ?_
      split
      · exact Within.pure _
      · refine Within.ite (Within.pure _) (Within.bind (ih _) fun result => ?_)
        exact Within.pure _

/-- **The scan changes nothing but the list of coming faults.** -/
theorem scan_sameButFaults (logsuper : LogSuper) (dataStart : ℕ) :
    Within SameButFaults (scan logsuper dataStart) := by
  refine Within.bind (Within.ite (Within.pure _) (findEndFrom_sameButFaults _ _ _)) fun logEnd => ?_
  exact collect_sameButFaults _ _ _ _ _

/-! ## What the scan reads -/

/-- The storages agree on the bytes from `low` to `high`. -/
def AgreeOn (s t : Storage) (low high : ℕ) : Prop :=
  ∀ i, low ≤ i → i < high → s.data i = t.data i

theorem AgreeOn.mono {s t : Storage} {low high low' high' : ℕ} (h : AgreeOn s t low high)
    (hlow : low ≤ low') (hhigh : high' ≤ high) : AgreeOn s t low' high' :=
  fun i hi hi' => h i (hlow.trans hi) (hi'.trans_le hhigh)

theorem readResult_congr {s t : Storage} (hshape : SameShape s t) {offset n : ℕ}
    (hagree : AgreeOn s t offset (offset + n)) : s.readResult offset n = t.readResult offset n := by
  have hread : Memory.read s.data offset n = Memory.read t.data offset n :=
    Memory.read_congr hagree
  rw [Storage.readResult, Storage.readResult, Storage.len, Storage.len, hshape.1, hshape.2.1,
    hshape.2.2, hread]

/-- What `read_bytes_eof_ok` returns when the device does not fail. -/
def eofResult (s : Storage) (offset n : ℕ) : Except StorageError (List UInt8) :=
  match s.readResult offset n with
  | .error (.unexpectedEof _ _) => .ok (zeros n)
  | result => result

theorem eofResult_congr {s t : Storage} (hshape : SameShape s t) {offset n : ℕ}
    (hagree : AgreeOn s t offset (offset + n)) : eofResult s offset n = eofResult t offset n := by
  rw [eofResult, eofResult, readResult_congr hshape hagree]

theorem readBytesEofOk_eq {s : Storage} (hfaults : s.faults = []) (offset n : ℕ) :
    readBytesEofOk offset n s = returnExcept (eofResult s offset n) s := by
  have hread := StorageM.readBytes_eq hfaults offset n
  rw [readBytesEofOk, eofResult]
  cases hresult : s.readResult offset n with
  | ok data =>
      rw [hresult, returnExcept_ok] at hread
      rw [tryCatch_ok hread]
      rfl
  | error e =>
      rw [hresult, returnExcept_error] at hread
      rw [tryCatch_error hread]
      cases e <;> rfl

/-- The payload that follows the descriptor `lrd` at `pos`. -/
def payloadResult (s : Storage) (pos : ℕ) (lrd : Lrd) : Except StorageError (List UInt8) :=
  if 0 < lrd.length.toNat then s.readResult (pos + lrdSize) lrd.length.toNat else .ok []

/-- What `next_forward` returns when the device does not fail. -/
def nextResult (s : Storage) (areaEnd pos : ℕ) : Except StorageError (Option (LogRecord × ℕ)) :=
  if areaEnd ≤ pos then .ok none
  else match eofResult s pos 4 with
    | .error e => .error e
    | .ok peek =>
        if peek = zeros 4 then .ok none
        else match eofResult s pos lrdSize with
          | .error e => .error e
          | .ok bytes =>
              match payloadResult s pos (parseLrd bytes) with
              | .error e => .error e
              | .ok data =>
                  .ok (some ((parseLrd bytes, data),
                    pos + recordTotal (parseLrd bytes).length.toNat))

theorem readPayload_eq {s : Storage} (hfaults : s.faults = []) (pos : ℕ) (lrd : Lrd) :
    (if 0 < lrd.length.toNat then StorageM.readBytes (pos + lrdSize) lrd.length.toNat
      else pure [] : StorageM (List UInt8)) s = returnExcept (payloadResult s pos lrd) s := by
  unfold payloadResult
  split
  · exact StorageM.readBytes_eq hfaults ..
  · rfl

theorem nextForward_eq {s : Storage} (hfaults : s.faults = []) (areaEnd pos : ℕ) :
    nextForward areaEnd pos s = returnExcept (nextResult s areaEnd pos) s := by
  unfold nextForward nextResult
  split
  · rfl
  have hpeek := readBytesEofOk_eq hfaults pos 4
  cases hpeekResult : eofResult s pos 4 with
  | error e => rw [bind_error (hpeek.trans (by rw [hpeekResult]; rfl)), returnExcept_error]
  | ok peek =>
      rw [bind_ok (hpeek.trans (by rw [hpeekResult]; rfl))]
      simp only
      split
      · rfl
      have hhead := readBytesEofOk_eq hfaults pos lrdSize
      cases hheadResult : eofResult s pos lrdSize with
      | error e => rw [bind_error (hhead.trans (by rw [hheadResult]; rfl)), returnExcept_error]
      | ok bytes =>
          rw [bind_ok (hhead.trans (by rw [hheadResult]; rfl))]
          simp only
          have hdata := readPayload_eq hfaults pos (parseLrd bytes)
          cases hdataResult : payloadResult s pos (parseLrd bytes) with
          | error e => rw [bind_error (hdata.trans (by rw [hdataResult]; rfl)), returnExcept_error]
          | ok data => rw [bind_ok (hdata.trans (by rw [hdataResult]; rfl))]; rfl

theorem lrdSize_le_recordTotal (dataLen : ℕ) : lrdSize + dataLen ≤ recordTotal dataLen := by
  unfold recordTotal lrdSize
  omega

/-- A returned record: where it was found and what was read. -/
theorem nextResult_eq_some {s : Storage} {areaEnd pos pos' : ℕ} {record : LogRecord}
    (h : nextResult s areaEnd pos = .ok (some (record, pos'))) :
    pos < areaEnd ∧ pos' = pos + recordTotal record.1.length.toNat ∧
      ∃ peek bytes, eofResult s pos 4 = .ok peek ∧ peek ≠ zeros 4 ∧
        eofResult s pos lrdSize = .ok bytes ∧ record.1 = parseLrd bytes := by
  unfold nextResult at h
  split at h
  · cases h
  next hend =>
    split at h
    · cases h
    next peek hpeek =>
      split at h
      · cases h
      next hzero =>
        split at h
        · cases h
        next bytes hbytes =>
          split at h
          · cases h
          · cases h
            exact ⟨by omega, rfl, peek, bytes, hpeek, hzero, hbytes, rfl⟩

/-- Two storages that agree on the four bytes at `pos` and on the record there
return the same. -/
theorem nextResult_congr {s t : Storage} (hshape : SameShape s t) {areaEnd pos stop : ℕ}
    (hagree : AgreeOn s t pos stop) (hpeek : pos < areaEnd → pos + 4 ≤ stop)
    {next : Option (LogRecord × ℕ)} (h : nextResult s areaEnd pos = .ok next)
    (hnext : ∀ record pos', next = some (record, pos') → pos' ≤ stop) :
    nextResult t areaEnd pos = .ok next := by
  by_cases hend : areaEnd ≤ pos
  · rw [← h]
    unfold nextResult
    rw [if_pos hend, if_pos hend]
  have hfour : eofResult t pos 4 = eofResult s pos 4 :=
    (eofResult_congr hshape (hagree.mono le_rfl (hpeek (by omega)))).symm
  cases next with
  | none =>
      -- only the zero word at `pos` was read
      unfold nextResult at h ⊢
      rw [if_neg hend] at h ⊢
      rw [hfour]
      split at h
      · cases h
      next peek hpeekResult =>
        split at h
        · next hzero =>
            simp only [hzero]
            rfl
        · split at h
          · cases h
          · split at h <;> cases h
  | some found =>
      obtain ⟨record, pos'⟩ := found
      obtain ⟨-, hpos', peek, bytes, -, -, hbytes, hrecord⟩ := nextResult_eq_some h
      have hstop := hnext record pos' rfl
      have htotal := lrdSize_le_recordTotal record.1.length.toNat
      have hhead : eofResult t pos lrdSize = eofResult s pos lrdSize :=
        (eofResult_congr hshape (hagree.mono le_rfl (by omega))).symm
      have hdata : payloadResult t pos (parseLrd bytes) = payloadResult s pos (parseLrd bytes) := by
        have hread : t.readResult (pos + lrdSize) record.1.length.toNat =
            s.readResult (pos + lrdSize) record.1.length.toNat :=
          (readResult_congr hshape (hagree.mono (by omega) (by omega))).symm
        rw [← hrecord]
        unfold payloadResult
        rw [hread]
      rw [← h]
      unfold nextResult
      rw [hfour, hhead, hbytes]
      simp only [hdata]

/-- One step of the collecting loop, by what `next_forward` returned. -/
theorem collect_succ {s : Storage} (hfaults : s.faults = []) (areaEnd dataStart logEnd fuel pos : ℕ) :
    collect areaEnd dataStart logEnd (fuel + 1) pos s =
      match nextResult s areaEnd pos with
      | .error e => .error e s
      | .ok none => .ok ([], pos) s
      | .ok (some (record, pos')) =>
          if logEnd < pos' - dataStart then .ok ([], pos') s
          else match collect areaEnd dataStart logEnd fuel pos' s with
            | .ok (records, last) s' => .ok (record :: records, last) s'
            | .error e s' => .error e s' := by
  have hnext := nextForward_eq hfaults areaEnd pos
  rw [collect]
  cases hresult : nextResult s areaEnd pos with
  | error e => rw [bind_error (hnext.trans (by rw [hresult]; rfl))]
  | ok next =>
      rw [bind_ok (hnext.trans (by rw [hresult]; rfl))]
      cases next with
      | none => rfl
      | some found =>
          obtain ⟨record, pos'⟩ := found
          simp only
          split
          · rfl
          · cases hrest : collect areaEnd dataStart logEnd fuel pos' s with
            | ok result s' => rw [bind_ok hrest]; rfl
            | error e s' => rw [bind_error hrest]

/-- A record that ends inside the log is collected. -/
theorem collect_step {s : Storage} (hfaults : s.faults = [])
    {areaEnd dataStart logEnd fuel pos pos' last : ℕ} {record : LogRecord}
    {records : List LogRecord}
    (hnext : nextResult s areaEnd pos = .ok (some (record, pos')))
    (hend : pos' - dataStart ≤ logEnd)
    (hrest : collect areaEnd dataStart logEnd fuel pos' s = .ok (records, last) s) :
    collect areaEnd dataStart logEnd (fuel + 1) pos s = .ok (record :: records, last) s := by
  rw [collect_succ hfaults, hnext]
  simp only [if_neg (Nat.not_lt.mpr hend), hrest]

theorem collect_stop {s : Storage} (hfaults : s.faults = []) {areaEnd pos : ℕ}
    (hnext : nextResult s areaEnd pos = .ok none) (dataStart logEnd fuel : ℕ) :
    collect areaEnd dataStart logEnd (fuel + 1) pos s = .ok ([], pos) s := by
  rw [collect_succ hfaults, hnext]

/-- The collecting loop moves forward and leaves the storage as it is. -/
theorem collect_advances {s s' : Storage} (hfaults : s.faults = [])
    {areaEnd dataStart logEnd fuel pos last : ℕ} {records : List LogRecord}
    (h : collect areaEnd dataStart logEnd fuel pos s = .ok (records, last) s') :
    s' = s ∧ pos ≤ last := by
  induction fuel generalizing pos records with
  | zero =>
      cases h
      exact ⟨rfl, le_rfl⟩
  | succ fuel ih =>
      rw [collect_succ hfaults] at h
      cases hresult : nextResult s areaEnd pos with
      | error e => rw [hresult] at h; cases h
      | ok next =>
          cases next with
          | none =>
              rw [hresult] at h
              cases h
              exact ⟨rfl, le_rfl⟩
          | some found =>
              obtain ⟨record, pos'⟩ := found
              have hpos' := (nextResult_eq_some hresult).2.1
              rw [hresult] at h
              simp only at h
              split at h
              · cases h
                exact ⟨rfl, by omega⟩
              · cases hrest : collect areaEnd dataStart logEnd fuel pos' s with
                | error e s'' => rw [hrest] at h; cases h
                | ok result s'' =>
                    obtain ⟨rest, last'⟩ := result
                    rw [hrest] at h
                    cases h
                    obtain ⟨hsame, hle⟩ := ih hrest
                    exact ⟨hsame, by omega⟩

/-- Storages that agree on the bytes the loop reads are collected alike.  The
positions stay aligned with the end of the area, so that the four bytes looked
at never cross it. -/
theorem collect_congr {s s' t : Storage} (hs : s.faults = []) (ht : t.faults = [])
    (hshape : SameShape s t) {areaEnd dataStart logEnd fuel pos last : ℕ}
    {records : List LogRecord} (halign : pos % 4 = areaEnd % 4)
    (h : collect areaEnd dataStart logEnd fuel pos s = .ok (records, last) s')
    (hagree : AgreeOn s t pos (max areaEnd last)) :
    collect areaEnd dataStart logEnd fuel pos t = .ok (records, last) t := by
  induction fuel generalizing pos records with
  | zero =>
      cases h
      rfl
  | succ fuel ih =>
      rw [collect_succ hs] at h
      rw [collect_succ ht]
      cases hresult : nextResult s areaEnd pos with
      | error e => rw [hresult] at h; cases h
      | ok next =>
          cases next with
          | none =>
              rw [nextResult_congr hshape hagree (by omega) hresult (by simp)]
              rw [hresult] at h
              cases h
              rfl
          | some found =>
              obtain ⟨record, pos'⟩ := found
              have hpos' := (nextResult_eq_some hresult).2.1
              have hcongr : pos' ≤ last → nextResult t areaEnd pos = .ok (some (record, pos')) := by
                intro hle
                refine nextResult_congr hshape hagree (by omega) hresult ?_
                rintro _ _ ⟨⟩
                omega
              rw [hresult] at h
              simp only at h
              split at h
              · next hend =>
                  cases h
                  rw [hcongr le_rfl]
                  simp only [if_pos hend]
              · next hend =>
                  cases hrest : collect areaEnd dataStart logEnd fuel pos' s with
                  | error e s'' => rw [hrest] at h; cases h
                  | ok result s'' =>
                      obtain ⟨rest, last'⟩ := result
                      rw [hrest] at h
                      cases h
                      have hle := (collect_advances hs hrest).2
                      have hnext := ih (by unfold recordTotal at hpos'; omega) hrest
                        (hagree.mono (by omega) le_rfl)
                      rw [hcongr hle]
                      simp only [if_neg hend, hnext]

/-- One step of `find_end`. -/
theorem findEndFrom_succ {s : Storage} (hfaults : s.faults = []) (areaEnd fuel pos : ℕ) :
    findEndFrom areaEnd (fuel + 1) pos s =
      if areaEnd ≤ pos then .ok pos s
      else match eofResult s pos 4 with
        | .error e => .error e s
        | .ok peek =>
            if peek = zeros 4 then .ok pos s
            else match eofResult s pos lrdSize with
              | .error e => .error e s
              | .ok bytes =>
                  findEndFrom areaEnd fuel (pos + recordTotal (parseLrd bytes).length.toNat) s := by
  rw [findEndFrom]
  split
  · rfl
  have hpeek := readBytesEofOk_eq hfaults pos 4
  cases hpeekResult : eofResult s pos 4 with
  | error e => rw [bind_error (hpeek.trans (by rw [hpeekResult]; rfl))]
  | ok peek =>
      rw [bind_ok (hpeek.trans (by rw [hpeekResult]; rfl))]
      simp only
      split
      · rfl
      have hhead := readBytesEofOk_eq hfaults pos lrdSize
      cases hheadResult : eofResult s pos lrdSize with
      | error e => rw [bind_error (hhead.trans (by rw [hheadResult]; rfl))]
      | ok bytes => rw [bind_ok (hhead.trans (by rw [hheadResult]; rfl))]

/-- `find_end` moves forward and leaves the storage as it is. -/
theorem findEndFrom_advances {s s' : Storage} (hfaults : s.faults = [])
    {areaEnd fuel pos stop : ℕ} (h : findEndFrom areaEnd fuel pos s = .ok stop s') :
    s' = s ∧ pos ≤ stop := by
  induction fuel generalizing pos with
  | zero =>
      cases h
      exact ⟨rfl, le_rfl⟩
  | succ fuel ih =>
      rw [findEndFrom_succ hfaults] at h
      split at h
      · cases h
        exact ⟨rfl, le_rfl⟩
      split at h
      · cases h
      split at h
      · cases h
        exact ⟨rfl, le_rfl⟩
      split at h
      · cases h
      · obtain ⟨hsame, hle⟩ := ih h
        exact ⟨hsame, by omega⟩

/-- Where `next_forward` returns nothing, `find_end` stops. -/
theorem findEndFrom_of_none {s : Storage} (hfaults : s.faults = []) {areaEnd pos : ℕ}
    (hnext : nextResult s areaEnd pos = .ok none) (fuel : ℕ) :
    findEndFrom areaEnd fuel pos s = .ok pos s := by
  cases fuel with
  | zero => rfl
  | succ fuel =>
      rw [findEndFrom_succ hfaults]
      unfold nextResult at hnext
      split at hnext
      · next harea => rw [if_pos harea]
      next harea =>
        rw [if_neg harea]
        split at hnext
        · cases hnext
        next peek hpeek =>
          split at hnext
          · next hzero => simp only [if_pos hzero]
          · split at hnext
            · cases hnext
            · split at hnext <;> cases hnext

/-- Where `next_forward` returns a record, `find_end` steps over it. -/
theorem findEndFrom_of_some {s : Storage} (hfaults : s.faults = []) {areaEnd pos pos' : ℕ}
    {record : LogRecord} (hnext : nextResult s areaEnd pos = .ok (some (record, pos'))) (fuel : ℕ) :
    findEndFrom areaEnd (fuel + 1) pos s = findEndFrom areaEnd fuel pos' s := by
  obtain ⟨harea, hpos', peek, bytes, hpeek, hzero, hbytes, hrecord⟩ := nextResult_eq_some hnext
  rw [findEndFrom_succ hfaults, if_neg (by omega), hpeek]
  simp only [if_neg hzero, hbytes, ← hrecord, ← hpos']

/-- Where the collecting loop gets to when the end of the log does not stop it. -/
theorem collect_last_eq {s s' s'' : Storage} (hfaults : s.faults = [])
    {areaEnd dataStart logEnd fuel pos last stop : ℕ} {records : List LogRecord}
    (hcollect : collect areaEnd dataStart logEnd fuel pos s = .ok (records, last) s')
    (hfind : findEndFrom areaEnd fuel pos s = .ok stop s'') (hend : stop ≤ logEnd) :
    last = stop := by
  induction fuel generalizing pos records with
  | zero =>
      cases hcollect
      cases hfind
      rfl
  | succ fuel ih =>
      rw [collect_succ hfaults] at hcollect
      cases hresult : nextResult s areaEnd pos with
      | error e => rw [hresult] at hcollect; cases hcollect
      | ok next =>
          cases next with
          | none =>
              -- neither loop goes past a zero word or the end of the area
              rw [hresult] at hcollect
              rw [findEndFrom_of_none hfaults hresult] at hfind
              cases hcollect
              cases hfind
              rfl
          | some found =>
              obtain ⟨record, pos'⟩ := found
              rw [hresult] at hcollect
              rw [findEndFrom_of_some hfaults hresult] at hfind
              have hle := (findEndFrom_advances hfaults hfind).2
              simp only [if_neg (show ¬ logEnd < pos' - dataStart by omega)] at hcollect
              cases hrest : collect areaEnd dataStart logEnd fuel pos' s with
              | error e t => rw [hrest] at hcollect; cases hcollect
              | ok result t =>
                  obtain ⟨rest, last'⟩ := result
                  rw [hrest] at hcollect
                  cases hcollect
                  exact ih hrest hfind

theorem findEndFrom_congr {s s' t : Storage} (hs : s.faults = []) (ht : t.faults = [])
    (hshape : SameShape s t) {areaEnd fuel pos stop : ℕ} (halign : pos % 4 = areaEnd % 4)
    (h : findEndFrom areaEnd fuel pos s = .ok stop s')
    (hagree : AgreeOn s t pos (max areaEnd stop)) :
    findEndFrom areaEnd fuel pos t = .ok stop t := by
  induction fuel generalizing pos with
  | zero =>
      cases h
      rfl
  | succ fuel ih =>
      rw [findEndFrom_succ hs] at h
      rw [findEndFrom_succ ht]
      split at h
      · next harea =>
          cases h
          rw [if_pos harea]
      next harea =>
        have hfour : eofResult t pos 4 = eofResult s pos 4 :=
          (eofResult_congr hshape (hagree.mono le_rfl (by omega))).symm
        rw [if_neg harea, hfour]
        split at h
        · cases h
        next peek hpeek =>
          split at h
          · next hzero =>
              cases h
              simp only [if_pos hzero]
          next hzero =>
            split at h
            · cases h
            next bytes hbytes =>
              have hle := (findEndFrom_advances hs h).2
              have htotal := lrdSize_le_recordTotal (parseLrd bytes).length.toNat
              have hhead : eofResult t pos lrdSize = eofResult s pos lrdSize :=
                (eofResult_congr hshape (hagree.mono le_rfl (by omega))).symm
              have hnext := ih (by unfold recordTotal; omega) h (hagree.mono (by omega) le_rfl)
              simp only [if_neg hzero, hhead, hbytes, hnext]

/-- **Storages that agree from the start of the log data to the end of the log
area, and to the end of the last record read, are scanned alike.** -/
theorem scan_congr {s s' t : Storage} (hs : s.faults = []) (ht : t.faults = [])
    (hshape : SameShape s t) {logsuper : LogSuper} {dataStart last : ℕ}
    {records : List LogRecord} (h : scan logsuper dataStart s = .ok (records, last) s')
    (hagree : AgreeOn s t dataStart (max (dataStart + logsuper.size.toNat * logPSize) last)) :
    scan logsuper dataStart t = .ok (records, last) t := by
  have halign : dataStart % 4 = (dataStart + logsuper.size.toNat * logPSize) % 4 := by
    unfold logPSize
    omega
  unfold scan at h ⊢
  by_cases hend : 0 < logsuper.logEnd.toNat
  · rw [if_pos hend] at h ⊢
    exact collect_congr hs ht hshape halign h hagree
  · rw [if_neg hend] at h ⊢
    obtain ⟨stop, s₁, hfind, hcollect⟩ := of_bind_ok h
    obtain ⟨rfl, -⟩ := findEndFrom_advances hs hfind
    have hlast := collect_last_eq hs hcollect hfind le_rfl
    rw [bind_ok (findEndFrom_congr hs ht hshape halign hfind (hlast ▸ hagree))]
    exact collect_congr hs ht hshape halign hcollect hagree

/-- A scan that returned on a storage without faults left it as it is. -/
theorem scan_eq_self {s s' : Storage} (hfaults : s.faults = []) {logsuper : LogSuper}
    {dataStart : ℕ} {result : List LogRecord × ℕ}
    (h : scan logsuper dataStart s = .ok result s') : s' = s := by
  unfold scan at h
  split at h
  · exact (collect_advances hfaults h).1
  · obtain ⟨stop, s₁, hfind, hcollect⟩ := of_bind_ok h
    obtain ⟨rfl, -⟩ := findEndFrom_advances hfaults hfind
    exact (collect_advances hfaults hcollect).1

/-- With an end in the superblock, the scan is the collecting loop alone. -/
theorem scan_of_logEnd {logsuper : LogSuper} {areaSize logEnd : ℕ}
    (hsize : logsuper.size.toNat * logPSize = areaSize)
    (hend : logsuper.logEnd.toNat = logEnd) (hpos : 0 < logEnd) (dataStart : ℕ) :
    scan logsuper dataStart =
      collect (dataStart + areaSize) dataStart logEnd areaSize dataStart := by
  unfold scan
  simp only [hsize, hend, if_pos hpos, pure_bind]

/-! ## Reading a stored record -/

/-- The storage can be read up to byte `stop`: it is a memory storage at least
that large, or a file at least that long. -/
def Readable (s : Storage) (stop : ℕ) : Prop :=
  match s.backend with
  | .memory => stop ≤ s.size
  | .file _ => stop ≤ s.len

theorem Readable.mono {s : Storage} {stop stop' : ℕ} (h : Readable s stop) (hle : stop' ≤ stop) :
    Readable s stop' := by
  unfold Readable at h ⊢
  split <;> simp_all <;> omega

theorem Readable.readResult {s : Storage} {offset n : ℕ} (h : Readable s (offset + n)) :
    s.readResult offset n = .ok (Memory.read s.data offset n) := by
  unfold Readable at h
  unfold Storage.readResult
  cases hbackend : s.backend with
  | memory =>
      rw [hbackend] at h
      exact if_neg (Nat.not_lt.mpr h)
  | file readOnly =>
      rw [hbackend] at h
      exact if_pos (Or.inr h)

theorem Readable.eofResult {s : Storage} {offset n : ℕ} (h : Readable s (offset + n)) :
    eofResult s offset n = .ok (Memory.read s.data offset n) := by
  unfold LogReader.eofResult
  rw [h.readResult]

/-- The first word of a descriptor is its transaction. -/
theorem take_lrdBytes (lrd : Lrd) : slice (lrdBytes lrd) 0 4 = leBytes 4 lrd.logtid.toNat := by
  unfold lrdBytes
  simp only [List.append_assoc]
  rw [slice_append_left _ (by simp)]
  have hself := slice_zero_length (leBytes 4 lrd.logtid.toNat)
  rwa [length_leBytes] at hself

theorem leBytes_eq_zeros_iff {tid : UInt32} : leBytes 4 tid.toNat = zeros 4 ↔ tid = 0 := by
  constructor
  · intro h
    have hvalue := congrArg leNat h
    have hlt : tid.toNat < 256 ^ 4 := tid.toNat_lt
    rw [leNat_leBytes, Nat.mod_eq_of_lt hlt] at hvalue
    exact UInt32.toNat_inj.mp hvalue
  · rintro rfl
    rfl

/-- **A record whose descriptor is stored at `pos` is returned**, with the
payload that follows it, if its transaction number is not 0. -/
theorem nextResult_of_stored {s : Storage} {areaEnd pos : ℕ} {lrd : Lrd}
    (hpos : pos < areaEnd) (htid : lrd.logtid ≠ 0)
    (hhead : Memory.read s.data pos lrdSize = lrdBytes lrd)
    (hread : Readable s (pos + lrdSize + lrd.length.toNat)) :
    nextResult s areaEnd pos =
      .ok (some ((lrd, Memory.read s.data (pos + lrdSize) lrd.length.toNat),
        pos + recordTotal lrd.length.toNat)) := by
  have hfour : Memory.read s.data pos 4 = leBytes 4 lrd.logtid.toNat := by
    have hslice : slice (Memory.read s.data pos lrdSize) 0 4 = Memory.read s.data (pos + 0) 4 :=
      Memory.slice_read s.data (by decide)
    rw [hhead, take_lrdBytes] at hslice
    exact hslice.symm
  have hpayload : payloadResult s pos lrd =
      .ok (Memory.read s.data (pos + lrdSize) lrd.length.toNat) := by
    unfold payloadResult
    split
    · exact hread.readResult
    · next hzero =>
        have hlen : lrd.length.toNat = 0 := by omega
        rw [hlen]
        rfl
  have hpeekRead : Readable s (pos + 4) := hread.mono (by unfold lrdSize; omega)
  have hheadRead : Readable s (pos + lrdSize) := hread.mono (by omega)
  unfold nextResult
  rw [if_neg (by omega), hpeekRead.eofResult, hfour, hheadRead.eofResult, hhead]
  simp only [leBytes_eq_zeros_iff, if_neg htid, parseLrd_lrdBytes, hpayload]

/-- A zero word ends the scan. -/
theorem nextResult_of_zero {s : Storage} {areaEnd pos : ℕ}
    (hzero : Memory.read s.data pos 4 = zeros 4) (hread : Readable s (pos + 4)) :
    nextResult s areaEnd pos = .ok none := by
  unfold nextResult
  split
  · rfl
  · rw [hread.eofResult, hzero]
    rfl

end LogReader

end JfsFuse
