import JfsFuse.Btree.XtreeTotal
import JfsFuse.Lib.Checked

/-!
# The extent code on malformed roots

`nextindex` is read from the disk and not checked, and neither are the descriptors.  This file
has the functions of `btree/xtree.rs` once more, with every index and every sum and difference
of the source as a step that can fail.  None of them does: on every root they return what the
functions of `Xtree` say.

The slots are what keeps them safe: a loop that stops at slot 18 reads exactly `slots`
(`scan_eq`), and the fields of a descriptor are too short for a sum of two of them to overflow.
-/

namespace JfsFuse

open ByteBuf

namespace CheckedXtree

variable {σ : Type}

/-! ## Descriptors -/

/-- `Xad::address` is a sum. -/
def address (xad : Xad) : Checked ℕ :=
  Checked.add 64 (xad.loc.lenAddr.toNat / 2 ^ 24 * 2 ^ 32) xad.loc.addr2.toNat

/-- `length() as i32 as i64`. -/
def signedLength (xad : Xad) : ℤ :=
  Int.bmod xad.length (2 ^ 32)

/-! ## Parsing -/

/-- `parse_xad`. -/
def parseXad (data : List UInt8) : Checked (Except StorageError Xad) := do
  if data.length < 16 then return .error (.other "insufficient data for xad")
  else
    let flag ← Checked.slice data 0 1
    let rsvrd ← Checked.slice data 1 2
    let off1 ← Checked.slice data 3 1
    let off2 ← Checked.slice data 4 4
    let loc ← Checked.slice data 8 8
    return .ok
      { flag := flag.getD 0 0
        rsvrd := UInt16.ofNat (leNat rsvrd)
        off1 := off1.getD 0 0
        off2 := UInt32.ofNat (leNat off2)
        loc := Pxd.read loc 0 }

/-- A step of the loop of `parse_xtroot`. -/
def parseStep (data : List UInt8) (i : ℕ) :
    Except StorageError (Vector Xad xtRootMaxSlot) →
      Checked (ForInStep (Except StorageError (Vector Xad xtRootMaxSlot)))
  | .error e => return .done (.error e)
  | .ok xads => do
      let base ← Checked.add 64 32 (i * 16)
      let stop ← Checked.add 64 base 16
      if data.length < stop then return .done (.ok xads)
      else
        match ← parseXad (← Checked.slice data base 16) with
        | .error e => return .done (.error e)
        | .ok xad => return .yield (.ok (← Checked.set xads (xtEntryStart + i) xad))

/-- `parse_xtroot`. -/
def parseXtroot (data : List UInt8) : Checked (Except StorageError Xtree) := do
  if data.length < 20 then return .error (.other "insufficient data for xtroot header")
  else
    let next ← Checked.slice data 0 8
    let prev ← Checked.slice data 8 8
    let flag ← Checked.slice data 16 1
    let rsrvd1 ← Checked.slice data 17 1
    let nextindex ← Checked.slice data 18 2
    let maxentry ← Checked.slice data 20 2
    let rsrvd2 ← Checked.slice data 22 2
    let selfPxd ← Checked.slice data 24 8
    let xads ← Checked.loop (parseStep data) 0 (xtRootMaxSlot - xtEntryStart)
      (.ok (Vector.replicate xtRootMaxSlot {}))
    return xads.map fun xad =>
      { header :=
          { next := UInt64.ofNat (leNat next)
            prev := UInt64.ofNat (leNat prev)
            flag := flag.getD 0 0
            rsrvd1 := rsrvd1.getD 0 0
            nextindex := UInt16.ofNat (leNat nextindex)
            maxentry := UInt16.ofNat (leNat maxentry)
            rsrvd2 := UInt16.ofNat (leNat rsrvd2)
            selfPxd := Pxd.read selfPxd 0 }
        xad }

/-- `from_inode_data`. -/
def fromInodeData (data : List UInt8) : Checked (Except StorageError Xtree) := do
  if data.length < 96 then return .error (.other "insufficient data for xtroot")
  else parseXtroot data

/-! ## Loops over the slots -/

/-- `for i in XTENTRYSTART..next_idx`, with a `break` at the end of the array. -/
def scan (xt : Xtree) (body : Xad → σ → Checked (ForInStep σ)) (s : σ) : Checked σ :=
  Checked.loop (fun i s => do
    if xtRootMaxSlot ≤ i then return .done s
    else body (← Checked.get xt.xad i) s) xtEntryStart (xt.nextIndex - xtEntryStart) s

/-- `for i in XTENTRYSTART..next_idx.min(XTROOTMAXSLOT)`. -/
def scanMin (xt : Xtree) (body : ℕ → Xad → σ → Checked (ForInStep σ)) (s : σ) : Checked σ :=
  Checked.loop (fun i s => do body i (← Checked.get xt.xad i) s) xtEntryStart
    (min xt.nextIndex xtRootMaxSlot - xtEntryStart) s

/-! ## Reading -/

/-- A step of the loop of `lookup`. -/
def lookupStep (offset : ℕ) (xad : Xad) (found : Option Xad) : Checked (ForInStep (Option Xad)) := do
  let _ ← address xad
  if xad.offset ≤ offset then
    let stop ← Checked.add 64 xad.offset xad.length
    if offset < stop then return .done (some xad) else return .yield found
  else return .yield found

/-- `lookup`. -/
def lookup (xt : Xtree) (offset : ℕ) : Checked (Option Xad) :=
  scan xt (lookupStep offset) none

/-- A step of the loop of `map_blocks`. -/
def mapStep (xt : Xtree) (stop : ℕ) : ℕ × List (ℕ × ℕ) → Checked (ForInStep (ℕ × List (ℕ × ℕ)))
  | (current, result) => do
      if current < stop then
        match ← lookup xt current with
        | some extent =>
            let rel ← Checked.sub current extent.offset
            let remaining ← Checked.sub stop current
            let rest ← Checked.sub extent.length rel
            let take := min rest remaining
            let block ← Checked.add 64 (← address extent) rel
            let current ← Checked.add 64 current take
            return .yield (current, result ++ [(block, take)])
        | none => return .done (current, result ++ [(0, ← Checked.sub stop current)])
      else return .done (current, result)

/-- `map_blocks`, if its loop ends within `fuel` steps. -/
def mapBlocks (fuel : ℕ) (xt : Xtree) (offset length : ℕ) : Checked (List (ℕ × ℕ)) := do
  let stop ← Checked.add 64 offset length
  let (_, result) ← Checked.whileLoop (mapStep xt stop) fuel (offset, [])
  return result

/-- A step of `iter_extents`; slots behind the array are left out one by one. -/
def iterStep (xt : Xtree) (i : ℕ) (extents : List Extent) : Checked (ForInStep (List Extent)) := do
  if xtRootMaxSlot ≤ i then return .yield extents
  else
    let xad ← Checked.get xt.xad i
    let addr ← address xad
    if xad.length = 0 then return .yield extents
    else return .yield (extents ++ [{ offset := xad.offset, length := xad.length, address := addr }])

/-- `iter_extents`. -/
def iterExtents (xt : Xtree) : Checked (List Extent) :=
  Checked.loop (iterStep xt) xtEntryStart (xt.nextIndex - xtEntryStart) []

/-! ## Removing -/

/-- `for (write_idx, xad) in kept.iter().enumerate()`. -/
def writeKept : ℕ → List Xad → Vector Xad xtRootMaxSlot → Checked (Vector Xad xtRootMaxSlot)
  | _, [], xads => return xads
  | writeIdx, xad :: rest, xads => do
      let idx ← Checked.add 64 xtEntryStart writeIdx
      if idx < xtRootMaxSlot then writeKept (writeIdx + 1) rest (← Checked.set xads idx xad)
      else writeKept (writeIdx + 1) rest xads

/-- A step of the loop that clears slots. -/
def clearStep (idx : ℕ) (xads : Vector Xad xtRootMaxSlot) :
    Checked (ForInStep (Vector Xad xtRootMaxSlot)) := do
  return .yield (← Checked.set xads idx {})

/-- Write the kept extents back and clear the slots behind them. -/
def storeKept (xt : Xtree) (kept : List Xad) : Checked Xtree := do
  let xads ← writeKept 0 kept xt.xad
  let newNext ← Checked.add 64 xtEntryStart kept.length
  let xads ← Checked.loop clearStep newNext (min xt.nextIndex xtRootMaxSlot - newNext) xads
  return { xt with xad := xads }.setNextindex newNext

/-- `truncate_extents` on one extent. -/
def truncateXad (newEof : ℤ) (xad : Xad) : Checked (List Xad × List (ℕ × ℕ)) := do
  let addr ← address xad
  if xad.length = 0 then return ([], [])
  else if newEof ≤ xad.offset then return ([], [(addr, xad.length)])
  else
    let stop ← Checked.addSigned 64 xad.offset xad.length
    if newEof < stop then
      let keepLen := Checked.toUnsigned 32 (← Checked.subSigned 64 newEof xad.offset)
      let stop ← Checked.addSigned 64 xad.offset xad.length
      let freeLen := Checked.toUnsigned 32 (← Checked.subSigned 64 stop newEof)
      let freeAddr ← Checked.add 64 addr keepLen
      return ([xad.setLength keepLen], [(freeAddr, freeLen)])
    else return ([xad], [])

/-- `punch_extents` on one extent. -/
def punchXad (start stop : ℤ) (xad : Xad) : Checked (List Xad × List (ℕ × ℕ)) := do
  let addr ← address xad
  if xad.length = 0 then return ([], [])
  else
    let extEnd ← Checked.addSigned 64 xad.offset xad.length
    if extEnd ≤ start then return ([xad], [])
    else if stop ≤ xad.offset then return ([xad], [])
    else if start ≤ xad.offset ∧ extEnd ≤ stop then return ([], [(addr, xad.length)])
    else if xad.offset < start ∧ stop < extEnd then
      let leftLen := Checked.toUnsigned 32 (← Checked.subSigned 64 start xad.offset)
      let rightLen := Checked.toUnsigned 32 (← Checked.subSigned 64 extEnd stop)
      let rightAddr ← Checked.add 64 addr leftLen
      let freeAddr ← Checked.add 64 addr leftLen
      let freeLen := Checked.toUnsigned 32 (← Checked.subSigned 64 stop start)
      return ([xad.setLength leftLen, ((xad.setOffset stop).setLength rightLen).setAddress rightAddr],
        [(freeAddr, freeLen)])
    else if xad.offset < start then
      let keepLen := Checked.toUnsigned 32 (← Checked.subSigned 64 start xad.offset)
      let freeLen ← Checked.sub xad.length keepLen
      let freeAddr ← Checked.add 64 addr keepLen
      return ([xad.setLength keepLen], [(freeAddr, freeLen)])
    else
      let keepLen := Checked.toUnsigned 32 (← Checked.subSigned 64 extEnd stop)
      let freeLen := Checked.toUnsigned 32 (← Checked.subSigned 64 stop xad.offset)
      let keepAddr ← Checked.add 64 addr freeLen
      return ([((xad.setOffset stop).setLength keepLen).setAddress keepAddr], [(addr, freeLen)])

/-- `take_extents` on one extent. -/
def takeXad (start stop : ℤ) (xad : Xad) : Checked (List Xad × List (ℤ × ℕ × ℕ)) := do
  let addr ← address xad
  if xad.length = 0 then return ([], [])
  else
    let extEnd ← Checked.addSigned 64 xad.offset xad.length
    if extEnd ≤ start then return ([xad], [])
    else if stop ≤ xad.offset then return ([xad], [])
    else if start ≤ xad.offset ∧ extEnd ≤ stop then return ([], [(xad.offset, xad.length, addr)])
    else if xad.offset < start ∧ stop < extEnd then
      let leftLen := Checked.toUnsigned 32 (← Checked.subSigned 64 start xad.offset)
      let rightLen := Checked.toUnsigned 32 (← Checked.subSigned 64 extEnd stop)
      let takeLen ← Checked.subSigned 64 stop start
      let takeAddr ← Checked.add 64 addr leftLen
      let rightAddr ← Checked.add 64 takeAddr (Checked.toUnsigned 64 takeLen)
      return ([xad.setLength leftLen, ((xad.setOffset stop).setLength rightLen).setAddress rightAddr],
        [(start, Checked.toUnsigned 32 takeLen, takeAddr)])
    else if xad.offset < start then
      let keepLen := Checked.toUnsigned 32 (← Checked.subSigned 64 start xad.offset)
      let takeLen ← Checked.sub xad.length keepLen
      let takeAddr ← Checked.add 64 addr keepLen
      return ([xad.setLength keepLen], [(start, takeLen, takeAddr)])
    else
      let takeLen := Checked.toUnsigned 32 (← Checked.subSigned 64 stop xad.offset)
      let keepLen ← Checked.sub xad.length takeLen
      let keepAddr ← Checked.add 64 addr takeLen
      return ([((xad.setOffset stop).setLength keepLen).setAddress keepAddr], [(xad.offset, takeLen, addr)])

/-- The loop of `truncate_extents`, `punch_extents` and `take_extents`, and the extents written
back behind it. -/
def rebuild {β : Type} (xt : Xtree) (cut : Xad → Checked (List Xad × List β)) : Checked (List β × Xtree) := do
  let (kept, removed) ← scan xt (fun xad s => do
    let parts ← cut xad
    return .yield (s.1 ++ parts.1, s.2 ++ parts.2)) ([], [])
  return (removed, ← storeKept xt kept)

def truncateExtents (xt : Xtree) (newEof : ℤ) : Checked (List (ℕ × ℕ) × Xtree) :=
  rebuild xt (truncateXad newEof)

def punchExtents (xt : Xtree) (start stop : ℤ) : Checked (List (ℕ × ℕ) × Xtree) :=
  rebuild xt (punchXad start stop)

def takeExtents (xt : Xtree) (start stop : ℤ) : Checked (List (ℤ × ℕ × ℕ) × Xtree) :=
  rebuild xt (takeXad start stop)

/-! ## Inserting -/

/-- The end of `insert_extent` and all of `insert_taken_extent`: use the next free slot. -/
def insertNew (xt : Xtree) (logicalOffset : ℤ) (length physicalAddr : ℕ) (flag : UInt8) :
    Checked (Option Xtree) := do
  if xtRootMaxSlot ≤ xt.nextIndex then return none
  else
    let idx := if xt.nextIndex ≤ xtEntryStart then xtEntryStart else xt.nextIndex
    let xad ← Checked.get xt.xad idx
    let xad := ((xad.setOffset logicalOffset).setLength length).setAddress physicalAddr
    let xads ← Checked.set xt.xad idx { xad with flag }
    let next ← Checked.add 16 idx 1
    return some ({ xt with xad := xads }.setNextindex next)

/-- `insert_extent`. -/
def insertExtent (xt : Xtree) (logicalOffset : ℤ) (length physicalAddr : ℕ) : Checked (Option Xtree) := do
  if xtEntryStart < xt.nextIndex then
    let lastIdx ← Checked.sub xt.nextIndex 1
    if xtRootMaxSlot ≤ lastIdx then return none
    else
      let last ← Checked.get xt.xad lastIdx
      let lastAddr ← address last
      let lastStop ← Checked.addSigned 64 last.offset last.length
      if lastStop = logicalOffset then
        let lastEnd ← Checked.add 64 lastAddr last.length
        if lastEnd = physicalAddr then
          let sum ← Checked.add 32 last.length length
          return some { xt with xad := ← Checked.set xt.xad lastIdx (last.setLength sum) }
        else insertNew xt logicalOffset length physicalAddr Xad.xadNew
      else insertNew xt logicalOffset length physicalAddr Xad.xadNew
  else insertNew xt logicalOffset length physicalAddr Xad.xadNew

/-- `insert_taken_extent`. -/
def insertTakenExtent (xt : Xtree) (logicalOffset : ℤ) (length physicalAddr : ℕ) :
    Checked (Option Xtree) :=
  insertNew xt logicalOffset length physicalAddr 0

/-! ## `validate` and `split_extent` -/

/-- The error of `validate`. -/
def overlapMessage (i : ℕ) (offset prevEnd : ℤ) : String :=
  s!"extent at index {i} overlaps previous (offset={offset}, prev_end={prevEnd})"

/-- A step of the loop of `validate`. -/
def validateStep (i : ℕ) (xad : Xad) : Except String ℤ → Checked (ForInStep (Except String ℤ))
  | .error message => return .done (.error message)
  | .ok prevEnd => do
      if xad.length = 0 then return .yield (.ok prevEnd)
      else
        let offset : ℤ := xad.offset
        let stop ← Checked.addSigned 64 offset xad.length
        if offset < prevEnd then
          return .done (.error (overlapMessage i offset prevEnd))
        else return .yield (.ok stop)

/-- `validate`. -/
def validate (xt : Xtree) : Checked (Except String Unit) := do
  let result ← scanMin xt validateStep (.ok 0)
  return result.map fun _ => ()

/-- A step of the loop of `split_extent`. -/
def splitStep (splitAt : ℤ) (i : ℕ) (xad : Xad) (found : Option ℕ) : Checked (ForInStep (Option ℕ)) := do
  if xad.offset < splitAt then
    let stop ← Checked.addSigned 64 xad.offset (signedLength xad)
    if splitAt < stop then return .done (some i) else return .yield found
  else return .yield found

/-- `split_extent`. -/
def splitExtent (xt : Xtree) (splitAt : ℤ) : Checked (Bool × Xtree) := do
  if splitAt ≤ 0 then return (false, xt)
  else
    let toSplit ← scanMin xt (splitStep splitAt) none
    match toSplit with
    | none => return (false, xt)
    | some idx =>
        let xad ← Checked.get xt.xad idx
        let addr ← address xad
        let keepLen := Checked.toUnsigned 32 (← Checked.subSigned 64 splitAt xad.offset)
        let newLen ← Checked.sub xad.length keepLen
        let newAddr ← Checked.add 64 addr keepLen
        let newNext ← Checked.add 64 xt.nextIndex 1
        if xtRootMaxSlot < newNext then return (false, xt)
        else
          let xads ← Checked.set xt.xad idx (xad.setLength keepLen)
          if xt.nextIndex < xtRootMaxSlot then
            let new ← Checked.get xads xt.nextIndex
            let new := ((new.setOffset splitAt).setLength newLen).setAddress newAddr
            let xads ← Checked.set xads xt.nextIndex { new with flag := 0 }
            return (true, { xt with xad := xads }.setNextindex newNext)
          else return (true, { xt with xad := xads }.setNextindex newNext)

/-! ## No step fails -/

theorem address_eq (xad : Xad) : address xad = .ok xad.address := by
  have hlen := xad.loc.lenAddr.toNat_lt
  have haddr := xad.loc.addr2.toNat_lt
  exact Checked.add_of_lt (by omega)

theorem address_lt (xad : Xad) : xad.address < 2 ^ 40 :=
  xad.loc.address_lt

/-- The end of an extent. -/
theorem add_stop (xad : Xad) : Checked.add 64 xad.offset xad.length = .ok xad.stop := by
  have hoffset := xad.offset_lt
  have hlength := xad.length_lt
  exact Checked.add_of_lt (by omega)

theorem addSigned_stop (xad : Xad) : Checked.addSigned 64 xad.offset xad.length = .ok (xad.stop : ℤ) := by
  have hoffset := xad.offset_lt
  have hlength := xad.length_lt
  have hfits : Checked.FitsSigned 64 ((xad.offset : ℤ) + xad.length) := by
    unfold Checked.FitsSigned
    omega
  rw [Checked.addSigned_of_fits hfits, Xad.stop, Int.natCast_add]

/-- A difference of positions in a file. -/
theorem subSigned_position {a b : ℤ} (ha : 0 ≤ a) (hahigh : a < 2 ^ 63) (hb : 0 ≤ b) (hbhigh : b < 2 ^ 63) :
    Checked.subSigned 64 a b = .ok (a - b) := by
  refine Checked.subSigned_of_fits ?_
  unfold Checked.FitsSigned
  omega

theorem getElem?_of_slots {xt : Xtree} {k : ℕ} {xad : Xad} (h : xt.slots[k]? = some xad) :
    xtEntryStart + k < xtRootMaxSlot ∧ Checked.get xt.xad (xtEntryStart + k) = .ok xad := by
  rw [Xtree.getElem?_slots] at h
  have hget := (Option.ite_none_right_eq_some.mp h).2
  have hlt := (List.getElem?_eq_some_iff.mp hget).1
  rw [Vector.length_toList] at hlt
  exact ⟨hlt, Checked.get_of_getElem? hget⟩

/-- **A loop with a `break` at the end of the array** goes through the slots in use. -/
theorem scan_eq (xt : Xtree) {body : Xad → σ → Checked (ForInStep σ)} {step : Xad → σ → ForInStep σ}
    (h : ∀ xad s, body xad s = .ok (step xad s)) (s : σ) :
    scan xt body s = .ok (Checked.walk (fun _ => step) xtEntryStart xt.slots s) := by
  have hlen := xt.length_slots
  refine Checked.loop_eq_walk (by omega) (fun k xad s hk => ?_) (fun hlt k s => Or.inl ?_) s
  · obtain ⟨hslot, hget⟩ := getElem?_of_slots hk
    simp only [if_neg (Nat.not_le.mpr hslot), hget, Checked.ok_bind, h]
  · -- the loop is longer than the array
    have hend : xtRootMaxSlot ≤ xtEntryStart + xt.slots.length + k := by omega
    simp only [if_pos hend, Checked.pure_eq]

/-- So does a loop that is bounded by the array. -/
theorem scanMin_eq (xt : Xtree) {body : ℕ → Xad → σ → Checked (ForInStep σ)}
    {step : ℕ → Xad → σ → ForInStep σ} (h : ∀ i xad s, body i xad s = .ok (step i xad s)) (s : σ) :
    scanMin xt body s = .ok (Checked.walk step xtEntryStart xt.slots s) := by
  have hlen := xt.length_slots
  refine Checked.loop_eq_walk hlen.le (fun k xad s hk => ?_) (fun hlt => absurd hlt (by omega)) s
  obtain ⟨-, hget⟩ := getElem?_of_slots hk
  simp only [hget, Checked.ok_bind, h]

theorem lookupStep_eq (offset : ℕ) (xad : Xad) (found : Option Xad) : lookupStep offset xad found =
    .ok (if xad.offset ≤ offset && offset < xad.stop then .done (some xad) else .yield found) := by
  unfold lookupStep
  simp only [address_eq, add_stop, Checked.ok_bind, Checked.pure_eq]
  by_cases hlow : xad.offset ≤ offset
  · by_cases hhigh : offset < xad.stop
    · simp [hlow, hhigh]
    · simp [hlow, hhigh]
  · simp [hlow]

theorem lookup_eq (xt : Xtree) (offset : ℕ) : lookup xt offset = .ok (xt.lookup offset) := by
  unfold lookup
  rw [scan_eq xt (lookupStep_eq offset)]
  exact congrArg Except.ok (Checked.walk_find (fun _ _ => rfl) _ _)

section Map

variable {xt : Xtree} {stop current : ℕ} (result : List (ℕ × ℕ))

theorem mapStep_of_le (h : stop ≤ current) :
    mapStep xt stop (current, result) = .ok (.done (current, result)) :=
  if_neg (Nat.not_lt.mpr h)

theorem mapStep_of_none (h : current < stop) (hnone : xt.lookup current = none) :
    mapStep xt stop (current, result) = .ok (.done (current, result ++ [(0, stop - current)])) := by
  unfold mapStep
  simp only [if_pos h, lookup_eq, hnone, Checked.sub_of_le h.le, Checked.ok_bind, Checked.pure_eq]

theorem mapStep_of_some (hstop : stop < 2 ^ 64) (h : current < stop) {xad : Xad}
    (hsome : xt.lookup current = some xad) :
    mapStep xt stop (current, result) =
      .ok (.yield (current + min (xad.length - (current - xad.offset)) (stop - current),
        result ++ [(xad.address + (current - xad.offset),
          min (xad.length - (current - xad.offset)) (stop - current))])) := by
  have hholds := List.find?_some hsome
  rw [Bool.and_eq_true, decide_eq_true_eq, decide_eq_true_eq, Xad.stop] at hholds
  have hlength := xad.length_lt
  have haddress := address_lt xad
  have hrel : current - xad.offset ≤ xad.length := by omega
  have hblock : xad.address + (current - xad.offset) < 2 ^ 64 := by omega
  have hnext : current + min (xad.length - (current - xad.offset)) (stop - current) < 2 ^ 64 := by omega
  unfold mapStep
  simp only [if_pos h, lookup_eq, hsome, Checked.sub_of_le hholds.1, Checked.sub_of_le h.le,
    Checked.sub_of_le hrel, address_eq, Checked.add_of_lt hblock, Checked.add_of_lt hnext, Checked.ok_bind,
    Checked.pure_eq]

/-- The loop of `map_blocks` ends: every step but the last goes forward. -/
theorem whileLoop_mapStep (hstop : stop < 2 ^ 64) {n fuel : ℕ} (hn : stop - current ≤ n) (hfuel : n < fuel) :
    ∃ last, Checked.whileLoop (mapStep xt stop) fuel (current, result) =
      .ok (last, result ++ xt.mapBlocksFrom stop n current) := by
  induction n generalizing fuel current result with
  | zero =>
      obtain ⟨fuel, rfl⟩ := Nat.exists_eq_add_one.mpr hfuel
      refine ⟨current, ?_⟩
      rw [Checked.whileLoop_of_done (mapStep_of_le result (by omega)), Xtree.mapBlocksFrom, List.append_nil]
  | succ n ih =>
      obtain ⟨fuel, rfl⟩ := Nat.exists_eq_add_one.mpr (Nat.zero_lt_of_lt hfuel)
      unfold Xtree.mapBlocksFrom
      by_cases hdone : stop ≤ current
      · refine ⟨current, ?_⟩
        rw [Checked.whileLoop_of_done (mapStep_of_le result hdone), if_pos hdone, List.append_nil]
      · have hlt : current < stop := Nat.lt_of_not_le hdone
        rw [if_neg hdone]
        cases hfound : xt.lookup current with
        | none => exact ⟨current, Checked.whileLoop_of_done (mapStep_of_none result hlt hfound) fuel⟩
        | some xad =>
            have hholds := List.find?_some hfound
            rw [Bool.and_eq_true, decide_eq_true_eq, decide_eq_true_eq, Xad.stop] at hholds
            have hahead : stop - (current + min (xad.length - (current - xad.offset)) (stop - current)) ≤ n := by
              omega
            rw [Checked.whileLoop_of_yield (mapStep_of_some result hstop hlt hfound)]
            obtain ⟨last, hrest⟩ := ih (result ++ [(xad.address + (current - xad.offset),
              min (xad.length - (current - xad.offset)) (stop - current))]) hahead (Nat.lt_of_succ_lt_succ hfuel)
            refine ⟨last, hrest.trans ?_⟩
            rw [List.append_assoc]
            rfl

end Map

theorem mapBlocks_eq (xt : Xtree) {offset length fuel : ℕ} (hstop : offset + length < 2 ^ 64)
    (hfuel : length < fuel) : mapBlocks fuel xt offset length = .ok (xt.mapBlocks offset length) := by
  obtain ⟨last, hloop⟩ := whileLoop_mapStep [] hstop (Nat.add_sub_cancel_left ..).le hfuel
  unfold mapBlocks
  rw [Checked.add_of_lt hstop, Checked.ok_bind, hloop]
  rfl

theorem iterExtents_eq (xt : Xtree) : iterExtents xt = .ok xt.iterExtents := by
  have hlen := xt.length_slots
  have hloop : iterExtents xt = .ok (Checked.walk (fun _ xad extents => .yield (extents ++
      if xad.length = 0 then [] else
        [{ offset := xad.offset, length := xad.length, address := xad.address }])) xtEntryStart xt.slots []) := by
    refine Checked.loop_eq_walk (by omega) (fun k xad extents hk => ?_) (fun hlt k extents => Or.inr ?_) []
    · obtain ⟨hslot, hget⟩ := getElem?_of_slots hk
      unfold iterStep
      simp only [if_neg (Nat.not_le.mpr hslot), hget, address_eq, Checked.ok_bind, Checked.pure_eq]
      by_cases hempty : xad.length = 0
      · rw [if_pos hempty, if_pos hempty, List.append_nil]
      · rw [if_neg hempty, if_neg hempty]
    · have hend : xtRootMaxSlot ≤ xtEntryStart + xt.slots.length + k := by omega
      exact if_pos hend
  rw [hloop, Checked.walk_append (fun _ _ _ => rfl), List.nil_append]
  unfold Xtree.iterExtents
  congr 1
  induction xt.slots with
  | nil => rfl
  | cons xad rest ih =>
      by_cases hempty : xad.length = 0
      · rw [List.flatMap_cons, if_pos hempty, List.filter_cons_of_neg (by simpa using hempty)]
        exact ih
      · rw [List.flatMap_cons, if_neg hempty, List.filter_cons_of_pos (by simpa using hempty), ih]
        rfl

/-! ## Cutting one extent -/

section Cut

variable (start stop : ℤ) (xad : Xad)

/-- A distance inside of an extent. -/
theorem subSigned_inside {xad : Xad} {a b : ℤ} (ha : a ≤ xad.stop) (hb : xad.offset ≤ b) (hle : b ≤ a) :
    Checked.subSigned 64 a b = .ok (a - b) ∧ Checked.toUnsigned 32 (a - b) = (a - b).toNat ∧
      (a - b).toNat ≤ xad.length := by
  have hoffset := xad.offset_lt
  have hlength := xad.length_lt
  have hstop : xad.stop = xad.offset + xad.length := rfl
  exact ⟨subSigned_position (by omega) (by omega) (by omega) (by omega),
    Checked.toUnsigned_of_lt (by omega) (by omega), by omega⟩

/-- An address in an extent. -/
theorem add_address {xad : Xad} {n : ℕ} (h : n ≤ xad.length) :
    Checked.add 64 xad.address n = .ok (xad.address + n) := by
  have hlength := xad.length_lt
  have haddress := address_lt xad
  exact Checked.add_of_lt (by omega)

theorem truncateXad_eq : truncateXad stop xad = .ok (Xtree.truncateXad stop xad) := by
  unfold truncateXad Xtree.truncateXad
  simp only [address_eq, addSigned_stop, Checked.ok_bind, Checked.pure_eq]
  by_cases hempty : xad.length = 0
  · rw [if_pos hempty, if_pos hempty]
  rw [if_neg hempty, if_neg hempty]
  by_cases hbeyond : stop ≤ xad.offset
  · rw [if_pos hbeyond, if_pos hbeyond]
  rw [if_neg hbeyond, if_neg hbeyond]
  by_cases hcut : stop < xad.stop
  · obtain ⟨hkeep, hkeep', hinside⟩ := subSigned_inside hcut.le (Int.le_refl _) (Int.le_of_not_le hbeyond)
    obtain ⟨hfree, hfree', -⟩ := subSigned_inside (Int.le_refl _) (Int.le_of_not_le hbeyond) hcut.le
    rw [if_pos hcut, if_pos hcut]
    simp only [hkeep, hkeep', hfree, hfree', add_address hinside, Checked.ok_bind]
  · rw [if_neg hcut, if_neg hcut]

theorem punchXad_eq (hle : start ≤ stop) : punchXad start stop xad = .ok (Xtree.punchXad start stop xad) := by
  have hend : xad.stop = xad.offset + xad.length := rfl
  have hlength := xad.length_lt
  unfold punchXad Xtree.punchXad
  simp only [address_eq, addSigned_stop, Checked.ok_bind, Checked.pure_eq]
  by_cases hempty : xad.length = 0
  · rw [if_pos hempty, if_pos hempty]
  rw [if_neg hempty, if_neg hempty]
  by_cases hbefore : (xad.stop : ℤ) ≤ start
  · rw [if_pos hbefore, if_pos hbefore]
  rw [if_neg hbefore, if_neg hbefore]
  by_cases hafter : stop ≤ xad.offset
  · rw [if_pos hafter, if_pos hafter]
  rw [if_neg hafter, if_neg hafter]
  by_cases hinside : start ≤ xad.offset ∧ (xad.stop : ℤ) ≤ stop
  · rw [if_pos hinside, if_pos hinside]
  rw [if_neg hinside, if_neg hinside]
  by_cases hspans : xad.offset < start ∧ stop < xad.stop
  · -- the hole lies inside of the extent
    obtain ⟨hleft, hleft', hfits⟩ := subSigned_inside (Int.le_of_not_le hbefore) (Int.le_refl _) hspans.1.le
    obtain ⟨hright, hright', -⟩ := subSigned_inside (Int.le_refl _) (Int.le_of_not_le hafter) hspans.2.le
    obtain ⟨hhole, -, -⟩ := subSigned_inside hspans.2.le hspans.1.le hle
    rw [if_pos hspans, if_pos hspans]
    simp only [hleft, hleft', hright, hright', hhole, add_address hfits, Checked.ok_bind]
    rfl
  rw [if_neg hspans, if_neg hspans]
  by_cases hfirst : xad.offset < start
  · obtain ⟨hkeep, hkeep', hfits⟩ := subSigned_inside (Int.le_of_not_le hbefore) (Int.le_refl _) hfirst.le
    rw [if_pos hfirst, if_pos hfirst]
    simp only [hkeep, hkeep', Checked.sub_of_le hfits, add_address hfits, Checked.ok_bind]
  · have hpast : stop < xad.stop := by omega
    obtain ⟨hkeep, hkeep', -⟩ := subSigned_inside (Int.le_refl _) (Int.le_of_not_le hafter) hpast.le
    obtain ⟨hfree, hfree', hfits⟩ := subSigned_inside hpast.le (Int.le_refl _) (Int.le_of_not_le hafter)
    rw [if_neg hfirst, if_neg hfirst]
    simp only [hkeep, hkeep', hfree, hfree', add_address hfits, Checked.ok_bind]

theorem takeXad_eq (hle : start ≤ stop) : takeXad start stop xad = .ok (Xtree.takeXad start stop xad) := by
  have hend : xad.stop = xad.offset + xad.length := rfl
  have hlength := xad.length_lt
  have haddress := address_lt xad
  unfold takeXad Xtree.takeXad
  simp only [address_eq, addSigned_stop, Checked.ok_bind, Checked.pure_eq]
  by_cases hempty : xad.length = 0
  · rw [if_pos hempty, if_pos hempty]
  rw [if_neg hempty, if_neg hempty]
  by_cases hbefore : (xad.stop : ℤ) ≤ start
  · rw [if_pos hbefore, if_pos hbefore]
  rw [if_neg hbefore, if_neg hbefore]
  by_cases hafter : stop ≤ xad.offset
  · rw [if_pos hafter, if_pos hafter]
  rw [if_neg hafter, if_neg hafter]
  by_cases hinside : start ≤ xad.offset ∧ (xad.stop : ℤ) ≤ stop
  · rw [if_pos hinside, if_pos hinside]
  rw [if_neg hinside, if_neg hinside]
  by_cases hspans : xad.offset < start ∧ stop < xad.stop
  · obtain ⟨hleft, hleft', hfits⟩ := subSigned_inside (Int.le_of_not_le hbefore) (Int.le_refl _) hspans.1.le
    obtain ⟨hright, hright', -⟩ := subSigned_inside (Int.le_refl _) (Int.le_of_not_le hafter) hspans.2.le
    obtain ⟨htake, -, hmiddle⟩ := subSigned_inside hspans.2.le hspans.1.le hle
    have hwide : Checked.toUnsigned 64 (stop - start) = (stop - start).toNat :=
      Checked.toUnsigned_of_lt (by omega) (by omega)
    have hsum : xad.address + (start - xad.offset).toNat + Checked.toUnsigned 64 (stop - start) < 2 ^ 64 := by
      rw [hwide]
      omega
    rw [if_pos hspans, if_pos hspans]
    simp only [hleft, hleft', hright, hright', htake, add_address hfits, Checked.add_of_lt hsum, Checked.ok_bind]
    rfl
  rw [if_neg hspans, if_neg hspans]
  by_cases hfirst : xad.offset < start
  · obtain ⟨hkeep, hkeep', hfits⟩ := subSigned_inside (Int.le_of_not_le hbefore) (Int.le_refl _) hfirst.le
    rw [if_pos hfirst, if_pos hfirst]
    simp only [hkeep, hkeep', Checked.sub_of_le hfits, add_address hfits, Checked.ok_bind]
  · have hpast : stop < xad.stop := by omega
    obtain ⟨htake, htake', hfits⟩ := subSigned_inside hpast.le (Int.le_refl _) (Int.le_of_not_le hafter)
    rw [if_neg hfirst, if_neg hfirst]
    simp only [htake, htake', Checked.sub_of_le hfits, add_address hfits, Checked.ok_bind]

end Cut

/-! ## Writing extents back -/

theorem get_setIfInBounds (xads : Vector Xad xtRootMaxSlot) (k : ℕ) (xad : Xad) (i : Fin xtRootMaxSlot) :
    (xads.setIfInBounds k xad).get i = if i.1 = k then xad else xads.get i := by
  have hget : ∀ v : Vector Xad xtRootMaxSlot, v.get i = v[i.1] := fun _ => rfl
  rw [hget, hget, Vector.getElem_setIfInBounds]
  exact if_congr eq_comm rfl rfl

/-- Every extent that has a slot is written to it. -/
theorem writeKept_eq {kept : List Xad} {writeIdx : ℕ} (h : writeIdx + kept.length ≤ 32)
    (xads : Vector Xad xtRootMaxSlot) :
    ∃ written, writeKept writeIdx kept xads = .ok written ∧ ∀ i, written.get i =
      if xtEntryStart + writeIdx ≤ i.1 ∧ i.1 < xtEntryStart + writeIdx + kept.length then
        kept.getD (i.1 - (xtEntryStart + writeIdx)) {}
      else xads.get i := by
  induction kept generalizing writeIdx xads with
  | nil =>
      refine ⟨xads, rfl, fun i => (if_neg ?_).symm⟩
      rw [List.length_nil]
      omega
  | cons xad rest ih =>
      rw [List.length_cons] at h
      have hidx : Checked.add 64 xtEntryStart writeIdx = .ok (xtEntryStart + writeIdx) := by
        refine Checked.add_of_lt ?_
        unfold xtEntryStart
        omega
      unfold writeKept
      rw [hidx, Checked.ok_bind]
      by_cases hslot : xtEntryStart + writeIdx < xtRootMaxSlot
      · obtain ⟨written, hrest, hget⟩ :=
          @ih (writeIdx + 1) (by omega) (xads.setIfInBounds (xtEntryStart + writeIdx) xad)
        rw [if_pos hslot, Checked.set_of_lt hslot, Checked.ok_bind]
        refine ⟨written, hrest, fun i => (hget i).trans ?_⟩
        rw [List.length_cons, get_setIfInBounds]
        rcases lt_trichotomy i.1 (xtEntryStart + writeIdx) with hlt | heq | hgt
        · rw [if_neg (by omega), if_neg (by omega), if_neg (by omega)]
        · rw [if_neg (by omega), if_pos heq, if_pos (by omega), heq, Nat.sub_self]
          rfl
        · have hback : i.1 - (xtEntryStart + writeIdx) = i.1 - (xtEntryStart + (writeIdx + 1)) + 1 := by omega
          by_cases hin : i.1 < xtEntryStart + (writeIdx + 1) + rest.length
          · rw [if_pos (by omega), if_pos (by omega), hback, List.getD_cons_succ]
          · rw [if_neg (by omega), if_neg (by omega), if_neg (by omega)]
      · obtain ⟨written, hrest, hget⟩ := @ih (writeIdx + 1) (by omega) xads
        rw [if_neg hslot]
        refine ⟨written, hrest, fun i => (hget i).trans ?_⟩
        have hi := i.2
        rw [if_neg (by omega), if_neg (by omega)]

/-- The slots from `first` on are cleared. -/
theorem loop_clear {first count : ℕ} (h : first + count ≤ xtRootMaxSlot) (xads : Vector Xad xtRootMaxSlot) :
    ∃ cleared, Checked.loop clearStep first count xads = .ok cleared ∧ ∀ i : Fin xtRootMaxSlot, cleared.get i =
      if first ≤ i.1 ∧ i.1 < first + count then ({} : Xad) else xads.get i := by
  induction count generalizing first xads with
  | zero => exact ⟨xads, rfl, fun i => (if_neg (by omega)).symm⟩
  | succ count ih =>
      obtain ⟨cleared, hrest, hget⟩ := @ih (first + 1) (by omega) (xads.setIfInBounds first {})
      have hslot : first < xtRootMaxSlot := by omega
      refine ⟨cleared, ?_, fun i => (hget i).trans ?_⟩
      · have hstep : clearStep first xads = .ok (.yield (xads.setIfInBounds first {})) := by
          rw [clearStep, Checked.set_of_lt hslot, Checked.ok_bind, Checked.pure_eq]
        exact (Checked.loop_of_yield hstep count).trans hrest
      · rw [get_setIfInBounds]
        by_cases hin : first ≤ i.1 ∧ i.1 < first + (count + 1)
        · rw [if_pos hin]
          by_cases hfirst : i.1 = first
          · rw [if_neg (by omega), if_pos hfirst]
          · rw [if_pos (by omega)]
        · rw [if_neg (by omega), if_neg (by omega), if_neg hin]

theorem storeKept_eq (xt : Xtree) {kept : List Xad} (h : kept.length ≤ 32) :
    storeKept xt kept = .ok (xt.storeKept kept) := by
  obtain ⟨written, hwrite, hwritten⟩ := writeKept_eq (by omega : 0 + kept.length ≤ 32) xt.xad
  have hnext : Checked.add 64 xtEntryStart kept.length = .ok (xtEntryStart + kept.length) := by
    refine Checked.add_of_lt ?_
    unfold xtEntryStart
    omega
  unfold storeKept
  rw [hwrite, Checked.ok_bind, hnext, Checked.ok_bind]
  -- clearing starts inside of the array or does nothing
  have hclear : ∃ cleared, Checked.loop clearStep (xtEntryStart + kept.length)
      (min xt.nextIndex xtRootMaxSlot - (xtEntryStart + kept.length)) written = .ok cleared ∧ ∀ i : Fin xtRootMaxSlot, cleared.get i =
      if xtEntryStart + kept.length ≤ i.1 ∧ i.1 < xt.nextIndex then ({} : Xad) else written.get i := by
    by_cases hroom : xtEntryStart + kept.length ≤ min xt.nextIndex xtRootMaxSlot
    · have hfits : xtEntryStart + kept.length + (min xt.nextIndex xtRootMaxSlot - (xtEntryStart + kept.length)) ≤
          xtRootMaxSlot := by
        omega
      obtain ⟨cleared, hloop, hget⟩ := loop_clear hfits written
      refine ⟨cleared, hloop, fun i => (hget i).trans (if_congr ?_ rfl rfl)⟩
      have hi := i.2
      omega
    · rw [Nat.sub_eq_zero_of_le (by omega)]
      refine ⟨written, rfl, fun i => (if_neg ?_).symm⟩
      have hi := i.2
      omega
  obtain ⟨cleared, hloop, hcleared⟩ := hclear
  rw [hloop]
  refine congrArg (fun xads => Except.ok ({ xt with xad := xads }.setNextindex (xtEntryStart + kept.length))) ?_
  refine Vector.ext fun i hi => ?_
  have hget := hcleared ⟨i, hi⟩
  rw [hwritten] at hget
  rw [Vector.getElem_ofFn]
  refine hget.trans ?_
  rw [Nat.add_zero]
  simp only
  by_cases hlow : i < xtEntryStart
  · rw [if_pos hlow, if_neg (by omega), if_neg (by omega)]
  rw [if_neg hlow]
  by_cases hkept : i < xtEntryStart + kept.length
  · rw [if_pos hkept, if_neg (by omega), if_pos (by omega)]
  · rw [if_neg hkept]
    by_cases hused : i < xt.nextIndex
    · rw [if_pos hused, if_pos (by omega)]
    · rw [if_neg hused, if_neg (by omega), if_neg (by omega)]

/-- Cutting every extent and writing the parts back. -/
theorem rebuild_eq {β : Type} (xt : Xtree) {cut : Xad → Checked (List Xad × List β)}
    {parts : Xad → List Xad × List β} (hcut : ∀ xad, cut xad = .ok (parts xad))
    (hlength : ∀ xad, (parts xad).1.length ≤ 2) :
    rebuild xt cut = .ok ((xt.slots.map parts).flatMap Prod.snd,
      xt.storeKept ((xt.slots.map parts).flatMap Prod.fst)) := by
  have hbody : ∀ (xad : Xad) (s : List Xad × List β), (do
      let parts ← cut xad
      return .yield (s.1 ++ parts.1, s.2 ++ parts.2) : Checked (ForInStep (List Xad × List β))) =
        .ok (.yield (s.1 ++ (parts xad).1, s.2 ++ (parts xad).2)) := by
    intro xad s
    rw [hcut, Checked.ok_bind, Checked.pure_eq]
  have hroom : ((xt.slots.map parts).flatMap Prod.fst).length ≤ 32 := by
    rw [List.flatMap_map]
    exact Xtree.length_kept_le xt hlength
  unfold rebuild
  rw [scan_eq xt hbody, Checked.ok_bind, Checked.walk_append₂ (fun _ _ _ => rfl)]
  simp only [List.nil_append]
  rw [storeKept_eq xt hroom]
  rfl

theorem truncateExtents_eq (xt : Xtree) (newEof : ℤ) :
    truncateExtents xt newEof = .ok (xt.truncateExtents newEof) :=
  rebuild_eq xt (truncateXad_eq newEof) fun xad => (Xtree.length_truncateXad newEof xad).trans (by decide)

theorem punchExtents_eq (xt : Xtree) {start stop : ℤ} (h : start ≤ stop) :
    punchExtents xt start stop = .ok (xt.punchExtents start stop) :=
  rebuild_eq xt (fun xad => punchXad_eq start stop xad h) fun _ =>
    Xtree.length_punchXad.le.trans Xtree.length_takeXad

theorem takeExtents_eq (xt : Xtree) {start stop : ℤ} (h : start ≤ stop) :
    takeExtents xt start stop = .ok (xt.takeExtents start stop) :=
  rebuild_eq xt (fun xad => takeXad_eq start stop xad h) fun _ => Xtree.length_takeXad

/-! ## Inserting, validating and splitting -/

theorem insertNew_eq (xt : Xtree) (logicalOffset : ℤ) (length physicalAddr : ℕ) (flag : UInt8) :
    insertNew xt logicalOffset length physicalAddr flag =
      .ok (if xtRootMaxSlot ≤ xt.nextIndex then none
        else some (xt.append logicalOffset length physicalAddr flag)) := by
  unfold insertNew
  by_cases hfull : xtRootMaxSlot ≤ xt.nextIndex
  · rw [if_pos hfull, if_pos hfull]
    rfl
  have hidx : (if xt.nextIndex ≤ xtEntryStart then xtEntryStart else xt.nextIndex) = xt.newSlot := by
    unfold Xtree.newSlot
    split
    · omega
    · omega
  have hslot : xt.newSlot < xtRootMaxSlot := max_lt (Nat.lt_of_not_le hfull) entryStart_lt
  have hnext : Checked.add 16 xt.newSlot 1 = .ok (xt.newSlot + 1) := by
    refine Checked.add_of_lt ?_
    unfold xtRootMaxSlot at hslot
    omega
  have hget : Checked.get xt.xad xt.newSlot = .ok (xt.xad.toList.getD xt.newSlot {}) := Checked.get_of_lt hslot _
  rw [if_neg hfull, if_neg hfull]
  simp only [hidx, hget, Checked.set_of_lt hslot, hnext, Checked.ok_bind]
  rfl

theorem insertExtent_eq (xt : Xtree) (logicalOffset : ℤ) {length : ℕ} (physicalAddr : ℕ)
    (h : length ≤ Xtree.maxXLen) :
    insertExtent xt logicalOffset length physicalAddr =
      .ok (xt.insertExtent logicalOffset length physicalAddr) := by
  unfold insertExtent Xtree.insertExtent
  by_cases hused : xtEntryStart < xt.nextIndex
  · have hsub : Checked.sub xt.nextIndex 1 = .ok (xt.nextIndex - 1) := Checked.sub_of_le (by omega)
    rw [if_pos hused, hsub, Checked.ok_bind]
    by_cases hfull : xtRootMaxSlot ≤ xt.nextIndex - 1
    · rw [if_pos hfull, if_pos ⟨hused, hfull⟩]
      rfl
    have hslot : xt.nextIndex - 1 < xtRootMaxSlot := Nat.lt_of_not_le hfull
    have hget : Checked.get xt.xad (xt.nextIndex - 1) = .ok (xt.xad.toList.getD (xt.nextIndex - 1) {}) :=
      Checked.get_of_lt hslot _
    rw [if_neg hfull, if_neg fun hboth => hfull hboth.2, hget, Checked.ok_bind]
    generalize xt.xad.toList.getD (xt.nextIndex - 1) {} = last
    have hlength := last.length_lt
    have hsum : Checked.add 32 last.length length = .ok (last.length + length) := by
      refine Checked.add_of_lt ?_
      unfold Xtree.maxXLen at h
      omega
    rw [address_eq, Checked.ok_bind, addSigned_stop, Checked.ok_bind]
    by_cases hlogical : (last.stop : ℤ) = logicalOffset
    · rw [if_pos hlogical, add_address (Nat.le_refl last.length), Checked.ok_bind]
      by_cases hphysical : last.address + last.length = physicalAddr
      · have hcontinues : Xtree.continues last logicalOffset physicalAddr := by
          simp [Xtree.continues, hlogical, hphysical]
        rw [if_pos hphysical, if_pos ⟨hused, hcontinues⟩, hsum, Checked.ok_bind, Checked.set_of_lt hslot,
          Checked.ok_bind, Checked.pure_eq]
      · have hcontinues : ¬ Xtree.continues last logicalOffset physicalAddr := by
          simp [Xtree.continues, hphysical]
        rw [if_neg hphysical, if_neg fun hboth => hcontinues hboth.2]
        exact insertNew_eq xt logicalOffset length physicalAddr Xad.xadNew
    · have hcontinues : ¬ Xtree.continues last logicalOffset physicalAddr := by
        simp [Xtree.continues, hlogical]
      rw [if_neg hlogical, if_neg fun hboth => hcontinues hboth.2]
      exact insertNew_eq xt logicalOffset length physicalAddr Xad.xadNew
  · rw [if_neg hused, if_neg fun hboth => hused hboth.1, if_neg fun hboth => hused hboth.1]
    exact insertNew_eq xt logicalOffset length physicalAddr Xad.xadNew

theorem insertTakenExtent_eq (xt : Xtree) (logicalOffset : ℤ) (length physicalAddr : ℕ) :
    insertTakenExtent xt logicalOffset length physicalAddr =
      .ok (xt.insertTakenExtent logicalOffset length physicalAddr) :=
  insertNew_eq xt logicalOffset length physicalAddr 0

/-- What a step of the loop of `validate` does. -/
def validateNext (i : ℕ) (xad : Xad) : Except String ℤ → ForInStep (Except String ℤ)
  | .error message => .done (.error message)
  | .ok prevEnd =>
      if xad.length = 0 then .yield (.ok prevEnd)
      else if (xad.offset : ℤ) < prevEnd then
        .done (.error (overlapMessage i xad.offset prevEnd))
      else .yield (.ok xad.stop)

theorem validateStep_eq (i : ℕ) (xad : Xad) (prev : Except String ℤ) :
    validateStep i xad prev = .ok (validateNext i xad prev) := by
  cases prev with
  | error message => rfl
  | ok prevEnd =>
      unfold validateStep validateNext
      simp only [addSigned_stop, Checked.ok_bind, Checked.pure_eq]
      by_cases hempty : xad.length = 0
      · rw [if_pos hempty, if_pos hempty]
      · rw [if_neg hempty, if_neg hempty]
        split <;> rfl

theorem walk_validateNext (i prevEnd : ℕ) (l : List Xad) :
    (Checked.walk validateNext i l (.ok (prevEnd : ℤ))).map (fun _ => ()) =
      Xtree.validateFrom i prevEnd l := by
  induction l generalizing i prevEnd with
  | nil => rfl
  | cons xad rest ih =>
      unfold Xtree.validateFrom
      by_cases hempty : xad.length = 0
      · have hnext : validateNext i xad (.ok (prevEnd : ℤ)) = .yield (.ok (prevEnd : ℤ)) := if_pos hempty
        rw [Checked.walk_of_yield hnext, if_pos hempty]
        exact ih (i + 1) prevEnd
      · rw [if_neg hempty]
        simp only
        by_cases hbefore : xad.offset < prevEnd
        · have hnext : validateNext i xad (.ok (prevEnd : ℤ)) =
              .done (.error (overlapMessage i xad.offset prevEnd)) :=
            (if_neg hempty).trans (if_pos (Int.ofNat_lt.mpr hbefore))
          rw [Checked.walk_of_done hnext, if_pos hbefore]
          rfl
        · have hnext : validateNext i xad (.ok (prevEnd : ℤ)) = .yield (.ok (xad.stop : ℤ)) :=
            (if_neg hempty).trans (if_neg fun hlt => hbefore (Int.ofNat_lt.mp hlt))
          rw [Checked.walk_of_yield hnext, if_neg hbefore]
          exact ih (i + 1) xad.stop

theorem validate_eq (xt : Xtree) : validate xt = .ok xt.validate := by
  unfold validate Xtree.validate
  rw [scanMin_eq xt validateStep_eq, Checked.ok_bind]
  exact congrArg Except.ok (walk_validateNext xtEntryStart 0 xt.slots)

theorem signedLength_eq (xad : Xad) : signedLength xad = xad.length := by
  have hlength := xad.length_lt
  unfold signedLength
  exact Int.bmod_eq_of_le (by omega) (by omega)

theorem splitStep_eq (splitAt : ℤ) (i : ℕ) (xad : Xad) (found : Option ℕ) :
    splitStep splitAt i xad found =
      .ok (if Xtree.straddles splitAt xad then .done (some i) else .yield found) := by
  unfold splitStep Xtree.straddles
  rw [signedLength_eq]
  simp only [addSigned_stop, Checked.ok_bind, Checked.pure_eq]
  by_cases hlow : (xad.offset : ℤ) < splitAt
  · by_cases hhigh : splitAt < xad.stop
    · simp [hlow, hhigh]
    · simp [hlow, hhigh]
  · simp [hlow]

theorem splitExtent_eq (xt : Xtree) (splitAt : ℤ) : splitExtent xt splitAt = .ok (xt.splitExtent splitAt) := by
  unfold splitExtent Xtree.splitExtent
  by_cases hlow : splitAt ≤ 0
  · rw [if_pos hlow, if_pos hlow]
    rfl
  rw [if_neg hlow, if_neg hlow, scanMin_eq xt (splitStep_eq splitAt), Checked.ok_bind,
    Checked.walk_findIdx (fun _ _ => rfl)]
  cases hfound : xt.slots.findIdx? (Xtree.straddles splitAt) with
  | none => rfl
  | some i =>
      obtain ⟨hi, hstraddles, -⟩ := List.findIdx?_eq_some_iff_getElem.mp hfound
      obtain ⟨hslot, hread⟩ := getElem?_of_slots (List.getElem?_eq_getElem hi)
      have hget : Checked.get xt.xad (xtEntryStart + i) = .ok (xt.xad.toList.getD (xtEntryStart + i) {}) :=
        Checked.get_of_lt hslot _
      have heq : xt.slots[i] = xt.xad.toList.getD (xtEntryStart + i) {} :=
        Except.ok.inj (hread.symm.trans hget)
      rw [heq] at hstraddles
      simp only [Option.map_some, hget, Checked.ok_bind]
      generalize xt.xad.toList.getD (xtEntryStart + i) {} = xad at hstraddles ⊢
      unfold Xtree.straddles at hstraddles
      rw [Bool.and_eq_true, decide_eq_true_eq, decide_eq_true_eq] at hstraddles
      obtain ⟨hkeep, hkeep', hinside⟩ := subSigned_inside hstraddles.2.le (Int.le_refl _) hstraddles.1.le
      have hnext : Checked.add 64 xt.nextIndex 1 = .ok (xt.nextIndex + 1) := by
        refine Checked.add_of_lt ?_
        have hlt := xt.header.nextindex.toNat_lt
        unfold Xtree.nextIndex
        omega
      simp only [address_eq, hkeep, hkeep', Checked.sub_of_le hinside, add_address hinside, hnext,
        Checked.ok_bind, Checked.pure_eq]
      by_cases hroom : xtRootMaxSlot < xt.nextIndex + 1
      · rw [if_pos hroom, if_pos hroom]
      · have hfree : xt.nextIndex < xtRootMaxSlot := Nat.lt_of_succ_le (Nat.le_of_not_lt hroom)
        rw [if_neg hroom, if_neg hroom, Checked.set_of_lt hslot, Checked.ok_bind, if_pos hfree,
          Checked.get_of_lt hfree {}, Checked.ok_bind]
        simp only [Checked.set_of_lt hfree, Checked.ok_bind]

/-! ## Parsing -/

/-- A field of the bytes. -/
theorem slice_field {data : List UInt8} {off n : ℕ} (h : off + n ≤ data.length) :
    Checked.slice data off n = .ok (slice data off n) :=
  Checked.slice_of_le h

theorem getD_slice_one (data : List UInt8) (off : ℕ) : (slice data off 1).getD 0 0 = data.getD off 0 :=
  getD_slice data off 1 0 0 Nat.one_pos

theorem Pxd_read_slice (data : List UInt8) (off : ℕ) : Pxd.read (slice data off 8) 0 = Pxd.read data off := by
  unfold Pxd.read
  rw [readLE_slice data off (by decide), readLE_slice data off (by decide)]
  rfl

theorem parseXad_eq {data : List UInt8} {off : ℕ} (h : off + 16 ≤ data.length) :
    parseXad (slice data off 16) = .ok (.ok (Xad.read data off)) := by
  have hlen : (slice data off 16).length = 16 := length_slice_of_le h
  have hfield : ∀ i n, i + n ≤ 16 → Checked.slice (slice data off 16) i n = .ok (slice data (off + i) n) := by
    intro i n hn
    rw [slice_field (by omega), slice_slice data hn]
  unfold parseXad
  rw [if_neg (by omega), hfield 0 1 (by decide), hfield 1 2 (by decide), hfield 3 1 (by decide),
    hfield 4 4 (by decide), hfield 8 8 (by decide)]
  simp only [Checked.ok_bind, Checked.pure_eq, getD_slice_one, Pxd_read_slice]
  rfl

/-- The descriptors that lie in the data, up to slot `i`. -/
def parsed (data : List UInt8) (count : ℕ) : Vector Xad xtRootMaxSlot :=
  Vector.ofFn fun i =>
    if xtEntryStart ≤ i.1 ∧ i.1 < xtEntryStart + count ∧ 32 + (i.1 - xtEntryStart) * 16 + 16 ≤ data.length then
      Xad.read data (32 + (i.1 - xtEntryStart) * 16)
    else {}

theorem get_parsed (data : List UInt8) (count : ℕ) (i : Fin xtRootMaxSlot) : (parsed data count).get i =
    if xtEntryStart ≤ i.1 ∧ i.1 < xtEntryStart + count ∧ 32 + (i.1 - xtEntryStart) * 16 + 16 ≤ data.length then
      Xad.read data (32 + (i.1 - xtEntryStart) * 16)
    else {} :=
  Vector.getElem_ofFn i.2

theorem parsed_zero (data : List UInt8) : parsed data 0 = Vector.replicate xtRootMaxSlot {} := by
  refine Vector.ext fun i hi => ?_
  have hget := get_parsed data 0 ⟨i, hi⟩
  rw [if_neg (by simp only; omega)] at hget
  exact hget.trans (Vector.getElem_replicate hi).symm

/-- Where a descriptor starts and ends. -/
theorem add_base {i : ℕ} (hi : i < xtRootMaxSlot - xtEntryStart) :
    Checked.add 64 32 (i * 16) = .ok (32 + i * 16) ∧ Checked.add 64 (32 + i * 16) 16 = .ok (32 + i * 16 + 16) := by
  unfold xtRootMaxSlot xtEntryStart at hi
  exact ⟨Checked.add_of_lt (by omega), Checked.add_of_lt (by omega)⟩

theorem parseStep_of_fits {data : List UInt8} {i : ℕ} (hi : i < xtRootMaxSlot - xtEntryStart)
    (h : 32 + i * 16 + 16 ≤ data.length) :
    parseStep data i (.ok (parsed data i)) = .ok (.yield (.ok (parsed data (i + 1)))) := by
  have hslot : xtEntryStart + i < xtRootMaxSlot := by omega
  have hnext : (parsed data i).setIfInBounds (xtEntryStart + i) (Xad.read data (32 + i * 16)) =
      parsed data (i + 1) := by
    refine Vector.ext fun k hk => ?_
    have hget := get_setIfInBounds (parsed data i) (xtEntryStart + i) (Xad.read data (32 + i * 16)) ⟨k, hk⟩
    have hget' := get_parsed data (i + 1) ⟨k, hk⟩
    rw [get_parsed] at hget
    refine hget.trans (Eq.trans ?_ hget'.symm)
    simp only
    by_cases hself : k = xtEntryStart + i
    · rw [if_pos hself, hself, Nat.add_sub_cancel_left, if_pos ⟨by omega, by omega, h⟩]
    · rw [if_neg hself]
      exact if_congr (by omega) rfl rfl
  unfold parseStep
  simp only [(add_base hi).1, (add_base hi).2, Checked.ok_bind, if_neg (Nat.not_lt.mpr h), slice_field h,
    parseXad_eq h, Checked.set_of_lt hslot, hnext, Checked.pure_eq]

theorem parseStep_of_short {data : List UInt8} {i : ℕ} (hi : i < xtRootMaxSlot - xtEntryStart)
    (h : data.length < 32 + i * 16 + 16) (xads : Vector Xad xtRootMaxSlot) :
    parseStep data i (.ok xads) = .ok (.done (.ok xads)) := by
  unfold parseStep
  simp only [(add_base hi).1, (add_base hi).2, Checked.ok_bind, if_pos h, Checked.pure_eq]

/-- Behind the data nothing is added. -/
theorem parsed_of_short {data : List UInt8} {i count : ℕ} (h : data.length < 32 + i * 16 + 16) (hle : i ≤ count) :
    parsed data count = parsed data i := by
  refine congrArg Vector.ofFn (funext fun k => if_congr ⟨?_, ?_⟩ rfl rfl)
  · rintro ⟨hlow, -, hfits⟩
    exact ⟨hlow, by omega, hfits⟩
  · rintro ⟨hlow, hhigh, hfits⟩
    exact ⟨hlow, by omega, hfits⟩

theorem loop_parseStep (data : List UInt8) {i count : ℕ} (h : i + count = xtRootMaxSlot - xtEntryStart) :
    Checked.loop (parseStep data) i count (.ok (parsed data i)) =
      .ok (.ok (parsed data (xtRootMaxSlot - xtEntryStart))) := by
  induction count generalizing i with
  | zero =>
      rw [← h, Nat.add_zero]
      rfl
  | succ count ih =>
      by_cases hfits : 32 + i * 16 + 16 ≤ data.length
      · rw [Checked.loop_of_yield (parseStep_of_fits (by omega) hfits)]
        exact ih (by omega)
      · have hshort : data.length < 32 + i * 16 + 16 := Nat.lt_of_not_le hfits
        have hsame : parsed data (xtRootMaxSlot - xtEntryStart) = parsed data i :=
          parsed_of_short hshort (by omega)
        rw [Checked.loop_of_done (parseStep_of_short (by omega) hshort _), hsame]

/-- **Any 96 bytes are parsed.** -/
theorem fromInodeData_eq {data : List UInt8} (h : 96 ≤ data.length) :
    fromInodeData data = .ok (Xtree.fromInodeData data) := by
  have hloop := loop_parseStep data (Nat.zero_add (xtRootMaxSlot - xtEntryStart))
  rw [parsed_zero] at hloop
  have hall : parsed data (xtRootMaxSlot - xtEntryStart) = Vector.ofFn fun i =>
      if xtEntryStart ≤ i.1 ∧ 32 + (i.1 - xtEntryStart) * 16 + 16 ≤ data.length then
        Xad.read data (32 + (i.1 - xtEntryStart) * 16)
      else {} := by
    refine congrArg Vector.ofFn (funext fun k => if_congr ⟨fun hin => ⟨hin.1, hin.2.2⟩, fun hin => ?_⟩ rfl rfl)
    exact ⟨hin.1, by omega, hin.2⟩
  unfold fromInodeData parseXtroot Xtree.fromInodeData
  rw [if_neg (by omega), if_neg (by omega), if_neg (by omega), hloop, hall]
  simp only [slice_field (show 0 + 8 ≤ data.length by omega), slice_field (show 8 + 8 ≤ data.length by omega),
    slice_field (show 16 + 1 ≤ data.length by omega), slice_field (show 17 + 1 ≤ data.length by omega),
    slice_field (show 18 + 2 ≤ data.length by omega), slice_field (show 20 + 2 ≤ data.length by omega),
    slice_field (show 22 + 2 ≤ data.length by omega), slice_field (show 24 + 8 ≤ data.length by omega),
    Checked.ok_bind, Checked.pure_eq, getD_slice_one, Pxd_read_slice]
  rfl

/-! ## All functions -/

/-- **The extent code is safe on malformed roots**: no step on any root of at least 96 bytes
fails, and the loops end. -/
theorem extentCode_safe {data : List UInt8} (h : 96 ≤ data.length) :
    ∃ xt, fromInodeData data = .ok (.ok xt) ∧
      (∀ offset, lookup xt offset = .ok (xt.lookup offset)) ∧
      (∀ offset length fuel, offset + length < 2 ^ 64 → length < fuel →
        mapBlocks fuel xt offset length = .ok (xt.mapBlocks offset length)) ∧
      iterExtents xt = .ok xt.iterExtents ∧
      (∀ newEof, truncateExtents xt newEof = .ok (xt.truncateExtents newEof)) ∧
      (∀ start stop, start ≤ stop → punchExtents xt start stop = .ok (xt.punchExtents start stop) ∧
        takeExtents xt start stop = .ok (xt.takeExtents start stop)) ∧
      (∀ splitAt, splitExtent xt splitAt = .ok (xt.splitExtent splitAt)) ∧
      validate xt = .ok xt.validate ∧
      ∀ logicalOffset length physicalAddr, length ≤ Xtree.maxXLen →
        insertExtent xt logicalOffset length physicalAddr =
            .ok (xt.insertExtent logicalOffset length physicalAddr) ∧
          insertTakenExtent xt logicalOffset length physicalAddr =
            .ok (xt.insertTakenExtent logicalOffset length physicalAddr) := by
  obtain ⟨xt, hxt⟩ : ∃ xt, Xtree.fromInodeData data = .ok xt := ⟨_, if_neg (Nat.not_lt.mpr h)⟩
  refine ⟨xt, (fromInodeData_eq h).trans (congrArg Except.ok hxt), lookup_eq xt, ?_, iterExtents_eq xt,
    truncateExtents_eq xt, ?_, splitExtent_eq xt, validate_eq xt, ?_⟩
  · exact fun offset length fuel hstop hfuel => mapBlocks_eq xt hstop hfuel
  · exact fun start stop hle => ⟨punchExtents_eq xt hle, takeExtents_eq xt hle⟩
  · exact fun logicalOffset length physicalAddr hmax =>
      ⟨insertExtent_eq xt logicalOffset physicalAddr hmax, insertTakenExtent_eq xt logicalOffset length physicalAddr⟩

/-- A root whose bytes are all ones, so that `nextindex` is 65535. -/
theorem extentCode_safe_allOnes :
    ∃ xt, fromInodeData (List.replicate 96 0xFF) = .ok (.ok xt) ∧
      mapBlocks 4 xt 0 3 = .ok (xt.mapBlocks 0 3) ∧ punchExtents xt 0 5 = .ok (xt.punchExtents 0 5) ∧
      insertExtent xt 7 Xtree.maxXLen 9 = .ok (xt.insertExtent 7 Xtree.maxXLen 9) := by
  have hlen : 96 ≤ (List.replicate 96 (0xFF : UInt8)).length := List.length_replicate.ge
  obtain ⟨xt, hxt, -, hmap, -, -, hcut, -, -, hinsert⟩ := extentCode_safe hlen
  exact ⟨xt, hxt, hmap 0 3 4 (by decide) (by decide), (hcut 0 5 (by decide)).1,
    (hinsert 7 Xtree.maxXLen 9 (Nat.le_refl _)).1⟩

end CheckedXtree

end JfsFuse
