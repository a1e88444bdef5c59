import JfsFuse.Volume.CacheCalls
import JfsFuse.Volume.TableSteps

/-!
# Changes that an abort leaves behind

`abort` and a commit that fails clear the flags of the pages that the transaction marked.  They
touch no data, so a page that was changed is read with the change afterwards, whether it was
marked or not.
-/

namespace JfsFuse

open ByteBuf Program

namespace Storage

/-- What a block is read as on a device that does not fail; nothing outside of the storage. -/
def stored (s : Storage) (block : ℕ) : List UInt8 :=
  match s.readResult (block * blockSize) blockSize with
  | .ok data => data
  | .error _ => []

/-- The device fails the next call. -/
def FailsNext (s : Storage) : Prop :=
  s.faults.head? = some true

end Storage

namespace StorageM

theorem readBlock_of_failsNext {s : Storage} (h : s.FailsNext) (block : ℕ) :
    ∃ s', readBlock block s = .error .io s' ∧ s'.stored = s.stored := by
  obtain ⟨rest, hfaults⟩ := List.head?_eq_some_iff.mp h
  have hattempt : attempt s = .error .io { s with faults := rest } := by
    unfold attempt
    rw [hfaults]
  exact ⟨_, bind_error hattempt, rfl⟩

theorem attempt_of_not_failsNext {s : Storage} (h : ¬ s.FailsNext) :
    ∃ faults, attempt s = .ok () { s with faults } := by
  cases hfaults : s.faults with
  | nil => exact ⟨s.faults, attempt_ok hfaults⟩
  | cons fails rest =>
      unfold attempt
      cases fails with
      | false => exact ⟨rest, by rw [hfaults]⟩
      | true => exact absurd (congrArg List.head? hfaults) h

theorem readBlock_of_not_failsNext {s : Storage} (h : ¬ s.FailsNext) (block : ℕ) :
    ∃ s', readBlock block s = returnExcept (s.readResult (block * blockSize) blockSize) s' ∧
      s'.stored = s.stored := by
  obtain ⟨faults, hattempt⟩ := attempt_of_not_failsNext h
  refine ⟨{ s with faults }, ?_, rfl⟩
  unfold readBlock readBytes
  rw [bind_ok hattempt, bind_ok (get_apply _)]
  rfl

end StorageM

namespace Volume

/-- Every page is filed under its block and holds what the storage holds there. -/
def Mirrors (v : Volume) : Prop :=
  ∀ key page, v.pageCache.peek key = some page → page.block = key.2 ∧ page.data = v.storage.stored key.2

/-- All ways to read a block through the cache give what the storage holds. -/
structure ReadsStored (v : Volume) (block : ℕ) : Prop where
  peek : ∀ inode page, v.pageCache.peek (inode, block) = some page → page.data = v.storage.stored block
  peekBlock : ∀ page, v.pageCache.peekBlock block = some page → page.data = v.storage.stored block
  getOrLoad : ¬ v.storage.FailsNext → ∀ inode index page v', getOrLoad inode block index v = .ok page v' →
    page.data = v.storage.stored block

/-! ## Loading -/

theorem otherCopy_cached {cache : PageCache} {inode : UInt32} {block : ℕ} {data : List UInt8}
    (h : cache.otherCopy inode block = some data) :
    ∃ other page, cache.peek (other, block) = some page ∧ page.data = data := by
  obtain ⟨e, hfind, rfl⟩ := Option.map_eq_some_iff.mp h
  obtain ⟨hkey, hpage⟩ := of_find?_iter (p := fun key => key.2 == block && key.1 != inode) hfind
  have hblock : e.1 = (e.1.1, block) := Prod.ext rfl (eq_of_beq (Bool.and_eq_true_iff.mp hkey).1)
  rw [hblock] at hpage
  exact ⟨e.1.1, e.2, hpage, rfl⟩

theorem loadData_of_copy {v : Volume} {inode : UInt32} {block : ℕ} {data : List UInt8}
    (h : v.pageCache.otherCopy inode block = some data) : loadData inode block v = .ok data v := by
  unfold loadData
  rw [bind_ok (get_apply v), h]
  rfl

/-- A block without a copy is read, and a read that fails counts as an empty block. -/
theorem exists_loadData_stored {v : Volume} {inode : UInt32} {block : ℕ}
    (h : v.pageCache.otherCopy inode block = none) :
    ∃ data s, loadData inode block v = .ok data { v with storage := s } ∧ s.stored = v.storage.stored ∧
      (v.storage.FailsNext → data = []) ∧ (¬ v.storage.FailsNext → data = v.storage.stored block) := by
  have hload : loadData inode block v =
      tryCatch (onStorage (StorageM.readBlock block)) (fun _ => return []) v := by
    unfold loadData
    rw [bind_ok (get_apply v), h]
  rw [hload]
  by_cases hfails : v.storage.FailsNext
  · obtain ⟨s, hread, hstored⟩ := StorageM.readBlock_of_failsNext hfails block
    exact ⟨[], s, tryCatch_error (zoom_error hread), hstored, fun _ => rfl, fun hnot => absurd hfails hnot⟩
  · obtain ⟨s, hread, hstored⟩ := StorageM.readBlock_of_not_failsNext hfails block
    have hblock : v.storage.stored block = (match v.storage.readResult (block * blockSize) blockSize with
      | .ok data => data
      | .error _ => []) := rfl
    cases hresult : v.storage.readResult (block * blockSize) blockSize with
    | ok data =>
        rw [hresult] at hread hblock
        exact ⟨data, s, tryCatch_ok (zoom_ok hread), hstored, fun hyes => absurd hyes hfails, fun _ => hblock.symm⟩
    | error e =>
        rw [hresult] at hread hblock
        exact ⟨[], s, tryCatch_error (zoom_error hread), hstored, fun _ => rfl, fun _ => hblock.symm⟩

/-- **Reading a block** gives what the storage holds exactly if all of its cached pages do. -/
theorem readsStored_iff (v : Volume) (block : ℕ) : v.ReadsStored block ↔
    ∀ inode page, v.pageCache.peek (inode, block) = some page → page.data = v.storage.stored block := by
  refine ⟨ReadsStored.peek, fun h => ⟨h, fun page hpeek => ?_, fun hfails inode index page v' hload => ?_⟩⟩
  · obtain ⟨e, hfind, rfl⟩ := Option.map_eq_some_iff.mp hpeek
    obtain ⟨hkey, hpage⟩ := of_find?_iter (p := fun key => key.2 == block) hfind
    have hblock : e.1 = (e.1.1, block) := Prod.ext rfl (eq_of_beq hkey)
    rw [hblock] at hpage
    exact h e.1.1 e.2 hpage
  · cases hpeek : v.pageCache.peek (inode, block) with
    | some _ =>
        cases hload.symm.trans (getOrLoad_of_cached hpeek index)
        exact h inode page hpeek
    | none =>
        cases hcopy : v.pageCache.otherCopy inode block with
        | some data =>
            cases hload.symm.trans (getOrLoad_of_load hpeek (loadData_of_copy hcopy) index)
            obtain ⟨other, old, hold, rfl⟩ := otherCopy_cached hcopy
            exact h other old hold
        | none =>
            obtain ⟨data, s, hdata, -, -, hstored⟩ := exists_loadData_stored hcopy
            cases hload.symm.trans (getOrLoad_of_load hpeek hdata index)
            exact hstored hfails

/-! ## Ending the transaction -/

/-- Every page is filed under its block. -/
def Filed (v : Volume) : Prop :=
  ∀ key page, v.pageCache.peek key = some page → page.block = key.2

/-- If the pages are filed under their blocks, the same ones are cached. -/
def SameFiled (v v' : Volume) : Prop :=
  v.Filed → PageCache.SamePages v.pageCache v'.pageCache

theorem Filed.of_samePages {v v' : Volume} (h : v.Filed) (hsame : PageCache.SamePages v.pageCache v'.pageCache) :
    v'.Filed := by
  intro key page hpeek
  obtain ⟨old, hold, hblock, -⟩ := hsame.of_peek hpeek
  rw [← hblock]
  exact h key old hold

instance : IsPreorder Volume SameFiled where
  refl _ _ _ := rfl
  trans _ _ _ h h' hfiled := (h hfiled).trans (h' (hfiled.of_samePages (h hfiled)))

theorem sameFiled_onStorage {α : Type} (x : StorageM α) : Within SameFiled (onStorage x) := by
  intro v _
  unfold onStorage
  rw [final_zoom]
  exact fun _ => rfl

theorem sameFiled_onLog (x : LogM Unit) : Within SameFiled (onLog x) := by
  intro v _
  unfold onLog
  split
  · exact fun _ => rfl
  · split
    · exact fun _ => rfl
    · exact fun _ => rfl

theorem sameFiled_getPage (inode : UInt32) (block : ℕ) : Within SameFiled (getPage inode block) := by
  intro v _
  exact PageCache.samePages_modify v.pageCache (inode, block) fun _ => ⟨rfl, rfl⟩

theorem sameFiled_orAbortPages {α : Type} (dirtyPages : List (UInt32 × ℕ)) {x : VolM α} (hx : Within SameFiled x) :
    Within SameFiled (orAbortPages dirtyPages x) := by
  refine hx.tryCatch fun e => Within.bind (R := SameFiled) (fun v hfiled => ?_) fun _ => Within.throw e
  exact samePages_abortPages dirtyPages hfiled

theorem sameFiled_journalPages (txid : ℕ) (keys : List (UInt32 × ℕ)) : Within SameFiled (journalPages txid keys) := by
  induction keys with
  | nil => exact Within.pure _
  | cons key rest ih =>
      unfold journalPages
      refine (sameFiled_getPage key.1 key.2).bind fun page => ?_
      cases page with
      | none => exact ih
      | some page => exact (sameFiled_onLog _).bind fun _ => ih

theorem sameFiled_writePages (keys : List (UInt32 × ℕ)) : Within SameFiled (writePages keys) := by
  induction keys with
  | nil => exact Within.pure _
  | cons key rest ih =>
      unfold writePages
      refine (sameFiled_getPage key.1 key.2).bind fun page => ?_
      cases page with
      | none => exact ih
      | some page => exact (sameFiled_onStorage _).bind fun _ => ih.bind fun _ => Within.pure _

theorem sameFiled_writeBack (active : ActiveTxn) : Within SameFiled (writeBack active) := by
  refine (sameFiled_orAbortPages _ (sameFiled_onStorage _)).bind fun _ => ?_
  refine Within.bind Within.get fun v => ?_
  have hlast : Within SameFiled (do
      let written ← orAbortPages active.dirtyPages (writePages active.dirtyPages)
      orAbortPages active.dirtyPages (onStorage StorageM.flushMetadata)
      return written) :=
    (sameFiled_orAbortPages _ (sameFiled_writePages _)).bind fun _ =>
      (sameFiled_orAbortPages _ (sameFiled_onStorage _)).bind fun _ => Within.pure _
  refine Within.ite ?_ ?_
  · refine Within.bind (sameFiled_orAbortPages _ ?_) fun _ => hlast
    exact (sameFiled_journalPages _ _).bind fun _ => sameFiled_onLog _
  · exact hlast

/-- **A commit that fails** leaves the data of all pages in the cache. -/
theorem samePages_of_commitPages_error {v v' : Volume} {e : StorageError} (hfiled : v.Filed)
    (h : commitPages v = .error e v') : PageCache.SamePages v.pageCache v'.pageCache := by
  unfold commitPages at h
  rw [bind_ok (get_apply v)] at h
  cases hactive : v.txMgr.active with
  | none =>
      rw [hactive] at h
      cases h
      exact fun _ => rfl
  | some active =>
      rw [hactive] at h
      have hwrite := sameFiled_writeBack active { v with txMgr := { v.txMgr with active := none } } hfiled
      have hclose : modifyTxMgr (fun txMgr => { txMgr with active := none }) v =
          .ok () { v with txMgr := { v.txMgr with active := none } } := rfl
      simp only at h
      rw [bind_ok hclose] at h
      cases hrun : writeBack active { v with txMgr := { v.txMgr with active := none } } with
      | ok written w =>
          rw [bind_ok hrun] at h
          cases h
      | error e' w =>
          rw [bind_error hrun] at h
          cases h
          rw [hrun, final_error] at hwrite
          exact hwrite

theorem samePages_of_abort {v v' : Volume} (hfiled : v.Filed) (h : abortTransaction v = .ok () v') :
    v'.storage = v.storage ∧ PageCache.SamePages v.pageCache v'.pageCache := by
  unfold abortTransaction at h
  rw [modify_apply] at h
  cases hactive : v.txMgr.active with
  | none =>
      simp only [hactive] at h
      cases h
      exact ⟨rfl, fun _ => rfl⟩
  | some active =>
      simp only [hactive] at h
      cases h
      exact ⟨rfl, samePages_abortPages _ hfiled⟩

/-- After an abort, and after a commit that fails and leaves the block on the storage as it was,
the block is read as the storage holds it. -/
structure Discards (v : Volume) (block : ℕ) : Prop where
  abort : ∀ v', abortTransaction v = .ok () v' → v'.ReadsStored block
  commit : ∀ e v', commitPages v = .error e v' → v'.storage.stored block = v.storage.stored block →
    v'.ReadsStored block

/-- **The end of a transaction** discards what was done to a block exactly if nothing is there to
discard. -/
theorem discards_iff {v : Volume} (hfiled : v.Filed) (block : ℕ) : v.Discards block ↔
    ∀ inode page, v.pageCache.peek (inode, block) = some page → page.data = v.storage.stored block := by
  constructor
  · intro h
    have habort : abortTransaction v = .ok () (final (abortTransaction v)) := rfl
    obtain ⟨hstorage, hsame⟩ := samePages_of_abort hfiled habort
    intro inode page hpeek
    obtain ⟨page', hpeek', -, hdata⟩ := hsame.symm.of_peek hpeek
    rw [← hdata, ← hstorage]
    exact (h.abort _ habort).peek inode page' hpeek'
  · intro h
    have hread : ∀ v' : Volume, PageCache.SamePages v.pageCache v'.pageCache →
        v'.storage.stored block = v.storage.stored block → v'.ReadsStored block := by
      intro v' hsame hstored
      refine (v'.readsStored_iff block).mpr fun inode page' hpeek' => ?_
      obtain ⟨page, hpeek, -, hdata⟩ := hsame.of_peek hpeek'
      rw [← hdata, hstored]
      exact h inode page hpeek
    refine ⟨fun v' habort => ?_, fun e v' hcommit => ?_⟩
    · obtain ⟨hstorage, hsame⟩ := samePages_of_abort hfiled habort
      exact hread v' hsame (by rw [hstorage])
    · exact hread v' (samePages_of_commitPages_error hfiled hcommit)

end Volume

/-! ## Calls of a transaction -/

/-- `get_mut_for_write` by a caller that changes the data of the page by `f`. -/
def changeData (inode : UInt32) (block : ℕ) (f : List UInt8 → List UInt8) (cache : PageCache) :
    Except StorageError PageCache :=
  cache.updateForWrite inode block fun page => { page with data := f page.data }

/-- A call that a transaction makes before its end.  -/
inductive TxnCall
  | getOrLoad (inode : UInt32) (block index : ℕ)
  | getMutForWrite (inode : UInt32) (block : ℕ) (f : List UInt8 → List UInt8)
  | unpinPage (inode : UInt32) (block : ℕ)
  | markDirty (inode : UInt32) (block : ℕ)

namespace TxnCall

def perform : TxnCall → VolM Unit
  | getOrLoad inode block index => do
      let _ ← Volume.getOrLoad inode block index
  | getMutForWrite inode block f => Volume.tryCache (changeData inode block f)
  | unpinPage inode block => Volume.modifyCache fun cache => cache.unpinPage inode block
  | markDirty inode block => Volume.markPageDirty inode block

/-- The block that the call touches. -/
def block : TxnCall → ℕ
  | getOrLoad _ block _ => block
  | getMutForWrite _ block _ => block
  | unpinPage _ block => block
  | markDirty _ block => block

/-- The volume after a call, whether it returned or failed. -/
def next (call : TxnCall) (v : Volume) : Volume :=
  final (call.perform v)

/-- The volume after a sequence of calls. -/
def run (calls : List TxnCall) (v : Volume) : Volume :=
  calls.foldl (fun v call => call.next v) v

/-- A change leaves the data as it is, and no load takes the place of a read that fails. -/
def Harmless : TxnCall → Volume → Prop
  | getOrLoad inode block _, v =>
      v.pageCache.peek (inode, block) = none → v.pageCache.otherCopy inode block = none →
        v.storage.FailsNext → v.storage.stored block = []
  | getMutForWrite inode block f, v =>
      ∀ page, v.pageCache.peek (inode, block) = some page → f page.data = page.data
  | _, _ => True

/-- `P` holds of every call of a sequence and the volume before it. -/
def Throughout (P : TxnCall → Volume → Prop) : Volume → List TxnCall → Prop
  | _, [] => True
  | v, call :: rest => P call v ∧ Throughout P (call.next v) rest

variable {v : Volume}

theorem next_getOrLoad (v : Volume) (inode : UInt32) (block index : ℕ) :
    (getOrLoad inode block index).next v = final (Volume.getOrLoad inode block index v) := by
  change final ((Volume.getOrLoad inode block index >>= fun _ => pure ()) v) = _
  cases hload : Volume.getOrLoad inode block index v with
  | ok page v' => rw [bind_ok hload, pure_apply, final_ok, final_ok]
  | error e v' => rw [bind_error hload, final_error, final_error]

/-- What the calls of each kind do to the cache. -/
theorem next_cases (h : v.Mirrors) (call : TxnCall) :
    (call.next v).storage.stored = v.storage.stored ∧
      (PageCache.SamePages v.pageCache (call.next v).pageCache ∧ call.Harmless v ∨
        ∃ inode data, PageCache.Replaces v.pageCache (inode, call.block) data (call.next v).pageCache ∧
          (call.Harmless v ↔ data = v.storage.stored call.block)) := by
  cases call with
  | getOrLoad inode block index =>
      rw [next_getOrLoad]
      cases hpeek : v.pageCache.peek (inode, block) with
      | some page =>
          rw [Volume.getOrLoad_of_cached hpeek index, final_ok]
          refine ⟨rfl, Or.inl ⟨PageCache.samePages_modify _ _ fun _ => ⟨rfl, rfl⟩, fun hnone => ?_⟩⟩
          rw [hpeek] at hnone
          cases hnone
      | none =>
          have hnew := Lru.peek_eq_none_iff.mp hpeek
          cases hcopy : v.pageCache.otherCopy inode block with
          | some data =>
              rw [Volume.getOrLoad_of_load hpeek (Volume.loadData_of_copy hcopy) index, final_ok]
              have hput : PageCache.Replaces v.pageCache (inode, block) data (Lru.put v.pageCache (inode, block)
                { block, data, inode := some inode, index }) :=
                PageCache.Replaces.put hnew
                  (show ({ block, data, inode := some inode, index } : CachedPage).block = block from rfl)
              refine ⟨rfl, Or.inr ⟨inode, data, hput, ?_⟩⟩
              obtain ⟨other, page, hpage, rfl⟩ := Volume.otherCopy_cached hcopy
              refine iff_of_true (fun _ hnone => ?_) (h _ page hpage).2
              rw [hcopy] at hnone
              cases hnone
          | none =>
              obtain ⟨data, s, hload, hstored, hfailed, hread⟩ := Volume.exists_loadData_stored hcopy
              rw [Volume.getOrLoad_of_load hpeek hload index, final_ok]
              have hput : PageCache.Replaces v.pageCache (inode, block) data (Lru.put v.pageCache (inode, block)
                { block, data, inode := some inode, index }) :=
                PageCache.Replaces.put hnew
                  (show ({ block, data, inode := some inode, index } : CachedPage).block = block from rfl)
              refine ⟨hstored, Or.inr ⟨inode, data, hput, fun hharmless => ?_, ?_⟩⟩
              · by_cases hfails : v.storage.FailsNext
                · rw [hfailed hfails]
                  exact (hharmless hpeek hcopy hfails).symm
                · exact hread hfails
              · rintro hdata - - hfails
                exact hdata.symm.trans (hfailed hfails)
  | getMutForWrite inode block f =>
      cases hpeek : v.pageCache.peek (inode, block) with
      | none =>
          have hrefused : changeData inode block f v.pageCache = .error .pageNotFound := by
            unfold changeData PageCache.updateForWrite
            rw [hpeek]
          have hnext : (getMutForWrite inode block f).next v = v := congrArg final (Volume.tryCache_error hrefused)
          rw [hnext]
          refine ⟨rfl, Or.inl ⟨fun _ => rfl, fun page hpage => ?_⟩⟩
          cases hpeek.symm.trans hpage
      | some page =>
          have hchanged : changeData inode block f v.pageCache =
              .ok (v.pageCache.modify (inode, block) fun page => { page.pin with data := f page.data }) := by
            unfold changeData PageCache.updateForWrite
            rw [hpeek]
            rfl
          have hreplaces : PageCache.Replaces v.pageCache (inode, block) (f page.data)
              (v.pageCache.modify (inode, block) fun page => { page.pin with data := f page.data }) :=
            PageCache.Replaces.modify (f := fun page => { page.pin with data := f page.data }) hpeek rfl
          have hnext := congrArg final (Volume.tryCache_ok hchanged)
          change (getMutForWrite inode block f).next v = _ at hnext
          rw [hnext, final_ok]
          refine ⟨rfl, Or.inr ⟨inode, f page.data, hreplaces, fun hharmless => ?_, ?_⟩⟩
          · exact (hharmless page hpeek).trans (h _ page hpeek).2
          · intro hdata page' hpage'
            rw [Option.some.inj (hpage'.symm.trans hpeek)]
            exact hdata.trans (h _ page hpeek).2.symm
  | unpinPage inode block =>
      exact ⟨rfl, Or.inl ⟨PageCache.samePages_modify _ _ fun _ => ⟨rfl, rfl⟩, trivial⟩⟩
  | markDirty inode block =>
      cases hactive : v.txMgr.active with
      | none =>
          have hrefused : Volume.markPageDirty inode block v = .error (.other "no active transaction") v := by
            unfold Volume.markPageDirty
            rw [bind_ok (get_apply v), hactive]
            rfl
          have hnext : (markDirty inode block).next v = v := congrArg final hrefused
          rw [hnext]
          exact ⟨rfl, Or.inl ⟨fun _ => rfl, trivial⟩⟩
      | some active =>
          obtain ⟨cache, hrun, -, hsame, -⟩ := Volume.markPageDirty_apply hactive inode block
          have hnext := congrArg final hrun
          change (markDirty inode block).next v = _ at hnext
          rw [hnext, final_ok]
          exact ⟨rfl, Or.inl ⟨hsame, trivial⟩⟩

theorem filed_next (h : v.Mirrors) (call : TxnCall) : (call.next v).Filed := by
  have hfiled : v.Filed := fun key page hpeek => (h key page hpeek).1
  obtain ⟨-, ⟨hsame, -⟩ | ⟨inode, data, hreplaces, -⟩⟩ := next_cases h call
  · exact hfiled.of_samePages hsame
  · intro key page hpeek
    by_cases hkey : key = (inode, call.block)
    · obtain ⟨page', hpeek', -, hblock⟩ := hreplaces.page
      rw [hkey] at hpeek ⊢
      rw [Option.some.inj (hpeek.symm.trans hpeek')]
      exact hblock fun old hold => hfiled _ old hold
    · rcases hreplaces.others key hkey with hsame | hnone
      · exact hfiled key page (hsame.symm.trans hpeek)
      · cases hnone.symm.trans hpeek

/-- **A harmless call** keeps the pages equal to the storage. -/
theorem Harmless.mirrors_next {call : TxnCall} (hcall : call.Harmless v) (h : v.Mirrors) : (call.next v).Mirrors := by
  have hfiled := filed_next h call
  obtain ⟨hstored, ⟨hsame, -⟩ | ⟨inode, data, hreplaces, hiff⟩⟩ := next_cases h call
  · intro key page hpeek
    obtain ⟨old, hold, hblock, hdata⟩ := hsame.of_peek hpeek
    rw [← hblock, ← hdata, hstored]
    exact h key old hold
  · intro key page hpeek
    refine ⟨hfiled key page hpeek, ?_⟩
    rw [hstored]
    by_cases hkey : key = (inode, call.block)
    · obtain ⟨page', hpeek', hdata, -⟩ := hreplaces.page
      rw [hkey] at hpeek ⊢
      rw [Option.some.inj (hpeek.symm.trans hpeek'), hdata]
      exact hiff.mp hcall
    · rcases hreplaces.others key hkey with hsame | hnone
      · exact (h key page (hsame.symm.trans hpeek)).2
      · cases hnone.symm.trans hpeek

/-- **A call that is not harmless** leaves a page of its block that differs from the storage. -/
theorem harmless_of_discards (h : v.Mirrors) {call : TxnCall} (hdiscards : (call.next v).Discards call.block) :
    call.Harmless v := by
  have hpages := (Volume.discards_iff (filed_next h call) call.block).mp hdiscards
  obtain ⟨hstored, ⟨-, hharmless⟩ | ⟨inode, data, hreplaces, hiff⟩⟩ := next_cases h call
  · exact hharmless
  · obtain ⟨page, hpeek, hdata, -⟩ := hreplaces.page
    refine hiff.mpr ?_
    rw [← hdata, hpages inode page hpeek, hstored]

theorem mirrors_run {calls : List TxnCall} (hall : Throughout Harmless v calls) (h : v.Mirrors)
    {done : List TxnCall} (hbefore : done <+: calls) : (run done v).Mirrors := by
  induction calls generalizing v done with
  | nil =>
      rw [List.prefix_nil.mp hbefore]
      exact h
  | cons call rest ih =>
      rcases List.prefix_cons_iff.mp hbefore with rfl | ⟨first, rfl, hfirst⟩
      · exact h
      · exact ih hall.2 (hall.1.mirrors_next h) hfirst

theorem throughout_of_discards {calls : List TxnCall} (h : v.Mirrors)
    (hall : ∀ done, done <+: calls → ∀ call ∈ done, (run done v).Discards call.block) :
    Throughout Harmless v calls := by
  induction calls generalizing v with
  | nil => exact trivial
  | cons call rest ih =>
      have hfirst : [call] <+: call :: rest := List.prefix_append [call] rest
      have hcall := harmless_of_discards h (hall [call] hfirst call (List.mem_singleton_self call))
      refine ⟨hcall, ih (hcall.mirrors_next h) fun done hbefore other hmem => ?_⟩
      exact hall (call :: done) ((List.prefix_cons_inj call).mpr hbefore) other (List.mem_cons_of_mem _ hmem)

/-- **An abort discards a transaction**, whenever it comes, exactly if every call is harmless. -/
theorem discards_iff_harmless (h : v.Mirrors) (calls : List TxnCall) :
    (∀ done, done <+: calls → ∀ call ∈ done, (run done v).Discards call.block) ↔ Throughout Harmless v calls := by
  refine ⟨throughout_of_discards h, fun hall done hbefore call _ => ?_⟩
  have hmirrors := mirrors_run hall h hbefore
  exact (Volume.discards_iff (fun key page hpeek => (hmirrors key page hpeek).1) call.block).mpr
    fun inode page hpeek => (hmirrors _ page hpeek).2

theorem mirrors_start (capacity : ℕ) (storage : Storage) : (Volume.start capacity storage).begun.Mirrors := by
  intro key page hpeek
  cases hpeek

/-- A page that is loaded and marked. -/
theorem discards_marked :
    Throughout Harmless (Volume.start 256 (.newMemory 2)).begun [getOrLoad 1 0 0, markDirty 1 0] ∧
      (run [getOrLoad 1 0 0, markDirty 1 0] (Volume.start 256 (.newMemory 2)).begun).Discards 0 := by
  have hharmless : Throughout Harmless (Volume.start 256 (.newMemory 2)).begun [getOrLoad 1 0 0, markDirty 1 0] := by
    refine ⟨?_, trivial, trivial⟩
    rintro - - hfails
    cases hfails
  refine ⟨hharmless, ?_⟩
  exact (discards_iff_harmless (mirrors_start _ _) _).mpr hharmless _ (List.prefix_refl _) (markDirty 1 0) (by simp)

/-- **The change of a page stays** after an abort, although the page was marked. -/
theorem abort_keeps_change :
    ¬ (run [getOrLoad 1 0 0, getMutForWrite 1 0 fun data => data.set 0 1, markDirty 1 0]
      (Volume.start 256 (.newMemory 2)).begun).Discards 0 := by
  intro hdiscards
  have hread := (hdiscards.abort _ rfl).peek 1 _ rfl
  have hfirst := congrArg List.head? hread
  revert hfirst
  decide +kernel

end TxnCall

end JfsFuse
