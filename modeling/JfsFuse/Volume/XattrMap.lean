import JfsFuse.Lib.OrderedMap
import JfsFuse.Volume.InodeAt
import JfsFuse.Volume.OneFile
import JfsFuse.Volume.XattrBytes

/-!
# The attributes of an inode as a map

From an inode that has none, the attributes are a map from names to values that remembers the
order of its names.  `setxattr` inserts, `removexattr` erases, and the two reading calls look the
map up (`xattrs_refine`).  An inode number may be cached with an older copy of the block for
another inode of the same block, and an update then starts from this copy; the whole list is
stored anew every time, so that the older list is never seen.
-/

namespace JfsFuse

open ByteBuf Program

namespace Utf8

theorem toList_loop (bytes : ByteArray) (i : ℕ) (acc : List UInt8) :
    ByteArray.toList.loop bytes i acc = acc.reverse ++ bytes.data.toList.drop i := by
  fun_induction ByteArray.toList.loop bytes i acc with
  | case1 i acc hlt ih =>
      have hsize : i < bytes.data.size := hlt
      have hi : i < bytes.data.toList.length := by rwa [Array.length_toList]
      have hget : bytes.get! i = bytes.data.toList[i] := (getElem!_pos bytes.data i hsize).trans (Array.getElem_toList hsize).symm
      rw [ih, hget, List.reverse_cons, List.append_assoc, List.drop_eq_getElem_cons hi]
      rfl
  | case2 i acc hge =>
      rw [List.drop_eq_nil_of_le (by simpa using hge), List.append_nil]

theorem toList_eq (bytes : ByteArray) : bytes.toList = bytes.data.toList :=
  toList_loop bytes 0 []

/-- Names with the same bytes are the same. -/
theorem toUTF8_inj {s t : String} : s.toUTF8.toList = t.toUTF8.toList ↔ s = t := by
  rw [toList_eq, toList_eq, Array.toList_inj, ← ByteArray.ext_iff]
  exact String.toByteArray_inj

theorem length_toUTF8 (s : String) : s.toUTF8.toList.length = s.utf8ByteSize := by
  rw [toList_eq]
  rfl

/-- A name is read back from its bytes. -/
theorem fromUtf8Lossy_toUTF8 (s : String) : fromUtf8Lossy s.toUTF8.toList = s := by
  have hvalid : (⟨s.toUTF8.data.toList.toArray⟩ : ByteArray).IsValidUTF8 := s.isValidUTF8
  rw [toList_eq]
  unfold fromUtf8Lossy String.fromUTF8?
  rw [dif_pos hvalid]
  rfl

end Utf8

/-! ## The map -/

/-- Names and values, oldest name first. -/
abbrev XattrMap := OrderedMap String (List UInt8)

namespace XattrMap

/-- The size of the list: two lengths, the name and the value for every attribute. -/
def encodedSize (m : XattrMap) : ℕ :=
  (m.order.map fun name => 4 + name.utf8ByteSize + ((m.value name).getD []).length).sum

/-- Setting the attribute is refused: `XATTR_CREATE` is bit 0 and `XATTR_REPLACE` bit 1 of the
flags. -/
def Refuses (m : XattrMap) (name : String) (value : List UInt8) (flags : ℕ) : Prop :=
  255 < name.utf8ByteSize ∨ ixattrSize < value.length ∨ flags % 2 = 1 ∧ name ∈ m.order ∨
    flags / 2 % 2 = 1 ∧ name ∉ m.order ∨ ixattrSize < encodedSize (m.insert name value)

instance (m : XattrMap) (name : String) (value : List UInt8) (flags : ℕ) : Decidable (m.Refuses name value flags) :=
  inferInstanceAs (Decidable (_ ∨ _))

end XattrMap

/-- A call that changes the attributes of an inode. -/
inductive XattrCall
  | set (name : String) (value : List UInt8) (flags : ℕ)
  | remove (name : String)

namespace XattrCall

open Volume

/-- The map after the call. -/
def next (m : XattrMap) : XattrCall → XattrMap
  | set name value flags => if m.Refuses name value flags then m else m.insert name value
  | remove name => m.erase name

/-- The volume after the call. -/
def after (ino : UInt32) (v : Volume) : XattrCall → Volume
  | set name value flags => final (setxattr ino name value flags v)
  | remove name => final (removexattr ino name v)

/-- The call returns an error. -/
def fails (ino : UInt32) (v : Volume) : XattrCall → Bool
  | set name value flags => failed (setxattr ino name value flags v)
  | remove name => failed (removexattr ino name v)

section Set

variable {ino : UInt32} {v w : Volume} {m : XattrMap} {name : String} {value : List UInt8} {flags : ℕ}

theorem next_set_refused (h : m.Refuses name value flags) : (set name value flags).next m = m :=
  if_pos h

theorem next_set (h : ¬ m.Refuses name value flags) : (set name value flags).next m = m.insert name value :=
  if_neg h

theorem after_set_error {e : StorageError} (h : setxattr ino name value flags v = .error e w) :
    (set name value flags).after ino v = w ∧ (set name value flags).fails ino v = true :=
  ⟨congrArg final h, congrArg failed h⟩

theorem after_set_ok (h : setxattr ino name value flags v = .ok () w) :
    (set name value flags).after ino v = w ∧ (set name value flags).fails ino v = false :=
  ⟨congrArg final h, congrArg failed h⟩

theorem after_remove_ok {found : Bool} (h : removexattr ino name v = .ok found w) :
    (remove name).after ino v = w :=
  congrArg final h

end Set

/-- If the body comes to a commit, the commit goes through. -/
def CommitsWith {α : Type} (body : VolM (Exit α α)) (v : Volume) : Prop :=
  ∀ a w, body v.begun = .ok (.commit a) w → ∃ result w', commitTransaction w = .ok result w'

/-- The commit of the call, if there is one, goes through. -/
def Commits (ino : UInt32) (v : Volume) : XattrCall → Prop
  | set name value flags => CommitsWith (setxattrBody ino name.toUTF8.toList value flags) v
  | remove name => CommitsWith (removexattrBody ino name.toUTF8.toList) v

/-- So do those of all calls of a run. -/
def CommitsAll (ino : UInt32) : Volume → List XattrCall → Prop
  | _, [] => True
  | v, call :: calls => call.Commits ino v ∧ CommitsAll ino (call.after ino v) calls

theorem CommitsAll.of_append {ino : UInt32} {v : Volume} {calls calls' : List XattrCall}
    (h : CommitsAll ino v (calls ++ calls')) : CommitsAll ino (calls.foldl (after ino) v) calls' := by
  induction calls generalizing v with
  | nil => exact h
  | cons call calls ih => exact ih h.2

end XattrCall

/-! ## One call -/

namespace Volume

open Dinode XattrCall

/-- An entry as it is stored. -/
def rawXattr (e : String × List UInt8) : Xattr :=
  (e.1.toUTF8.toList, e.2)

theorem rawXattr_fst_eq {e : String × List UInt8} {name : String} :
    (rawXattr e).1 = name.toUTF8.toList ↔ e.1 = name :=
  Utf8.toUTF8_inj

section Entries

variable (l : List (String × List UInt8)) (name : String)

theorem any_rawXattr :
    (l.map rawXattr).any (fun attr => attr.1 = name.toUTF8.toList) = l.any fun e => e.1 = name := by
  rw [List.any_map]
  exact congrArg _ (funext fun e => decide_eq_decide.mpr rawXattr_fst_eq)

theorem find?_rawXattr : ((l.map rawXattr).find? fun attr => attr.1 = name.toUTF8.toList).map Prod.snd =
    (l.find? fun e => e.1 = name).map Prod.snd := by
  have hkey : ((fun attr : Xattr => decide (attr.1 = name.toUTF8.toList)) ∘ rawXattr) = fun e => decide (e.1 = name) :=
    funext fun e => decide_eq_decide.mpr rawXattr_fst_eq
  rw [List.find?_map, hkey, Option.map_map]
  rfl

theorem filter_rawXattr : (l.map rawXattr).filter (fun attr => attr.1 ≠ name.toUTF8.toList) =
    (l.filter fun e => e.1 ≠ name).map rawXattr := by
  have hkey : ((fun attr : Xattr => decide (attr.1 ≠ name.toUTF8.toList)) ∘ rawXattr) = fun e => decide (e.1 ≠ name) :=
    funext fun e => decide_eq_decide.mpr rawXattr_fst_eq.not
  rw [List.filter_map, hkey]

theorem replace_rawXattr (value : List UInt8) :
    ((l.map rawXattr).map fun attr => if attr.1 = name.toUTF8.toList then (attr.1, value) else attr) =
      (l.map fun e => if e.1 = name then (e.1, value) else e).map rawXattr := by
  rw [List.map_map, List.map_map]
  refine List.map_congr_left fun e _ => ?_
  by_cases hsame : e.1 = name
  · rw [Function.comp_apply, Function.comp_apply, if_pos (rawXattr_fst_eq.mpr hsame), if_pos hsame]
    rfl
  · rw [Function.comp_apply, Function.comp_apply, if_neg (rawXattr_fst_eq.not.mpr hsame), if_neg hsame]

end Entries

/-- What `setxattr` does to the entries. -/
def setEntries (l : List (String × List UInt8)) (name : String) (value : List UInt8) : List (String × List UInt8) :=
  if l.any fun e => e.1 = name then l.map fun e => if e.1 = name then (e.1, value) else e else l ++ [(name, value)]

theorem setEntries_raw (l : List (String × List UInt8)) (name : String) (value : List UInt8) :
    (if (l.map rawXattr).any fun attr => attr.1 = name.toUTF8.toList then
      (l.map rawXattr).map fun attr => if attr.1 = name.toUTF8.toList then (attr.1, value) else attr
      else ((l.map rawXattr).map fun attr => if attr.1 = name.toUTF8.toList then (attr.1, value) else attr) ++
        [(name.toUTF8.toList, value)]) = (setEntries l name value).map rawXattr := by
  rw [any_rawXattr, replace_rawXattr]
  unfold setEntries
  cases hfound : l.any fun e => e.1 = name with
  | true => rfl
  | false =>
      -- nothing is replaced
      have hsame : l.map (fun e => if e.1 = name then (e.1, value) else e) = l := by
        refine (List.map_congr_left fun e he => if_neg ?_).trans l.map_id
        simpa using List.any_eq_false.mp hfound e he
      rw [if_neg (by simp), if_neg (by simp), hsame, List.map_append]
      rfl

theorem represents_setEntries {l : List (String × List UInt8)} {m : XattrMap} (h : OrderedMap.Represents l m)
    (name : String) (value : List UInt8) : OrderedMap.Represents (setEntries l name value) (m.insert name value) := by
  unfold setEntries
  rw [h.any_eq]
  by_cases hmem : name ∈ m.order
  · rw [if_pos (decide_eq_true hmem)]
    exact h.replace hmem value
  · rw [if_neg (by simpa using hmem)]
    exact h.append hmem value

/-- The entries fit their fields. -/
def FitEntries (l : List (String × List UInt8)) : Prop :=
  ∀ e ∈ l, (rawXattr e).Sized

theorem fitEntries_setEntries {l : List (String × List UInt8)} (h : FitEntries l) {name : String} {value : List UInt8}
    (hname : name.utf8ByteSize ≤ 255) (hvalue : value.length ≤ ixattrSize) : FitEntries (setEntries l name value) := by
  have hshort : value.length < 65536 := lt_of_le_of_lt hvalue (by decide)
  intro e he
  unfold setEntries at he
  split at he
  · obtain ⟨old, hold, rfl⟩ := List.mem_map.mp he
    split
    · exact ⟨(h old hold).1, hshort⟩
    · exact h old hold
  · rcases List.mem_append.mp he with hold | hnew
    · exact h e hold
    · rw [List.mem_singleton.mp hnew]
      exact ⟨(Utf8.length_toUTF8 name).trans_le hname, hshort⟩

theorem FitEntries.sized {l : List (String × List UInt8)} (h : FitEntries l) :
    ∀ attr ∈ l.map rawXattr, attr.Sized := by
  intro attr hattr
  obtain ⟨e, he, rfl⟩ := List.mem_map.mp hattr
  exact h e he

/-- The size of the stored list is the one of the map. -/
theorem length_listBytes_of_represents {l : List (String × List UInt8)} (hfit : FitEntries l) {m : XattrMap}
    (h : OrderedMap.Represents l m) : (Xattr.listBytes (l.map rawXattr)).length = m.encodedSize := by
  unfold XattrMap.encodedSize
  rw [Xattr.length_listBytes hfit.sized, List.map_map,
    h.map_order (fun name value => 4 + name.utf8ByteSize + value.length) []]
  refine congrArg List.sum (List.map_congr_left fun e _ => ?_)
  show 4 + (rawXattr e).1.length + e.2.length = _
  rw [show (rawXattr e).1.length = e.1.utf8ByteSize from Utf8.length_toUTF8 e.1]

/-- The inode holds the entries. -/
def HoldsXattrs (lo hi : ℕ) (v : Volume) (ino : UInt32) (b j : ℕ) (l : List (String × List UInt8)) : Prop :=
  ∃ d, InodeAt lo hi v ino b j d ∧ xattrsOf d = l.map rawXattr

section Calls

variable {lo hi : ℕ} {v : Volume} {ino : UInt32} {b j : ℕ} {l : List (String × List UInt8)} {m : XattrMap}

/-- **The inode is updated and its page is marked** in an open transaction. -/
theorem InodeAt.updateAndMark {d : List UInt8} (h : InodeAt lo hi v ino b j d) (hactive : v.txMgr.active ≠ none)
    (hdirty : v.DirtyOnly ino b) {f : List UInt8 → List UInt8} (hf : IsEdit f) {α : Type} (a : α) :
    ∃ w d', (do
      updateInodePage ino b (j * disize) f
      markPageDirty ino b
      return .commit a : VolM (Exit α α)) v = .ok (.commit a) w ∧ d'.length = disize ∧
        InodeAt lo hi w ino b j (f d') ∧ PagesOnly v w ∧ w.DirtyOnly ino b ∧ w.txMgr.active ≠ none := by
  obtain ⟨v₁, d', hupdate, hlen, -, h₁, hpages₁, htx⟩ := h.update hf
  have hdirty₁ : v₁.DirtyOnly ino b := by
    unfold DirtyOnly
    rw [htx]
    exact hdirty
  obtain ⟨v₂, hmark, h₂, hpages₂, hdirty₂⟩ := h₁.mark (by rwa [htx]) hdirty₁
  refine ⟨v₂, d', ?_, hlen, h₂, ?_, hdirty₂⟩
  · rw [bind_ok hupdate, bind_ok hmark, pure_apply]
  · unfold PagesOnly at hpages₁ hpages₂ ⊢
    rw [hpages₂, hpages₁]

/-- The body ends in a commit, with the entries stored. -/
def StoresXattrs (lo hi : ℕ) (v : Volume) (ino : UInt32) (b j : ℕ) (l : List (String × List UInt8)) {α : Type} (a : α)
    (body : VolM (Exit α α)) : Prop :=
  ∃ w, body v = .ok (.commit a) w ∧ HoldsXattrs lo hi w ino b j l ∧ PagesOnly v w ∧ w.DirtyOnly ino b ∧
    w.txMgr.active ≠ none

variable (h : HoldsXattrs lo hi v ino b j l)

include h

theorem HoldsXattrs.begun : HoldsXattrs lo hi v.begun ino b j l := by
  obtain ⟨d, hinode, hattrs⟩ := h
  exact ⟨d, hinode.begun, hattrs⟩

/-- **A list that fits is stored.** -/
theorem HoldsXattrs.stores (hactive : v.txMgr.active ≠ none) (hdirty : v.DirtyOnly ino b)
    {l' : List (String × List UInt8)} (hfit : FitEntries l')
    (hsize : (Xattr.listBytes (l'.map rawXattr)).length ≤ ixattrSize) (newMode : ℕ → ℕ) {α : Type} (a : α) :
    StoresXattrs lo hi v ino b j l' a (do
      updateInodePage ino b (j * disize) (storeXattrs (Xattr.listBytes (l'.map rawXattr)) dxdInline newMode)
      markPageDirty ino b
      return .commit a : VolM (Exit α α)) := by
  obtain ⟨d, hinode, -⟩ := h
  obtain ⟨w, d', hrun, hlen, hinode', hrest⟩ :=
    hinode.updateAndMark hactive hdirty (isEdit_storeXattrs hsize dxdInline newMode) a
  exact ⟨w, hrun, ⟨_, hinode', xattrsOf_storeXattrs hlen newMode hfit.sized hsize⟩, hrest⟩

/-- **No list is stored** without the flag. -/
theorem HoldsXattrs.clears (hactive : v.txMgr.active ≠ none) (hdirty : v.DirtyOnly ino b) (newMode : ℕ → ℕ)
    {α : Type} (a : α) :
    StoresXattrs lo hi v ino b j [] a (do
      updateInodePage ino b (j * disize) (storeXattrs [] 0 newMode)
      markPageDirty ino b
      return .commit a : VolM (Exit α α)) := by
  obtain ⟨d, hinode, -⟩ := h
  have hempty : ([] : List UInt8).length ≤ ixattrSize := Nat.zero_le _
  obtain ⟨w, d', hrun, hlen, hinode', hrest⟩ :=
    hinode.updateAndMark hactive hdirty (isEdit_storeXattrs hempty 0 newMode) a
  exact ⟨w, hrun, ⟨_, hinode', xattrsOf_storeXattrs_nil hlen newMode⟩, hrest⟩

/-- **`setxattr`**, up to its end: it is refused or stores the new entries. -/
theorem HoldsXattrs.setxattrBody (hactive : v.txMgr.active ≠ none) (hdirty : v.DirtyOnly ino b) (hfit : FitEntries l)
    (hmap : OrderedMap.Represents l m) (name : String) (value : List UInt8) (flags : ℕ) :
    (m.Refuses name value flags →
      ∃ e, Volume.setxattrBody ino name.toUTF8.toList value flags v = .ok (.abort (.error e)) v) ∧
    (¬ m.Refuses name value flags → FitEntries (setEntries l name value) ∧
      StoresXattrs lo hi v ino b j (setEntries l name value) ()
        (Volume.setxattrBody ino name.toUTF8.toList value flags)) := by
  have hread := h
  obtain ⟨d, hinode, hattrs⟩ := hread
  have hfound : (l.any fun e => e.1 = name) = decide (name ∈ m.order) := hmap.any_eq name
  have hbody : Volume.setxattrBody ino name.toUTF8.toList value flags v =
      (if 255 < name.utf8ByteSize then pure (.abort (.error .xattrNameTooLong))
      else if ixattrSize < value.length then pure (.abort (.error .xattrValueTooLarge))
      else if flags % 2 = 1 && decide (name ∈ m.order) then pure (.abort (.error .xattrAlreadyExists))
      else if flags / 2 % 2 = 1 && !decide (name ∈ m.order) then pure (.abort (.error .xattrNotFound))
      else if ixattrSize < (Xattr.listBytes ((setEntries l name value).map rawXattr)).length then
        pure (.abort (.error .xattrDataTooLarge))
      else do
        updateInodePage ino b (j * disize)
          (storeXattrs (Xattr.listBytes ((setEntries l name value).map rawXattr)) dxdInline addInlineEa)
        markPageDirty ino b
        return .commit () : VolM (Exit Unit Unit)) v := by
    unfold Volume.setxattrBody
    rw [bind_ok hinode.readInode, ← setEntries_raw]
    simp only [xattrs_eq, hattrs, any_rawXattr, hfound, Utf8.length_toUTF8]
    rfl
  have hmap' := represents_setEntries hmap name value
  unfold XattrMap.Refuses StoresXattrs
  rw [hbody]
  by_cases hname : 255 < name.utf8ByteSize
  · rw [if_pos hname]
    exact ⟨fun _ => ⟨_, rfl⟩, fun hgo => absurd (Or.inl hname) hgo⟩
  rw [if_neg hname]
  by_cases hvalue : ixattrSize < value.length
  · rw [if_pos hvalue]
    exact ⟨fun _ => ⟨_, rfl⟩, fun hgo => absurd (Or.inr (Or.inl hvalue)) hgo⟩
  rw [if_neg hvalue]
  by_cases hcreate : flags % 2 = 1 ∧ name ∈ m.order
  · rw [if_pos (by simpa using hcreate)]
    exact ⟨fun _ => ⟨_, rfl⟩, fun hgo => absurd (Or.inr (Or.inr (Or.inl hcreate))) hgo⟩
  rw [if_neg (by simpa using hcreate)]
  by_cases hreplace : flags / 2 % 2 = 1 ∧ name ∉ m.order
  · rw [if_pos (by simpa using hreplace)]
    exact ⟨fun _ => ⟨_, rfl⟩, fun hgo => absurd (Or.inr (Or.inr (Or.inr (Or.inl hreplace)))) hgo⟩
  rw [if_neg (by simpa using hreplace)]
  have hfit' := fitEntries_setEntries hfit (Nat.le_of_not_lt hname) (Nat.le_of_not_lt hvalue)
  have hsize := length_listBytes_of_represents hfit' hmap'
  by_cases hlarge : ixattrSize < XattrMap.encodedSize (m.insert name value)
  · rw [if_pos (hsize ▸ hlarge)]
    exact ⟨fun _ => ⟨_, rfl⟩, fun hgo => absurd (Or.inr (Or.inr (Or.inr (Or.inr hlarge)))) hgo⟩
  rw [if_neg (hsize ▸ hlarge)]
  refine ⟨fun hrefused => ?_, fun _ => ⟨hfit', h.stores hactive hdirty hfit' (hsize ▸ Nat.le_of_not_lt hlarge) _ _⟩⟩
  rcases hrefused with hno | hno | hno | hno | hno
  exacts [absurd hno hname, absurd hno hvalue, absurd hno hcreate, absurd hno hreplace, absurd hno hlarge]

/-- **`removexattr`**, up to its end: there is nothing to remove, or it stores the other entries. -/
theorem HoldsXattrs.removexattrBody (hactive : v.txMgr.active ≠ none) (hdirty : v.DirtyOnly ino b) (hfit : FitEntries l)
    (hsize : (Xattr.listBytes (l.map rawXattr)).length ≤ ixattrSize) (name : String) :
    ((∀ e ∈ l, e.1 ≠ name) → Volume.removexattrBody ino name.toUTF8.toList v = .ok (.abort (.ok false)) v) ∧
    ((∃ e ∈ l, e.1 = name) → StoresXattrs lo hi v ino b j (l.filter fun e => e.1 ≠ name) true
      (Volume.removexattrBody ino name.toUTF8.toList)) := by
  have hread := h
  obtain ⟨d, hinode, hattrs⟩ := hread
  have hbody : Volume.removexattrBody ino name.toUTF8.toList v =
      (if !l.any fun e => e.1 = name then pure (.abort (.ok false))
      else if Xattr.listBytes ((l.filter fun e => e.1 ≠ name).map rawXattr) = [] then do
        updateInodePage ino b (j * disize)
          (storeXattrs (Xattr.listBytes ((l.filter fun e => e.1 ≠ name).map rawXattr)) 0 dropInlineEa)
        markPageDirty ino b
        return .commit true
      else do
        updateInodePage ino b (j * disize)
          (storeXattrs (Xattr.listBytes ((l.filter fun e => e.1 ≠ name).map rawXattr)) dxdInline addInlineEa)
        markPageDirty ino b
        return .commit true : VolM (Exit Bool Bool)) v := by
    unfold Volume.removexattrBody
    rw [bind_ok hinode.readInode, ← filter_rawXattr]
    simp only [xattrs_eq, hattrs, any_rawXattr]
    rfl
  unfold StoresXattrs
  rw [hbody]
  constructor
  · intro hnone
    rw [if_pos (by simpa using hnone)]
    rfl
  · intro hsome
    have hfit' : FitEntries (l.filter fun e => e.1 ≠ name) := fun e he => hfit e (List.mem_of_mem_filter he)
    rw [if_neg (by simpa using hsome)]
    split
    · next hempty =>
        have hnil : l.filter (fun e => e.1 ≠ name) = [] := List.map_eq_nil_iff.mp (Xattr.listBytes_eq_nil.mp hempty)
        rw [hempty, hnil]
        exact h.clears hactive hdirty _ _
    · refine h.stores hactive hdirty hfit' (le_trans (List.Sublist.length_le ?_) hsize) _ _
      exact (List.filter_sublist.map rawXattr).flatMap Xattr.toBytes

end Calls

/-! ## A run -/

/-- Between two calls: the entries in the inode represent the map, and keep the limits. -/
structure KeepsXattrs (lo hi : ℕ) (v : Volume) (ino : UInt32) (b j : ℕ) (l : List (String × List UInt8)) (m : XattrMap) :
    Prop where
  idle : v.txMgr.active = none
  holds : HoldsXattrs lo hi v ino b j l
  fit : FitEntries l
  size : (Xattr.listBytes (l.map rawXattr)).length ≤ ixattrSize
  represents : OrderedMap.Represents l m

section Run

variable {lo hi : ℕ} {v w : Volume} {ino : UInt32} {b j : ℕ} {l : List (String × List UInt8)} {m : XattrMap}

/-- **A commit** keeps the entries. -/
theorem of_storesXattrs {α : Type} {a : α} {body : VolM (Exit α α)} (hidle : v.txMgr.active = none)
    (hstores : StoresXattrs lo hi v.begun ino b j l a body) (hcommits : CommitsWith body v) :
    ∃ w, transaction body v = .ok a w ∧ HoldsXattrs lo hi w ino b j l ∧ w.txMgr.active = none := by
  obtain ⟨u, hbody, ⟨d, hinode, hattrs⟩, -, hdirty, -⟩ := hstores
  obtain ⟨result, w, hcommit⟩ := hcommits a u hbody
  refine ⟨w, ?_, ⟨d, hinode.commit hdirty hcommit, hattrs⟩, ?_⟩
  · unfold transaction
    rw [bind_ok (beginTransaction_of_idle hidle), bind_ok hbody]
    exact bind_ok hcommit
  · obtain ⟨active, hactive⟩ := exists_active_of_commit hcommit
    obtain ⟨u', storage, hcommitted, rfl, -⟩ := of_commitTransaction_ok hactive hcommit
    show u'.txMgr.active = none
    rw [hcommitted.txMgr]

/-- **An abort** before any page is marked. -/
theorem HoldsXattrs.of_abort (h : HoldsXattrs lo hi v ino b j l) (habort : abortTransaction v.begun = .ok () w) :
    HoldsXattrs lo hi w ino b j l ∧ w.txMgr.active = none ∧ w.pageCache = v.pageCache ∧ w.storage = v.storage := by
  obtain ⟨d, hinode, hattrs⟩ := h
  refine ⟨⟨d, hinode.begun.abort rfl habort, hattrs⟩, ?_⟩
  cases habort
  exact ⟨rfl, rfl, rfl⟩

namespace KeepsXattrs

variable (h : KeepsXattrs lo hi v ino b j l m)

include h

/-- **`getxattr`** looks a name up. -/
theorem getxattr (name : String) : Volume.getxattr ino name v = .ok (m.value name) v := by
  obtain ⟨d, hinode, hattrs⟩ := h.holds
  unfold Volume.getxattr
  rw [bind_ok hinode.readInode, pure_apply, xattrs_eq, hattrs, find?_rawXattr, h.represents.value]

/-- **`listxattr`** lists the names. -/
theorem listxattr : Volume.listxattr ino v = .ok m.order v := by
  obtain ⟨d, hinode, hattrs⟩ := h.holds
  have hnames : (l.map rawXattr).map (fun attr => Utf8.fromUtf8Lossy attr.1) = l.map Prod.fst := by
    rw [List.map_map]
    exact List.map_congr_left fun e _ => Utf8.fromUtf8Lossy_toUTF8 e.1
  unfold Volume.listxattr
  rw [bind_ok hinode.readInode, pure_apply, xattrs_eq, hattrs, hnames, h.represents.order]

/-- **`setxattr` is refused**, and nothing is changed. -/
theorem setxattr_refused {name : String} {value : List UInt8} {flags : ℕ} (hrefused : m.Refuses name value flags) :
    ∃ e w, Volume.setxattr ino name value flags v = .error e w ∧ KeepsXattrs lo hi w ino b j l m ∧
      w.pageCache = v.pageCache ∧ w.storage = v.storage := by
  obtain ⟨e, hbody⟩ := (h.holds.begun.setxattrBody (by simp [begun]) (dirtyOnly_begun v ino b) h.fit h.represents name value
    flags).1 hrefused
  obtain ⟨w, hrun, habort⟩ := transaction_of_abort h.idle hbody
  obtain ⟨hholds, hidle, hsame⟩ := h.holds.of_abort habort
  exact ⟨e, w, hrun, ⟨hidle, hholds, h.fit, h.size, h.represents⟩, hsame⟩

/-- **`setxattr`** inserts. -/
theorem setxattr_inserts {name : String} {value : List UInt8} {flags : ℕ} (hgo : ¬ m.Refuses name value flags)
    (hcommits : (set name value flags).Commits ino v) : ∃ w, Volume.setxattr ino name value flags v = .ok () w ∧
      KeepsXattrs lo hi w ino b j (setEntries l name value) (m.insert name value) := by
  obtain ⟨hfit, hstores⟩ := (h.holds.begun.setxattrBody (by simp [begun]) (dirtyOnly_begun v ino b) h.fit h.represents name
    value flags).2 hgo
  obtain ⟨w, hrun, hholds, hidle⟩ := of_storesXattrs h.idle hstores hcommits
  have hmap := represents_setEntries h.represents name value
  refine ⟨w, hrun, hidle, hholds, hfit, ?_, hmap⟩
  rw [length_listBytes_of_represents hfit hmap]
  exact Nat.le_of_not_lt fun hlarge => hgo (Or.inr (Or.inr (Or.inr (Or.inr hlarge))))

/-- **`removexattr`** erases. -/
theorem removexattr {name : String} (hcommits : (remove name).Commits ino v) :
    ∃ w, Volume.removexattr ino name v = .ok (decide (name ∈ m.order)) w ∧
      KeepsXattrs lo hi w ino b j (l.filter fun e => e.1 ≠ name) (m.erase name) := by
  obtain ⟨hnone, hsome⟩ := h.holds.begun.removexattrBody (by simp [begun]) (dirtyOnly_begun v ino b) h.fit h.size name
  have hmap := h.represents.erase name
  have hfit : FitEntries (l.filter fun e => e.1 ≠ name) := fun e he => h.fit e (List.mem_of_mem_filter he)
  have hsize : (Xattr.listBytes ((l.filter fun e => e.1 ≠ name).map rawXattr)).length ≤ ixattrSize :=
    ((List.filter_sublist.map rawXattr).flatMap Xattr.toBytes).length_le.trans h.size
  have hmem : name ∈ m.order ↔ ∃ e ∈ l, e.1 = name := by
    rw [← h.represents.order, List.mem_map]
  by_cases hfound : ∃ e ∈ l, e.1 = name
  · obtain ⟨w, hrun, hholds, hidle⟩ := of_storesXattrs h.idle (hsome hfound) hcommits
    rw [decide_eq_true (hmem.mpr hfound)]
    exact ⟨w, hrun, hidle, hholds, hfit, hsize, hmap⟩
  · rw [decide_eq_false (hmem.not.mpr hfound)]
    push Not at hfound
    obtain ⟨w, hrun, habort⟩ := transaction_of_abort h.idle (hnone hfound)
    obtain ⟨hholds, hidle, -⟩ := h.holds.of_abort habort
    have hsame : l.filter (fun e => e.1 ≠ name) = l :=
      List.filter_eq_self.mpr fun e he => decide_eq_true (hfound e he)
    refine ⟨w, hrun, hidle, ?_, hfit, hsize, hmap⟩
    rwa [hsame]

/-- **One call.** -/
theorem call (call : XattrCall) (hcommits : call.Commits ino v) :
    ∃ l', KeepsXattrs lo hi (call.after ino v) ino b j l' (call.next m) := by
  cases call with
  | set name value flags =>
      by_cases hrefused : m.Refuses name value flags
      · obtain ⟨e, w, hrun, hkeeps, -⟩ := h.setxattr_refused hrefused
        rw [next_set_refused hrefused, (after_set_error hrun).1]
        exact ⟨l, hkeeps⟩
      · obtain ⟨w, hrun, hkeeps⟩ := h.setxattr_inserts hrefused hcommits
        rw [next_set hrefused, (after_set_ok hrun).1]
        exact ⟨_, hkeeps⟩
  | remove name =>
      obtain ⟨w, hrun, hkeeps⟩ := h.removexattr hcommits
      rw [after_remove_ok hrun]
      exact ⟨_, hkeeps⟩

end KeepsXattrs

/-- **A run of calls.** -/
theorem keepsXattrs_run (calls : List XattrCall) (h : KeepsXattrs lo hi v ino b j l m) (hcommits : CommitsAll ino v calls) :
    ∃ l', KeepsXattrs lo hi (calls.foldl (after ino) v) ino b j l' (calls.foldl next m) := by
  induction calls generalizing v l m with
  | nil => exact ⟨l, h⟩
  | cons call calls ih =>
      obtain ⟨l', hkeeps⟩ := h.call call hcommits.1
      exact ih hkeeps hcommits.2

/-- An inode without `DXD_INLINE` has no attributes. -/
theorem keepsXattrs_nil {d : List UInt8} (h : InodeAt lo hi v ino b j d) (hidle : v.txMgr.active = none)
    (hnone : d.getD 104 0 &&& dxdInline = 0) : KeepsXattrs lo hi v ino b j [] ∅ := by
  refine ⟨hidle, ⟨d, h, ?_⟩, fun _ he => absurd he List.not_mem_nil, Nat.zero_le _, OrderedMap.represents_nil⟩
  unfold xattrsOf
  rw [if_pos hnone]
  rfl

/-- **The attributes are an ordered map.**  After every run of calls the reading calls answer from
the map, and `setxattr` fails where the map refuses, with every page and every block as before. -/
theorem xattrs_refine {d : List UInt8} (h : InodeAt lo hi v ino b j d) (hidle : v.txMgr.active = none)
    (hnone : d.getD 104 0 &&& dxdInline = 0) {calls : List XattrCall} (hcommits : CommitsAll ino v calls)
    {m : XattrMap} (hw : calls.foldl (after ino) v = w) (hm : calls.foldl next ∅ = m) :
    (∀ name, getxattr ino name w = .ok (m.value name) w) ∧ listxattr ino w = .ok m.order w ∧
      ∀ name value flags, (set name value flags).Commits ino w →
        ((set name value flags).fails ino w = true ↔ m.Refuses name value flags) ∧
        ((set name value flags).fails ino w = true → (set name value flags).next m = m ∧
          ((set name value flags).after ino w).pageCache = w.pageCache ∧
          ((set name value flags).after ino w).storage = w.storage) := by
  obtain ⟨l, hkeeps⟩ := keepsXattrs_run calls (keepsXattrs_nil h hidle hnone) hcommits
  rw [hw, hm] at hkeeps
  refine ⟨hkeeps.getxattr, hkeeps.listxattr, fun name value flags hcommit => ?_⟩
  by_cases hrefused : m.Refuses name value flags
  · obtain ⟨e, u, hrun, -, hsame⟩ := hkeeps.setxattr_refused hrefused
    obtain ⟨hafter, hfails⟩ := after_set_error hrun
    rw [hafter, hfails]
    exact ⟨iff_of_true rfl hrefused, fun _ => ⟨next_set_refused hrefused, hsame⟩⟩
  · obtain ⟨u, hrun, -⟩ := hkeeps.setxattr_inserts hrefused hcommit
    rw [(after_set_ok hrun).2]
    exact ⟨iff_of_false (by simp) hrefused, fun hfails => absurd hfails (by simp)⟩

/-! ### On a device that does not fail -/

/-- The commit of a body that stores a list goes through. -/
theorem Settled.commitsWith (h : v.Settled) {α : Type} {a : α} {body : VolM (Exit α α)}
    (hstores : StoresXattrs lo hi v.begun ino b j l a body) :
    CommitsWith body v ∧ ∀ a w, transaction body v = .ok a w → w.Settled := by
  obtain ⟨u, hbody, ⟨d, hinode, -⟩, hpages, hdirty, hactive⟩ := hstores
  obtain ⟨active, hactive⟩ := Option.ne_none_iff_exists'.mp hactive
  have hu : u.Settled := by
    unfold PagesOnly at hpages
    rw [hpages] at hinode ⊢
    exact h.of_rest hinode.guarded.toCalm rfl rfl rfl fun m hm => ⟨m, hm, MapMoves.refl m⟩
  constructor
  · intro a' u' hrun
    cases hbody.symm.trans hrun
    refine hu.exists_commit hactive fun key hkey => ?_
    rw [hdirty active hactive key hkey]
    exact hinode.block_lt
  · intro a' w hrun
    obtain ⟨exit, u', hexit, hend⟩ := of_transaction_ok hrun
    cases hbody.symm.trans hexit
    rcases hend with ⟨-, result, hcommit⟩ | ⟨hno, -⟩
    · exact (hu.of_commit hinode.guarded hcommit).1
    · cases hno

theorem Settled.of_abort (h : v.Settled) (habort : abortTransaction v.begun = .ok () w) : w.Settled := by
  cases habort
  refine h.of_rest ⟨h.faults, h.size, h.pages⟩ rfl rfl rfl fun m' hm' => ?_
  obtain ⟨m, hm, rfl⟩ := Option.map_eq_some_iff.mp hm'
  exact ⟨m, hm, rfl, rfl, fun page hpage => absurd hpage List.not_mem_nil⟩

/-- Every call commits. -/
theorem KeepsXattrs.settled (h : KeepsXattrs lo hi v ino b j l m) (hv : v.Settled) (call : XattrCall) :
    call.Commits ino v ∧ (call.after ino v).Settled := by
  cases call with
  | set name value flags =>
      obtain ⟨hrefuses, hstores⟩ := h.holds.begun.setxattrBody (by simp [begun]) (dirtyOnly_begun v ino b) h.fit
        h.represents name value flags
      by_cases hrefused : m.Refuses name value flags
      · obtain ⟨e, hbody⟩ := hrefuses hrefused
        obtain ⟨w, hrun, habort⟩ := transaction_of_abort h.idle hbody
        refine ⟨fun a u hcommit => ?_, ?_⟩
        · cases hbody.symm.trans hcommit
        · rw [(after_set_error hrun).1]
          exact hv.of_abort habort
      · obtain ⟨hcommits, hsettled⟩ := hv.commitsWith (hstores hrefused).2
        obtain ⟨w, hrun, -⟩ := h.setxattr_inserts hrefused hcommits
        refine ⟨hcommits, ?_⟩
        rw [(after_set_ok hrun).1]
        exact hsettled () w hrun
  | remove name =>
      obtain ⟨hnone, hsome⟩ := h.holds.begun.removexattrBody (by simp [begun]) (dirtyOnly_begun v ino b) h.fit h.size name
      by_cases hfound : ∃ e ∈ l, e.1 = name
      · obtain ⟨hcommits, hsettled⟩ := hv.commitsWith (hsome hfound)
        obtain ⟨w, hrun, -⟩ := h.removexattr hcommits
        refine ⟨hcommits, ?_⟩
        rw [after_remove_ok hrun]
        exact hsettled _ w hrun
      · push Not at hfound
        have hbody := hnone hfound
        obtain ⟨w, hrun, habort⟩ := transaction_of_abort h.idle hbody
        refine ⟨fun a u hcommit => ?_, ?_⟩
        · cases hbody.symm.trans hcommit
        · rw [after_remove_ok hrun]
          exact hv.of_abort habort

theorem KeepsXattrs.commitsAll (calls : List XattrCall) (h : KeepsXattrs lo hi v ino b j l m) (hv : v.Settled) :
    CommitsAll ino v calls := by
  induction calls generalizing v l m with
  | nil => trivial
  | cons call calls ih =>
      obtain ⟨hcommits, hsettled⟩ := h.settled hv call
      obtain ⟨l', hkeeps⟩ := h.call call hcommits
      exact ⟨hcommits, ih hkeeps hsettled⟩

end Run

/-- The inode of a volume with one inode. -/
theorem inodeAt_of_oneInode {dinode : List UInt8} (content : ℕ → UInt8) (hlen : dinode.length = disize)
    (hkey : Dinode.HasKey (inodeKey 19) dinode) : InodeAt 4 4 (oneInode dinode content) 19 4 0 dinode where
  guarded := guarded_oneInode content
  low := (ait2_oneInode content).ge
  high := le_rfl
  placed := placed_oneInode content hlen hkey
  inode := by
    unfold own
    rw [show (oneInode dinode content).pageCache.peek (19, 4) = none from PageCache.peek_new ..]
    rw [Option.map_none, Option.getD_none, slotOf_oneInode content hlen]

/-- Two attributes, the first of which is then removed. -/
def threeXattrCalls : List XattrCall :=
  [set "a" [1, 2] 0, set "b" [] 1, remove "a"]

theorem xattrs_refine_threeXattrCalls :
    let w := threeXattrCalls.foldl (after 19) (oneInode emptyInode fun _ => 0)
    (∀ name, getxattr 19 name w = .ok ((threeXattrCalls.foldl next ∅).value name) w) ∧ listxattr 19 w = .ok ["b"] w ∧
      (set "b" [7] 1).fails 19 w = true := by
  intro w
  have hat := inodeAt_of_oneInode (fun _ => 0) length_emptyInode (by decide +kernel)
  have hidle : (oneInode emptyInode fun _ => 0).txMgr.active = none := rfl
  have hnone : emptyInode.getD 104 0 &&& dxdInline = 0 := by decide +kernel
  have hsettled : (oneInode emptyInode fun _ => 0).Settled := settled_oneInode fun _ => 0
  have hstart := keepsXattrs_nil hat hidle hnone
  have hcommits := hstart.commitsAll threeXattrCalls hsettled
  obtain ⟨hget, hlist, hset⟩ := xattrs_refine hat hidle hnone hcommits rfl rfl
  have hmore := (hstart.commitsAll (threeXattrCalls ++ [set "b" [7] 1]) hsettled).of_append.1
  have horder : (threeXattrCalls.foldl next ∅).order = ["b"] := by decide
  have hrefused : (threeXattrCalls.foldl next ∅).Refuses "b" [7] 1 := by decide
  rw [horder] at hlist
  exact ⟨hget, hlist, (hset "b" [7] 1 hmore).1.mpr hrefused⟩

end Volume

end JfsFuse
