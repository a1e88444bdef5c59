import JfsFuse.Fuse.Core
import JfsFuse.Volume.XattrMap

/-!
# Names of attributes

The server stores the attributes of the `user.` namespace without their prefix and those of
`system.` with it; a listing puts `user.` in front of every name without a prefix.  A name
`user.` with a second prefix behind it is not found again: it is listed without its first prefix,
and shares its place with the name that a listing shows.  All other names are kept apart
(`names_kept_iff`).
-/

namespace JfsFuse

open Program

namespace Errno

def eperm : ℤ := 1
def eio : ℤ := 5
def e2big : ℤ := 7
def eexist : ℤ := 17
def enospc : ℤ := 28
def enametoolong : ℤ := 36
def enotempty : ℤ := 39
def eopnotsupp : ℤ := 95

end Errno

/-- `storage_error_to_errno`. -/
def storageErrorToErrno : StorageError → ℤ
  | .xattrNotFound | .notFound => Errno.enoent
  | .xattrAlreadyExists | .alreadyExists => Errno.eexist
  | .xattrNameTooLong => Errno.enametoolong
  | .xattrValueTooLarge | .xattrDataTooLarge => Errno.e2big
  | .noFreeInode => Errno.enospc
  | .invalidName => Errno.einval
  | .notADirectory => Errno.enotdir
  | .directoryNotEmpty => Errno.enotempty
  | .invalidFileType | .cannotLinkDir => Errno.eperm
  | .notSupported => Errno.eopnotsupp
  | .interrupted => Errno.eintr
  | _ => Errno.eio

/-! ## Names -/

/-- `str::starts_with`. -/
def startsWith (pre name : String) : Bool :=
  pre.toList <+: name.toList

/-- `str::strip_prefix`. -/
def stripPrefix (pre name : String) : Option String :=
  if startsWith pre name then some (String.ofList (name.toList.drop pre.toList.length)) else none

theorem startsWith_append (pre rest : String) : startsWith pre (pre ++ rest) = true := by
  unfold startsWith
  rw [String.toList_append]
  exact decide_eq_true (List.prefix_append _ _)

theorem exists_of_startsWith {pre name : String} (h : startsWith pre name = true) : ∃ rest, name = pre ++ rest := by
  obtain ⟨tail, htail⟩ := of_decide_eq_true h
  refine ⟨String.ofList tail, String.toList_injective ?_⟩
  rw [String.toList_append, String.toList_ofList, htail]

theorem stripPrefix_append (pre rest : String) : stripPrefix pre (pre ++ rest) = some rest := by
  unfold stripPrefix
  rw [if_pos (startsWith_append pre rest), String.toList_append, List.drop_left, String.ofList_toList]

theorem stripPrefix_of_not {pre name : String} (h : startsWith pre name = false) : stripPrefix pre name = none :=
  if_neg (by simp [h])

/-- `translate_xattr_name`, with the two branches that are left when no prefix was stripped. -/
def translateXattrName (name : String) : String :=
  match stripPrefix "user." name with
  | some rest => rest
  | none =>
      match stripPrefix "system." name with
      | some rest => "system." ++ rest
      | none => if startsWith "system." name || startsWith "user." name then name else name

/-- `reverse_xattr_name`. -/
def reverseXattrName (name : String) : String :=
  if startsWith "user." name || startsWith "system." name then name else "user." ++ name

/-- The name has the prefix of a namespace. -/
def Namespaced (name : String) : Prop :=
  startsWith "user." name = true ∨ startsWith "system." name = true

instance (name : String) : Decidable (Namespaced name) := inferInstanceAs (Decidable (_ ∨ _))

/-- Behind `user.` there is another prefix. -/
def Nested (name : String) : Prop :=
  ∃ rest, name = "user." ++ rest ∧ Namespaced rest

theorem not_startsWith_system (rest : String) : startsWith "user." ("system." ++ rest) = false := by
  unfold startsWith
  rw [String.toList_append]
  refine decide_eq_false fun hprefix => ?_
  obtain ⟨tail, htail⟩ := hprefix
  exact absurd (congrArg List.head? htail) (by simp)

theorem translate_user (rest : String) : translateXattrName ("user." ++ rest) = rest := by
  unfold translateXattrName
  rw [stripPrefix_append]

theorem translate_system (rest : String) : translateXattrName ("system." ++ rest) = "system." ++ rest := by
  unfold translateXattrName
  rw [stripPrefix_of_not (not_startsWith_system rest), stripPrefix_append]

theorem reverse_of_namespaced {name : String} (h : Namespaced name) : reverseXattrName name = name :=
  if_pos (by simpa [Namespaced] using h)

theorem reverse_of_not_namespaced {name : String} (h : ¬ Namespaced name) : reverseXattrName name = "user." ++ name :=
  if_neg (by simpa [Namespaced] using h)

theorem user_append_ne (rest : String) : rest ≠ "user." ++ rest := by
  intro h
  have hlength := congrArg (fun name => name.toList.length) h
  simp only [String.toList_append, List.length_append] at hlength
  exact absurd hlength (by simp)

/-- **A name is found again** unless it has two prefixes. -/
theorem reverse_translate_iff {name : String} (h : Namespaced name) :
    reverseXattrName (translateXattrName name) = name ↔ ¬ Nested name := by
  rcases h with huser | hsystem
  · obtain ⟨rest, rfl⟩ := exists_of_startsWith huser
    have hnested : Nested ("user." ++ rest) ↔ Namespaced rest := by
      refine ⟨?_, fun hrest => ⟨rest, rfl, hrest⟩⟩
      rintro ⟨rest', hsame, hrest⟩
      have htranslate := congrArg translateXattrName hsame
      rw [translate_user, translate_user] at htranslate
      rwa [htranslate]
    rw [translate_user, hnested]
    by_cases hrest : Namespaced rest
    · rw [reverse_of_namespaced hrest]
      exact iff_of_false (user_append_ne rest) (not_not.mpr hrest)
    · exact iff_of_true (reverse_of_not_namespaced hrest) hrest
  · obtain ⟨rest, rfl⟩ := exists_of_startsWith hsystem
    rw [translate_system, reverse_of_namespaced (Or.inr (startsWith_append _ _))]
    refine iff_of_true rfl ?_
    rintro ⟨rest', hsame, -⟩
    have hnot := not_startsWith_system rest
    rw [hsame, startsWith_append] at hnot
    cases hnot

theorem injOn_translate {N : Set String} (hnames : ∀ name ∈ N, Namespaced name) (hplain : ∀ name ∈ N, ¬ Nested name) :
    Set.InjOn translateXattrName N := by
  intro name hname name' hname' hsame
  rw [← (reverse_translate_iff (hnames name hname)).mpr (hplain name hname), hsame]
  exact (reverse_translate_iff (hnames name' hname')).mpr (hplain name' hname')

/-! ## Requests -/

namespace FuseFs

/-- A call of the volume; its error becomes an `errno`. -/
def callVolume {α : Type} (x : VolM α) : FuseM α := fun fs =>
  match x fs.volume with
  | .ok a volume => .ok a { fs with volume }
  | .error e volume => .error (storageErrorToErrno e) { fs with volume }

/-- A request that changes something, or that reads what the others change. -/
def whenWritable {α : Type} (request : FuseM α) : FuseM α := do
  if (← get).writable then request else throw Errno.erofs

def setxattr (ino : UInt32) (name : String) (value : List UInt8) (flags : ℕ) : FuseM Unit :=
  whenWritable (callVolume (Volume.setxattr ino (translateXattrName name) value flags))

def getxattr (ino : UInt32) (name : String) : FuseM (Option (List UInt8)) :=
  whenWritable (callVolume (Volume.getxattr ino (translateXattrName name)))

def removexattr (ino : UInt32) (name : String) : FuseM Unit :=
  whenWritable do
    let found ← callVolume (Volume.removexattr ino (translateXattrName name))
    if found then return () else throw Errno.enoent

def listxattr (ino : UInt32) : FuseM (List String) :=
  whenWritable do
    let names ← callVolume (Volume.listxattr ino)
    return names.map reverseXattrName

theorem callVolume_ok {α : Type} {x : VolM α} {fs : FuseFs} {a : α} {volume : Volume}
    (h : x fs.volume = .ok a volume) : callVolume x fs = .ok a { fs with volume } := by
  unfold callVolume
  rw [h]

theorem callVolume_error {α : Type} {x : VolM α} {fs : FuseFs} {e : StorageError} {volume : Volume}
    (h : x fs.volume = .error e volume) :
    callVolume x fs = .error (storageErrorToErrno e) { fs with volume } := by
  unfold callVolume
  rw [h]

theorem whenWritable_apply {α : Type} {fs : FuseFs} (h : fs.writable = true) (request : FuseM α) :
    whenWritable request fs = request fs := by
  unfold whenWritable
  rw [bind_ok (get_apply fs), if_pos h]

end FuseFs

namespace XattrCall

/-- The name as it was passed to the server. -/
def name : XattrCall → String
  | set name _ _ => name
  | remove name => name

/-- The call of the volume for the request. -/
def translated : XattrCall → XattrCall
  | set name value flags => set (translateXattrName name) value flags
  | remove name => remove (translateXattrName name)

def request (ino : UInt32) : XattrCall → FuseM Unit
  | set name value flags => FuseFs.setxattr ino name value flags
  | remove name => FuseFs.removexattr ino name

/-- The change of the map if the request succeeds. -/
def change (m : XattrMap) : XattrCall → XattrMap
  | set name value _ => m.insert name value
  | remove name => m.erase name

/-- A request, and the map of what was set through the successful ones. -/
def track (ino : UInt32) (s : FuseFs × XattrMap) (call : XattrCall) : FuseFs × XattrMap :=
  match call.request ino s.1 with
  | .ok _ fs => (fs, call.change s.2)
  | .error _ fs => (fs, s.2)

theorem track_ok {ino : UInt32} {fs fs' : FuseFs} {m : XattrMap} {call : XattrCall}
    (h : call.request ino fs = .ok () fs') : track ino (fs, m) call = (fs', call.change m) := by
  unfold track
  rw [h]

theorem track_error {ino : UInt32} {fs fs' : FuseFs} {m : XattrMap} {call : XattrCall} {e : ℤ}
    (h : call.request ino fs = .error e fs') : track ino (fs, m) call = (fs', m) := by
  unfold track
  rw [h]

end XattrCall

/-! ## Runs -/

namespace FuseFs

open XattrCall Volume

/-- In every run of requests for an inode without attributes, with names of `N`, an attribute is
found under the name it was set under, and the names are listed in the order they were set. -/
def KeepsNames (N : Set String) : Prop :=
  ∀ {lo hi b j : ℕ} {ino : UInt32} {d : List UInt8} {fs : FuseFs} {calls : List XattrCall} {fs' : FuseFs} {m : XattrMap},
    InodeAt lo hi fs.volume ino b j d → fs.volume.txMgr.active = none → d.getD 104 0 &&& dxdInline = 0 →
    fs.writable = true → (∀ call ∈ calls, call.name ∈ N) → CommitsAll ino fs.volume (calls.map translated) →
    calls.foldl (track ino) (fs, ∅) = (fs', m) →
    (∀ name ∈ N, getxattr ino name fs' = .ok (m.value name) fs') ∧ listxattr ino fs' = .ok m.order fs'

/-- Between two requests: the stored attributes are those that were set, under their stored
names. -/
def StoresNames (N : Set String) (lo hi : ℕ) (ino : UInt32) (b j : ℕ) (fs : FuseFs) (m : XattrMap) : Prop :=
  fs.writable = true ∧ ∃ l stored, KeepsXattrs lo hi fs.volume ino b j l stored ∧
    OrderedMap.Renames translateXattrName N m stored

section Run

variable {N : Set String} {lo hi b j : ℕ} {ino : UInt32} {fs : FuseFs} {m : XattrMap}

/-- **One request.** -/
theorem StoresNames.track (h : StoresNames N lo hi ino b j fs m) (hinj : Set.InjOn translateXattrName N) {call : XattrCall}
    (hname : call.name ∈ N) (hcommits : call.translated.Commits ino fs.volume) :
    ∃ fs' m', XattrCall.track ino (fs, m) call = (fs', m') ∧ StoresNames N lo hi ino b j fs' m' ∧
      fs'.volume = call.translated.after ino fs.volume := by
  obtain ⟨hwritable, l, stored, hkeeps, hrenames⟩ := h
  cases call with
  | set name value flags =>
      by_cases hrefused : stored.Refuses (translateXattrName name) value flags
      · obtain ⟨e, w, hrun, hkeeps', -⟩ := hkeeps.setxattr_refused hrefused
        have hrequest := (whenWritable_apply hwritable _).trans (callVolume_error hrun)
        exact ⟨_, _, track_error hrequest, ⟨hwritable, l, stored, hkeeps', hrenames⟩, (after_set_error hrun).1.symm⟩
      · obtain ⟨w, hrun, hkeeps'⟩ := hkeeps.setxattr_inserts hrefused hcommits
        have hrequest := (whenWritable_apply hwritable _).trans (callVolume_ok hrun)
        exact ⟨_, _, track_ok hrequest, ⟨hwritable, _, _, hkeeps', hrenames.insert hinj hname value⟩,
          (after_set_ok hrun).1.symm⟩
  | remove name =>
      obtain ⟨w, hrun, hkeeps'⟩ := hkeeps.removexattr hcommits
      have hafter := (after_remove_ok hrun).symm
      by_cases hmem : translateXattrName name ∈ stored.order
      · have hrequest : FuseFs.removexattr ino name fs = .ok () { fs with volume := w } := by
          unfold FuseFs.removexattr
          rw [whenWritable_apply hwritable, bind_ok (callVolume_ok hrun), decide_eq_true hmem]
          rfl
        exact ⟨_, _, track_ok hrequest, ⟨hwritable, _, _, hkeeps', hrenames.erase hinj hname⟩, hafter⟩
      · have hrequest : FuseFs.removexattr ino name fs = .error Errno.enoent { fs with volume := w } := by
          unfold FuseFs.removexattr
          rw [whenWritable_apply hwritable, bind_ok (callVolume_ok hrun), decide_eq_false hmem]
          rfl
        rw [OrderedMap.erase_of_notMem hmem] at hkeeps'
        exact ⟨_, _, track_error hrequest, ⟨hwritable, _, _, hkeeps', hrenames⟩, hafter⟩

/-- **A run of requests.** -/
theorem StoresNames.run (hinj : Set.InjOn translateXattrName N) (calls : List XattrCall)
    (h : StoresNames N lo hi ino b j fs m) (hnames : ∀ call ∈ calls, call.name ∈ N)
    (hcommits : CommitsAll ino fs.volume (calls.map translated)) :
    ∃ fs' m', calls.foldl (XattrCall.track ino) (fs, m) = (fs', m') ∧ StoresNames N lo hi ino b j fs' m' := by
  induction calls generalizing fs m with
  | nil => exact ⟨fs, m, rfl, h⟩
  | cons call calls ih =>
      obtain ⟨hname, hnames⟩ := List.forall_mem_cons.mp hnames
      obtain ⟨fs', m', htrack, hstores, hvolume⟩ := h.track hinj hname hcommits.1
      rw [List.foldl_cons, htrack]
      exact ih hstores hnames (hvolume ▸ hcommits.2)

/-- **The requests that read** answer from the map. -/
theorem StoresNames.reads (h : StoresNames N lo hi ino b j fs m)
    (hreverse : ∀ name ∈ N, reverseXattrName (translateXattrName name) = name) :
    (∀ name ∈ N, getxattr ino name fs = .ok (m.value name) fs) ∧ listxattr ino fs = .ok m.order fs := by
  obtain ⟨hwritable, l, stored, hkeeps, hrenames⟩ := h
  constructor
  · intro name hname
    unfold getxattr
    rw [whenWritable_apply hwritable, callVolume_ok (hkeeps.getxattr _), hrenames.value name hname]
  · have hlist : stored.order.map reverseXattrName = m.order := by
      rw [hrenames.order, List.map_map]
      exact (List.map_congr_left fun name hname => hreverse name (hrenames.keys name hname)).trans (List.map_id _)
    unfold listxattr
    rw [whenWritable_apply hwritable, bind_ok (callVolume_ok hkeeps.listxattr), pure_apply, hlist]

theorem keepsNames (hinj : Set.InjOn translateXattrName N)
    (hreverse : ∀ name ∈ N, reverseXattrName (translateXattrName name) = name) : KeepsNames N := by
  intro lo hi b j ino d fs calls fs' m hat hidle hnone hwritable hnames hcommits hrun
  have hstart : StoresNames N lo hi ino b j fs ∅ :=
    ⟨hwritable, _, _, keepsXattrs_nil hat hidle hnone, OrderedMap.renames_empty _ _⟩
  obtain ⟨fs'', m', hrun', hstores⟩ := StoresNames.run hinj calls hstart hnames hcommits
  cases hrun.symm.trans hrun'
  exact hstores.reads hreverse

end Run

/-- **Names are kept apart** exactly if none of them has two prefixes. -/
theorem names_kept_iff {N : Set String} (hnames : ∀ name ∈ N, Namespaced name) :
    ((∀ name ∈ N, reverseXattrName (translateXattrName name) = name) ∧ Set.InjOn translateXattrName N ∧ KeepsNames N) ↔
      ∀ name ∈ N, ¬ Nested name := by
  constructor
  · rintro ⟨hreverse, -⟩ name hname
    exact (reverse_translate_iff (hnames name hname)).mp (hreverse name hname)
  · intro hplain
    have hinj := injOn_translate hnames hplain
    have hreverse := fun name hname => (reverse_translate_iff (hnames name hname)).mpr (hplain name hname)
    exact ⟨hreverse, hinj, keepsNames hinj hreverse⟩

/-- The names of both namespaces with one prefix. -/
theorem names_kept_plain :
    (∀ name ∈ ({"user.a", "system.a"} : Set String), reverseXattrName (translateXattrName name) = name) ∧
      Set.InjOn translateXattrName {"user.a", "system.a"} ∧ KeepsNames {"user.a", "system.a"} := by
  refine (names_kept_iff ?_).mpr ?_
  · rintro name (rfl | rfl) <;> decide
  · rintro name (rfl | rfl)
    · exact (reverse_translate_iff (by decide)).mp (by decide)
    · exact (reverse_translate_iff (by decide)).mp (by decide)

/-- **A name with two prefixes** is not found again, and takes the place of another one. -/
theorem nested_name_lost : Namespaced "user.system.a" ∧ Namespaced "system.a" ∧
    reverseXattrName (translateXattrName "user.system.a") = "system.a" ∧
    translateXattrName "user.system.a" = translateXattrName "system.a" := by
  decide

end FuseFs

end JfsFuse
