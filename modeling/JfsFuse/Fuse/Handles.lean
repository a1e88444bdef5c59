import JfsFuse.Fuse.Core
import JfsFuse.Lib.Ledger

/-!
# File handles

`open` and `opendir` give out handles, `release` and `releasedir` take them back, and a request that
works on an open file or directory carries its handle.  The handle of a request is checked by
`validate_handle_static`, whose last argument says whether a file is expected.

That argument is the wrong way round at every call: `read` and `write` expect a directory, `readdir`
expects a file.  So what is opened as a file can be listed, and neither read nor written.
-/

namespace JfsFuse

def Errno.ebadf : ℤ := 9
def Errno.eisdir : ℤ := 21

structure OpenHandle where
  fh : ℕ
  ino : UInt32
  isDir : Bool
  deriving DecidableEq

/-- The handles of `FuseFs`. -/
structure HandleTable where
  nextFh : ℕ
  handles : Finmap fun _ : ℕ => OpenHandle

namespace HandleTable

def new : HandleTable where
  nextFh := 1
  handles := ∅

/-- `open_handle`.  The counter is a `u64`. -/
def openHandle (t : HandleTable) (ino : UInt32) (isDir : Bool) : ℕ × HandleTable :=
  (t.nextFh,
   { nextFh := (t.nextFh + 1) % 2 ^ 64
     handles := t.handles.insert t.nextFh { fh := t.nextFh, ino, isDir } })

/-- `release_handle`. -/
def releaseHandle (t : HandleTable) (fh : ℕ) : Option OpenHandle × HandleTable :=
  (t.handles.lookup fh, { t with handles := t.handles.erase fh })

/-- `validate_handle_static`. -/
def validateHandle (t : HandleTable) (fh : ℕ) (expectedIno : UInt32) (expectFile : Bool) : Except ℤ Unit :=
  match t.handles.lookup fh with
  | some h =>
      if h.ino = expectedIno then
        if expectFile && h.isDir then .error Errno.eisdir
        else if !expectFile && !h.isDir then .error Errno.enotdir
        else .ok ()
      else .error Errno.ebadf
  | none => .error Errno.ebadf

end HandleTable

/-- The requests that carry a handle which is checked.  `copy_file_range` carries two. -/
inductive HandleRequest
  | read
  | write
  | fallocate
  | lseek
  | copyFileRange
  | readdir
  | readdirplus
  deriving DecidableEq

namespace HandleRequest

/-- The last argument of the check. -/
def expectFile : HandleRequest → Bool
  | .read | .write | .fallocate | .lseek | .copyFileRange => false
  | .readdir | .readdirplus => true

/-- The check of the handle of a request. -/
def admitted (request : HandleRequest) (t : HandleTable) (fh : ℕ) (ino : UInt32) : Except ℤ Unit :=
  t.validateHandle fh ino request.expectFile

end HandleRequest

/-- What changes the handles: `open` and `create` open a file, `opendir` a directory, and `release` and
`releasedir` release a handle. -/
inductive HandleCall
  | openHandle (ino : UInt32) (isDir : Bool)
  | releaseHandle (fh : ℕ)
  deriving DecidableEq

namespace HandleTable

def perform (t : HandleTable) : HandleCall → HandleTable
  | .openHandle ino isDir => (t.openHandle ino isDir).2
  | .releaseHandle fh => (t.releaseHandle fh).2

/-- The handles after calls. -/
def performAll (t : HandleTable) (calls : List HandleCall) : HandleTable :=
  calls.foldl perform t

/-! ## The history of the table -/

/-- What calls enter, when `nextFh` is the next number of the counter. -/
def ledgerSteps : ℕ → List HandleCall → List (LedgerStep ℕ OpenHandle)
  | _, [] => []
  | nextFh, .openHandle ino isDir :: rest =>
      .put nextFh { fh := nextFh, ino, isDir } :: ledgerSteps ((nextFh + 1) % 2 ^ 64) rest
  | nextFh, .releaseHandle fh :: rest => .drop fh :: ledgerSteps nextFh rest

theorem handles_performAll (t : HandleTable) (calls : List HandleCall) :
    (t.performAll calls).handles = LedgerStep.applyAll t.handles (ledgerSteps t.nextFh calls) := by
  induction calls generalizing t with
  | nil => rfl
  | cons call rest ih => cases call <;> exact ih _

/-- The number of calls that give out a handle. -/
def opened : List HandleCall → ℕ
  | [] => 0
  | .openHandle _ _ :: rest => opened rest + 1
  | .releaseHandle _ :: rest => opened rest

/-- The handle was given out for the inode, and not released since. -/
def Live (calls : List HandleCall) (fh : ℕ) (ino : UInt32) (isDir : Bool) : Prop :=
  ∃ before after, calls = before ++ .openHandle ino isDir :: after ∧ fh = opened before + 1 ∧
    .releaseHandle fh ∉ after

/-- An entry for a handle that was given out. -/
theorem exists_open_of_put {nextFh : ℕ} {calls : List HandleCall} (hopens : nextFh + opened calls < 2 ^ 64)
    {before after : List (LedgerStep ℕ OpenHandle)} {fh : ℕ} {h : OpenHandle}
    (heq : ledgerSteps nextFh calls = before ++ .put fh h :: after) :
    ∃ calls₁ calls₂, calls = calls₁ ++ .openHandle h.ino h.isDir :: calls₂ ∧ fh = nextFh + opened calls₁ ∧ h.fh = fh ∧
      after = ledgerSteps (fh + 1) calls₂ := by
  induction calls generalizing nextFh before with
  | nil => cases before <;> cases heq
  | cons call rest ih =>
      cases call with
      | openHandle ino isDir =>
          have hcount : opened (.openHandle ino isDir :: rest) = opened rest + 1 := rfl
          have hnext : (nextFh + 1) % 2 ^ 64 = nextFh + 1 := Nat.mod_eq_of_lt (by omega)
          unfold ledgerSteps at heq
          rw [hnext] at heq
          cases before with
          | nil =>
              obtain ⟨hfirst, hafter⟩ := List.cons.inj heq
              cases hfirst
              exact ⟨[], rest, rfl, rfl, rfl, hafter.symm⟩
          | cons first before =>
              obtain ⟨calls₁, calls₂, rfl, hfh, hname, hafter⟩ := ih (by omega) (List.cons.inj heq).2
              refine ⟨.openHandle ino isDir :: calls₁, calls₂, rfl, ?_, hname, hafter⟩
              have hcount' : opened (.openHandle ino isDir :: calls₁) = opened calls₁ + 1 := rfl
              omega
      | releaseHandle fh' =>
          unfold ledgerSteps at heq
          cases before with
          | nil => cases (List.cons.inj heq).1
          | cons first before =>
              obtain ⟨calls₁, calls₂, rfl, hrest⟩ := ih hopens (List.cons.inj heq).2
              exact ⟨.releaseHandle fh' :: calls₁, calls₂, rfl, hrest⟩

theorem ledgerSteps_append (nextFh : ℕ) (calls calls' : List HandleCall)
    (hopens : nextFh + opened calls < 2 ^ 64) :
    ledgerSteps nextFh (calls ++ calls') = ledgerSteps nextFh calls ++ ledgerSteps (nextFh + opened calls) calls' := by
  induction calls generalizing nextFh with
  | nil => rfl
  | cons call rest ih =>
      cases call with
      | openHandle ino isDir =>
          have hcount : opened (.openHandle ino isDir :: rest) = opened rest + 1 := rfl
          have hnext : (nextFh + 1) % 2 ^ 64 = nextFh + 1 := Nat.mod_eq_of_lt (by omega)
          rw [List.cons_append, ledgerSteps, ledgerSteps, hnext, ih (nextFh + 1) (by omega), hcount, List.cons_append,
            Nat.add_assoc, Nat.add_comm 1]
      | releaseHandle fh => exact congrArg _ (ih nextFh hopens)

/-- Later entries are for later handles, or for the ones released. -/
theorem key_ne_iff {nextFh fh : ℕ} {calls : List HandleCall} (hfh : fh < nextFh) (hopens : nextFh + opened calls < 2 ^ 64) :
    (∀ st ∈ ledgerSteps nextFh calls, st.key ≠ fh) ↔ .releaseHandle fh ∉ calls := by
  induction calls generalizing nextFh with
  | nil => exact iff_of_true (fun _ h => absurd h List.not_mem_nil) List.not_mem_nil
  | cons call rest ih =>
      cases call with
      | openHandle ino isDir =>
          have hcount : opened (.openHandle ino isDir :: rest) = opened rest + 1 := rfl
          have hnext : (nextFh + 1) % 2 ^ 64 = nextFh + 1 := Nat.mod_eq_of_lt (by omega)
          rw [ledgerSteps, hnext, List.forall_mem_cons, ih (by omega) (by omega), List.mem_cons]
          constructor
          · rintro ⟨-, hrest⟩ (hfirst | hmem)
            · cases hfirst
            · exact hrest hmem
          · intro h
            exact ⟨fun (heq : nextFh = fh) => absurd heq hfh.ne', fun hmem => h (.inr hmem)⟩
      | releaseHandle fh' =>
          rw [ledgerSteps, List.forall_mem_cons, ih hfh hopens, List.mem_cons, not_or]
          refine and_congr_left fun _ => ?_
          constructor
          · rintro hne heq
            cases heq
            exact hne rfl
          · rintro hne (heq : fh' = fh)
            rw [heq] at hne
            exact hne rfl

theorem opened_append (calls calls' : List HandleCall) : opened (calls ++ calls') = opened calls + opened calls' := by
  induction calls with
  | nil => exact (Nat.zero_add _).symm
  | cons call rest ih =>
      cases call with
      | openHandle ino isDir =>
          show opened (rest ++ calls') + 1 = opened rest + 1 + opened calls'
          omega
      | releaseHandle fh => exact ih

/-- **The table holds the live handles.** -/
theorem lookup_performAll_iff {calls : List HandleCall} (hopens : 1 + opened calls < 2 ^ 64) (fh : ℕ) (h : OpenHandle) :
    (new.performAll calls).handles.lookup fh = some h ↔ h.fh = fh ∧ Live calls fh h.ino h.isDir := by
  rw [handles_performAll]
  refine (LedgerStep.lookup_applyAll_iff _ fh h).trans ?_
  constructor
  · rintro ⟨before, after, heq, hafter⟩
    obtain ⟨calls₁, calls₂, hcalls, hfh, hname, rfl⟩ := exists_open_of_put hopens heq
    have hcount : opened calls = opened calls₁ + (opened calls₂ + 1) := by
      rw [hcalls, opened_append]
      rfl
    have hfresh : fh = opened calls₁ + 1 := hfh.trans (Nat.add_comm 1 _)
    exact ⟨hname, calls₁, calls₂, hcalls, hfresh, (key_ne_iff (Nat.lt_succ_self fh) (by omega)).mp hafter⟩
  · rintro ⟨hname, calls₁, calls₂, hcalls, hfh, hkept⟩
    have hcount : opened calls = opened calls₁ + (opened calls₂ + 1) := by
      rw [hcalls, opened_append]
      rfl
    have hnumber : new.nextFh + opened calls₁ = fh := (Nat.add_comm 1 _).trans hfh.symm
    have hnext : (fh + 1) % 2 ^ 64 = fh + 1 := Nat.mod_eq_of_lt (by omega)
    refine ⟨ledgerSteps new.nextFh calls₁, ledgerSteps (fh + 1) calls₂, ?_, (key_ne_iff (Nat.lt_succ_self fh) (by omega)).mpr hkept⟩
    rw [hcalls, ledgerSteps_append _ _ _ (by omega), hnumber, ledgerSteps, hnext]
    obtain ⟨fh', ino, isDir⟩ := h
    cases hname
    rfl

end HandleTable

end JfsFuse
