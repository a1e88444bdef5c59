import JfsFuse.Lib.Pieces
import JfsFuse.Storage

/-!
# Positional input and output

`FileStorage` reads and writes its file with `read_at` and `write_at`, which may move fewer bytes than
they are asked for.  `read_exact_at` and `write_all_at` call them again until all bytes are moved.

The storage model has these loops as single steps.  `Holds` relates the file to a storage, and each loop
is the step of the model: `readExactAt_refines` and `writeAllAt_refines`.  Only a write that ends with an
error is not: it leaves a part of the data in the file.
-/

theorem Memory.read_add {α : Type} (m : ℕ → α) (off n k : ℕ) :
    Memory.read m off (n + k) = Memory.read m off n ++ Memory.read m (off + n) k := by
  unfold Memory.read
  rw [List.range_add, List.map_append, List.map_map]
  simp only [Function.comp_def, Nat.add_assoc]

namespace JfsFuse

open ByteBuf Program

/-- A file of the operating system.  For each coming call, `answers` says how many bytes the call moves at
most, and `none` is an error; with no answers left, a call moves all that it can. -/
structure OsFile where
  data : ℕ → UInt8
  len : ℕ
  answers : List (Option ℕ) := []

/-- `StorageError::Io`, and the errors of a loop whose call moves nothing. -/
inductive OsError
  | io
  | unexpectedEof (requested actual : ℕ)
  | shortWrite (requested actual : ℕ)
  deriving DecidableEq, Repr

abbrev OsM := EStateM OsError OsFile

namespace OsFile

/-- The next answer, for a call that is asked for `n` bytes. -/
def limit (n : ℕ) : OsM ℕ := fun f =>
  match f.answers with
  | [] => .ok n f
  | none :: rest => .error .io { f with answers := rest }
  | some k :: rest => .ok (min k n) { f with answers := rest }

/-- `File::read_at`.  Nothing is read only behind the end of the file. -/
def readAt (offset n : ℕ) : OsM (List UInt8) := do
  let k ← limit n
  let f ← get
  return Memory.read f.data offset (min (max k (min 1 n)) (f.len - offset))

/-- `File::write_at`: the number of bytes written.  The file grows if needed. -/
def writeAt (offset : ℕ) (bytes : List UInt8) : OsM ℕ := do
  let k ← limit bytes.length
  if k ≠ 0 then
    modify fun f => { f with data := Memory.write f.data offset (bytes.take k), len := max f.len (offset + k) }
  return k

/-! ## The loops -/

/-- A step of `read_exact_at`: the rest of the buffer is filled in part. -/
def readPiece (offset total filled : ℕ) : EStateM OsError (OsFile × List UInt8) ℕ := fun s =>
  match readAt (offset + filled) (total - filled) s.1 with
  | .ok bytes f => .ok bytes.length (f, s.2 ++ bytes)
  | .error e f => .error e (f, s.2)

/-- `read_exact_at`.  The bytes of the buffer that are filled so far are a second part of the state. -/
def readExactAt (offset total : ℕ) : OsM (List UInt8) := fun f =>
  match Pieces.transfer (readPiece offset total) (fun filled => .unexpectedEof total filled) total total 0 (f, []) with
  | .ok _ s => .ok s.2 s.1
  | .error e s => .error e s.1

/-- `write_all_at`. -/
def writeAllAt (offset : ℕ) (data : List UInt8) : OsM Unit :=
  Pieces.transfer (fun written => writeAt (offset + written) (data.drop written))
    (fun written => .shortWrite data.length written) data.length data.length 0

/-! ## The storage model -/

/-- The file has the content of the storage. -/
structure Holds (f : OsFile) (s : Storage) : Prop where
  data : f.data = s.data
  len : f.len = s.len

/-- The answers that are left are some of those at the start. -/
def LeftOver (start f : OsFile) : Prop :=
  ∀ answer ∈ f.answers, answer ∈ start.answers

theorem limit_cases (n : ℕ) (f : OsFile) :
    (∃ answers, limit n f = .error .io { f with answers } ∧ none ∈ f.answers) ∨
      ∃ k answers, k ≤ n ∧ limit n f = .ok k { f with answers } ∧ (∀ answer ∈ answers, answer ∈ f.answers) ∧
        (k = 0 → n = 0 ∨ some 0 ∈ f.answers) := by
  unfold limit
  cases hanswers : f.answers with
  | nil =>
      refine .inr ⟨n, f.answers, le_rfl, rfl, fun answer h => ?_, .inl⟩
      rwa [hanswers] at h
  | cons first rest =>
      cases first with
      | none => exact .inl ⟨_, rfl, List.mem_cons_self ..⟩
      | some k =>
          refine .inr ⟨min k n, rest, Nat.min_le_right .., rfl, fun answer h => List.mem_cons_of_mem _ h, fun hzero => ?_⟩
          rcases Nat.min_eq_zero_iff.mp hzero with hk | hn
          · rw [hk]
            exact .inr (List.mem_cons_self ..)
          · exact .inl hn

/-- A part of the buffer is filled. -/
theorem readAt_cases (offset n : ℕ) (f : OsFile) :
    (∃ f', readAt offset n f = .error .io f' ∧ none ∈ f.answers) ∨
      ∃ m answers, m ≤ n ∧ offset + m ≤ max offset f.len ∧ readAt offset n f = .ok (Memory.read f.data offset m) { f with answers } ∧
        (∀ answer ∈ answers, answer ∈ f.answers) ∧ (m = 0 → n = 0 ∨ f.len ≤ offset) := by
  unfold readAt
  rcases limit_cases n f with ⟨answers, hlimit, hnone⟩ | ⟨k, answers, hk, hlimit, hleft, -⟩
  · exact .inl ⟨_, bind_error hlimit, hnone⟩
  · refine .inr ⟨min (max k (min 1 n)) (f.len - offset), answers, by omega, by omega, ?_, hleft, by omega⟩
    rw [bind_ok hlimit, bind_ok (get_apply _)]
    rfl

/-- The buffer holds the bytes from `offset` on, as far as it is filled. -/
structure Filled (start : OsFile) (s : Storage) (offset filled : ℕ) (state : OsFile × List UInt8) : Prop where
  holds : Holds state.1 s
  left : LeftOver start state.1
  buffer : state.2 = Memory.read s.data offset filled
  inside : filled = 0 ∨ offset + filled ≤ s.len

theorem readPiece_spec {start : OsFile} {s : Storage} {offset total filled : ℕ} {state : OsFile × List UInt8}
    (h : Filled start s offset filled state) :
    (∃ state', readPiece offset total filled state = .error .io state' ∧ none ∈ start.answers) ∨
      ∃ n state', n ≤ total - filled ∧ readPiece offset total filled state = .ok n state' ∧
        Filled start s offset (filled + n) state' ∧ (n = 0 → total ≤ filled ∨ s.len ≤ offset + filled) := by
  unfold readPiece
  rcases readAt_cases (offset + filled) (total - filled) state.1 with
    ⟨f', hread, hnone⟩ | ⟨n, answers, hn, hin, hread, hleft, hstall⟩
  · rw [hread]
    exact .inl ⟨_, rfl, h.left _ hnone⟩
  · rw [hread]
    refine .inr ⟨n, ({ state.1 with answers }, state.2 ++ Memory.read state.1.data (offset + filled) n), hn, ?_,
      ⟨⟨h.holds.data, h.holds.len⟩, fun answer hmem => h.left _ (hleft answer hmem), ?_, ?_⟩, ?_⟩
    · show EStateM.Result.ok (Memory.read state.1.data (offset + filled) n).length _ = _
      rw [Memory.length_read]
    · show state.2 ++ Memory.read state.1.data (offset + filled) n = _
      rw [h.buffer, h.holds.data, Memory.read_add]
    · have hinside := h.inside
      rw [h.holds.len] at hin
      omega
    · rw [h.holds.len] at hstall
      omega

/-- **`read_exact_at` is a read of the model**, however many bytes each call of the file moves, unless one of
them fails. -/
theorem readExactAt_refines {f : OsFile} {s : Storage} {readOnly : Bool} (hbackend : s.backend = .file readOnly)
    (h : Holds f s) (offset total : ℕ) :
    (∃ f', readExactAt offset total f = .error .io f' ∧ none ∈ f.answers) ∨
      ∃ f', Holds f' s ∧
        ((∃ bytes, readExactAt offset total f = .ok bytes f' ∧ s.readResult offset total = .ok bytes) ∨
          ∃ actual, readExactAt offset total f = .error (.unexpectedEof total actual) f' ∧
            s.readResult offset total = .error (.unexpectedEof total actual)) := by
  have hpiece : ∀ filled state n state', filled < total → Filled f s offset filled state →
      readPiece offset total filled state = .ok n state' → filled + n ≤ total ∧ Filled f s offset (filled + n) state' := by
    intro filled state n state' hlt hfilled hrun
    rcases @readPiece_spec f s offset total filled _ hfilled with ⟨state₁, herror, -⟩ | ⟨m, state₁, hm, hok, hnext, -⟩
    · cases hrun.symm.trans herror
    · cases hrun.symm.trans hok
      exact ⟨by omega, hnext⟩
  have hresult : s.readResult offset total =
      if total = 0 ∨ offset + total ≤ s.len then .ok (Memory.read s.data offset total)
      else .error (.unexpectedEof total (s.len - offset)) := by
    unfold Storage.readResult
    rw [hbackend]
  have hends := Pieces.transfer_ends (fun filled => OsError.unexpectedEof total filled) hpiece
    (show total - 0 ≤ total from Nat.sub_le ..) (Nat.zero_le total)
    (show Filled f s offset 0 (f, []) from ⟨h, fun _ hmem => hmem, rfl, .inl rfl⟩)
  unfold readExactAt
  cases hrun : Pieces.transfer (readPiece offset total) (fun filled => .unexpectedEof total filled) total total 0 (f, []) with
  | ok _ state =>
      rw [hrun] at hends
      have hall : Filled f s offset total state := hends
      refine .inr ⟨state.1, hall.holds, .inl ⟨state.2, rfl, ?_⟩⟩
      rw [hresult, if_pos hall.inside, hall.buffer]
  | error e state =>
      rw [hrun] at hends
      obtain ⟨filled, hlt, before, hfilled, hlast⟩ := hends
      rcases @readPiece_spec f s offset total filled _ hfilled with ⟨state₁, herror, hnone⟩ | ⟨m, state₁, hm, hok, hnext, hstall⟩
      · rcases hlast with ⟨hok, -⟩ | herror'
        · cases hok.symm.trans herror
        · cases herror'.symm.trans herror
          exact .inl ⟨state.1, rfl, hnone⟩
      · rcases hlast with ⟨hzero, rfl⟩ | herror
        · cases hzero.symm.trans hok
          -- nothing is read behind the end of the file
          have hend := (hstall rfl).resolve_left (Nat.not_le.mpr hlt)
          have hinside := hfilled.inside
          have hbeyond : ¬ (total = 0 ∨ offset + total ≤ s.len) := by omega
          have hactual : s.len - offset = filled := by omega
          refine .inr ⟨state.1, hnext.holds, .inr ⟨filled, rfl, ?_⟩⟩
          rw [hresult, if_neg hbeyond, hactual]
        · cases herror.symm.trans hok

/-- A file of eight bytes, whose first calls move three bytes at most. -/
def shortFile : OsFile where
  data _ := 7
  len := 8
  answers := [some 3, some 3]

def shortStorage : Storage where
  backend := .file false
  size := 8
  data _ := 7

theorem holds_shortFile : Holds shortFile shortStorage :=
  ⟨rfl, rfl⟩

/-- A read that reaches behind the end of the file. -/
theorem readExactAt_refines_short : ∃ f', Holds f' shortStorage ∧
    ((∃ bytes, readExactAt 2 8 shortFile = .ok bytes f' ∧ shortStorage.readResult 2 8 = .ok bytes) ∨
      ∃ actual, readExactAt 2 8 shortFile = .error (.unexpectedEof 8 actual) f' ∧
        shortStorage.readResult 2 8 = .error (.unexpectedEof 8 actual)) :=
  (readExactAt_refines rfl holds_shortFile 2 8).resolve_left fun ⟨_, _, hnone⟩ => by simp [shortFile] at hnone

/-! ## Writing -/

/-- The first bytes of the data are in the file. -/
structure Written (start : OsFile) (s : Storage) (offset : ℕ) (data : List UInt8) (written : ℕ) (f : OsFile) : Prop where
  holds : Holds f (s.written offset (data.take written))
  left : LeftOver start f

theorem holds_written {f : OsFile} {s : Storage} {offset : ℕ} {data : List UInt8} {written k : ℕ}
    (h : Holds f (s.written offset (data.take written))) (hk : 0 < k) (hle : written + k ≤ data.length) (answers : List (Option ℕ)) :
    Holds { data := Memory.write f.data (offset + written) ((data.drop written).take k)
            len := max f.len (offset + written + k)
            answers } (s.written offset (data.take (written + k))) := by
  have hlength : (data.take written).length = written := by
    rw [List.length_take]
    omega
  have hlength' : (data.take (written + k)).length = written + k := by
    rw [List.length_take]
    omega
  constructor
  · show Memory.write f.data (offset + written) ((data.drop written).take k) = Memory.write s.data offset (data.take (written + k))
    have happend := Memory.write_append s.data offset (data.take written) ((data.drop written).take k)
    rw [hlength] at happend
    rw [h.data, List.take_add, ← happend]
    rfl
  · have hne : data.take (written + k) ≠ [] := by
      intro hnil
      rw [hnil, List.length_nil] at hlength'
      omega
    have hlen := h.len
    unfold Storage.len Storage.written at hlen ⊢
    dsimp only at hlen ⊢
    rw [if_neg hne, hlength']
    by_cases hfirst : data.take written = []
    · rw [if_pos hfirst] at hlen
      rw [hfirst, List.length_nil] at hlength
      omega
    · rw [if_neg hfirst, hlength] at hlen
      omega

theorem writePiece_spec {start : OsFile} {s : Storage} {offset : ℕ} {data : List UInt8} {written : ℕ} {f : OsFile}
    (h : Written start s offset data written f) (hlt : written < data.length) :
    (∃ f', writeAt (offset + written) (data.drop written) f = .error .io f' ∧ Holds f' (s.written offset (data.take written)) ∧
        none ∈ start.answers) ∨
      ∃ k f', written + k ≤ data.length ∧ writeAt (offset + written) (data.drop written) f = .ok k f' ∧
        Written start s offset data (written + k) f' ∧ (k = 0 → some 0 ∈ start.answers) := by
  unfold writeAt
  rcases limit_cases (data.drop written).length f with ⟨answers, hlimit, hnone⟩ | ⟨k, answers, hk, hlimit, hleft, hzero⟩
  · exact .inl ⟨_, bind_error hlimit, ⟨h.holds.data, h.holds.len⟩, h.left _ hnone⟩
  · rw [List.length_drop] at hk hzero
    rw [bind_ok hlimit]
    have hkept : ∀ answer ∈ answers, answer ∈ start.answers := fun answer hmem => h.left answer (hleft answer hmem)
    by_cases hnone : k = 0
    · rw [hnone] at hzero ⊢
      have hstall : some 0 ∈ start.answers := h.left _ ((hzero rfl).resolve_left (by omega))
      exact .inr ⟨0, _, hlt.le, rfl, ⟨⟨h.holds.data, h.holds.len⟩, hkept⟩, fun _ => hstall⟩
    · rw [if_pos hnone]
      exact .inr ⟨k, _, by omega, rfl, ⟨holds_written h.holds (Nat.pos_of_ne_zero hnone) (by omega) answers, hkept⟩,
        fun hk => absurd hk hnone⟩

/-- **`write_all_at` is a write of the model** if it returns; if it does not, a first part of the data is in
the file, and the rest of the file is as it was.  It returns if each call moves something. -/
theorem writeAllAt_refines {f : OsFile} {s : Storage} (hbackend : s.backend = .file false) (hfaults : s.faults = [])
    (h : Holds f s) (offset : ℕ) (data : List UInt8) :
    (∃ f' s', writeAllAt offset data f = .ok () f' ∧ StorageM.writeBytes offset data s = .ok () s' ∧ Holds f' s') ∨
      ∃ e f', writeAllAt offset data f = .error e f' ∧ ∃ k < data.length, Holds f' (s.written offset (data.take k)) ∧
        (e = .io ∧ none ∈ f.answers ∨ e = .shortWrite data.length k ∧ some 0 ∈ f.answers) := by
  have hpiece : ∀ written f₁ n f₂, written < data.length → Written f s offset data written f₁ →
      writeAt (offset + written) (data.drop written) f₁ = .ok n f₂ →
      written + n ≤ data.length ∧ Written f s offset data (written + n) f₂ := by
    intro written f₁ n f₂ hlt hwritten hrun
    rcases writePiece_spec hwritten hlt with ⟨f', herror, -⟩ | ⟨k, f', hle, hok, hnext, -⟩
    · cases hrun.symm.trans herror
    · cases hrun.symm.trans hok
      exact ⟨hle, hnext⟩
  have hnothing : Written f s offset data 0 f := by
    refine ⟨⟨h.data.trans (Memory.write_nil s.data offset).symm, ?_⟩, fun _ hmem => hmem⟩
    rw [List.take_zero]
    exact h.len
  have hends := Pieces.transfer_ends (fun written => OsError.shortWrite data.length written) hpiece
    (show data.length - 0 ≤ data.length from Nat.sub_le ..) (Nat.zero_le _) hnothing
  unfold writeAllAt
  cases hrun : Pieces.transfer (fun written => writeAt (offset + written) (data.drop written))
      (fun written => .shortWrite data.length written) data.length data.length 0 f with
  | ok _ f' =>
      rw [hrun] at hends
      have hall : Written f s offset data data.length f' := hends
      have hholds := hall.holds
      rw [List.take_length] at hholds
      have haccepted : s.writeRefused offset data.length = none := by
        unfold Storage.writeRefused
        rw [hbackend]
        rfl
      exact .inl ⟨f', _, rfl, StorageM.writeBytes_ok hfaults haccepted, hholds.data, hholds.len⟩
  | error e f' =>
      rw [hrun] at hends
      obtain ⟨written, hlt, before, hwritten, hlast⟩ := hends
      refine .inr ⟨e, f', rfl, written, hlt, ?_⟩
      rcases writePiece_spec hwritten hlt with ⟨f₁, herror, hholds, hnone⟩ | ⟨k, f₁, hle, hok, hnext, hstall⟩
      · rcases hlast with ⟨hok, -⟩ | herror'
        · cases hok.symm.trans herror
        · cases herror'.symm.trans herror
          exact ⟨hholds, .inl ⟨rfl, hnone⟩⟩
      · rcases hlast with ⟨hzero, rfl⟩ | herror
        · cases hzero.symm.trans hok
          exact ⟨hnext.holds, .inr ⟨rfl, hstall rfl⟩⟩
        · cases herror.symm.trans hok

/-- Seven bytes are written by three calls. -/
theorem writeAllAt_refines_short : ∃ f' s', writeAllAt 4 [1, 2, 3, 4, 5, 6, 7] shortFile = .ok () f' ∧
    StorageM.writeBytes 4 [1, 2, 3, 4, 5, 6, 7] shortStorage = .ok () s' ∧ Holds f' s' := by
  refine (writeAllAt_refines rfl rfl holds_shortFile 4 [1, 2, 3, 4, 5, 6, 7]).resolve_right ?_
  rintro ⟨e, f', -, k, -, -, ⟨-, hnone⟩ | ⟨-, hstall⟩⟩
  · simp [shortFile] at hnone
  · simp [shortFile] at hstall

end OsFile

end JfsFuse
