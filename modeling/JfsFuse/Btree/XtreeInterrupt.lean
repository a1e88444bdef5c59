import JfsFuse.Btree.Xtree
import JfsFuse.Lib.Polled

/-!
# Reads that can be interrupted

`read_data_checked` asks its token before each block that it reads.  The answers to come are a list,
as they are for writes.
-/

namespace JfsFuse

open ByteBuf Program

/-- `InterruptToken::check`, between two accesses to the device. -/
def StorageM.checkToken (token : List Bool) : StorageM (List Bool) :=
  match token with
  | true :: _ => throw .interrupted
  | _ => return token.tail

namespace Xtree

/-- The loop of `read_data_checked` over the blocks of a part. -/
def readRunChecked : ℕ → ℕ → ReadState × List Bool → StorageM (ReadState × List Bool)
  | _, 0, state => return state
  | block, count + 1, (s, token) => do
      if s.remaining = 0 then return (s, token)
      else
        let token ← StorageM.checkToken token
        let data ← StorageM.readBlock block
        let toCopy := min (blockSize - s.bufOffset) s.remaining
        let bytes ← returnExcept (sliceOrPanic data s.bufOffset toCopy)
        readRunChecked (block + 1) count
          ({ result := s.result ++ bytes, remaining := s.remaining - toCopy, bufOffset := 0 }, token)

/-- The loop of `read_data_checked` over the parts; address 0 stands for a hole. -/
def readPartsChecked : List (ℕ × ℕ) → ReadState × List Bool → StorageM (ReadState × List Bool)
  | [], state => return state
  | (blockAddr, blockCount) :: rest, (s, token) => do
      if blockAddr = 0 then
        let n := min (blockCount * blockSize) s.remaining
        let s : ReadState :=
          { result := s.result ++ zeros n, remaining := s.remaining - n, bufOffset := 0 }
        if s.remaining = 0 then return (s, token) else readPartsChecked rest (s, token)
      else readPartsChecked rest (← readRunChecked blockAddr blockCount (s, token))

/-- `read_data_checked`. -/
def readDataChecked (xt : Xtree) (offset length : ℕ) (token : List Bool) : StorageM (List UInt8) := do
  let fsbOffset := offset / blockSize
  let byteOffset := offset % blockSize
  let fsbCount := (length + byteOffset + blockSize - 1) / blockSize
  let (s, _) ← readPartsChecked (xt.mapBlocks fsbOffset fsbCount)
    ({ remaining := length, bufOffset := byteOffset }, token)
  return s.result.take length

/-! ## The polls -/

theorem checkToken_eq (token : List Bool) (s : Storage) : StorageM.checkToken token s =
    if token.headD false then .error .interrupted s else .ok token.tail s := by
  unfold StorageM.checkToken
  rcases token with _ | ⟨_ | _, rest⟩ <;> rfl

/-- Answers are left over beside the variables of the loops. -/
def leaveToken (token : List Bool) (state : ReadState × List Bool) : ReadState × List Bool :=
  (state.1, token)

theorem polled_readRunChecked (block count : ℕ) (s : ReadState) :
    Polled .interrupted leaveToken fun token => readRunChecked block count (s, token) := by
  induction count generalizing block s with
  | zero => exact .of_eq fun _ _ => rfl
  | succ count ih =>
      unfold readRunChecked
      apply Polled.ite
      · exact .of_eq fun _ _ => rfl
      · apply Polled.check checkToken_eq
        apply Polled.after
        intro data
        apply Polled.after
        intro bytes
        exact ih _ _

theorem polled_readPartsChecked (parts : List (ℕ × ℕ)) (s : ReadState) :
    Polled .interrupted leaveToken fun token => readPartsChecked parts (s, token) := by
  induction parts generalizing s with
  | nil => exact .of_eq fun _ _ => rfl
  | cons part rest ih =>
      obtain ⟨blockAddr, blockCount⟩ := part
      unfold readPartsChecked
      apply Polled.ite
      · apply Polled.ite
        · exact .of_eq fun _ _ => rfl
        · exact ih _
      · apply Polled.bind (polled_readRunChecked blockAddr blockCount s)
        intro state
        exact ih _

theorem polled_readDataChecked (xt : Xtree) (offset length : ℕ) :
    Polled .interrupted (fun _ bytes => bytes) (xt.readDataChecked offset length) := by
  unfold readDataChecked
  apply Polled.bind (polled_readPartsChecked _ _)
  intro state
  exact .of_eq fun _ _ => rfl

/-! ## Without an interrupt -/

theorem readRunChecked_nil (block count : ℕ) (s : ReadState) :
    readRunChecked block count (s, []) = do return (← readRun block count s, []) := by
  induction count generalizing block s with
  | zero => rfl
  | succ count ih =>
      unfold readRunChecked readRun
      split
      · rfl
      · have hpoll : StorageM.checkToken [] = pure [] := rfl
        simp only [hpoll, pure_bind, ih, bind_assoc]

theorem readPartsChecked_nil (parts : List (ℕ × ℕ)) (s : ReadState) :
    readPartsChecked parts (s, []) = do return (← readParts parts s, []) := by
  induction parts generalizing s with
  | nil => rfl
  | cons part rest ih =>
      obtain ⟨blockAddr, blockCount⟩ := part
      unfold readPartsChecked readParts
      split
      · simp only
        split
        · rfl
        · exact ih _
      · rw [readRunChecked_nil, bind_assoc, bind_assoc]
        simp only [pure_bind, ih]

theorem readDataChecked_nil (xt : Xtree) (offset length : ℕ) :
    xt.readDataChecked offset length [] = xt.readData offset length := by
  unfold readDataChecked readData
  simp only [readPartsChecked_nil, bind_assoc, pure_bind]

end Xtree

end JfsFuse
