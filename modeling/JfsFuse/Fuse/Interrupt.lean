import JfsFuse.Lib.Signals
import JfsFuse.Types

/-!
# Interrupts

A request is registered under the `unique` of its header, and is given a token; `FUSE_INTERRUPT`
carries the `unique` of the request that it is about.  A request without a `unique` of its own is
registered under the next number of a counter.  The calls of all threads take effect one after the
other, since each holds the mutex around the flags.

A request that is registered under an identifier in use takes the place of the request before it,
whose token is then out of reach; nothing in `InterruptManager` keeps the numbers of the counter
apart from those of the kernel.
-/

namespace JfsFuse

/-- An `InterruptToken`: the request, and the flag that it shares with the manager. -/
structure InterruptToken where
  id : ℕ
  flag : ℕ
  deriving DecidableEq, Repr

structure InterruptManager where
  nextId : ℕ
  flags : Signals ℕ

namespace InterruptManager

/-- `new`. -/
def new : InterruptManager where
  nextId := 1
  flags := .empty

/-- `register_at`. -/
def registerAt (m : InterruptManager) (requestId : ℕ) : InterruptToken × InterruptManager :=
  ({ id := requestId, flag := m.flags.cells.length }, { m with flags := m.flags.bind requestId })

/-- `register`.  The counter is a `u64`. -/
def register (m : InterruptManager) : InterruptToken × InterruptManager :=
  let (token, m') := m.registerAt m.nextId
  (token, { m' with nextId := (m.nextId + 1) % 2 ^ 64 })

/-- `interrupt`: whether the request was found. -/
def interrupt (m : InterruptManager) (id : ℕ) : Bool × InterruptManager :=
  let (found, flags) := m.flags.raise id
  (found, { m with flags })

/-- `deregister`. -/
def deregister (m : InterruptManager) (id : ℕ) : InterruptManager :=
  { m with flags := m.flags.release id }

/-- `pending_count`. -/
def pendingCount (m : InterruptManager) : ℕ :=
  m.flags.flags.keys.card

/-- `is_interrupted` of a token. -/
def isInterrupted (m : InterruptManager) (token : InterruptToken) : Bool :=
  m.flags.raised token.flag

end InterruptManager

/-- A call of `InterruptManager`. -/
inductive InterruptCall
  | register
  | registerAt (requestId : ℕ)
  | interrupt (id : ℕ)
  | deregister (id : ℕ)
  deriving DecidableEq, Repr

namespace InterruptManager

def perform (m : InterruptManager) : InterruptCall → InterruptManager
  | .register => m.register.2
  | .registerAt requestId => (m.registerAt requestId).2
  | .interrupt id => (m.interrupt id).2
  | .deregister id => m.deregister id

/-- The calls of all threads, in the order in which they take effect. -/
def performAll (m : InterruptManager) (calls : List InterruptCall) : InterruptManager :=
  calls.foldl perform m

/-- What calls do with the flags, when `nextId` is the next number of the counter. -/
def flagSteps : ℕ → List InterruptCall → List (Signals.Step ℕ)
  | _, [] => []
  | nextId, .register :: rest => .bind nextId :: flagSteps ((nextId + 1) % 2 ^ 64) rest
  | nextId, .registerAt requestId :: rest => .bind requestId :: flagSteps nextId rest
  | nextId, .interrupt id :: rest => .raise id :: flagSteps nextId rest
  | nextId, .deregister id :: rest => .release id :: flagSteps nextId rest

theorem flags_performAll (m : InterruptManager) (calls : List InterruptCall) :
    (m.performAll calls).flags = m.flags.run (flagSteps m.nextId calls) := by
  induction calls generalizing m with
  | nil => rfl
  | cons call rest ih =>
      have hrest : (m.performAll (call :: rest)).flags = (m.perform call).flags.run (flagSteps (m.perform call).nextId rest) :=
        ih (m.perform call)
      rw [hrest]
      cases call <;> rfl

/-- A token that was just given to a request is raised by interrupts of the request. -/
theorem isInterrupted_registerAt (m : InterruptManager) (id : ℕ) (calls : List InterruptCall) :
    ((m.registerAt id).2.performAll calls).isInterrupted (m.registerAt id).1 = true ↔
      Signals.RaisedFirst id (flagSteps m.nextId calls) := by
  have hlookup : (m.flags.bind id).flags.lookup id = some m.flags.cells.length :=
    (m.flags.lookup_bind id id).trans (if_pos rfl)
  have hfresh : (m.flags.bind id).raised m.flags.cells.length = false := by
    show (m.flags.cells ++ [false]).getD m.flags.cells.length false = false
    rw [List.getD_eq_getElem?_getD, List.getElem?_append_right le_rfl, Nat.sub_self]
    rfl
  unfold isInterrupted
  rw [flags_performAll]
  refine (Signals.raised_run_iff hlookup _).trans (or_iff_right ?_)
  intro hraised
  exact absurd (hfresh.symm.trans hraised) (by decide)

/-- **The life of a request.**  A token is raised exactly by an interrupt of its request that arrives
before the request is registered again or deregistered, whatever the other requests do; an interrupt
finds a request exactly when it was registered and not deregistered since, and these are the requests
that are counted. -/
theorem request_lifecycle (before : List InterruptCall) :
    (∀ id after, (((new.performAll before).registerAt id).2.performAll after).isInterrupted
          ((new.performAll before).registerAt id).1 = true ↔
        Signals.RaisedFirst id (flagSteps (new.performAll before).nextId after)) ∧
      (∀ after, ((new.performAll before).register.2.performAll after).isInterrupted
          (new.performAll before).register.1 = true ↔
        Signals.RaisedFirst (new.performAll before).nextId
          (flagSteps (((new.performAll before).nextId + 1) % 2 ^ 64) after)) ∧
      (∀ id, ((new.performAll before).interrupt id).1 = true ↔ Signals.BoundLast id (flagSteps 1 before)) ∧
      ∃ pending : Finset ℕ, (new.performAll before).pendingCount = pending.card ∧
        ∀ id, id ∈ pending ↔ Signals.BoundLast id (flagSteps 1 before) := by
  have hbound : ∀ id, ((new.performAll before).flags.flags.lookup id).isSome = true ↔
      Signals.BoundLast id (flagSteps 1 before) := by
    intro id
    rw [flags_performAll]
    exact Signals.isSome_lookup_run_iff id _
  refine ⟨fun id after => isInterrupted_registerAt _ id after, fun after => ?_, fun id => ?_, _, rfl, fun id => ?_⟩
  · exact isInterrupted_registerAt { new.performAll before with
      nextId := ((new.performAll before).nextId + 1) % 2 ^ 64 } (new.performAll before).nextId after
  · refine Iff.trans ?_ (hbound id)
    unfold interrupt Signals.raise
    cases (new.performAll before).flags.flags.lookup id <;> simp
  · rw [Finmap.mem_keys, ← Finmap.lookup_isSome]
    exact hbound id

end InterruptManager

end JfsFuse
