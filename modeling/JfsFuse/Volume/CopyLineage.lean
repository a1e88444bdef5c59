import JfsFuse.Volume.CacheCopies
import Mathlib.Data.Finset.Insert

/-!
# Copies that are cloned from one another

Every inode that a transaction updates has its own copy of its block.  A new copy is
cloned from the copy that was used last, later updates of other inodes do not reach it,
and a commit writes all the copies one after the other, in the order of their first marks.

Which updates survive therefore depends on the order of the calls alone.  `Tracker`
follows the copy that has all the updates so far: it is lost for good when an update
starts from another copy.  The content of a copy is of any type here, so that the same
run can be made on bytes and on sets of updates.
-/

namespace JfsFuse

/-- A call on the pages of one block. -/
inductive PageCall
  | update (ino : UInt32)
  | mark (ino : UInt32)
  deriving DecidableEq, Repr

namespace PageCall

def ino : PageCall → UInt32
  | update ino => ino
  | mark ino => ino

def isUpdate : PageCall → Bool
  | update _ => true
  | mark _ => false

/-- The inodes marked, in the order of their first marks. -/
def addMark (marks : List UInt32) : PageCall → List UInt32
  | update _ => marks
  | mark ino => if ino ∈ marks then marks else marks ++ [ino]

def firstMarks (calls : List PageCall) : List UInt32 :=
  calls.foldl addMark []

end PageCall

/-- A call and, for an update, the change it makes. -/
abbrev Change (α : Type) := PageCall × (α → α)

/-- The updates, one after the other, on one content. -/
def Change.applyAll {α : Type} : List (Change α) → α → α
  | [], data => data
  | (.update _, f) :: rest, data => applyAll rest (f data)
  | (.mark _, _) :: rest, data => applyAll rest data

/-! ## The copies of a block -/

/-- The inodes that have a copy, in order of use, and what is in it. -/
structure Lineage (α : Type) where
  order : List UInt32
  data : UInt32 → α

namespace Lineage

section Steps

variable {α : Type} (original : α)

def empty : Lineage α :=
  ⟨[], fun _ => original⟩

def update (ino : UInt32) (f : α → α) (l : Lineage α) : Lineage α where
  order := ino :: l.order.filter (· ≠ ino)
  data := Function.update l.data ino (f (Volume.source l.order l.data original ino))

def mark (ino : UInt32) (l : Lineage α) : Lineage α where
  order := if ino ∈ l.order then ino :: l.order.filter (· ≠ ino) else l.order
  data := l.data

def step (l : Lineage α) : Change α → Lineage α
  | (.update ino, f) => l.update original ino f
  | (.mark ino, _) => l.mark ino

def run (changes : List (Change α)) (l : Lineage α) : Lineage α :=
  changes.foldl (step original) l

theorem run_append (first second : List (Change α)) (l : Lineage α) :
    l.run original (first ++ second) = (l.run original first).run original second :=
  List.foldl_append

theorem mem_mark {ino i : UInt32} {l : Lineage α} : i ∈ (l.mark ino).order ↔ i ∈ l.order := by
  unfold mark
  by_cases hino : ino ∈ l.order
  · by_cases heq : i = ino
    · simp [heq, hino]
    · simp [hino, heq]
  · simp [hino]

theorem mem_update {ino i : UInt32} {l : Lineage α} {f : α → α} :
    i ∈ (l.update original ino f).order ↔ i = ino ∨ i ∈ l.order := by
  unfold update
  by_cases heq : i = ino
  · simp [heq]
  · simp [heq]

theorem data_update_self (l : Lineage α) (ino : UInt32) (f : α → α) :
    (l.update original ino f).data ino = f (Volume.source l.order l.data original ino) :=
  Function.update_self ..

theorem data_update_of_ne (l : Lineage α) {ino i : UInt32} (h : i ≠ ino) (f : α → α) :
    (l.update original ino f).data i = l.data i :=
  Function.update_of_ne h ..

/-- An update starts from the original or from one of the copies. -/
theorem source_of_forall {P : α → Prop} {l : Lineage α} (horiginal : P original)
    (h : ∀ i ∈ l.order, P (l.data i)) (ino : UInt32) :
    P (Volume.source l.order l.data original ino) := by
  unfold Volume.source
  split
  · next hino => exact h ino hino
  · cases horder : l.order with
    | nil => exact horiginal
    | cons first rest => exact h first (horder ▸ List.mem_cons_self ..)

/-- What every copy has, if the updates preserve it. -/
theorem forall_step {P : α → Prop} {l : Lineage α} (horiginal : P original)
    (h : ∀ i ∈ l.order, P (l.data i)) {change : Change α} (hchange : ∀ a, P a → P (change.2 a)) :
    ∀ i ∈ (l.step original change).order, P ((l.step original change).data i) := by
  obtain ⟨call, f⟩ := change
  intro i hi
  cases call with
  | update ino =>
      show P ((l.update original ino f).data i)
      by_cases heq : i = ino
      · rw [heq, data_update_self]
        exact hchange _ (source_of_forall original horiginal h ino)
      · rw [data_update_of_ne original l heq]
        exact h i (((mem_update original).mp hi).resolve_left heq)
  | mark ino => exact h i (mem_mark.mp hi)

theorem forall_run {P : α → Prop} {l : Lineage α} (horiginal : P original)
    (h : ∀ i ∈ l.order, P (l.data i)) {changes : List (Change α)}
    (hchanges : ∀ change ∈ changes, ∀ a, P a → P (change.2 a)) :
    ∀ i ∈ (l.run original changes).order, P ((l.run original changes).data i) := by
  induction changes generalizing l with
  | nil => exact h
  | cons change rest ih =>
      exact ih (forall_step original horiginal h (hchanges change (List.mem_cons_self ..)))
        fun c hc => hchanges c (List.mem_cons_of_mem _ hc)

/-- The inodes with a copy are those of the updates. -/
theorem mem_run {l : Lineage α} {changes : List (Change α)} {i : UInt32} :
    i ∈ (l.run original changes).order ↔ i ∈ l.order ∨ .update i ∈ changes.map Prod.fst := by
  induction changes generalizing l with
  | nil => simp [run]
  | cons change rest ih =>
      obtain ⟨call, f⟩ := change
      refine Iff.trans ih ?_
      rw [List.map_cons, List.mem_cons]
      cases call with
      | update ino =>
          show i ∈ (l.update original ino f).order ∨ _ ↔ _
          rw [mem_update, PageCall.update.injEq, or_comm (a := i = ino), or_assoc]
      | mark ino =>
          show i ∈ (l.mark ino).order ∨ _ ↔ _
          rw [mem_mark]
          simp

end Steps

/-! ## Two runs of the same calls -/

/-- The same copies, with contents related by `R`. -/
structure Related {α β : Type} (R : α → β → Prop) (l : Lineage α) (m : Lineage β) : Prop where
  order : l.order = m.order
  data : ∀ i, R (l.data i) (m.data i)

variable {α β : Type} {R : α → β → Prop} {a : α} {b : β} {l : Lineage α} {m : Lineage β}

theorem Related.source (h : Related R l m) (hstart : R a b) (ino : UInt32) :
    R (Volume.source l.order l.data a ino) (Volume.source m.order m.data b ino) := by
  unfold Volume.source
  rw [h.order]
  split
  · exact h.data ino
  · cases m.order with
    | nil => exact hstart
    | cons first rest => exact h.data first

theorem Related.step (h : Related R l m) (hstart : R a b) {c : Change α} {d : Change β}
    (hcall : c.1 = d.1) (hchange : ∀ x y, R x y → R (c.2 x) (d.2 y)) :
    Related R (l.step a c) (m.step b d) := by
  obtain ⟨call, f⟩ := c
  obtain ⟨_, g⟩ := d
  cases hcall
  cases call with
  | update ino =>
      refine ⟨congrArg (fun order => ino :: List.filter (· ≠ ino) order) h.order, fun i => ?_⟩
      show R ((l.update a ino f).data i) ((m.update b ino g).data i)
      by_cases heq : i = ino
      · rw [heq, data_update_self, data_update_self]
        exact hchange _ _ (h.source hstart ino)
      · rw [data_update_of_ne a l heq, data_update_of_ne b m heq]
        exact h.data i
  | mark ino =>
      refine ⟨?_, h.data⟩
      show (if ino ∈ l.order then _ else _) = (if ino ∈ m.order then _ else _)
      rw [h.order]

/-- **Related changes** keep the copies related. -/
theorem Related.run (hstart : R a b) {changes : List (Change α)} {changes' : List (Change β)}
    (hchanges : List.Forall₂
      (fun c d => c.1 = d.1 ∧ ∀ x y, R x y → R (c.2 x) (d.2 y)) changes changes') :
    ∀ {l : Lineage α} {m : Lineage β}, Related R l m →
      Related R (l.run a changes) (m.run b changes') := by
  induction hchanges with
  | nil => exact fun h => h
  | cons hfirst _ ih => exact fun h => ih (h.step hstart hfirst.1 hfirst.2)

end Lineage

/-! ## Which copy has all the updates -/

/-- The inodes with a copy, the one whose copy has all the updates so far, and whether
that copy was the one used last. -/
structure Tracker where
  updated : List UInt32 := []
  current : Option UInt32 := none
  fresh : Bool := true
  deriving DecidableEq, Repr

namespace Tracker

/-- `none` when the call makes an update that starts from a copy without all the others. -/
def step (t : Tracker) : PageCall → Option Tracker
  | .update ino =>
      if t.current = some ino then some { t with fresh := true }
      else if ino ∉ t.updated ∧ t.fresh then
        some { updated := ino :: t.updated, current := some ino, fresh := true }
      else none
  | .mark ino =>
      if t.current = some ino then some { t with fresh := true }
      else if ino ∈ t.updated then some { t with fresh := false }
      else some t

def run (t : Tracker) : List PageCall → Option Tracker
  | [] => some t
  | call :: rest => (t.step call).bind fun t => t.run rest

/-- What an update that keeps the copy did. -/
theorem of_step_update {t t' : Tracker} {ino : UInt32} (h : t.step (.update ino) = some t') :
    t'.current = some ino ∧ t'.fresh = true ∧ (∀ i, i ∈ t'.updated ↔ i = ino ∨ i ∈ t.updated) ∧
      (t.current = some ino ∨ ino ∉ t.updated ∧ t.fresh = true) ∨
    t.current = some ino ∧ t' = { t with fresh := true } := by
  unfold step at h
  simp only at h
  split at h
  · next hcurrent =>
      cases h
      exact Or.inr ⟨hcurrent, rfl⟩
  · split at h
    · next hnew =>
        cases h
        exact Or.inl ⟨rfl, rfl, fun i => List.mem_cons, Or.inr hnew⟩
    · cases h

/-- Where a run stops. -/
theorem exists_of_run_none {t : Tracker} {calls : List PageCall} (h : t.run calls = none) :
    ∃ before ino rest t', calls = before ++ .update ino :: rest ∧ t.run before = some t' ∧
      t'.step (.update ino) = none := by
  induction calls generalizing t with
  | nil => cases h
  | cons call rest ih =>
      cases hstep : t.step call with
      | none =>
          cases call with
          | update ino => exact ⟨[], ino, rest, t, rfl, rfl, hstep⟩
          | mark ino =>
              unfold step at hstep
              simp only at hstep
              split at hstep
              · cases hstep
              · split at hstep <;> cases hstep
      | some t' =>
          have hrest : t'.run rest = none := by
            rw [run, hstep] at h
            exact h
          obtain ⟨before, ino, after, t'', rfl, hbefore, hnone⟩ := ih hrest
          refine ⟨call :: before, ino, after, t'', rfl, ?_, hnone⟩
          rw [run, hstep]
          exact hbefore

/-- The copies of a lineage as the tracker sees them; `all` is the content with all the
updates. -/
structure Follows {α : Type} (t : Tracker) (l : Lineage α) (original all : α) : Prop where
  members : ∀ i, i ∈ t.updated ↔ i ∈ l.order
  nothing : t.current = none → l.order = [] ∧ all = original ∧ t.fresh = true
  complete : ∀ c, t.current = some c → c ∈ l.order ∧ l.data c = all
  first : ∀ c, t.current = some c → (t.fresh = true ↔ l.order.head? = some c)

section Follows

variable {α : Type} {t t' : Tracker} {l : Lineage α} {original all : α}

theorem follows_empty (original : α) : Follows {} (.empty original) original original :=
  ⟨fun _ => Iff.rfl, fun _ => ⟨rfl, rfl, rfl⟩, nofun, nofun⟩

/-- The new content of a copy is made from one with all the updates. -/
theorem Follows.source (h : Follows t l original all) {ino : UInt32}
    (hok : t.current = some ino ∨ ino ∉ t.updated ∧ t.fresh = true) :
    Volume.source l.order l.data original ino = all := by
  rcases hok with hcurrent | ⟨hnew, hfresh⟩
  · obtain ⟨hmem, hdata⟩ := h.complete ino hcurrent
    unfold Volume.source
    rw [if_pos hmem, hdata]
  · have hmem : ino ∉ l.order := fun hin => hnew ((h.members ino).mpr hin)
    unfold Volume.source
    rw [if_neg hmem]
    cases hcurrent : t.current with
    | none =>
        obtain ⟨horder, hall, -⟩ := h.nothing hcurrent
        rw [horder, hall]
        rfl
    | some c =>
        rw [(h.first c hcurrent).mp hfresh]
        exact (h.complete c hcurrent).2

/-- After an update the copy of its inode has all the updates, and was used last. -/
theorem follows_of_update {ino : UInt32} {f : α → α}
    (hdata : f (Volume.source l.order l.data original ino) = all)
    (hmembers : ∀ i, i ∈ t.updated ↔ i = ino ∨ i ∈ l.order) (hcurrent : t.current = some ino)
    (hfresh : t.fresh = true) : Follows t (l.update original ino f) original all := by
  refine ⟨fun i => ?_, fun hnone => ?_, fun c hc => ?_, fun c hc => ?_⟩
  · rw [hmembers, Lineage.mem_update]
  · rw [hcurrent] at hnone
    cases hnone
  · rw [hcurrent] at hc
    cases hc
    exact ⟨(Lineage.mem_update original).mpr (Or.inl rfl),
      (Lineage.data_update_self original l ino f).trans hdata⟩
  · rw [hcurrent] at hc
    cases hc
    exact iff_of_true hfresh rfl

theorem Follows.update (h : Follows t l original all) {ino : UInt32} (f : α → α)
    (hstep : t.step (.update ino) = some t') :
    Follows t' (l.update original ino f) original (f all) := by
  rcases of_step_update hstep with ⟨hcurrent, hfresh, hmembers, hok⟩ | ⟨hcurrent, rfl⟩
  · refine follows_of_update (congrArg f (h.source hok)) (fun i => ?_) hcurrent hfresh
    rw [hmembers, h.members]
  · refine follows_of_update (congrArg f (h.source (Or.inl hcurrent))) (fun i => ?_) hcurrent rfl
    rw [h.members i]
    constructor
    · exact Or.inr
    · rintro (rfl | hin)
      · exact (h.complete i hcurrent).1
      · exact hin

theorem Follows.mark (h : Follows t l original all) {ino : UInt32}
    (hstep : t.step (.mark ino) = some t') : Follows t' (l.mark ino) original all := by
  have hmem : ∀ i, i ∈ (l.mark ino).order ↔ i ∈ l.order := fun i => Lineage.mem_mark
  have hused : ino ∈ l.order → (l.mark ino).order.head? = some ino := by
    intro hin
    unfold Lineage.mark
    simp only [if_pos hin]
    rfl
  unfold step at hstep
  simp only at hstep
  split at hstep
  · next hcurrent =>
      cases hstep
      refine ⟨fun i => by rw [hmem, h.members i], fun hnone => ?_, fun c hc => ?_, fun c hc => ?_⟩
      · rw [hcurrent] at hnone
        cases hnone
      · exact ⟨(hmem c).mpr (h.complete c hc).1, (h.complete c hc).2⟩
      · rw [hcurrent] at hc
        cases hc
        exact iff_of_true rfl (hused (h.complete ino hcurrent).1)
  · next hother =>
      split at hstep
      · next hupdated =>
          cases hstep
          have hin := (h.members ino).mp hupdated
          refine ⟨fun i => by rw [hmem, h.members i], fun hnone => ?_, fun c hc => ?_, fun c hc => ?_⟩
          · rw [(h.nothing hnone).1] at hin
            cases hin
          · exact ⟨(hmem c).mpr (h.complete c hc).1, (h.complete c hc).2⟩
          · refine iff_of_false (by simp) fun hfirst => hother ?_
            rw [hused hin] at hfirst
            rw [hc, hfirst]
      · next hnew =>
          cases hstep
          have hout : ino ∉ l.order := fun hin => hnew ((h.members ino).mpr hin)
          have hsame : l.mark ino = l := by
            unfold Lineage.mark
            rw [if_neg hout]
          rw [hsame]
          exact h

/-- **A run that the tracker follows** to its end leaves a copy with all the updates. -/
theorem Follows.run {changes : List (Change α)} (h : Follows t l original all)
    (hrun : t.run (changes.map Prod.fst) = some t') :
    Follows t' (l.run original changes) original (Change.applyAll changes all) := by
  induction changes generalizing t l all with
  | nil =>
      cases hrun
      exact h
  | cons change rest ih =>
      obtain ⟨call, f⟩ := change
      rw [List.map_cons, Tracker.run, Option.bind_eq_some_iff] at hrun
      obtain ⟨t₁, hstep, hrest⟩ := hrun
      cases call with
      | update ino => exact ih (h.update f hstep) hrest
      | mark ino => exact ih (h.mark hstep) hrest

end Follows

end Tracker

/-! ## The updates that a copy has -/

namespace PageCall

/-- The calls as changes of a set of updates, numbered from `n` on. -/
def numbered : ℕ → List PageCall → List (Change (Finset ℕ))
  | _, [] => []
  | n, update ino :: rest => (update ino, insert n) :: numbered (n + 1) rest
  | n, mark ino :: rest => (mark ino, id) :: numbered (n + 1) rest

theorem map_fst_numbered (n : ℕ) (calls : List PageCall) :
    (numbered n calls).map Prod.fst = calls := by
  induction calls generalizing n with
  | nil => rfl
  | cons call rest ih => cases call <;> exact congrArg _ (ih (n + 1))

theorem numbered_append (n : ℕ) (first second : List PageCall) :
    numbered n (first ++ second) = numbered n first ++ numbered (n + first.length) second := by
  induction first generalizing n with
  | nil => rfl
  | cons call rest ih =>
      have hnext : n + (rest.length + 1) = n + 1 + rest.length := by omega
      rw [List.length_cons, hnext]
      cases call <;> exact congrArg _ (ih (n + 1))

/-- A numbered call adds a number of an update. -/
theorem of_mem_numbered {n : ℕ} {calls : List PageCall} {change : Change (Finset ℕ)}
    (h : change ∈ numbered n calls) :
    change.2 = id ∨ ∃ k ino, calls[k]? = some (update ino) ∧ change.2 = insert (n + k) := by
  induction calls generalizing n with
  | nil => cases h
  | cons call rest ih =>
      have hrest : change ∈ numbered (n + 1) rest → change.2 = id ∨
          ∃ k ino, (call :: rest)[k]? = some (update ino) ∧ change.2 = insert (n + k) := by
        intro hin
        rcases ih hin with hid | ⟨k, ino, hk, hchange⟩
        · exact Or.inl hid
        · refine Or.inr ⟨k + 1, ino, hk, ?_⟩
          rw [hchange, show n + 1 + k = n + (k + 1) by omega]
      cases call with
      | update ino =>
          rcases List.mem_cons.mp h with rfl | hin
          · exact Or.inr ⟨0, ino, rfl, rfl⟩
          · exact hrest hin
      | mark ino =>
          rcases List.mem_cons.mp h with rfl | hin
          · exact Or.inl rfl
          · exact hrest hin

/-- The updates in each copy after these calls. -/
def history (calls : List PageCall) : Lineage (Finset ℕ) :=
  (Lineage.empty ∅).run ∅ (numbered 0 calls)

/-- Every copy has updates of the calls only. -/
theorem update_of_mem_history {calls : List PageCall} {i : UInt32} (hi : i ∈ (history calls).order)
    {k : ℕ} (hk : k ∈ (history calls).data i) : ∃ ino, calls[k]? = some (update ino) := by
  refine Lineage.forall_run (P := fun a => ∀ k ∈ a, ∃ ino, calls[k]? = some (update ino))
    (l := .empty ∅) ∅ (by simp) (by simp [Lineage.empty]) (fun change hchange a ha => ?_) i hi k hk
  rcases of_mem_numbered hchange with hid | ⟨n, ino, hn, hinsert⟩
  · rw [hid]
    exact ha
  · rw [hinsert, Nat.zero_add]
    intro j hj
    rcases Finset.mem_insert.mp hj with rfl | hin
    · exact ⟨ino, hn⟩
    · exact ha j hin

/-- The inode that `current` names has an update that no other copy has. -/
structure Newest (t : Tracker) (l : Lineage (Finset ℕ)) (n : ℕ) : Prop where
  bounded : ∀ i ∈ l.order, ∀ j ∈ l.data i, j < n
  newest : ∀ c, t.current = some c → ∃ k ∈ l.data c, ∀ i ∈ l.order, i ≠ c → k ∉ l.data i

/-- A new update is in the copy of its inode only. -/
theorem Newest.update {t t' : Tracker} {l : Lineage (Finset ℕ)} {n : ℕ} (h : Newest t l n)
    {ino : UInt32} (hstep : t.step (.update ino) = some t') :
    Newest t' (l.update ∅ ino (insert n)) (n + 1) := by
  have hcurrent : t'.current = some ino := by
    rcases Tracker.of_step_update hstep with hnew | ⟨hold, rfl⟩
    · exact hnew.1
    · exact hold
  have hsource : ∀ j ∈ Volume.source l.order l.data ∅ ino, j < n :=
    Lineage.source_of_forall (P := fun a => ∀ j ∈ a, j < n) ∅ (by simp) h.bounded ino
  have hother : ∀ i ∈ (l.update ∅ ino (insert n)).order, i ≠ ino → ∀ j ∈ l.data i, j < n :=
    fun i hi hne => h.bounded i (((Lineage.mem_update ∅).mp hi).resolve_left hne)
  constructor
  · intro i hi j hj
    by_cases heq : i = ino
    · rw [heq, Lineage.data_update_self] at hj
      rcases Finset.mem_insert.mp hj with rfl | hin
      · exact Nat.lt_succ_self j
      · exact Nat.lt_succ_of_lt (hsource j hin)
    · rw [Lineage.data_update_of_ne ∅ l heq] at hj
      exact Nat.lt_succ_of_lt (hother i hi heq j hj)
  · intro c hc
    rw [hcurrent] at hc
    cases hc
    refine ⟨n, ?_, fun i hi hne hin => ?_⟩
    · rw [Lineage.data_update_self]
      exact Finset.mem_insert_self ..
    · rw [Lineage.data_update_of_ne ∅ l hne] at hin
      exact Nat.lt_irrefl n (hother i hi hne n hin)

theorem Newest.mark {t t' : Tracker} {l : Lineage (Finset ℕ)} {n : ℕ} (h : Newest t l n)
    {ino : UInt32} (hstep : t.step (.mark ino) = some t') : Newest t' (l.mark ino) (n + 1) := by
  have hcurrent : t'.current = t.current := by
    unfold Tracker.step at hstep
    simp only at hstep
    split at hstep
    · cases hstep
      rfl
    · split at hstep <;> cases hstep <;> rfl
  constructor
  · exact fun i hi j hj => Nat.lt_succ_of_lt (h.bounded i (Lineage.mem_mark.mp hi) j hj)
  · intro c hc
    rw [hcurrent] at hc
    obtain ⟨k, hk, hothers⟩ := h.newest c hc
    exact ⟨k, hk, fun i hi hne => hothers i (Lineage.mem_mark.mp hi) hne⟩

theorem Newest.run {t t' : Tracker} {l : Lineage (Finset ℕ)} {n : ℕ} (h : Newest t l n)
    {calls : List PageCall} (hrun : t.run calls = some t') :
    Newest t' (l.run ∅ (numbered n calls)) (n + calls.length) := by
  induction calls generalizing t l n with
  | nil =>
      cases hrun
      exact h
  | cons call rest ih =>
      rw [Tracker.run, Option.bind_eq_some_iff] at hrun
      obtain ⟨t₁, hstep, hrest⟩ := hrun
      have hnext : n + (rest.length + 1) = n + 1 + rest.length := by omega
      rw [List.length_cons, hnext]
      cases call with
      | update ino => exact ih (h.update hstep) hrest
      | mark ino => exact ih (h.mark hstep) hrest

theorem newest_empty : Newest {} (.empty ∅) 0 :=
  ⟨by simp [Lineage.empty], nofun⟩

/-- The source of an update that the tracker does not follow lacks an update. -/
theorem exists_not_mem_source {t : Tracker} {l : Lineage (Finset ℕ)} {n : ℕ} {all : Finset ℕ}
    (hfollows : t.Follows l ∅ all) (h : Newest t l n) {ino : UInt32}
    (hstep : t.step (.update ino) = none) :
    ∃ c ∈ l.order, ∃ k ∈ l.data c, k ∉ Volume.source l.order l.data ∅ ino ∧
      ∀ i ∈ l.order, i ≠ c → k ∉ l.data i := by
  unfold Tracker.step at hstep
  simp only at hstep
  split at hstep
  · cases hstep
  · next hother =>
      split at hstep
      · cases hstep
      · next hstale =>
          cases hcurrent : t.current with
          | none =>
              obtain ⟨hempty, -, hfresh⟩ := hfollows.nothing hcurrent
              refine absurd ⟨fun hin => ?_, hfresh⟩ hstale
              rw [hfollows.members, hempty] at hin
              cases hin
          | some c =>
              obtain ⟨k, hk, hothers⟩ := h.newest c hcurrent
              refine ⟨c, (hfollows.complete c hcurrent).1, k, hk, ?_, hothers⟩
              unfold Volume.source
              split
              · next hin =>
                  refine hothers ino hin fun heq => hother ?_
                  rw [heq, hcurrent]
              · next hnew =>
                  have hused : l.order.head? ≠ some c := by
                    intro hhead
                    refine hstale ⟨fun hin => hnew ((hfollows.members ino).mp hin), ?_⟩
                    exact (hfollows.first c hcurrent).mpr hhead
                  cases horder : l.order with
                  | nil => simp
                  | cons first rest =>
                      refine hothers first (horder ▸ List.mem_cons_self ..) fun heq => hused ?_
                      rw [horder, heq]
                      rfl

/-- **Updates that part.**  After an update that the tracker does not follow, no copy has
all the updates. -/
theorem exists_missing_of_run_none {calls : List PageCall} (h : Tracker.run {} calls = none) {j : UInt32}
    (hj : j ∈ (history calls).order) :
    ∃ k ino, calls[k]? = some (update ino) ∧ k ∉ (history calls).data j := by
  obtain ⟨before, ino, rest, t, rfl, hbefore, hstep⟩ := Tracker.exists_of_run_none h
  have hnewest : Newest t (history before) before.length := by
    have hrun := newest_empty.run hbefore
    rwa [Nat.zero_add] at hrun
  have hfollows : t.Follows (history before) ∅ (Change.applyAll (numbered 0 before) ∅) :=
    (Tracker.follows_empty ∅).run (by rw [map_fst_numbered]; exact hbefore)
  obtain ⟨c, hc, k, hk, hsource, hothers⟩ := exists_not_mem_source hfollows hnewest hstep
  have hk_lt := hnewest.bounded c hc k hk
  have hsplit : history (before ++ .update ino :: rest) =
      ((history before).update ∅ ino (insert before.length)).run ∅
        (numbered (before.length + 1) rest) := by
    unfold history
    rw [numbered_append, Lineage.run_append, Nat.zero_add]
    rfl
  -- from here on, no copy has both the update of `c` and the one of `ino`
  have hparted : ∀ i ∈ (history (before ++ .update ino :: rest)).order,
      ¬ (k ∈ (history (before ++ .update ino :: rest)).data i ∧
        before.length ∈ (history (before ++ .update ino :: rest)).data i) := by
    rw [hsplit]
    refine Lineage.forall_run (P := fun a => ¬ (k ∈ a ∧ before.length ∈ a)) ∅ (by simp) ?_ ?_
    · rintro i hi ⟨hkin, hlast⟩
      by_cases heq : i = ino
      · rw [heq, Lineage.data_update_self] at hkin
        rcases Finset.mem_insert.mp hkin with rfl | hin
        · exact Nat.lt_irrefl _ hk_lt
        · exact hsource hin
      · rw [Lineage.data_update_of_ne _ _ heq] at hlast
        have hold := ((Lineage.mem_update ∅).mp hi).resolve_left heq
        exact Nat.lt_irrefl _ (hnewest.bounded i hold _ hlast)
    · intro change hchange a ha
      rcases of_mem_numbered hchange with hid | ⟨m, i, -, hinsert⟩
      · rw [hid]
        exact ha
      · rw [hinsert]
        rintro ⟨hkin, hlast⟩
        exact ha ⟨(Finset.mem_insert.mp hkin).resolve_left (by omega),
          (Finset.mem_insert.mp hlast).resolve_left (by omega)⟩
  by_cases hkin : k ∈ (history (before ++ .update ino :: rest)).data j
  · exact ⟨before.length, ino, by simp, fun hin => hparted j hj ⟨hkin, hin⟩⟩
  · obtain ⟨i, hi⟩ := update_of_mem_history hc hk
    refine ⟨k, i, ?_, hkin⟩
    rw [List.getElem?_append_left hk_lt]
    exact hi

/-- The updates come in a sequence that ends in the copy written last. -/
def InSequence (calls : List PageCall) : Prop :=
  ∃ t ∈ Tracker.run {} calls, ((firstMarks calls).filter (· ∈ t.updated)).getLast? = t.current

instance : DecidablePred InSequence :=
  fun calls => inferInstanceAs (Decidable (∃ t ∈ Tracker.run {} calls, _))

/-- **The copy written last** has all the updates when they come in sequence. -/
theorem complete_of_inSequence {α : Type} (changes : List (Change α)) (original : α)
    (h : InSequence (changes.map Prod.fst)) :
    ((((firstMarks (changes.map Prod.fst)).filter
        (· ∈ ((Lineage.empty original).run original changes).order)).getLast?).map
        ((Lineage.empty original).run original changes).data).getD original =
      Change.applyAll changes original := by
  obtain ⟨t, hrun, hlast⟩ := h
  have hfollows := (Tracker.follows_empty original).run hrun
  have hfilter : (firstMarks (changes.map Prod.fst)).filter
      (· ∈ ((Lineage.empty original).run original changes).order) =
        (firstMarks (changes.map Prod.fst)).filter (· ∈ t.updated) :=
    List.filter_congr fun i _ => by simp [hfollows.members i]
  rw [hfilter, hlast]
  cases hcurrent : t.current with
  | none => exact (hfollows.nothing hcurrent).2.1.symm
  | some c => exact (hfollows.complete c hcurrent).2

theorem mem_history {calls : List PageCall} {i : UInt32} :
    i ∈ (history calls).order ↔ .update i ∈ calls := by
  unfold history
  rw [Lineage.mem_run, map_fst_numbered]
  simp [Lineage.empty]

/-- Otherwise it lacks one of them. -/
theorem exists_missing {calls : List PageCall} (h : ¬ InSequence calls)
    (hmarked : ∀ i, .update i ∈ calls → i ∈ firstMarks calls) :
    ∃ j, ((firstMarks calls).filter (· ∈ (history calls).order)).getLast? = some j ∧
      ∃ k ino, calls[k]? = some (update ino) ∧ k ∉ (history calls).data j := by
  have hwritten : ∀ i ∈ (history calls).order,
      ∃ j, ((firstMarks calls).filter (· ∈ (history calls).order)).getLast? = some j := by
    intro i hi
    have hin : i ∈ (firstMarks calls).filter (· ∈ (history calls).order) :=
      List.mem_filter.mpr ⟨hmarked i (mem_history.mp hi), by simpa using hi⟩
    exact ⟨_, List.getLast?_eq_some_getLast (List.ne_nil_of_mem hin)⟩
  have hcopied : ∀ {j}, ((firstMarks calls).filter (· ∈ (history calls).order)).getLast? = some j →
      j ∈ (history calls).order :=
    fun hlast => by simpa using (List.mem_filter.mp (List.mem_of_getLast? hlast)).2
  cases hrun : Tracker.run {} calls with
  | none =>
      obtain ⟨before, ino, rest, t, hcalls, -, -⟩ := Tracker.exists_of_run_none hrun
      have hin : ino ∈ (history calls).order := mem_history.mpr (by rw [hcalls]; simp)
      obtain ⟨j, hj⟩ := hwritten ino hin
      exact ⟨j, hj, exists_missing_of_run_none hrun (hcopied hj)⟩
  | some t =>
      have hfollows : t.Follows (history calls) ∅ (Change.applyAll (numbered 0 calls) ∅) :=
        (Tracker.follows_empty ∅).run (by rw [map_fst_numbered]; exact hrun)
      have hnewest : Newest t (history calls) (0 + calls.length) := newest_empty.run hrun
      have hlast : ((firstMarks calls).filter (· ∈ (history calls).order)).getLast? ≠ t.current := by
        intro hlast
        refine h ⟨t, hrun, ?_⟩
        rw [← hlast]
        exact congrArg _ (List.filter_congr fun i _ => by simp [hfollows.members i])
      cases hcurrent : t.current with
      | none =>
          rw [hcurrent, (hfollows.nothing hcurrent).1] at hlast
          exact absurd (by simp) hlast
      | some c =>
          rw [hcurrent] at hlast
          obtain ⟨j, hj⟩ := hwritten c (hfollows.complete c hcurrent).1
          rw [hj] at hlast
          obtain ⟨k, hk, hothers⟩ := hnewest.newest c hcurrent
          obtain ⟨ino, hino⟩ := update_of_mem_history (hfollows.complete c hcurrent).1 hk
          exact ⟨j, hj, k, ino, hino, hothers j (hcopied hj) fun heq => hlast (congrArg some heq)⟩

end PageCall

end JfsFuse
