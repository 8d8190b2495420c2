import Mathlib.Logic.Relation
import Scnim.BufferLock

/-!
# Buffer locks do not deadlock

The second lock of a `buffer_lock2` is only tried, and the first one is given back when the try
fails, so whoever waits holds nothing.
-/

open Machine

namespace Scnim

variable {κ β : Type*} [DecidableEq κ] [DecidableEq β] (isLocal : β → Bool)

/-! ## 1. Waiting -/

-- The lock, and the mode, that the client's next operation blocks on.
def Client.awaits : Client β → Option (β × Bool)
  | .lockEqual this _ => if isLocal this.buf1U then none else some (this.buf1U, this.shared1)
  | .lock1 this _ => if isLocal this.buf1U then none else some (this.buf1U, this.shared1)
  | .lock this => if isLocal this.bufU then none else some (this.bufU, this.shared)
  | _ => none

def Waiting (s : LockState κ β) (k : κ) : Prop :=
  ∃ b shared, (s.client k).awaits isLocal = some (b, shared) ∧
    (s.locks b).acquire shared k = none

def WaitsFor (s : LockState κ β) (k j : κ) : Prop :=
  ∃ b shared, (s.client k).awaits isLocal = some (b, shared) ∧
    (s.locks b).acquire shared k = none ∧ ∃ sh, 0 < (s.locks b).holds j sh

-- A client about to block holds nothing, wherever it is.
theorem Client.holds_of_awaits {c : Client β} {p : β × Bool} (h : c.awaits isLocal = some p) :
    c.holds isLocal = [] := by
  cases c with
  | lockEqual this heq => rfl
  | lock1 this hne => rfl
  | lock this => rfl
  | _ => cases h

theorem LockState.Balanced.holds_waiting {s : LockState κ β} (hs : s.Balanced isLocal) {k : κ}
    (h : Waiting isLocal s k) (b : β) (sh : Bool) : (s.locks b).holds k sh = 0 := by
  obtain ⟨c, shared, hawaits, -⟩ := h
  rw [hs b k sh, Client.holds_of_awaits isLocal hawaits, List.count_nil]

/-! ## 2. Who can go on -/

theorem exists_lockBuf {b : β} {shared : Bool} {locks : β → RWLock κ} {k : κ}
    (h : isLocal b = false → (locks b).acquire shared k ≠ none) :
    ∃ locks', lockBuf isLocal b shared locks k = some locks' := by
  unfold lockBuf acquireAt
  by_cases hlocal : isLocal b = true
  · exact ⟨locks, if_pos hlocal⟩
  · obtain ⟨l, hl⟩ := Option.ne_none_iff_exists'.mp (h (by simpa using hlocal))
    exact ⟨Function.update locks b l, by rw [if_neg hlocal, hl]; rfl⟩

theorem exists_unlockBuf {b : β} {shared : Bool} {locks : β → RWLock κ} {k : κ}
    (h : isLocal b = false → 0 < (locks b).holds k shared) :
    ∃ locks', unlockBuf isLocal b shared locks k = some locks' := by
  unfold unlockBuf releaseAt
  by_cases hlocal : isLocal b = true
  · exact ⟨locks, if_pos hlocal⟩
  · obtain ⟨l, hl⟩ := RWLock.exists_release (h (by simpa using hlocal))
    exact ⟨Function.update locks b l, by rw [if_neg hlocal, hl]; rfl⟩

theorem LockState.Balanced.exists_unlock {s : LockState κ β} (hs : s.Balanced isLocal) (k : κ)
    (b : β) (shared : Bool)
    (h : holdOf isLocal b shared ⊆ (s.client k).holds isLocal) :
    ∃ locks', unlockBuf isLocal b shared s.locks k = some locks' := by
  apply exists_unlockBuf
  intro hlocal
  rw [hs b k shared]
  apply List.count_pos_iff.mpr
  apply h
  simp [holdOf, hlocal]

-- An operation that ends with the locks it was after is a step.
theorem LockState.exists_operate {s : LockState κ β} {k : κ} {o : Option (β → RWLock κ)}
    {c : Client β} (ho : ∃ locks, o = some locks)
    (hop : (s.client k).operate isLocal k s.locks = o.bind fun locks ↦ some (c, locks)) :
    ∃ a s', s.step isLocal k a = some s' := by
  obtain ⟨locks, rfl⟩ := ho
  exact ⟨.operate, _, by simp only [LockState.step, hop]; rfl⟩

-- A client that is neither idle nor waiting can make its next step.
theorem LockState.Balanced.exists_step {s : LockState κ β} (hs : s.Balanced isLocal) {k : κ}
    (hidle : s.client k ≠ .idle) (hwait : ¬ Waiting isLocal s k) :
    ∃ a s', s.step isLocal k a = some s' := by
  have hfree : ∀ b shared, (isLocal b = false →
      (s.client k).awaits isLocal = some (b, shared)) →
      ∃ locks', lockBuf isLocal b shared s.locks k = some locks' := by
    intro b shared hawaits
    apply exists_lockBuf
    intro hlocal hnone
    exact hwait ⟨b, shared, hawaits hlocal, hnone⟩
  cases hc : s.client k with
  | idle => exact absurd hc hidle
  | inside r => exact ⟨.destroy, s.setClient k r.destroy, by simp only [LockState.step, hc]⟩
  | lockEqual this heq =>
      have hlock := hfree this.buf1U this.shared1 fun hlocal ↦ by
        simp [hc, Client.awaits, hlocal]
      exact LockState.exists_operate isLocal hlock (by rw [hc]; rfl)
  | lock1 this hne =>
      have hlock := hfree this.buf1U this.shared1 fun hlocal ↦ by
        simp [hc, Client.awaits, hlocal]
      exact LockState.exists_operate isLocal hlock (by rw [hc]; rfl)
  | lock this =>
      have hlock := hfree this.bufU this.shared fun hlocal ↦ by
        simp [hc, Client.awaits, hlocal]
      exact LockState.exists_operate isLocal hlock (by rw [hc]; rfl)
  | lock2 this hne =>
      -- a try always comes back
      exact LockState.exists_operate isLocal ⟨_, rfl⟩ (by rw [hc]; rfl)
  | unlock1 this hne =>
      have hunlock := hs.exists_unlock isLocal k this.buf1U this.shared1
        (by rw [hc]; exact fun _ h ↦ h)
      exact LockState.exists_operate isLocal hunlock (by rw [hc]; rfl)
  | destroy1 this =>
      have hunlock := hs.exists_unlock isLocal k this.buf1U this.shared1
        (by rw [hc]; exact List.subset_append_left _ _)
      exact LockState.exists_operate isLocal hunlock (by rw [hc]; rfl)
  | destroy2 this hne =>
      have hunlock := hs.exists_unlock isLocal k this.buf2U this.shared2
        (by rw [hc]; exact fun _ h ↦ h)
      exact LockState.exists_operate isLocal hunlock (by rw [hc]; rfl)
  | destroy this =>
      have hunlock := hs.exists_unlock isLocal k this.bufU this.shared
        (by rw [hc]; exact fun _ h ↦ h)
      exact LockState.exists_operate isLocal hunlock (by rw [hc]; rfl)

/-- Behind every waiting client there is one that holds a lock, and that one can go on. -/
theorem LockState.Balanced.exists_active {s : LockState κ β} (hs : s.Balanced isLocal) {k : κ}
    (hidle : s.client k ≠ .idle) :
    ∃ j a s', s.client j ≠ .idle ∧ ¬ Waiting isLocal s j ∧ s.step isLocal j a = some s' := by
  by_cases hwait : Waiting isLocal s k
  · obtain ⟨b, shared, -, hnone⟩ := hwait
    obtain ⟨j, sh, hj⟩ := RWLock.exists_holder hnone
    have hjidle : s.client j ≠ .idle := by
      intro h
      rw [hs b j sh, h] at hj
      exact lt_irrefl 0 hj
    have hjwait : ¬ Waiting isLocal s j := by
      intro h
      rw [hs.holds_waiting isLocal h] at hj
      exact lt_irrefl 0 hj
    obtain ⟨a, s', hstep⟩ := hs.exists_step isLocal hjidle hjwait
    exact ⟨j, a, s', hjidle, hjwait, hstep⟩
  · obtain ⟨a, s', hstep⟩ := hs.exists_step isLocal hidle hwait
    exact ⟨k, a, s', hidle, hwait, hstep⟩

-- Nobody who is waited for waits, so the relation has no cycle.
theorem LockState.Balanced.not_cycle {s : LockState κ β} (hs : s.Balanced isLocal) (k : κ) :
    ¬ Relation.TransGen (WaitsFor isLocal s) k k := by
  intro hcycle
  obtain ⟨j, hkj, -⟩ := Relation.TransGen.head'_iff.mp hcycle
  obtain ⟨i, -, hik⟩ := Relation.TransGen.tail'_iff.mp hcycle
  obtain ⟨b, shared, hawaits, hnone, -⟩ := hkj
  obtain ⟨c, -, -, -, sh, hholds⟩ := hik
  rw [hs.holds_waiting isLocal ⟨b, shared, hawaits, hnone⟩] at hholds
  exact lt_irrefl 0 hholds

/-- In every state of every run: who waits holds nothing; while someone is not idle, someone who is
not idle can go on without waiting; who is idle can start; and no clients wait for each other. -/
theorem bufferLock_noDeadlock {s : LockState κ β} (h : Reachable isLocal (fun _ ↦ True) s) :
    (∀ k, Waiting isLocal s k → ∀ b sh, (s.locks b).holds k sh = 0) ∧
    (∀ k, s.client k ≠ .idle →
      ∃ j a s', s.client j ≠ .idle ∧ ¬ Waiting isLocal s j ∧ s.step isLocal j a = some s') ∧
    (∀ k, s.client k = .idle → ∀ r, ∃ s', s.step isLocal k (.construct r) = some s') ∧
    ∀ k, ¬ Relation.TransGen (WaitsFor isLocal s) k k := by
  have hs := h.balanced
  refine ⟨fun k hk ↦ hs.holds_waiting isLocal hk, fun k hk ↦ hs.exists_active isLocal hk, ?_,
    hs.not_cycle isLocal⟩
  intro k hk r
  exact ⟨s.setClient k r.construct, if_pos hk⟩

-- One client is inside with two buffers, the other one waits for the second of them.
def waitingRun : List (Bool × Act Bool) :=
  [(true, .construct (.two ⟨false, false, false, true⟩)), (true, .operate), (true, .operate),
    (false, .construct (.two ⟨true, false, true, false⟩))]

theorem bufferLock_noDeadlock_waitingRun : ∃ s : LockState Bool Bool,
    LockState.init.run (fun _ ↦ false) waitingRun = some s ∧
    Waiting (fun _ ↦ false) s false ∧ (∀ b sh, (s.locks b).holds false sh = 0) ∧
    ∃ j a s', s.client j ≠ .idle ∧ ¬ Waiting (fun _ ↦ false) s j ∧
      s.step (fun _ ↦ false) j a = some s' := by
  have hrun : (LockState.init.run (fun _ ↦ false) waitingRun).map
      (fun t ↦ (t.client false, (t.locks true).acquire true false)) =
        some (.lock1 ⟨true, false, true, false⟩ (by decide), none) := by decide
  obtain ⟨s, hs, hpoint⟩ := Option.map_eq_some_iff.mp hrun
  rw [Prod.mk.injEq] at hpoint
  have hwait : Waiting (fun _ ↦ false) s false :=
    ⟨true, true, by rw [hpoint.1]; rfl, hpoint.2⟩
  have hreach := Reachable.init.run (fun _ ↦ false) (fun _ _ _ _ ↦ trivial) hs
  obtain ⟨hholds, hactive, -⟩ := bufferLock_noDeadlock (fun _ ↦ false) hreach
  exact ⟨s, hs, hwait, hholds false hwait, hactive false (by rw [hpoint.1]; decide)⟩

end Scnim
