import Mathlib.Data.Multiset.Count
import Mathlib.Data.Multiset.AddSub

/-!
# Reader-writer locks

A lock together with the clients holding it, and a family of such locks.  Every operation is one
atomic step; it has no result where the lock cannot be taken, or is not the client's to give back.
-/

namespace Machine

inductive RWLock (κ : Type*)
  | writer (k : κ)
  | readers (ks : Multiset κ)
  deriving DecidableEq

namespace RWLock

variable {κ : Type*} [DecidableEq κ]

def free : RWLock κ := .readers 0

/-- Taking the lock, in the given mode; the blocking operations wait until there is a result. -/
def acquire (l : RWLock κ) (shared : Bool) (k : κ) : Option (RWLock κ) :=
  match l, shared with
  | .readers ks, true => some (.readers (k ::ₘ ks))
  | .readers ks, false => if ks = 0 then some (.writer k) else none
  | .writer _, _ => none

/-- Giving the lock back, in the mode in which it was taken. -/
def release (l : RWLock κ) (shared : Bool) (k : κ) : Option (RWLock κ) :=
  match l, shared with
  | .writer j, false => if j = k then some free else none
  | .readers ks, true => if k ∈ ks then some (.readers (ks.erase k)) else none
  | _, _ => none

-- How often the client holds the lock in the given mode.
def holds (l : RWLock κ) (k : κ) (shared : Bool) : ℕ :=
  match l, shared with
  | .writer j, false => if j = k then 1 else 0
  | .readers ks, true => ks.count k
  | _, _ => 0

@[simp] theorem holds_free (k : κ) (shared : Bool) : (free : RWLock κ).holds k shared = 0 := by
  cases shared <;> simp [holds, free]

theorem holds_acquire {l l' : RWLock κ} {shared : Bool} {k : κ}
    (h : l.acquire shared k = some l') (j : κ) (sh : Bool) :
    l'.holds j sh = l.holds j sh + if j = k ∧ sh = shared then 1 else 0 := by
  unfold acquire at h
  split at h
  · next ks =>
      cases h
      cases sh with
      | true => simp only [holds, Multiset.count_cons, and_true]
      | false => simp [holds]
  · next ks =>
      split at h
      · next hks =>
          cases h
          subst hks
          cases sh with
          | true => simp [holds]
          | false => simp [holds, eq_comm]
      · cases h
  · cases h

theorem holds_release {l l' : RWLock κ} {shared : Bool} {k : κ}
    (h : l.release shared k = some l') (j : κ) (sh : Bool) :
    l.holds j sh = l'.holds j sh + if j = k ∧ sh = shared then 1 else 0 := by
  unfold release at h
  split at h
  · next i =>
      split at h
      · next hi =>
          cases h
          subst hi
          cases sh with
          | true => simp [holds, free]
          | false => simp [holds, free, eq_comm]
      · cases h
  · next ks =>
      split at h
      · next hk =>
          cases h
          cases sh with
          | true =>
              by_cases hj : j = k
              · subst hj
                have hpos := Multiset.count_pos.mpr hk
                simp only [holds, Multiset.count_erase_self, and_self, if_true]
                omega
              · simp [holds, hj, Multiset.count_erase_of_ne hj]
          | false => simp [holds]
      · cases h
  · cases h

theorem exists_release {l : RWLock κ} {shared : Bool} {k : κ} (h : 0 < l.holds k shared) :
    ∃ l', l.release shared k = some l' := by
  cases l with
  | writer j =>
      cases shared with
      | true => simp [holds] at h
      | false =>
          by_cases hj : j = k
          · exact ⟨free, if_pos hj⟩
          · simp [holds, hj] at h
  | readers ks =>
      cases shared with
      | true => exact ⟨_, if_pos (Multiset.count_pos.mp h)⟩
      | false => simp [holds] at h

theorem writer_alone {l : RWLock κ} {k j : κ} {sh : Bool} (hk : 0 < l.holds k false)
    (hj : 0 < l.holds j sh) : j = k ∧ sh = false := by
  cases l with
  | readers ks => simp [holds] at hk
  | writer i =>
      cases sh with
      | true => simp [holds] at hj
      | false =>
          have hik : i = k := by
            by_contra hne
            simp [holds, hne] at hk
          have hij : i = j := by
            by_contra hne
            simp [holds, hne] at hj
          exact ⟨hij.symm.trans hik, rfl⟩

theorem eq_free {l : RWLock κ} (h : ∀ k shared, l.holds k shared = 0) : l = free := by
  cases l with
  | writer j =>
      have hj := h j false
      simp [holds] at hj
  | readers ks =>
      have hks : ks = 0 := by
        apply Multiset.eq_zero_of_forall_notMem
        intro k hk
        have hpos : 0 < (RWLock.readers ks).holds k true := Multiset.count_pos.mpr hk
        rw [h k true] at hpos
        exact lt_irrefl 0 hpos
      rw [hks]
      rfl

-- A lock can only be refused while someone holds it.
theorem exists_holder {l : RWLock κ} {shared : Bool} {k : κ} (h : l.acquire shared k = none) :
    ∃ j sh, 0 < l.holds j sh := by
  by_contra hnone
  have hfree : l = free := eq_free fun j sh ↦ by
    by_contra hne
    exact hnone ⟨j, sh, Nat.pos_of_ne_zero hne⟩
  rw [hfree] at h
  cases shared <;> simp [acquire, free] at h

end RWLock

/-! ## Families of locks -/

section Family

variable {κ β : Type*} [DecidableEq κ] [DecidableEq β]

def acquireAt (locks : β → RWLock κ) (b : β) (shared : Bool) (k : κ) : Option (β → RWLock κ) :=
  ((locks b).acquire shared k).map (Function.update locks b)

def releaseAt (locks : β → RWLock κ) (b : β) (shared : Bool) (k : κ) : Option (β → RWLock κ) :=
  ((locks b).release shared k).map (Function.update locks b)

theorem holds_acquireAt {locks locks' : β → RWLock κ} {b : β} {shared : Bool} {k : κ}
    (h : acquireAt locks b shared k = some locks') (c : β) (j : κ) (sh : Bool) :
    (locks' c).holds j sh =
      (locks c).holds j sh + if j = k ∧ c = b ∧ sh = shared then 1 else 0 := by
  obtain ⟨l, hl, rfl⟩ := Option.map_eq_some_iff.mp h
  by_cases hc : c = b
  · subst hc
    rw [Function.update_self, RWLock.holds_acquire hl]
    simp
  · rw [Function.update_of_ne hc]
    simp [hc]

theorem holds_releaseAt {locks locks' : β → RWLock κ} {b : β} {shared : Bool} {k : κ}
    (h : releaseAt locks b shared k = some locks') (c : β) (j : κ) (sh : Bool) :
    (locks c).holds j sh =
      (locks' c).holds j sh + if j = k ∧ c = b ∧ sh = shared then 1 else 0 := by
  obtain ⟨l, hl, rfl⟩ := Option.map_eq_some_iff.mp h
  by_cases hc : c = b
  · subst hc
    rw [Function.update_self, RWLock.holds_release hl]
    simp
  · rw [Function.update_of_ne hc]
    simp [hc]

end Family

end Machine
