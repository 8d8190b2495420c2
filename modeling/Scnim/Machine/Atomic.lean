import Mathlib.Data.Nat.Notation
import Mathlib.Logic.Function.Basic

/-!
# Atomic locations

One location that several clients access.  They agree on the order of its values, and a client never
goes back in that order; but a load may return a value that is not the newest one any more.
-/

namespace Machine

structure Atomic (κ α : Type*) where
  newest : α
  -- what a load of the client may return besides the newest value, newer ones first
  older : κ → List α

/-- What an access comes across. -/
inductive Choice
  | newest
  | stale (i : ℕ)
  -- a weak compare-exchange may fail for no reason
  | spurious
  deriving DecidableEq

namespace Atomic

variable {κ α : Type*}

/-! ## 1. The accesses -/

def init (v : α) : Atomic κ α := ⟨v, fun _ ↦ []⟩

section Access

variable [DecidableEq κ]

def setOlder (a : Atomic κ α) (k : κ) (vs : List α) : Atomic κ α :=
  { a with older := Function.update a.older k vs }

def load (a : Atomic κ α) (k : κ) : Choice → Option (α × Atomic κ α)
  | .newest => some (a.newest, a.setOlder k [])
  | .stale i => (a.older k)[i]?.map fun v ↦ (v, a.setOlder k ((a.older k).take (i + 1)))
  | .spurious => none

-- A store comes behind all values there are; the others may still miss it.
def store (a : Atomic κ α) (k : κ) (v : α) : Atomic κ α :=
  { newest := v, older := fun j ↦ if j = k then [] else a.newest :: a.older j }

/-- Only the newest value can be exchanged; on any other outcome the access is a load. -/
def compareExchange [DecidableEq α] (a : Atomic κ α) (weak : Bool) (k : κ) (expected desired : α)
    (ch : Choice) : Option (Bool × Atomic κ α) :=
  match ch with
  | .spurious => if weak then some (false, a) else none
  | _ => (a.load k ch).bind fun (v, a') ↦
      if v = expected then
        if ch = .newest then some (true, a'.store k desired) else none
      else some (false, a')

end Access

/-! ## 2. What they change -/

-- The client can only read the newest value.
def UpToDate (a : Atomic κ α) (k : κ) : Prop := a.older k = []

/-- What an access that writes nothing leaves as it was. -/
structure Quiet (a a' : Atomic κ α) : Prop where
  newest : a'.newest = a.newest
  upToDate : ∀ k, a.UpToDate k → a'.UpToDate k

theorem Quiet.refl (a : Atomic κ α) : a.Quiet a := ⟨rfl, fun _ h ↦ h⟩

variable [DecidableEq κ] {a a' : Atomic κ α} {k : κ} {ch : Choice} {v : α}

theorem load_quiet (h : a.load k ch = some (v, a')) : a.Quiet a' := by
  cases ch with
  | newest =>
      cases h
      refine ⟨rfl, fun j hj ↦ ?_⟩
      by_cases hjk : j = k
      · subst hjk
        exact Function.update_self ..
      · exact (Function.update_of_ne hjk ..).trans hj
  | stale i =>
      obtain ⟨w, -, h⟩ := Option.map_eq_some_iff.mp h
      cases h
      refine ⟨rfl, fun j hj ↦ ?_⟩
      by_cases hjk : j = k
      · subst hjk
        exact (Function.update_self ..).trans (by rw [show a.older j = [] from hj, List.take_nil])
      · exact (Function.update_of_ne hjk ..).trans hj
  | spurious => cases h

-- Who is up to date reads the newest value.
theorem load_upToDate (h : a.load k ch = some (v, a')) (hk : a.UpToDate k) : v = a.newest := by
  cases ch with
  | newest =>
      cases h
      rfl
  | stale i =>
      obtain ⟨w, hw, -⟩ := Option.map_eq_some_iff.mp h
      rw [show a.older k = [] from hk] at hw
      cases hw
  | spurious => cases h

@[simp] theorem setOlder_newest (a : Atomic κ α) (k : κ) (vs : List α) :
    (a.setOlder k vs).newest = a.newest := rfl

@[simp] theorem load_newest (a : Atomic κ α) (k : κ) :
    a.load k .newest = some (a.newest, a.setOlder k []) := rfl

theorem store_upToDate (a : Atomic κ α) (k : κ) (v : α) : (a.store k v).UpToDate k := if_pos rfl

theorem load_store (h : a.load k .newest = some (v, a')) (v' : α) :
    a'.store k v' = a.store k v' := by
  cases h
  unfold store
  congr 1
  funext j
  by_cases hj : j = k
  · rw [if_pos hj, if_pos hj]
  · rw [if_neg hj, if_neg hj]
    exact congrArg _ (Function.update_of_ne hj ..)

variable [DecidableEq α] {weak : Bool} {expected desired : α}

theorem compareExchange_true
    (h : a.compareExchange weak k expected desired ch = some (true, a')) :
    a.newest = expected ∧ a' = a.store k desired := by
  unfold compareExchange at h
  split at h
  · split at h <;> cases h
  · obtain ⟨⟨w, b⟩, hload, h⟩ := Option.bind_eq_some_iff.mp h
    dsimp only at h
    split at h
    · next hw =>
        split at h
        · next hch =>
            cases h
            subst hch
            have hstore := load_store hload desired
            cases hload
            exact ⟨hw, hstore⟩
        · cases h
    · cases h

theorem compareExchange_false
    (h : a.compareExchange weak k expected desired ch = some (false, a')) : a.Quiet a' := by
  unfold compareExchange at h
  split at h
  · split at h
    · cases h
      exact .refl a
    · cases h
  · obtain ⟨⟨w, b⟩, hload, h⟩ := Option.bind_eq_some_iff.mp h
    dsimp only at h
    split at h
    · split at h <;> cases h
    · cases h
      exact load_quiet hload

-- An exchange that comes across the newest value says whether that was the expected one.
theorem compareExchange_newest (a : Atomic κ α) (weak : Bool) (k : κ) (expected desired : α) :
    ∃ a', a.compareExchange weak k expected desired .newest =
      some (decide (a.newest = expected), a') := by
  unfold compareExchange
  by_cases h : a.newest = expected
  · exact ⟨(Atomic.store _ k desired), by simp [h]; rfl⟩
  · exact ⟨_, by simp [h]; rfl⟩

end Atomic

end Machine
