import Scnim.Machine.RWLock

/-!
# Buffer locks

`buffer_lock2` and `buffer_lock` of `scnim/Unit.nim` (the SUPERNOVA build), and clients that
construct, use and destroy such objects, one operation on one lock at a time.  `isLocal` is the flag
of a buffer; the fields of an object are the arguments of its constructor.
-/

open Machine

namespace Scnim

/-! ## 1. The lock objects -/

structure BufferLock2 (β : Type*) where
  shared1 : Bool
  shared2 : Bool
  buf1U : β
  buf2U : β
  deriving DecidableEq

structure BufferLock (β : Type*) where
  shared : Bool
  bufU : β
  deriving DecidableEq

section Operations

variable {κ β : Type*} [DecidableEq κ] [DecidableEq β] (isLocal : β → Bool)

-- `lock` or `lock_shared` of a buffer that is not local; no result while the caller waits.
def lockBuf (b : β) (shared : Bool) (locks : β → RWLock κ) (k : κ) : Option (β → RWLock κ) :=
  if isLocal b then some locks else acquireAt locks b shared k

-- `try_lock` or `try_lock_shared` of a buffer that is not local
def tryLockBuf (b : β) (shared : Bool) (locks : β → RWLock κ) (k : κ) : Bool × (β → RWLock κ) :=
  if isLocal b then (true, locks)
  else match acquireAt locks b shared k with
    | some locks' => (true, locks')
    | none => (false, locks)

-- `unlock` or `unlock_shared`; no result where the caller does not hold the lock
def unlockBuf (b : β) (shared : Bool) (locks : β → RWLock κ) (k : κ) : Option (β → RWLock κ) :=
  if isLocal b then some locks else releaseAt locks b shared k

def BufferLock2.lock1 (this : BufferLock2 β) : (β → RWLock κ) → κ → Option (β → RWLock κ) :=
  lockBuf isLocal this.buf1U this.shared1

def BufferLock2.lock2 (this : BufferLock2 β) : (β → RWLock κ) → κ → Bool × (β → RWLock κ) :=
  tryLockBuf isLocal this.buf2U this.shared2

def BufferLock2.unlock1 (this : BufferLock2 β) : (β → RWLock κ) → κ → Option (β → RWLock κ) :=
  unlockBuf isLocal this.buf1U this.shared1

def BufferLock2.unlock2 (this : BufferLock2 β) : (β → RWLock κ) → κ → Option (β → RWLock κ) :=
  unlockBuf isLocal this.buf2U this.shared2

/-! ## 2. Clients -/

inductive Request (β : Type*)
  | two (this : BufferLock2 β)
  | one (this : BufferLock β)
  deriving DecidableEq

/-- The operation a client is about to make. -/
inductive Client (β : Type*)
  | idle
  -- constructbuffer_lock2: the branch for equal buffers, then the three operations of the loop
  | lockEqual (this : BufferLock2 β) (h : this.buf1U = this.buf2U)
  | lock1 (this : BufferLock2 β) (h : this.buf1U ≠ this.buf2U)
  | lock2 (this : BufferLock2 β) (h : this.buf1U ≠ this.buf2U)
  | unlock1 (this : BufferLock2 β) (h : this.buf1U ≠ this.buf2U)
  -- constructbuffer_lock
  | lock (this : BufferLock β)
  | inside (r : Request β)
  -- destroybuffer_lock2
  | destroy1 (this : BufferLock2 β)
  | destroy2 (this : BufferLock2 β) (h : this.buf1U ≠ this.buf2U)
  -- destroybuffer_lock
  | destroy (this : BufferLock β)
  deriving DecidableEq

def Request.construct : Request β → Client β
  | .two this => if h : this.buf1U = this.buf2U then .lockEqual this h else .lock1 this h
  | .one this => .lock this

def Request.destroy : Request β → Client β
  | .two this => .destroy1 this
  | .one this => .destroy this

def Client.operate (k : κ) (c : Client β) (locks : β → RWLock κ) :
    Option (Client β × (β → RWLock κ)) :=
  match c with
  | .idle => none
  | .lockEqual this _ => do
      let locks ← this.lock1 isLocal locks k
      return (.inside (.two this), locks)
  | .lock1 this h => do
      let locks ← this.lock1 isLocal locks k
      return (.lock2 this h, locks)
  | .lock2 this h =>
      let (locked, locks) := this.lock2 isLocal locks k
      some (if locked then .inside (.two this) else .unlock1 this h, locks)
  | .unlock1 this h => do
      let locks ← this.unlock1 isLocal locks k
      return (.lock1 this h, locks)
  | .lock this => do
      let locks ← lockBuf isLocal this.bufU this.shared locks k
      return (.inside (.one this), locks)
  | .inside _ => none
  | .destroy1 this => do
      let locks ← this.unlock1 isLocal locks k
      return (if h : this.buf1U ≠ this.buf2U then .destroy2 this h else .idle, locks)
  | .destroy2 this _ => do
      let locks ← this.unlock2 isLocal locks k
      return (.idle, locks)
  | .destroy this => do
      let locks ← unlockBuf isLocal this.bufU this.shared locks k
      return (.idle, locks)

/-! ## 3. Interleavings -/

structure LockState (κ β : Type*) where
  locks : β → RWLock κ
  client : κ → Client β

def LockState.init : LockState κ β := ⟨fun _ ↦ RWLock.free, fun _ ↦ .idle⟩

def LockState.setClient (s : LockState κ β) (k : κ) (c : Client β) : LockState κ β :=
  { s with client := Function.update s.client k c }

inductive Act (β : Type*)
  | construct (r : Request β)
  | operate
  | destroy
  deriving DecidableEq

def LockState.step (s : LockState κ β) (k : κ) : Act β → Option (LockState κ β)
  | .construct r => if s.client k = .idle then some (s.setClient k r.construct) else none
  | .operate => do
      let (c, locks) ← (s.client k).operate isLocal k s.locks
      return { s.setClient k c with locks := locks }
  | .destroy =>
      match s.client k with
      | .inside r => some (s.setClient k r.destroy)
      | _ => none

-- Everything a step can do.
theorem LockState.step_cases {s s' : LockState κ β} {k : κ} {a : Act β}
    (h : s.step isLocal k a = some s') :
    (∃ r, a = .construct r ∧ s.client k = .idle ∧ s' = s.setClient k r.construct) ∨
    (a = .operate ∧ ∃ c locks, (s.client k).operate isLocal k s.locks = some (c, locks) ∧
      s' = { s.setClient k c with locks := locks }) ∨
    (a = .destroy ∧ ∃ r, s.client k = .inside r ∧ s' = s.setClient k r.destroy) := by
  cases a with
  | construct r =>
      simp only [LockState.step] at h
      split at h
      · next hidle =>
          cases h
          exact .inl ⟨r, rfl, hidle, rfl⟩
      · cases h
  | operate =>
      obtain ⟨⟨c, locks⟩, hop, h⟩ := Option.bind_eq_some_iff.mp h
      cases h
      exact .inr (.inl ⟨rfl, c, locks, hop, rfl⟩)
  | destroy =>
      simp only [LockState.step] at h
      split at h
      · next r hinside =>
          cases h
          exact .inr (.inr ⟨rfl, r, hinside, rfl⟩)
      · cases h

/-- The states of all runs in which clients only ask for what is allowed. -/
inductive Reachable (allowed : Request β → Prop) : LockState κ β → Prop
  | init : Reachable allowed LockState.init
  | step {s s' : LockState κ β} (k : κ) (a : Act β) (hs : Reachable allowed s)
      (ha : ∀ r, a = .construct r → allowed r) (h : s.step isLocal k a = some s') :
      Reachable allowed s'

def LockState.run (s : LockState κ β) (acts : List (κ × Act β)) : Option (LockState κ β) :=
  acts.foldlM (fun s p ↦ s.step isLocal p.1 p.2) s

theorem Reachable.run {allowed : Request β → Prop} {s s' : LockState κ β}
    {acts : List (κ × Act β)} (hs : Reachable isLocal allowed s)
    (hacts : ∀ p ∈ acts, ∀ r, p.2 = .construct r → allowed r)
    (h : s.run isLocal acts = some s') : Reachable isLocal allowed s' := by
  induction acts generalizing s with
  | nil =>
      cases h
      exact hs
  | cons p acts ih =>
      obtain ⟨t, ht, hrun⟩ := Option.bind_eq_some_iff.mp h
      apply ih (.step p.1 p.2 hs (hacts p (List.mem_cons_self)) ht)
      · intro q hq
        exact hacts q (List.mem_cons_of_mem p hq)
      · exact hrun

/-! ## 4. Who holds what -/

-- the hold on a buffer, if it needs one
def holdOf (b : β) (shared : Bool) : List (β × Bool) :=
  if isLocal b then [] else [(b, shared)]

-- The locks an object takes.
def Request.holds : Request β → List (β × Bool)
  | .two this =>
      holdOf isLocal this.buf1U this.shared1 ++
        if this.buf1U = this.buf2U then [] else holdOf isLocal this.buf2U this.shared2
  | .one this => holdOf isLocal this.bufU this.shared

-- The locks a client has at each point.
def Client.holds : Client β → List (β × Bool)
  | .idle => []
  | .lockEqual _ _ => []
  | .lock1 _ _ => []
  | .lock2 this _ => holdOf isLocal this.buf1U this.shared1
  | .unlock1 this _ => holdOf isLocal this.buf1U this.shared1
  | .lock _ => []
  | .inside r => r.holds isLocal
  | .destroy1 this => Request.holds isLocal (.two this)
  | .destroy2 this _ => holdOf isLocal this.buf2U this.shared2
  | .destroy this => Request.holds isLocal (.one this)

theorem holdOf_count {b : β} (hlocal : ¬ isLocal b = true) (shared : Bool) (c : β) (sh : Bool) :
    (holdOf isLocal b shared).count (c, sh) = if c = b ∧ sh = shared then 1 else 0 := by
  unfold holdOf
  rw [if_neg hlocal, List.count_singleton]
  by_cases h : c = b ∧ sh = shared
  · rw [if_pos h, h.1, h.2]
    simp
  · rw [if_neg h]
    simp only [beq_iff_eq, Prod.mk.injEq]
    exact if_neg fun h' ↦ h ⟨h'.1.symm, h'.2.symm⟩

theorem lockBuf_holds {b : β} {shared : Bool} {locks locks' : β → RWLock κ} {k : κ}
    (h : lockBuf isLocal b shared locks k = some locks') (c : β) (j : κ) (sh : Bool) :
    (locks' c).holds j sh = (locks c).holds j sh +
      if j = k then (holdOf isLocal b shared).count (c, sh) else 0 := by
  unfold lockBuf at h
  split at h
  · next hlocal =>
      cases h
      simp [holdOf, hlocal]
  · next hlocal =>
      rw [holds_acquireAt h, holdOf_count isLocal hlocal]
      by_cases hj : j = k <;> simp [hj]

theorem unlockBuf_holds {b : β} {shared : Bool} {locks locks' : β → RWLock κ} {k : κ}
    (h : unlockBuf isLocal b shared locks k = some locks') (c : β) (j : κ) (sh : Bool) :
    (locks c).holds j sh = (locks' c).holds j sh +
      if j = k then (holdOf isLocal b shared).count (c, sh) else 0 := by
  unfold unlockBuf at h
  split at h
  · next hlocal =>
      cases h
      simp [holdOf, hlocal]
  · next hlocal =>
      rw [holds_releaseAt h, holdOf_count isLocal hlocal]
      by_cases hj : j = k <;> simp [hj]

-- A try either is the blocking operation or changes nothing.
theorem tryLockBuf_cases (b : β) (shared : Bool) (locks : β → RWLock κ) (k : κ) :
    (∃ locks', lockBuf isLocal b shared locks k = some locks' ∧
      tryLockBuf isLocal b shared locks k = (true, locks')) ∨
    (lockBuf isLocal b shared locks k = none ∧
      tryLockBuf isLocal b shared locks k = (false, locks)) := by
  unfold lockBuf tryLockBuf
  by_cases hlocal : isLocal b = true
  · exact .inl ⟨locks, by simp [hlocal], by simp [hlocal]⟩
  · cases hacq : acquireAt locks b shared k with
    | some locks' => exact .inl ⟨locks', by simp [hlocal], by simp [hlocal]⟩
    | none => exact .inr ⟨by simp [hlocal], by simp [hlocal]⟩

-- An operation that has succeeded, and the point it leads to.
theorem operate_return {σ γ : Type*} {o : Option σ} {c c' : γ} {locks : σ}
    (h : (o.bind fun locks ↦ some (c', locks)) = some (c, locks)) : c = c' ∧ o = some locks := by
  obtain ⟨locks', ho, heq⟩ := Option.bind_eq_some_iff.mp h
  cases heq
  exact ⟨rfl, ho⟩

/-- An operation changes the holds of its own client as the client's next point says. -/
theorem Client.operate_holds {k : κ} {c c' : Client β} {locks locks' : β → RWLock κ}
    (h : c.operate isLocal k locks = some (c', locks')) (b : β) (j : κ) (sh : Bool) :
    (locks' b).holds j sh + (if j = k then (c.holds isLocal).count (b, sh) else 0) =
      (locks b).holds j sh + if j = k then (c'.holds isLocal).count (b, sh) else 0 := by
  cases c with
  | idle => cases h
  | inside r => cases h
  | lockEqual this heq =>
      obtain ⟨rfl, hlock⟩ := operate_return h
      rw [lockBuf_holds isLocal hlock b j sh]
      simp [Client.holds, Request.holds, heq]
  | lock1 this hne =>
      obtain ⟨rfl, hlock⟩ := operate_return h
      rw [lockBuf_holds isLocal hlock b j sh]
      simp [Client.holds]
  | lock2 this hne =>
      rcases tryLockBuf_cases isLocal this.buf2U this.shared2 locks k with
        ⟨locks'', hlock, htry⟩ | ⟨-, htry⟩
      · simp only [Client.operate, BufferLock2.lock2, htry] at h
        cases h
        rw [lockBuf_holds isLocal hlock b j sh]
        by_cases hj : j = k
        · simp [Client.holds, Request.holds, hne, hj]
          omega
        · simp [hj]
      · simp only [Client.operate, BufferLock2.lock2, htry] at h
        cases h
        simp [Client.holds]
  | unlock1 this hne =>
      obtain ⟨rfl, hunlock⟩ := operate_return h
      rw [unlockBuf_holds isLocal hunlock b j sh]
      simp [Client.holds]
  | lock this =>
      obtain ⟨rfl, hlock⟩ := operate_return h
      rw [lockBuf_holds isLocal hlock b j sh]
      simp [Client.holds, Request.holds]
  | destroy1 this =>
      obtain ⟨rfl, hunlock⟩ := operate_return h
      rw [unlockBuf_holds isLocal hunlock b j sh]
      by_cases hj : j = k
      · by_cases heq : this.buf1U = this.buf2U
        · simp [Client.holds, Request.holds, heq, hj]
        · simp [Client.holds, Request.holds, heq, hj]
          omega
      · simp [hj]
  | destroy2 this hne =>
      obtain ⟨rfl, hunlock⟩ := operate_return h
      rw [unlockBuf_holds isLocal hunlock b j sh]
      simp [Client.holds]
  | destroy this =>
      obtain ⟨rfl, hunlock⟩ := operate_return h
      rw [unlockBuf_holds isLocal hunlock b j sh]
      simp [Client.holds, Request.holds]

/-- The locks hold what the clients' points say, and nothing else. -/
def LockState.Balanced (s : LockState κ β) : Prop :=
  ∀ b k sh, (s.locks b).holds k sh = ((s.client k).holds isLocal).count (b, sh)

theorem balanced_init : (LockState.init : LockState κ β).Balanced isLocal := by
  intro b k sh
  simp [LockState.init, Client.holds]

theorem LockState.Balanced.setClient {s : LockState κ β} (hs : s.Balanced isLocal) {k : κ}
    {c : Client β} (hc : c.holds isLocal = (s.client k).holds isLocal) :
    (s.setClient k c).Balanced isLocal := by
  intro b j sh
  by_cases hj : j = k
  · subst hj
    simp [LockState.setClient, hc, hs b j sh]
  · simp [LockState.setClient, hj, hs b j sh]

theorem Request.holds_construct (r : Request β) : r.construct.holds isLocal = [] := by
  cases r with
  | one this => rfl
  | two this =>
      by_cases heq : this.buf1U = this.buf2U <;> simp [Request.construct, heq, Client.holds]

theorem Request.holds_destroy (r : Request β) :
    r.destroy.holds isLocal = r.holds isLocal := by
  cases r <;> rfl

theorem LockState.Balanced.step {s s' : LockState κ β} (hs : s.Balanced isLocal) {k : κ}
    {a : Act β} (h : s.step isLocal k a = some s') : s'.Balanced isLocal := by
  rcases LockState.step_cases isLocal h with
    ⟨r, -, hidle, rfl⟩ | ⟨-, c, locks, hop, rfl⟩ | ⟨-, r, hinside, rfl⟩
  · apply hs.setClient
    rw [r.holds_construct, hidle]
    rfl
  · intro b j sh
    have hstep := Client.operate_holds isLocal hop b j sh
    have hbal := hs b j sh
    by_cases hj : j = k
    · subst hj
      simp only [if_true] at hstep
      simp only [LockState.setClient, Function.update_self]
      omega
    · simp only [if_neg hj, Nat.add_zero] at hstep
      simp only [LockState.setClient, Function.update_of_ne hj]
      omega
  · apply hs.setClient
    rw [r.holds_destroy, hinside]
    rfl

theorem Reachable.balanced {allowed : Request β → Prop} {s : LockState κ β}
    (h : Reachable isLocal allowed s) : s.Balanced isLocal := by
  induction h with
  | init => exact balanced_init isLocal
  | step k a _ _ hstep ih => exact ih.step isLocal hstep

end Operations

end Scnim
