import Mathlib.Algebra.Order.BigOperators.Group.Finset
import Mathlib.Data.Fintype.BigOperators
import Mathlib.Logic.Relation
import Scnim.BufferLockSafety
import Scnim.SpinLock

/-!
# Buffer locks on spin locks

The clients of the buffer locks, one access to a `rw_spinlock` at a time: `buffer_lock2` and
`buffer_lock` of `dev/SC_Unit.h` on the locks of `dev/SC_SndBuf.h`.  What the clients do to the
words is a run of the locks the words stand for.
-/

open Machine

namespace Scnim

open RwSpinlock

variable {κ β : Type*} (isLocal : β → Bool)

/-! ## 1. Operations as calls -/

-- The method a client's operation calls, on the lock of which buffer.
def Client.call : Client β → Option (β × Call)
  | .idle => none
  | .lockEqual this _ => some (this.buf1U, .lock this.shared1)
  | .lock1 this _ => some (this.buf1U, .lock this.shared1)
  | .lock2 this _ => some (this.buf2U, .tryLock this.shared2)
  | .unlock1 this _ => some (this.buf1U, .unlock this.shared1)
  | .lock this => some (this.bufU, .lock this.shared)
  | .inside _ => none
  | .destroy1 this => some (this.buf1U, .unlock this.shared1)
  | .destroy2 this _ => some (this.buf2U, .unlock this.shared2)
  | .destroy this => some (this.bufU, .unlock this.shared)

structure SpinState (κ β : Type*) where
  lock : β → Atomic κ (BitVec 32)
  client : κ → Client β
  -- the access the client's method is at; none before its first one
  point : κ → Option Point

def SpinState.init : SpinState κ β :=
  ⟨fun _ ↦ Atomic.init unlockedState, fun _ ↦ .idle, fun _ ↦ none⟩

/-- The words stand for the locks, and every client is inside the method its operation calls. -/
structure Refines (s : SpinState κ β) (t : LockState κ β) : Prop where
  client : s.client = t.client
  lock : ∀ b, Represents (t.locks b) (s.lock b)
  point : ∀ k p, s.point k = some p →
    ∃ b call, (s.client k).call = some (b, call) ∧ isLocal b = false ∧ Point.Of call p

theorem refines_init : Refines isLocal (SpinState.init : SpinState κ β) LockState.init :=
  ⟨rfl, fun _ ↦ represents_init, fun k p h ↦ by cases h⟩

variable {s : SpinState κ β} {t : LockState κ β} {k : κ}

-- The point a client's next access starts from belongs to the method it calls.
theorem Refines.point_of (h : Refines isLocal s t) {b : β} {call : Call}
    (hcall : (s.client k).call = some (b, call)) :
    Point.Of call ((s.point k).getD call.start) := by
  cases hp : s.point k with
  | none => exact call.start_of
  | some p =>
      obtain ⟨c, call', hcall', -, hof⟩ := h.point k p hp
      rw [hcall, Option.some.injEq, Prod.mk.injEq] at hcall'
      rw [hcall'.2]
      exact hof

-- A client that has not called a method is at no access.
theorem Refines.point_none (h : Refines isLocal s t) (hcall : (s.client k).call = none) :
    s.point k = none := by
  cases hp : s.point k with
  | none => rfl
  | some p =>
      obtain ⟨b, call, hcall', -, -⟩ := h.point k p hp
      rw [hcall] at hcall'
      cases hcall'

theorem Refines.point_none_of_local (h : Refines isLocal s t) {b : β} {call : Call}
    (hcall : (s.client k).call = some (b, call)) (hlocal : isLocal b = true) :
    s.point k = none := by
  cases hp : s.point k with
  | none => rfl
  | some p =>
      obtain ⟨c, call', hcall', hshared, -⟩ := h.point k p hp
      rw [hcall, Option.some.injEq, Prod.mk.injEq] at hcall'
      rw [← hcall'.1, hlocal] at hshared
      cases hshared

theorem Refines.not_failed (h : Refines isLocal s t) (k : κ) : s.point k ≠ some .failed := by
  intro hp
  obtain ⟨b, call, -, -, hof⟩ := h.point k _ hp
  cases hof

/-! ## 2. Accesses -/

variable [DecidableEq κ]

def SpinState.setClient (s : SpinState κ β) (k : κ) (c : Client β) : SpinState κ β :=
  { s with client := Function.update s.client k c }

-- A client that is at no access can be moved to any point.
theorem Refines.setClient (h : Refines isLocal s t) (hp : s.point k = none) (c : Client β) :
    Refines isLocal (s.setClient k c) (t.setClient k c) := by
  refine ⟨?_, h.lock, fun j p hj ↦ ?_⟩
  · simp only [SpinState.setClient, LockState.setClient, h.client]
  · by_cases hjk : j = k
    · subst hjk
      rw [show (s.setClient j c).point = s.point from rfl, hp] at hj
      cases hj
    · rw [show (s.setClient k c).client j = s.client j from Function.update_of_ne hjk ..]
      exact h.point j p hj

variable [DecidableEq β]

-- Where the client goes on when the operation has returned.
def Client.after (r : Bool) : Client β → Client β
  | .idle => .idle
  | .lockEqual this _ => .inside (.two this)
  | .lock1 this h => .lock2 this h
  | .lock2 this h => if r then .inside (.two this) else .unlock1 this h
  | .unlock1 this h => .lock1 this h
  | .lock this => .inside (.one this)
  | .inside r => .inside r
  | .destroy1 this => if h : this.buf1U ≠ this.buf2U then .destroy2 this h else .idle
  | .destroy2 _ _ => .idle
  | .destroy _ => .idle

-- The outcome of an access of the client's method to the lock of a buffer.
def SpinState.accessed (s : SpinState κ β) (k : κ) (b : β) (state : Atomic κ (BitVec 32)) :
    Point ⊕ Bool → SpinState κ β
  | .inl p => { s with
      lock := Function.update s.lock b state
      point := Function.update s.point k (some p) }
  | .inr r => {
      lock := Function.update s.lock b state
      client := Function.update s.client k ((s.client k).after r)
      point := Function.update s.point k none }

inductive SpinAct (β : Type*)
  | construct (r : Request β)
  | access (ch : Choice)
  | destroy
  deriving DecidableEq

def SpinState.step (s : SpinState κ β) (k : κ) : SpinAct β → Option (SpinState κ β)
  | .construct r => if s.client k = .idle then some (s.setClient k r.construct) else none
  | .access ch =>
      match (s.client k).call with
      | none => none
      | some (b, call) =>
          -- `if (buf->isLocal) return;`
          if isLocal b then some (s.setClient k ((s.client k).after true))
          else (((s.point k).getD call.start).access (s.lock b) k ch).map fun (n, state) ↦
            s.accessed k b state n
  | .destroy =>
      match s.client k with
      | .inside r => some (s.setClient k r.destroy)
      | _ => none

/-- Everything a step can do. -/
theorem SpinState.step_cases {s s' : SpinState κ β} {k : κ} {a : SpinAct β}
    (h : s.step isLocal k a = some s') :
    (∃ r, a = .construct r ∧ s.client k = .idle ∧ s' = s.setClient k r.construct) ∨
    (∃ r, a = .destroy ∧ s.client k = .inside r ∧ s' = s.setClient k r.destroy) ∨
    ∃ ch b call, a = .access ch ∧ (s.client k).call = some (b, call) ∧
      ((isLocal b = true ∧ s' = s.setClient k ((s.client k).after true)) ∨
      (isLocal b = false ∧ ∃ n state,
        ((s.point k).getD call.start).access (s.lock b) k ch = some (n, state) ∧
        s' = s.accessed k b state n)) := by
  cases a with
  | construct r =>
      simp only [SpinState.step] at h
      split at h
      · next hidle =>
          cases h
          exact .inl ⟨r, rfl, hidle, rfl⟩
      · cases h
  | destroy =>
      simp only [SpinState.step] at h
      split at h
      · next r hinside =>
          cases h
          exact .inr (.inl ⟨r, rfl, hinside, rfl⟩)
      · cases h
  | access ch =>
      simp only [SpinState.step] at h
      split at h
      · cases h
      · next b call hcall =>
          refine .inr (.inr ⟨ch, b, call, rfl, hcall, ?_⟩)
          split at h
          · next hlocal =>
              cases h
              exact .inl ⟨hlocal, rfl⟩
          · next hlocal =>
              obtain ⟨⟨n, state⟩, hacc, rfl⟩ := Option.map_eq_some_iff.mp h
              exact .inr ⟨by simpa using hlocal, n, state, hacc, rfl⟩

theorem SpinState.step_other {s s' : SpinState κ β} {j k : κ} {a : SpinAct β}
    (h : s.step isLocal k a = some s') (hj : j ≠ k) : s'.client j = s.client j := by
  rcases SpinState.step_cases isLocal h with
    ⟨r, -, -, rfl⟩ | ⟨r, -, -, rfl⟩ | ⟨ch, b, call, -, -, ⟨-, rfl⟩ | ⟨-, n, state, -, rfl⟩⟩
  · exact Function.update_of_ne hj _ _
  · exact Function.update_of_ne hj _ _
  · exact Function.update_of_ne hj _ _
  · cases n with
    | inl p => rfl
    | inr r => exact Function.update_of_ne hj _ _

inductive SpinReachable (allowed : Request β → Prop) : SpinState κ β → Prop
  | init : SpinReachable allowed SpinState.init
  | step {s s' : SpinState κ β} (k : κ) (a : SpinAct β) (hs : SpinReachable allowed s)
      (ha : ∀ r, a = .construct r → allowed r) (h : s.step isLocal k a = some s') :
      SpinReachable allowed s'

def SpinState.run (s : SpinState κ β) (acts : List (κ × SpinAct β)) : Option (SpinState κ β) :=
  acts.foldlM (fun s p ↦ s.step isLocal p.1 p.2) s

theorem SpinReachable.run {allowed : Request β → Prop} {s s' : SpinState κ β}
    {acts : List (κ × SpinAct β)} (hs : SpinReachable isLocal allowed s)
    (hacts : ∀ p ∈ acts, ∀ r, p.2 = .construct r → allowed r)
    (h : s.run isLocal acts = some s') : SpinReachable isLocal allowed s' := by
  induction acts generalizing s with
  | nil =>
      cases h
      exact hs
  | cons p acts ih =>
      obtain ⟨u, hu, hrun⟩ := Option.bind_eq_some_iff.mp h
      apply ih (.step p.1 p.2 hs (hacts p (List.mem_cons_self)) hu)
      · intro q hq
        exact hacts q (List.mem_cons_of_mem p hq)
      · exact hrun

/-! ## 3. Locks whose tries may be refused -/

/-- A step of the buffer locks; but a try may also come back empty-handed from a lock that is
free. -/
inductive LockState.WeakStep (s : LockState κ β) (k : κ) : LockState κ β → Prop
  | step {s' : LockState κ β} (a : Act β) (h : s.step isLocal k a = some s') : WeakStep s k s'
  | refused (this : BufferLock2 β) (hne : this.buf1U ≠ this.buf2U)
      (hc : s.client k = .lock2 this hne) : WeakStep s k (s.setClient k (.unlock1 this hne))

theorem LockState.Balanced.weakStep {s s' : LockState κ β} (hs : s.Balanced isLocal) {k : κ}
    (h : s.WeakStep isLocal k s') : s'.Balanced isLocal := by
  cases h with
  | step a h => exact hs.step isLocal h
  | refused this hne hc =>
      apply hs.setClient
      rw [hc]
      rfl

/-! ## 4. What a call does -/

-- A client that gives a lock back has it.
theorem Client.holds_of_call {c : Client β} {b : β} {shared : Bool}
    (h : c.call = some (b, .unlock shared)) (hlocal : isLocal b = false) :
    (b, shared) ∈ c.holds isLocal := by
  cases c with
  | unlock1 this hne =>
      cases h
      exact (mem_holdOf isLocal).mpr ⟨hlocal, rfl, rfl⟩
  | destroy1 this =>
      cases h
      exact (Request.mem_holds_two isLocal).mpr (.inl ⟨hlocal, rfl, rfl⟩)
  | destroy2 this hne =>
      cases h
      exact (mem_holdOf isLocal).mpr ⟨hlocal, rfl, rfl⟩
  | destroy this =>
      cases h
      exact (mem_holdOf isLocal).mpr ⟨hlocal, rfl, rfl⟩
  | _ => cases h

-- The operation on a local buffer changes nothing.
theorem Client.operate_local {c : Client β} {b : β} {call : Call} (h : c.call = some (b, call))
    (hlocal : isLocal b = true) (locks : β → RWLock κ) (k : κ) :
    c.operate isLocal k locks = some (c.after true, locks) := by
  cases c with
  | idle => cases h
  | inside r => cases h
  | lock2 this hne =>
      cases h
      simp [Client.operate, BufferLock2.lock2, tryLockBuf, hlocal, Client.after]
  | _ =>
      cases h
      simp [Client.operate, BufferLock2.lock1, BufferLock2.unlock1, BufferLock2.unlock2, lockBuf,
        unlockBuf, hlocal, Client.after]

/-- A call that has returned is the client's operation, or it was a try that was refused. -/
theorem Client.operate_effect {c : Client β} {b : β} {call : Call} (h : c.call = some (b, call))
    (hlocal : isLocal b = false) {locks : β → RWLock κ} {k : κ} {l' : RWLock κ} {r : Bool}
    (heff : Call.Effect k (locks b) call l' r) :
    c.operate isLocal k locks = some (c.after r, Function.update locks b l') ∨
    (r = false ∧ l' = locks b ∧ ∃ this hne, c = .lock2 this hne) := by
  cases c with
  | idle => cases h
  | inside r => cases h
  | lock2 this hne =>
      cases h
      cases heff with
      | tryLock hl =>
          left
          simp [Client.operate, BufferLock2.lock2, tryLockBuf, hlocal, acquireAt, hl, Client.after]
      | refused => exact .inr ⟨rfl, rfl, this, hne, rfl⟩
  | lockEqual this heq =>
      cases h
      cases heff with
      | lock hl =>
          left
          simp [Client.operate, BufferLock2.lock1, lockBuf, hlocal, acquireAt, hl, Client.after]
  | lock1 this hne =>
      cases h
      cases heff with
      | lock hl =>
          left
          simp [Client.operate, BufferLock2.lock1, lockBuf, hlocal, acquireAt, hl, Client.after]
  | lock this =>
      cases h
      cases heff with
      | lock hl =>
          left
          simp [Client.operate, lockBuf, hlocal, acquireAt, hl, Client.after]
  | unlock1 this hne =>
      cases h
      cases heff with
      | unlock hl =>
          left
          simp [Client.operate, BufferLock2.unlock1, unlockBuf, hlocal, releaseAt, hl, Client.after]
  | destroy1 this =>
      cases h
      cases heff with
      | unlock hl =>
          left
          simp [Client.operate, BufferLock2.unlock1, unlockBuf, hlocal, releaseAt, hl, Client.after]
  | destroy2 this hne =>
      cases h
      cases heff with
      | unlock hl =>
          left
          simp [Client.operate, BufferLock2.unlock2, unlockBuf, hlocal, releaseAt, hl, Client.after]
  | destroy this =>
      cases h
      cases heff with
      | unlock hl =>
          left
          simp [Client.operate, unlockBuf, hlocal, releaseAt, hl, Client.after]

/-! ## 5. The words follow the locks -/

inductive WeakReachable (allowed : Request β → Prop) : LockState κ β → Prop
  | init : WeakReachable allowed LockState.init
  | construct {s s' : LockState κ β} (k : κ) (r : Request β) (hs : WeakReachable allowed s)
      (hr : allowed r) (h : s.step isLocal k (.construct r) = some s') : WeakReachable allowed s'
  | step {s s' : LockState κ β} (k : κ) (hs : WeakReachable allowed s)
      (h : s.WeakStep isLocal k s') (hclient : s.client k ≠ .idle) : WeakReachable allowed s'

theorem WeakReachable.balanced {allowed : Request β → Prop} {s : LockState κ β}
    (h : WeakReachable isLocal allowed s) : s.Balanced isLocal := by
  induction h with
  | init => exact balanced_init isLocal
  | construct k r _ _ hstep ih => exact ih.step isLocal hstep
  | step k _ hstep _ ih => exact ih.weakStep isLocal hstep

theorem Refines.holds_of_call (h : Refines isLocal s t) (hbal : t.Balanced isLocal) {b : β}
    {call : Call} (hcall : (s.client k).call = some (b, call)) (hlocal : isLocal b = false) :
    ∀ shared, call = .unlock shared → 0 < (t.locks b).holds k shared := by
  rintro shared rfl
  rw [hbal b k shared, ← h.client]
  exact List.count_pos_iff.mpr (Client.holds_of_call isLocal hcall hlocal)

-- The state in which the method of a client has returned.
theorem Refines.returned (h : Refines isLocal s t) {b : β} {l' : RWLock κ}
    {state : Atomic κ (BitVec 32)} (hl' : Represents l' state) (r : Bool) :
    Refines isLocal (s.accessed k b state (.inr r))
      { t.setClient k ((t.client k).after r) with locks := Function.update t.locks b l' } := by
  refine ⟨?_, fun c ↦ ?_, fun j p hj ↦ ?_⟩
  · simp only [SpinState.accessed, LockState.setClient, h.client]
  · by_cases hc : c = b
    · subst hc
      simpa [SpinState.accessed] using hl'
    · simpa [SpinState.accessed, hc] using h.lock c
  · by_cases hjk : j = k
    · subst hjk
      simp [SpinState.accessed] at hj
    · simp only [SpinState.accessed, Function.update_of_ne hjk] at hj ⊢
      exact h.point j p hj

-- The state in which it has not.
theorem Refines.went_on (h : Refines isLocal s t) {b : β} {call : Call} {p : Point}
    (hcall : (s.client k).call = some (b, call)) (hlocal : isLocal b = false)
    (hp : Point.Of call p) {state : Atomic κ (BitVec 32)} (hl : Represents (t.locks b) state) :
    Refines isLocal (s.accessed k b state (.inl p)) t := by
  refine ⟨h.client, fun c ↦ ?_, fun j q hj ↦ ?_⟩
  · by_cases hc : c = b
    · subst hc
      simpa [SpinState.accessed] using hl
    · simpa [SpinState.accessed, hc] using h.lock c
  · by_cases hjk : j = k
    · subst hjk
      simp only [SpinState.accessed, Function.update_self, Option.some.injEq] at hj
      subst hj
      exact ⟨b, call, hcall, hlocal, hp⟩
    · simp only [SpinState.accessed, Function.update_of_ne hjk] at hj
      exact h.point j q hj

theorem LockState.step_operate {c : Client β} {locks : β → RWLock κ}
    (h : (t.client k).operate isLocal k t.locks = some (c, locks)) :
    t.step isLocal k .operate = some { t.setClient k c with locks := locks } := by
  simp only [LockState.step, h]
  rfl

-- A method that returns has made a step of the locks.
theorem Refines.weakStep (h : Refines isLocal s t) {b : β} {call : Call}
    (hcall : (s.client k).call = some (b, call)) (hlocal : isLocal b = false) {l' : RWLock κ}
    {r : Bool} (heff : Call.Effect k (t.locks b) call l' r) :
    t.WeakStep isLocal k
      { t.setClient k ((t.client k).after r) with locks := Function.update t.locks b l' } := by
  rw [h.client] at hcall
  rcases Client.operate_effect isLocal hcall hlocal heff with hop | ⟨rfl, rfl, this, hne, hc⟩
  · exact .step .operate (LockState.step_operate isLocal hop)
  · rw [Function.update_eq_self, hc]
    exact .refused this hne hc

/-- One access is a step of the locks, or leaves them as they are. -/
theorem Refines.step {s' : SpinState κ β} {a : SpinAct β} (h : Refines isLocal s t)
    (hbal : t.Balanced isLocal) (hstep : s.step isLocal k a = some s') :
    (∃ r t', a = .construct r ∧ t.step isLocal k (.construct r) = some t' ∧
      Refines isLocal s' t') ∨
    (t.client k ≠ .idle ∧ ∃ t', t.WeakStep isLocal k t' ∧ Refines isLocal s' t') ∨
    Refines isLocal s' t := by
  rcases SpinState.step_cases isLocal hstep with
    ⟨r, rfl, hidle, rfl⟩ | ⟨r, rfl, hinside, rfl⟩ | ⟨ch, b, call, rfl, hcall, hcases⟩
  · have hp := h.point_none isLocal (k := k) (by rw [hidle]; rfl)
    rw [h.client] at hidle
    exact .inl ⟨r, _, rfl, if_pos hidle, h.setClient isLocal hp _⟩
  · have hp := h.point_none isLocal (k := k) (by rw [hinside]; rfl)
    rw [h.client] at hinside
    refine .inr (.inl ⟨by simp [hinside], _, .step .destroy ?_, h.setClient isLocal hp r.destroy⟩)
    simp only [LockState.step, hinside]
  · have hbusy : t.client k ≠ .idle := by
      intro hidle
      rw [h.client, hidle] at hcall
      cases hcall
    rcases hcases with ⟨hlocal, rfl⟩ | ⟨hlocal, n, state, hacc, rfl⟩
    · have hp := h.point_none_of_local isLocal hcall hlocal
      rw [h.client] at hcall ⊢
      exact .inr (.inl ⟨hbusy, _, .step .operate (LockState.step_operate isLocal
        (Client.operate_local isLocal hcall hlocal t.locks k)), h.setClient isLocal hp _⟩)
    · rcases Point.access_spec (h.point_of isLocal hcall) (h.lock b)
        (h.holds_of_call isLocal hbal hcall hlocal) hacc with
        ⟨p, rfl, hof, hrep⟩ | ⟨r, l', rfl, heff, hrep⟩
      · exact .inr (.inr (h.went_on isLocal hcall hlocal hof hrep))
      · exact .inr (.inl ⟨hbusy, _, h.weakStep isLocal hcall hlocal heff,
          h.returned isLocal hrep r⟩)

/-- Every run of accesses is a run of the locks: what its last state's words stand for. -/
theorem SpinReachable.refines {allowed : Request β → Prop} {s : SpinState κ β}
    (h : SpinReachable isLocal allowed s) :
    ∃ t, WeakReachable isLocal allowed t ∧ Refines isLocal s t := by
  induction h with
  | init => exact ⟨_, .init, refines_init isLocal⟩
  | step k a _ ha hstep ih =>
      obtain ⟨t, ht, href⟩ := ih
      rcases href.step isLocal (ht.balanced isLocal) hstep with
        ⟨r, t', rfl, hconstruct, h'⟩ | ⟨hbusy, t', hweak, h'⟩ | h'
      · exact ⟨t', .construct k r ht (ha r rfl) hconstruct, h'⟩
      · exact ⟨t', .step k ht hweak hbusy, h'⟩
      · exact ⟨t, ht, h'⟩

-- Client true wants buffer false exclusively and buffer true shared; client false, who wants buffer
-- true shared, comes between its load and its exchange, so it has to start again.
def disturbedTry : List (Bool × SpinAct Bool) :=
  [(true, .construct (.two ⟨false, true, false, true⟩)), (false, .construct (.one ⟨true, true⟩)),
    (true, .access .newest), (true, .access .spurious), (true, .access .newest),
    (true, .access .newest), (false, .access .newest), (true, .access .newest),
    (false, .access .newest), (true, .access .newest), (true, .access .newest),
    (true, .access .newest), (true, .access .newest), (true, .access .newest),
    (true, .access .newest), (true, .access .newest)]

theorem disturbedTry_reachable : ∃ s : SpinState Bool Bool,
    SpinReachable (fun _ ↦ false) (fun r ↦ ¬ r.Underlocked fun _ ↦ false) s ∧
    s.client true = .inside (.two ⟨false, true, false, true⟩) ∧
    s.client false = .inside (.one ⟨true, true⟩) ∧ (s.lock true).newest = 2#32 := by
  have hrun : (SpinState.init.run (fun _ ↦ false) disturbedTry).map
      (fun s ↦ (s.client true, s.client false, (s.lock true).newest)) =
        some (.inside (.two ⟨false, true, false, true⟩), .inside (.one ⟨true, true⟩), 2#32) := by
    decide
  obtain ⟨s, hs, hpoint⟩ := Option.map_eq_some_iff.mp hrun
  rw [Prod.mk.injEq, Prod.mk.injEq] at hpoint
  refine ⟨s, SpinReachable.init.run _ ?_ hs, hpoint⟩
  intro p hp r hr
  simp only [disturbedTry, List.mem_cons, List.not_mem_nil, or_false] at hp
  rcases hp with rfl | rfl | rfl | rfl | rfl | rfl | rfl | rfl | rfl | rfl | rfl | rfl | rfl | rfl |
    rfl | rfl <;> cases hr <;> decide

/-! ## 6. What the words protect -/

theorem WeakReachable.request_allowed {allowed : Request β → Prop}
    (h : WeakReachable isLocal allowed t) : ∀ k r, (t.client k).request = some r → allowed r := by
  induction h with
  | init =>
      intro k r hr
      cases hr
  | construct k q _ hq hstep ih =>
      intro j r hr
      by_cases hj : j = k
      · subst hj
        rcases LockState.step_request isLocal hstep hr with hnew | hold
        · cases hnew
          exact hq
        · exact ih j r hold
      · rw [LockState.step_other isLocal hstep hj] at hr
        exact ih j r hr
  | @step t t' k _ hstep hbusy ih =>
      intro j r hr
      cases hstep with
      | step a hstep =>
          by_cases hj : j = k
          · subst hj
            rcases LockState.step_request isLocal hstep hr with rfl | hold
            · simp [LockState.step, hbusy] at hstep
            · exact ih j r hold
          · rw [LockState.step_other isLocal hstep hj] at hr
            exact ih j r hr
      | refused this hne hc =>
          apply ih j r
          by_cases hj : j = k
          · subst hj
            rw [hc]
            simpa [LockState.setClient, Client.request] using hr
          · simpa [LockState.setClient, hj] using hr

-- Behind every state of the words is one of the locks that keeps what the lock objects promise.
theorem SpinReachable.exists_safe
    (h : SpinReachable isLocal (fun r ↦ ¬ r.Underlocked isLocal) s) :
    ∃ t, Refines isLocal s t ∧ Safe isLocal t := by
  obtain ⟨t, ht, href⟩ := h.refines
  refine ⟨t, href, ((ht.balanced isLocal).safe_iff isLocal).mpr fun k r hk ↦ ?_⟩
  apply ht.request_allowed isLocal k
  rw [hk]
  rfl

/-- What the lock objects promise, in terms of the words. -/
structure SpinSafe (s : SpinState κ β) : Prop where
  exclusive : ∀ j k q r, s.client j = .inside q → s.client k = .inside r → j ≠ k →
    ∀ b sh, isLocal b = false → (b, false) ∈ r.asks → (b, sh) ∉ q.asks
  -- the assertion of unlock
  unlocks : ∀ k, s.point k ≠ some .failed
  -- the assertion of ~rw_spinlock
  released : (∀ k, s.client k = .idle) → ∀ b, (s.lock b).newest = unlockedState

/-- Whatever the order of the accesses, however old the values the loads return and however often an
exchange fails for no reason. -/
theorem spinLocks_safe (h : SpinReachable isLocal (fun r ↦ ¬ r.Underlocked isLocal) s) :
    SpinSafe isLocal s := by
  obtain ⟨t, href, hsafe⟩ := h.exists_safe
  refine ⟨?_, href.not_failed isLocal, fun hidle b ↦ ?_⟩
  · rw [href.client]
    exact hsafe.exclusive
  · rw [href.client] at hidle
    rw [(href.lock b).newest, hsafe.released hidle b]
    rfl

theorem spinLocks_safe_disturbedTry : ∃ s : SpinState Bool Bool,
    s.client true = .inside (.two ⟨false, true, false, true⟩) ∧
    s.client false = .inside (.one ⟨true, true⟩) ∧ SpinSafe (fun _ ↦ false) s := by
  obtain ⟨s, hs, hone, hother, -⟩ := disturbedTry_reachable
  exact ⟨s, hone, hother, spinLocks_safe (fun _ ↦ false) hs⟩

end Scnim
