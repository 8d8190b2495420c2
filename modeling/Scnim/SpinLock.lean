import Mathlib.Algebra.Group.Nat.Even
import Scnim.Machine.Atomic
import Scnim.Machine.RWLock

/-!
# The reader-writer spin lock

`rw_spinlock` of `dev/SC_SndBuf.h`: every method is the accesses it makes to `state`, one after the
other.  `pause` does nothing.
-/

open Machine

namespace Scnim.RwSpinlock

def unlockedState : BitVec 32 := 0

def lockedState : BitVec 32 := 0x80000000#32

def readerMask : BitVec 32 := 0x7fffffff#32

/-! ## 1. The methods -/

-- `lock`, `try_lock` and `unlock`, or `lock_shared`, `try_lock_shared` and `unlock_shared`
inductive Call
  | lock (shared : Bool)
  | tryLock (shared : Bool)
  | unlock (shared : Bool)
  deriving DecidableEq

/-- The access a method makes next, with its local variables. -/
inductive Point
  | lockLoad
  | lockExchange
  | tryLockExchange
  | unlockAssert
  | unlockStore
  | lockSharedLoad
  | lockSharedExchange (currentState nextState : BitVec 32)
  | tryLockSharedLoad
  | tryLockSharedExchange (currentState nextState : BitVec 32)
  | unlockSharedLoad
  | unlockSharedExchange (currentState nextState : BitVec 32)
  -- the assertion of unlock was false
  | failed
  deriving DecidableEq

def Call.start : Call → Point
  | .lock false => .lockLoad
  | .lock true => .lockSharedLoad
  | .tryLock false => .tryLockExchange
  | .tryLock true => .tryLockSharedLoad
  | .unlock false => .unlockAssert
  | .unlock true => .unlockSharedLoad

section Methods

variable {κ : Type*} [DecidableEq κ]

/-- One access: the method goes on at another one, or returns.  The void methods return `true`. -/
def Point.access (p : Point) (state : Atomic κ (BitVec 32)) (k : κ) (ch : Choice) :
    Option ((Point ⊕ Bool) × Atomic κ (BitVec 32)) :=
  match p with
  | .lockLoad => (state.load k ch).map fun (v, state) ↦
      (.inl (if v ≠ unlockedState then .lockLoad else .lockExchange), state)
  | .lockExchange =>
      (state.compareExchange true k unlockedState lockedState ch).map fun (ok, state) ↦
        (if ok then .inr true else .inl .lockLoad, state)
  | .tryLockExchange =>
      (state.compareExchange false k unlockedState lockedState ch).map fun (ok, state) ↦
        (.inr ok, state)
  | .unlockAssert => (state.load k ch).map fun (v, state) ↦
      (.inl (if v = lockedState then .unlockStore else .failed), state)
  | .unlockStore =>
      if ch = .newest then some (.inr true, state.store k unlockedState) else none
  | .lockSharedLoad => (state.load k ch).map fun (v, state) ↦
      -- with the mask, the exchange will fail on a lock held exclusively
      (.inl (.lockSharedExchange (v &&& readerMask) ((v &&& readerMask) + 1)), state)
  | .lockSharedExchange currentState nextState =>
      (state.compareExchange true k currentState nextState ch).map fun (ok, state) ↦
        (if ok then .inr true else .inl .lockSharedLoad, state)
  | .tryLockSharedLoad => (state.load k ch).map fun (v, state) ↦
      (.inl (.tryLockSharedExchange (v &&& readerMask) ((v &&& readerMask) + 1)), state)
  | .tryLockSharedExchange currentState nextState =>
      (state.compareExchange false k currentState nextState ch).map fun (ok, state) ↦
        (.inr ok, state)
  | .unlockSharedLoad => (state.load k ch).map fun (v, state) ↦
      (.inl (.unlockSharedExchange v (v - 1)), state)
  | .unlockSharedExchange currentState nextState =>
      (state.compareExchange true k currentState nextState ch).map fun (ok, state) ↦
        (if ok then .inr true else .inl .unlockSharedLoad, state)
  | .failed => none

end Methods

/-! ## 2. The lock a word stands for -/

section Lock

variable {κ : Type*}

def word : RWLock κ → BitVec 32
  | .writer _ => lockedState
  | .readers ks => BitVec.ofNat 32 ks.card

/-- The location holds the lock: its newest value counts the readers, or says that there is a
writer, who can read nothing else. -/
structure Represents (l : RWLock κ) (state : Atomic κ (BitVec 32)) : Prop where
  newest : state.newest = word l
  writer : ∀ k, l = .writer k → state.UpToDate k
  readers : ∀ ks, l = .readers ks → ks.card ≤ 2 ^ 31

variable {l : RWLock κ} {state state' : Atomic κ (BitVec 32)} {k : κ}

theorem Represents.quiet (h : Represents l state) (hq : state.Quiet state') : Represents l state' :=
  ⟨hq.newest.trans h.newest, fun k hk ↦ hq.upToDate k (h.writer k hk), h.readers⟩

theorem represents_init : Represents (RWLock.free : RWLock κ) (Atomic.init unlockedState) := by
  refine ⟨rfl, fun k hk ↦ (by cases hk), fun ks hks ↦ ?_⟩
  cases hks
  exact Nat.zero_le _

theorem mask_toNat_lt (v : BitVec 32) : (v &&& readerMask).toNat < 2 ^ 31 := by
  rw [BitVec.toNat_and]
  exact Nat.and_lt_two_pow _ (by decide)

-- Only the free lock is unlocked.
theorem Represents.free (h : Represents l state) (hw : state.newest = unlockedState) :
    l = RWLock.free := by
  rw [h.newest] at hw
  cases l with
  | writer j => exact absurd hw (show ¬ lockedState = unlockedState by decide)
  | readers ks =>
      have hcard := h.readers ks rfl
      have hzero := congrArg BitVec.toNat hw
      rw [word, BitVec.toNat_ofNat, Nat.mod_eq_of_lt (by omega)] at hzero
      rw [Multiset.card_eq_zero.mp hzero]
      rfl

-- A word below the mask counts readers.
theorem Represents.count (h : Represents l state) (hw : state.newest.toNat < 2 ^ 31) :
    ∃ ks, l = .readers ks ∧ ks.card = state.newest.toNat := by
  rw [h.newest] at hw ⊢
  cases l with
  | writer j => exact absurd hw (show ¬ lockedState.toNat < 2 ^ 31 by decide)
  | readers ks =>
      have hcard := h.readers ks rfl
      refine ⟨ks, rfl, ?_⟩
      rw [word, BitVec.toNat_ofNat, Nat.mod_eq_of_lt (by omega)]

/-! ## 3. What the methods do to the lock -/

/-- The points of a method, with what is known of its local variables. -/
inductive Point.Of : Call → Point → Prop
  | lockLoad : Point.Of (.lock false) .lockLoad
  | lockExchange : Point.Of (.lock false) .lockExchange
  | tryLockExchange : Point.Of (.tryLock false) .tryLockExchange
  | unlockAssert : Point.Of (.unlock false) .unlockAssert
  | unlockStore : Point.Of (.unlock false) .unlockStore
  | lockSharedLoad : Point.Of (.lock true) .lockSharedLoad
  | lockSharedExchange (c : BitVec 32) (h : c.toNat < 2 ^ 31) :
      Point.Of (.lock true) (.lockSharedExchange c (c + 1))
  | tryLockSharedLoad : Point.Of (.tryLock true) .tryLockSharedLoad
  | tryLockSharedExchange (c : BitVec 32) (h : c.toNat < 2 ^ 31) :
      Point.Of (.tryLock true) (.tryLockSharedExchange c (c + 1))
  | unlockSharedLoad : Point.Of (.unlock true) .unlockSharedLoad
  | unlockSharedExchange (c : BitVec 32) : Point.Of (.unlock true) (.unlockSharedExchange c (c - 1))

theorem Call.start_of (call : Call) : Point.Of call call.start := by
  cases call with
  | lock shared =>
      cases shared with
      | false => exact .lockLoad
      | true => exact .lockSharedLoad
  | tryLock shared =>
      cases shared with
      | false => exact .tryLockExchange
      | true => exact .tryLockSharedLoad
  | unlock shared =>
      cases shared with
      | false => exact .unlockAssert
      | true => exact .unlockSharedLoad

variable [DecidableEq κ]

/-- What a method that has returned did to the lock.  A try may be refused at any time. -/
inductive Call.Effect (k : κ) (l : RWLock κ) : Call → RWLock κ → Bool → Prop
  | lock {shared : Bool} {l' : RWLock κ} (h : l.acquire shared k = some l') :
      Call.Effect k l (.lock shared) l' true
  | tryLock {shared : Bool} {l' : RWLock κ} (h : l.acquire shared k = some l') :
      Call.Effect k l (.tryLock shared) l' true
  | refused {shared : Bool} : Call.Effect k l (.tryLock shared) l false
  | unlock {shared : Bool} {l' : RWLock κ} (h : l.release shared k = some l') :
      Call.Effect k l (.unlock shared) l' true

theorem Represents.lock (h : Represents l state) (hw : state.newest = unlockedState) :
    ∃ l', l.acquire false k = some l' ∧ Represents l' (state.store k lockedState) := by
  rw [h.free hw]
  refine ⟨.writer k, by simp [RWLock.acquire, RWLock.free], rfl, fun j hj ↦ ?_, fun ks hks ↦ ?_⟩
  · cases hj
    exact state.store_upToDate k lockedState
  · cases hks

theorem Represents.lockShared (h : Represents l state) {c : BitVec 32} (hc : c.toNat < 2 ^ 31)
    (hw : state.newest = c) :
    ∃ l', l.acquire true k = some l' ∧ Represents l' (state.store k (c + 1)) := by
  subst hw
  obtain ⟨ks, rfl, hcard⟩ := h.count hc
  refine ⟨.readers (k ::ₘ ks), rfl, ?_, fun j hj ↦ (by cases hj), fun js hjs ↦ ?_⟩
  · apply BitVec.eq_of_toNat_eq
    rw [Atomic.store, word, BitVec.toNat_ofNat, Multiset.card_cons, hcard, BitVec.toNat_add]
    rfl
  · cases hjs
    rw [Multiset.card_cons]
    omega

theorem Represents.unlock (state : Atomic κ (BitVec 32)) (hk : 0 < l.holds k false) :
    ∃ l', l.release false k = some l' ∧ Represents l' (state.store k unlockedState) := by
  obtain ⟨l', hl'⟩ := RWLock.exists_release hk
  refine ⟨l', hl', ?_⟩
  cases l with
  | readers ks => simp [RWLock.holds] at hk
  | writer j =>
      simp only [RWLock.release, Option.ite_none_right_eq_some] at hl'
      obtain ⟨-, hl'⟩ := hl'
      cases hl'
      refine ⟨rfl, fun i hi ↦ (by cases hi), fun ks hks ↦ ?_⟩
      cases hks
      exact Nat.zero_le _

theorem Represents.unlockShared (h : Represents l state) (hk : 0 < l.holds k true) {c : BitVec 32}
    (hw : state.newest = c) :
    ∃ l', l.release true k = some l' ∧ Represents l' (state.store k (c - 1)) := by
  obtain ⟨l', hl'⟩ := RWLock.exists_release hk
  refine ⟨l', hl', ?_⟩
  subst hw
  cases l with
  | writer j => simp [RWLock.holds] at hk
  | readers ks =>
      simp only [RWLock.release, Option.ite_none_right_eq_some] at hl'
      obtain ⟨hmem, hl'⟩ := hl'
      cases hl'
      have hcard := h.readers ks rfl
      have hpos : 0 < ks.card := Multiset.card_pos_iff_exists_mem.mpr ⟨k, hmem⟩
      refine ⟨?_, fun j hj ↦ (by cases hj), fun js hjs ↦ ?_⟩
      · apply BitVec.eq_of_toNat_eq
        rw [Atomic.store, h.newest, word, word, Multiset.card_erase_of_mem hmem, BitVec.toNat_sub,
          BitVec.toNat_ofNat, BitVec.toNat_ofNat, Nat.mod_eq_of_lt (show ks.card < 2 ^ 32 by omega),
          show (1 : BitVec 32).toNat = 1 from rfl, Nat.pred_eq_sub_one]
        omega
      · cases hjs
        rw [Multiset.card_erase_of_mem hmem, Nat.pred_eq_sub_one]
        omega

-- The writer's assertion reads what the writer wrote.
theorem Represents.assert (h : Represents l state) (hk : 0 < l.holds k false) :
    state.newest = lockedState ∧ state.UpToDate k := by
  cases l with
  | readers ks => simp [RWLock.holds] at hk
  | writer j =>
      have hjk : j = k := by
        by_contra hne
        simp [RWLock.holds, hne] at hk
      subst hjk
      exact ⟨h.newest, h.writer j rfl⟩

/-- An access goes on at another point of the method and leaves the lock as it is, or the method
returns and has done its effect at that moment.  The assertion of `unlock` never fails. -/
theorem Point.access_spec {call : Call} {p : Point} {n : Point ⊕ Bool} {ch : Choice}
    (hp : Point.Of call p) (h : Represents l state)
    (hunlock : ∀ shared, call = .unlock shared → 0 < l.holds k shared)
    (hacc : p.access state k ch = some (n, state')) :
    (∃ q, n = .inl q ∧ Point.Of call q ∧ Represents l state') ∨
    ∃ r l', n = .inr r ∧ Call.Effect k l call l' r ∧ Represents l' state' := by
  cases hp with
  | lockLoad =>
      obtain ⟨⟨v, b⟩, hload, hacc⟩ := Option.map_eq_some_iff.mp hacc
      cases hacc
      refine .inl ⟨_, rfl, ?_, h.quiet (Atomic.load_quiet hload)⟩
      split
      · exact .lockLoad
      · exact .lockExchange
  | lockExchange =>
      obtain ⟨⟨ok, b⟩, hcas, hacc⟩ := Option.map_eq_some_iff.mp hacc
      cases hacc
      cases ok with
      | false => exact .inl ⟨_, rfl, .lockLoad, h.quiet (Atomic.compareExchange_false hcas)⟩
      | true =>
          obtain ⟨hw, rfl⟩ := Atomic.compareExchange_true hcas
          obtain ⟨l', hl', h'⟩ := h.lock (k := k) hw
          exact .inr ⟨true, l', rfl, .lock hl', h'⟩
  | tryLockExchange =>
      obtain ⟨⟨ok, b⟩, hcas, hacc⟩ := Option.map_eq_some_iff.mp hacc
      cases hacc
      cases ok with
      | false => exact .inr ⟨false, l, rfl, .refused, h.quiet (Atomic.compareExchange_false hcas)⟩
      | true =>
          obtain ⟨hw, rfl⟩ := Atomic.compareExchange_true hcas
          obtain ⟨l', hl', h'⟩ := h.lock (k := k) hw
          exact .inr ⟨true, l', rfl, .tryLock hl', h'⟩
  | unlockAssert =>
      obtain ⟨⟨v, b⟩, hload, hacc⟩ := Option.map_eq_some_iff.mp hacc
      cases hacc
      obtain ⟨hw, hk⟩ := h.assert (hunlock false rfl)
      have hv : v = lockedState := (Atomic.load_upToDate hload hk).trans hw
      refine .inl ⟨_, rfl, ?_, h.quiet (Atomic.load_quiet hload)⟩
      rw [if_pos hv]
      exact .unlockStore
  | unlockStore =>
      simp only [Point.access, Option.ite_none_right_eq_some] at hacc
      obtain ⟨-, hacc⟩ := hacc
      cases hacc
      obtain ⟨l', hl', h'⟩ := Represents.unlock state (hunlock false rfl)
      exact .inr ⟨true, l', rfl, .unlock hl', h'⟩
  | lockSharedLoad =>
      obtain ⟨⟨v, b⟩, hload, hacc⟩ := Option.map_eq_some_iff.mp hacc
      cases hacc
      exact .inl ⟨_, rfl, .lockSharedExchange _ (mask_toNat_lt v),
        h.quiet (Atomic.load_quiet hload)⟩
  | lockSharedExchange c hc =>
      obtain ⟨⟨ok, b⟩, hcas, hacc⟩ := Option.map_eq_some_iff.mp hacc
      cases hacc
      cases ok with
      | false => exact .inl ⟨_, rfl, .lockSharedLoad, h.quiet (Atomic.compareExchange_false hcas)⟩
      | true =>
          obtain ⟨hw, rfl⟩ := Atomic.compareExchange_true hcas
          obtain ⟨l', hl', h'⟩ := h.lockShared (k := k) hc hw
          exact .inr ⟨true, l', rfl, .lock hl', h'⟩
  | tryLockSharedLoad =>
      obtain ⟨⟨v, b⟩, hload, hacc⟩ := Option.map_eq_some_iff.mp hacc
      cases hacc
      exact .inl ⟨_, rfl, .tryLockSharedExchange _ (mask_toNat_lt v),
        h.quiet (Atomic.load_quiet hload)⟩
  | tryLockSharedExchange c hc =>
      obtain ⟨⟨ok, b⟩, hcas, hacc⟩ := Option.map_eq_some_iff.mp hacc
      cases hacc
      cases ok with
      | false => exact .inr ⟨false, l, rfl, .refused, h.quiet (Atomic.compareExchange_false hcas)⟩
      | true =>
          obtain ⟨hw, rfl⟩ := Atomic.compareExchange_true hcas
          obtain ⟨l', hl', h'⟩ := h.lockShared (k := k) hc hw
          exact .inr ⟨true, l', rfl, .tryLock hl', h'⟩
  | unlockSharedLoad =>
      obtain ⟨⟨v, b⟩, hload, hacc⟩ := Option.map_eq_some_iff.mp hacc
      cases hacc
      exact .inl ⟨_, rfl, .unlockSharedExchange v, h.quiet (Atomic.load_quiet hload)⟩
  | unlockSharedExchange c =>
      obtain ⟨⟨ok, b⟩, hcas, hacc⟩ := Option.map_eq_some_iff.mp hacc
      cases hacc
      cases ok with
      | false =>
          exact .inl ⟨_, rfl, .unlockSharedLoad, h.quiet (Atomic.compareExchange_false hcas)⟩
      | true =>
          obtain ⟨hw, rfl⟩ := Atomic.compareExchange_true hcas
          obtain ⟨l', hl', h'⟩ := h.unlockShared (hunlock true rfl) hw
          exact .inr ⟨true, l', rfl, .unlock hl', h'⟩

/-! ## 4. Clients left alone -/

-- How many accesses are left, at most, where each comes across the newest value.
def Point.rank (newest : BitVec 32) : Point → ℕ
  | .lockLoad => 2
  | .lockExchange => 1
  | .tryLockExchange => 1
  | .unlockAssert => 2
  | .unlockStore => 1
  | .lockSharedLoad => 2
  | .lockSharedExchange currentState _ => if newest = currentState then 1 else 3
  | .tryLockSharedLoad => 2
  | .tryLockSharedExchange _ _ => 1
  | .unlockSharedLoad => 2
  | .unlockSharedExchange currentState _ => if newest = currentState then 1 else 3
  | .failed => 0

-- A client that is not disturbed and not blocked comes closer to its return.
theorem Point.access_newest {call : Call} {p : Point} (hp : Point.Of call p)
    (h : Represents l state) (hlock : ∀ shared, call = .lock shared → l = RWLock.free)
    (hunlock : ∀ shared, call = .unlock shared → 0 < l.holds k shared) :
    ∃ n state', p.access state k .newest = some (n, state') ∧
      ∀ q, n = .inl q →
        state'.newest = state.newest ∧ q.rank state.newest < p.rank state.newest := by
  have hfree : ∀ shared, call = .lock shared → state.newest = unlockedState := by
    intro shared hcall
    rw [h.newest, hlock shared hcall]
    rfl
  cases hp with
  | lockLoad =>
      refine ⟨_, _, rfl, fun q hq ↦ ?_⟩
      cases hq
      refine ⟨state.setOlder_newest k [], ?_⟩
      rw [hfree false rfl]
      decide
  | lockExchange =>
      obtain ⟨b, hb⟩ := state.compareExchange_newest true k unlockedState lockedState
      rw [hfree false rfl] at hb
      exact ⟨.inr true, b, by rw [Point.access, hb]; rfl, fun q hq ↦ by cases hq⟩
  | tryLockExchange =>
      obtain ⟨b, hb⟩ := state.compareExchange_newest false k unlockedState lockedState
      exact ⟨_, b, by rw [Point.access, hb]; rfl, fun q hq ↦ by cases hq⟩
  | unlockAssert =>
      refine ⟨_, _, rfl, fun q hq ↦ ?_⟩
      cases hq
      refine ⟨state.setOlder_newest k [], ?_⟩
      rw [(h.assert (hunlock false rfl)).1]
      decide
  | unlockStore => exact ⟨_, _, rfl, fun q hq ↦ by cases hq⟩
  | lockSharedLoad =>
      refine ⟨_, _, rfl, fun q hq ↦ ?_⟩
      cases hq
      refine ⟨state.setOlder_newest k [], ?_⟩
      rw [hfree true rfl]
      decide
  | lockSharedExchange c hc =>
      obtain ⟨b, hb⟩ := state.compareExchange_newest true k c (c + 1)
      refine ⟨_, b, by rw [Point.access, hb]; rfl, fun q hq ↦ ?_⟩
      by_cases hw : state.newest = c
      · simp [hw] at hq
      · simp only [decide_eq_false hw, Bool.false_eq_true, if_false, Sum.inl.injEq] at hq
        subst hq
        rw [decide_eq_false hw] at hb
        exact ⟨(Atomic.compareExchange_false hb).newest, by simp [Point.rank, hw]⟩
  | tryLockSharedLoad =>
      refine ⟨_, _, rfl, fun q hq ↦ ?_⟩
      cases hq
      exact ⟨state.setOlder_newest k [], Nat.one_lt_two⟩
  | tryLockSharedExchange c hc =>
      obtain ⟨b, hb⟩ := state.compareExchange_newest false k c (c + 1)
      exact ⟨_, b, by rw [Point.access, hb]; rfl, fun q hq ↦ by cases hq⟩
  | unlockSharedLoad =>
      refine ⟨_, _, rfl, fun q hq ↦ ?_⟩
      cases hq
      simp [Point.rank]
  | unlockSharedExchange c =>
      obtain ⟨b, hb⟩ := state.compareExchange_newest true k c (c - 1)
      refine ⟨_, b, by rw [Point.access, hb]; rfl, fun q hq ↦ ?_⟩
      by_cases hw : state.newest = c
      · simp [hw] at hq
      · simp only [decide_eq_false hw, Bool.false_eq_true, if_false, Sum.inl.injEq] at hq
        subst hq
        rw [decide_eq_false hw] at hb
        exact ⟨(Atomic.compareExchange_false hb).newest, by simp [Point.rank, hw]⟩

-- What a try has read, if it has read anything, is still there.
def Point.Fresh (newest : BitVec 32) (p : Point) : Prop :=
  ∀ c d, p = .tryLockSharedExchange c d → c = newest

theorem Call.start_fresh (call : Call) (newest : BitVec 32) : call.start.Fresh newest := by
  intro c d h
  cases call with
  | lock shared => cases shared <;> cases h
  | tryLock shared => cases shared <;> cases h
  | unlock shared => cases shared <;> cases h

-- A try that is not disturbed is not refused by an unlocked word.
theorem Point.access_unlocked {shared : Bool} {p : Point} {n : Point ⊕ Bool}
    (hof : Point.Of (.tryLock shared) p) (hp : p.Fresh state.newest)
    (hw : state.newest = unlockedState) (hacc : p.access state k .newest = some (n, state')) :
    (∀ q, n = .inl q → q.Fresh state.newest) ∧ (∀ r, n = .inr r → r = true) := by
  cases hof with
  | tryLockExchange =>
      obtain ⟨b, hb⟩ := state.compareExchange_newest false k unlockedState lockedState
      rw [hw] at hb
      rw [Point.access, hb] at hacc
      cases hacc
      exact ⟨fun q hq ↦ (by cases hq), fun r hr ↦ (by cases hr; rfl)⟩
  | tryLockSharedLoad =>
      cases hacc
      refine ⟨fun q hq c d hcd ↦ ?_, fun r hr ↦ (by cases hr)⟩
      cases hq
      cases hcd
      rw [hw]
      rfl
  | tryLockSharedExchange c hc =>
      obtain ⟨b, hb⟩ := state.compareExchange_newest false k c (c + 1)
      rw [hp c (c + 1) rfl, decide_eq_true rfl] at hb
      rw [Point.access, hp c (c + 1) rfl, hb] at hacc
      cases hacc
      exact ⟨fun q hq ↦ (by cases hq), fun r hr ↦ (by cases hr; rfl)⟩

end Lock

end Scnim.RwSpinlock
