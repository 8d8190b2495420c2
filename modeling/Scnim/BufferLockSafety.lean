import Scnim.BufferLock

/-!
# What buffer locks protect

A client inside its lock object holds every buffer it named, in the mode it asked for, unless it
named one buffer twice and the first mode is the weaker one: then the object takes one lock only.
-/

open Machine

namespace Scnim

variable {κ β : Type*} (isLocal : β → Bool)

/-! ## 1. What is asked for -/

-- The buffers and modes a client passes to the constructor.
def Request.asks : Request β → List (β × Bool)
  | .two this => [(this.buf1U, this.shared1), (this.buf2U, this.shared2)]
  | .one this => [(this.bufU, this.shared)]

/-- One buffer named twice, first shared and then exclusively: only `lock1` is called. -/
def Request.Underlocked : Request β → Prop
  | .two this => this.buf1U = this.buf2U ∧ isLocal this.buf1U = false ∧
      this.shared1 = true ∧ this.shared2 = false
  | .one _ => False

-- What a client that is not idle has asked for.
def Client.request : Client β → Option (Request β)
  | .idle => none
  | .lockEqual this _ => some (.two this)
  | .lock1 this _ => some (.two this)
  | .lock2 this _ => some (.two this)
  | .unlock1 this _ => some (.two this)
  | .lock this => some (.one this)
  | .inside r => some r
  | .destroy1 this => some (.two this)
  | .destroy2 this _ => some (.two this)
  | .destroy this => some (.one this)

theorem Request.request_destroy (r : Request β) : r.destroy.request = some r := by
  cases r <;> rfl

theorem mem_holdOf {b c : β} {shared sh : Bool} :
    (c, sh) ∈ holdOf isLocal b shared ↔ isLocal b = false ∧ c = b ∧ sh = shared := by
  unfold holdOf
  by_cases hlocal : isLocal b = true
  · simp [hlocal]
  · simp [hlocal]

variable [DecidableEq κ] [DecidableEq β]

instance (r : Request β) : Decidable (r.Underlocked isLocal) := by
  cases r <;> unfold Request.Underlocked <;> infer_instance

def HoldsAtLeast (l : RWLock κ) (k : κ) (shared : Bool) : Prop :=
  0 < l.holds k false ∨ (shared = true ∧ 0 < l.holds k true)

/-- What the lock objects are for. -/
structure Safe (s : LockState κ β) : Prop where
  held : ∀ k r, s.client k = .inside r → ∀ p ∈ r.asks, isLocal p.1 = false →
    HoldsAtLeast (s.locks p.1) k p.2
  exclusive : ∀ j k q r, s.client j = .inside q → s.client k = .inside r → j ≠ k →
    ∀ b sh, isLocal b = false → (b, false) ∈ r.asks → (b, sh) ∉ q.asks
  released : (∀ k, s.client k = .idle) → ∀ b, s.locks b = RWLock.free

/-! ## 2. What is held -/

theorem Request.mem_holds_two {this : BufferLock2 β} {c : β} {sh : Bool} :
    (c, sh) ∈ Request.holds isLocal (.two this) ↔
      (isLocal this.buf1U = false ∧ c = this.buf1U ∧ sh = this.shared1) ∨
      (this.buf1U ≠ this.buf2U ∧ isLocal this.buf2U = false ∧ c = this.buf2U ∧
        sh = this.shared2) := by
  unfold Request.holds
  rw [List.mem_append, mem_holdOf]
  by_cases heq : this.buf1U = this.buf2U
  · simp [heq]
  · simp [heq, mem_holdOf]

-- An object takes what it is asked for exactly if it is not underlocked.
theorem Request.holds_asks_iff (r : Request β) :
    (∀ p ∈ r.asks, isLocal p.1 = false → (p.1, false) ∈ r.holds isLocal ∨
      (p.2 = true ∧ (p.1, true) ∈ r.holds isLocal)) ↔ ¬ r.Underlocked isLocal := by
  cases r with
  | one this =>
      simp only [Request.asks, Request.holds, Request.Underlocked, mem_holdOf]
      cases this.shared <;> simp
  | two this =>
      simp only [Request.asks, Request.mem_holds_two, Request.Underlocked]
      by_cases heq : this.buf1U = this.buf2U
      · cases this.shared1 <;> cases this.shared2 <;> simp [heq]
      · cases this.shared1 <;> cases this.shared2 <;> simp +contextual [heq]

-- The exclusive holds of an object that takes what it is asked for.
theorem holdsAtLeast_iff {s : LockState κ β} (hs : s.Balanced isLocal) {k : κ} {r : Request β}
    (hk : s.client k = .inside r) (b : β) (shared : Bool) :
    HoldsAtLeast (s.locks b) k shared ↔
      (b, false) ∈ r.holds isLocal ∨ (shared = true ∧ (b, true) ∈ r.holds isLocal) := by
  have hcount : ∀ sh, (s.locks b).holds k sh = (r.holds isLocal).count (b, sh) := by
    intro sh
    rw [hs b k sh, hk]
    rfl
  unfold HoldsAtLeast
  rw [hcount, hcount, List.count_pos_iff, List.count_pos_iff]

theorem LockState.Balanced.held_iff {s : LockState κ β} (hs : s.Balanced isLocal) {k : κ}
    {r : Request β} (hk : s.client k = .inside r) :
    (∀ p ∈ r.asks, isLocal p.1 = false → HoldsAtLeast (s.locks p.1) k p.2) ↔
      ¬ r.Underlocked isLocal := by
  rw [← r.holds_asks_iff]
  simp only [holdsAtLeast_iff isLocal hs hk]

theorem LockState.Balanced.safe_iff {s : LockState κ β} (hs : s.Balanced isLocal) :
    Safe isLocal s ↔ ∀ k r, s.client k = .inside r → ¬ r.Underlocked isLocal := by
  constructor
  · intro h k r hk
    exact (hs.held_iff isLocal hk).mp (h.held k r hk)
  · intro h
    have hheld : ∀ k r, s.client k = .inside r → ∀ p ∈ r.asks, isLocal p.1 = false →
        HoldsAtLeast (s.locks p.1) k p.2 :=
      fun k r hk ↦ (hs.held_iff isLocal hk).mpr (h k r hk)
    refine ⟨hheld, ?_, ?_⟩
    · intro j k q r hj hk hjk b sh hlocal hr hq
      have hwriter := hheld k r hk _ hr hlocal
      have hother := hheld j q hj _ hq hlocal
      rcases hwriter with hwriter | ⟨hshared, -⟩
      · rcases hother with hother | ⟨-, hother⟩
        · exact hjk (RWLock.writer_alone hwriter hother).1
        · exact hjk (RWLock.writer_alone hwriter hother).1
      · cases hshared
    · intro hidle b
      apply RWLock.eq_free
      intro k sh
      rw [hs b k sh, hidle k]
      rfl

/-! ## 3. Runs -/

theorem Request.request_construct (r : Request β) : r.construct.request = some r := by
  cases r with
  | one this => rfl
  | two this =>
      by_cases heq : this.buf1U = this.buf2U <;> simp [Request.construct, heq, Client.request]

theorem Client.request_operate {k : κ} {c c' : Client β} {locks locks' : β → RWLock κ}
    (h : c.operate isLocal k locks = some (c', locks')) :
    c'.request = c.request ∨ c'.request = none := by
  cases c with
  | idle => cases h
  | inside r => cases h
  | lock2 this hne =>
      simp only [Client.operate, Option.some.injEq, Prod.mk.injEq] at h
      obtain ⟨rfl, -⟩ := h
      left
      split <;> rfl
  | destroy1 this =>
      obtain ⟨rfl, -⟩ := operate_return h
      by_cases hne : this.buf1U ≠ this.buf2U
      · left
        rw [dif_pos hne]
        rfl
      · right
        rw [dif_neg hne]
        rfl
  | lockEqual this heq =>
      obtain ⟨rfl, -⟩ := operate_return h
      exact .inl rfl
  | lock1 this hne =>
      obtain ⟨rfl, -⟩ := operate_return h
      exact .inl rfl
  | unlock1 this hne =>
      obtain ⟨rfl, -⟩ := operate_return h
      exact .inl rfl
  | lock this =>
      obtain ⟨rfl, -⟩ := operate_return h
      exact .inl rfl
  | destroy2 this hne =>
      obtain ⟨rfl, -⟩ := operate_return h
      exact .inr rfl
  | destroy this =>
      obtain ⟨rfl, -⟩ := operate_return h
      exact .inr rfl

theorem LockState.step_request {s s' : LockState κ β} {k : κ} {a : Act β}
    (h : s.step isLocal k a = some s') {r : Request β} (hr : (s'.client k).request = some r) :
    a = .construct r ∨ (s.client k).request = some r := by
  rcases LockState.step_cases isLocal h with
    ⟨q, rfl, -, rfl⟩ | ⟨-, c, locks, hop, rfl⟩ | ⟨-, q, hinside, rfl⟩
  · simp only [LockState.setClient, Function.update_self, Request.request_construct] at hr
    cases hr
    exact .inl rfl
  · simp only [LockState.setClient, Function.update_self] at hr
    rcases Client.request_operate isLocal hop with hsame | hnone
    · exact .inr (by rwa [← hsame])
    · rw [hnone] at hr
      cases hr
  · simp only [LockState.setClient, Function.update_self, Request.request_destroy] at hr
    cases hr
    rw [hinside]
    exact .inr rfl

theorem LockState.step_other {s s' : LockState κ β} {j k : κ} {a : Act β}
    (h : s.step isLocal k a = some s') (hj : j ≠ k) : s'.client j = s.client j := by
  rcases LockState.step_cases isLocal h with
    ⟨q, -, -, rfl⟩ | ⟨-, c, locks, -, rfl⟩ | ⟨-, q, -, rfl⟩
  · exact Function.update_of_ne hj _ _
  · exact Function.update_of_ne hj _ _
  · exact Function.update_of_ne hj _ _

theorem Reachable.request_allowed {allowed : Request β → Prop} {s : LockState κ β}
    (h : Reachable isLocal allowed s) : ∀ k r, (s.client k).request = some r → allowed r := by
  induction h with
  | init =>
      intro k r hr
      cases hr
  | step k a _ ha hstep ih =>
      intro j r hr
      by_cases hj : j = k
      · subst hj
        rcases LockState.step_request isLocal hstep hr with hnew | hold
        · exact ha r hnew
        · exact ih j r hold
      · rw [LockState.step_other isLocal hstep hj] at hr
        exact ih j r hr

/-- In every run in which no client names one buffer first shared and then exclusively, the lock
objects do what they are for; in general they do so in the states in which no client that has done
so is inside. -/
theorem bufferLock_safe_iff :
    (∀ s : LockState κ β, Reachable isLocal (fun r ↦ ¬ r.Underlocked isLocal) s →
      Safe isLocal s) ∧
    (∀ s : LockState κ β, Reachable isLocal (fun _ ↦ True) s →
      (Safe isLocal s ↔ ∀ k r, s.client k = .inside r → ¬ r.Underlocked isLocal)) := by
  constructor
  · intro s hs
    apply (hs.balanced.safe_iff isLocal).mpr
    intro k r hk
    apply hs.request_allowed isLocal k
    rw [hk]
    rfl
  · intro s hs
    exact hs.balanced.safe_iff isLocal

-- One client wants both buffers, the other one waits for the first of them.
def twoClients : List (Bool × Act Bool) :=
  [(true, .construct (.two ⟨true, false, false, true⟩)), (true, .operate), (true, .operate),
    (false, .construct (.one ⟨true, false⟩)), (false, .operate)]

theorem bufferLock_safe_twoClients : ∃ s : LockState Bool Bool,
    LockState.init.run (fun _ ↦ false) twoClients = some s ∧
    (∃ r q, s.client true = .inside r ∧ s.client false = .inside q) ∧ Safe (fun _ ↦ false) s := by
  have hrun : (LockState.init.run (fun _ ↦ false) twoClients).isSome = true := by decide
  obtain ⟨s, hs⟩ := Option.isSome_iff_exists.mp hrun
  have hclients : (LockState.init.run (fun _ ↦ false) twoClients).map
      (fun t ↦ (t.client true, t.client false)) =
        some (.inside (.two ⟨true, false, false, true⟩), .inside (.one ⟨true, false⟩)) := by decide
  rw [hs, Option.map_some, Option.some.injEq, Prod.mk.injEq] at hclients
  refine ⟨s, hs, ⟨_, _, hclients.1, hclients.2⟩, ?_⟩
  apply (bufferLock_safe_iff (fun _ ↦ false)).1 s
  apply Reachable.init.run (fun _ ↦ false) _ hs
  intro p hp r hr
  simp only [twoClients, List.mem_cons, List.not_mem_nil, or_false] at hp
  rcases hp with rfl | rfl | rfl | rfl | rfl <;> cases hr <;> decide

/-- Two clients inside with one buffer, although the first of them asked for it exclusively. -/
theorem bufferLock_not_safe : ¬ ∀ s : LockState Bool Bool,
    Reachable (fun _ ↦ false) (fun _ ↦ True) s → Safe (fun _ ↦ false) s := by
  intro hall
  have hrun : (LockState.init.run (fun _ ↦ false)
      [(true, .construct (.two ⟨true, false, true, true⟩)), (true, .operate),
        (false, .construct (.one ⟨true, true⟩)), (false, .operate)]).map
      (fun t : LockState Bool Bool ↦ (t.client true, t.client false)) =
        some (.inside (.two ⟨true, false, true, true⟩), .inside (.one ⟨true, true⟩)) := by decide
  obtain ⟨s, hs, hclients⟩ := Option.map_eq_some_iff.mp hrun
  rw [Prod.mk.injEq] at hclients
  have hsafe := hall s (Reachable.init.run (fun _ ↦ false) (fun _ _ _ _ ↦ trivial) hs)
  exact hsafe.exclusive false true _ _ hclients.2 hclients.1 (by decide) true true rfl (by decide)
    (by decide)

end Scnim
