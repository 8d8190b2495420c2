import Mathlib.Algebra.Order.BigOperators.Group.Finset
import Scnim.BufferLockProgress
import Scnim.SpinBufferLock

/-!
# Spin locks can always be given back

Whatever the clients of the buffer locks have done so far, they can all finish: first those that
hold a lock, then the others one after the other.
-/

open Machine

namespace Scnim

open RwSpinlock

variable {κ β : Type*} [DecidableEq κ] [DecidableEq β] (isLocal : β → Bool)

/-! ## 1. One client alone -/

-- Steps in which nobody asks for a new lock object.
def SpinState.Finishes : SpinState κ β → SpinState κ β → Prop :=
  Relation.ReflTransGen fun s s' ↦
    ∃ k a, (∀ r, a ≠ SpinAct.construct r) ∧ s.step isLocal k a = some s'

/-- One client has come to a point, and the others are where they were. -/
structure LeadsTo (s : SpinState κ β) (t : LockState κ β) (k : κ) (s' : SpinState κ β)
    (t' : LockState κ β) (c : Client β) : Prop where
  finishes : s.Finishes isLocal s'
  refines : Refines isLocal s' t'
  balanced : t'.Balanced isLocal
  client : t'.client = Function.update t.client k c

theorem LeadsTo.trans {s s' s'' : SpinState κ β} {t t' t'' : LockState κ β} {k : κ}
    {c c' : Client β} (h : LeadsTo isLocal s t k s' t' c)
    (h' : LeadsTo isLocal s' t' k s'' t'' c') :
    LeadsTo isLocal s t k s'' t'' c' := by
  refine ⟨h.finishes.trans h'.finishes, h'.refines, h'.balanced, ?_⟩
  rw [h'.client, h.client, Function.update_idem]

theorem LeadsTo.at {s s' : SpinState κ β} {t t' : LockState κ β} {k : κ} {c : Client β}
    (h : LeadsTo isLocal s t k s' t' c) : t'.client k = c := by
  rw [h.client, Function.update_self]

variable {s : SpinState κ β} {t : LockState κ β} {k : κ}

-- By induction on the number of accesses that are left.
theorem Refines.exists_return_shared (hbal : t.Balanced isLocal) {b : β} {call : Call}
    (hlocal : isLocal b = false) (hlock : ∀ shared, call = .lock shared → t.locks b = RWLock.free)
    (n : ℕ) : ∀ s : SpinState κ β, Refines isLocal s t → (s.client k).call = some (b, call) →
    ((s.point k).getD call.start).rank (s.lock b).newest = n →
    ∃ r s' l', s.Finishes isLocal s' ∧ Call.Effect k (t.locks b) call l' r ∧
      Refines isLocal s'
        { t.setClient k ((t.client k).after r) with locks := Function.update t.locks b l' } ∧
      s'.point k = none ∧
      (t.locks b = RWLock.free → ((s.point k).getD call.start).Fresh (s.lock b).newest →
        r = true) := by
  induction n using Nat.strong_induction_on with
  | _ n ih =>
      intro s h hcall hn
      have hof := h.point_of isLocal hcall
      obtain ⟨next, state, hacc, hrank⟩ := Point.access_newest hof (h.lock b) hlock
        (h.holds_of_call isLocal hbal hcall hlocal)
      have hstep : s.step isLocal k (.access .newest) = some (s.accessed k b state next) := by
        simp [SpinState.step, hcall, hlocal, hacc]
      have hnew : ∀ r, SpinAct.access Choice.newest ≠ SpinAct.construct (β := β) r := by
        intro r hr
        cases hr
      have hunlocked : t.locks b = RWLock.free → (s.lock b).newest = unlockedState := by
        intro hfree
        rw [(h.lock b).newest, hfree]
        rfl
      rcases Point.access_spec hof (h.lock b) (h.holds_of_call isLocal hbal hcall hlocal) hacc with
        ⟨p, rfl, hofp, hrep⟩ | ⟨r, l', rfl, heff, hrep⟩
      · obtain ⟨hnewest, hlt⟩ := hrank p rfl
        have h' := h.went_on isLocal hcall hlocal hofp hrep
        have hpoint : ((s.accessed k b state (.inl p)).point k).getD call.start = p := by
          simp [SpinState.accessed]
        have hword : ((s.accessed k b state (.inl p)).lock b).newest = (s.lock b).newest := by
          simp [SpinState.accessed, hnewest]
        obtain ⟨r, s', l', hfin, heff, href, hnone, hfresh⟩ :=
          ih (p.rank (s.lock b).newest) (hn ▸ hlt) _ h' hcall (by rw [hpoint, hword])
        refine ⟨r, s', l', .head ⟨k, _, hnew, hstep⟩ hfin, heff, href, hnone, ?_⟩
        intro hfree hf
        cases heff with
        | refused =>
            apply hfresh hfree
            rw [hpoint, hword]
            exact (Point.access_unlocked hof hf (hunlocked hfree) hacc).1 p rfl
        | _ => rfl
      · refine ⟨r, _, l', .single ⟨k, _, hnew, hstep⟩, heff, h.returned isLocal hrep r, ?_, ?_⟩
        · simp [SpinState.accessed]
        · intro hfree hf
          cases heff with
          | refused => exact (Point.access_unlocked hof hf (hunlocked hfree) hacc).2 false rfl
          | _ => rfl

/-- A client whose next operation does not have to wait for others makes it, alone. -/
theorem Refines.exists_return (h : Refines isLocal s t) (hbal : t.Balanced isLocal) {b : β}
    {call : Call} (hcall : (t.client k).call = some (b, call))
    (hlock : isLocal b = false → ∀ shared, call = .lock shared → t.locks b = RWLock.free) :
    ∃ r s' t', LeadsTo isLocal s t k s' t' ((t.client k).after r) ∧ s'.point k = none ∧
      (∀ c, c ≠ b → t'.locks c = t.locks c) ∧
      (s.point k = none → (isLocal b = false → t.locks b = RWLock.free) → r = true) := by
  rw [← h.client] at hcall
  by_cases hlocal : isLocal b = true
  · have hp := h.point_none_of_local isLocal hcall hlocal
    have hstep : s.step isLocal k (.access .newest) =
        some (s.setClient k ((s.client k).after true)) := by
      simp [SpinState.step, hcall, hlocal]
    have h' := h.setClient isLocal hp ((s.client k).after true)
    rw [h.client] at hcall h' hstep
    have hop := Client.operate_local isLocal hcall hlocal t.locks k
    have hbal' := hbal.step isLocal (LockState.step_operate isLocal hop)
    exact ⟨true, _, _, ⟨.single ⟨k, _, fun r hr ↦ (by cases hr), hstep⟩, h', hbal', rfl⟩, hp,
      fun _ _ ↦ rfl, fun _ _ ↦ rfl⟩
  · have hshared : isLocal b = false := by simpa using hlocal
    obtain ⟨r, s', l', hfin, heff, href, hnone, hfresh⟩ :=
      Refines.exists_return_shared isLocal hbal hshared (hlock hshared) _ s h hcall rfl
    have hbal' := hbal.weakStep isLocal (h.weakStep isLocal hcall hshared heff)
    refine ⟨r, s', _, ⟨hfin, href, hbal', rfl⟩, hnone, fun c hc ↦ Function.update_of_ne hc .., ?_⟩
    intro hpoint hfree
    apply hfresh (hfree hshared)
    rw [hpoint]
    exact call.start_fresh _

/-! ## 2. To the end of an object -/

-- What a client still has to do: one that is busy comes before one that waits.
def Client.weight : Client β → ℕ
  | .idle => 0
  | .lockEqual _ _ | .lock1 _ _ | .lock _ => 1
  | _ => 2

theorem sum_weight_update_lt {κ β : Type*} [DecidableEq κ] [Fintype κ] {f : κ → Client β} {k : κ}
    {c : Client β} (h : c.weight < (f k).weight) :
    ∑ j, (Function.update f k c j).weight < ∑ j, (f j).weight := by
  apply Finset.sum_lt_sum
  · intro j _
    by_cases hj : j = k
    · subst hj
      rw [Function.update_self]
      exact h.le
    · rw [Function.update_of_ne hj]
  · exact ⟨k, Finset.mem_univ k, by rwa [Function.update_self]⟩

-- An unlock, which never waits.
theorem Refines.leadsTo_unlock (h : Refines isLocal s t) (hbal : t.Balanced isLocal) {b : β}
    {shared : Bool} (hcall : (t.client k).call = some (b, .unlock shared)) :
    ∃ s' t', LeadsTo isLocal s t k s' t' ((t.client k).after true) := by
  obtain ⟨r, s', t', hleads, -⟩ := h.exists_return isLocal hbal hcall
    fun _ sh hsh ↦ by cases hsh
  have hafter : (t.client k).after r = (t.client k).after true := by
    cases hc : t.client k with
    | lock2 this hne => simp [hc, Client.call] at hcall
    | _ => rfl
  rw [hafter] at hleads
  exact ⟨s', t', hleads⟩

theorem Refines.leadsTo_idle_destroy (h : Refines isLocal s t) (hbal : t.Balanced isLocal)
    {r : Request β} (hk : t.client k = r.destroy) :
    ∃ s' t', LeadsTo isLocal s t k s' t' .idle := by
  cases r with
  | one this =>
      have hlast := h.leadsTo_unlock isLocal hbal
        (show (t.client k).call = some (this.bufU, .unlock this.shared) by rw [hk]; rfl)
      rwa [hk] at hlast
  | two this =>
      obtain ⟨s', t', hfirst⟩ := h.leadsTo_unlock isLocal hbal
        (show (t.client k).call = some (this.buf1U, .unlock this.shared1) by rw [hk]; rfl)
      rw [hk] at hfirst
      by_cases hne : this.buf1U ≠ this.buf2U
      · have hsecond : t'.client k = .destroy2 this hne := by
          rw [hfirst.at]
          exact dif_pos hne
        obtain ⟨s'', t'', hlast⟩ := hfirst.refines.leadsTo_unlock isLocal hfirst.balanced
          (show (t'.client k).call = some (this.buf2U, .unlock this.shared2) by rw [hsecond]; rfl)
        rw [hsecond] at hlast
        exact ⟨s'', t'', hfirst.trans isLocal hlast⟩
      · rw [show (Request.two this).destroy.after true = .idle from dif_neg hne] at hfirst
        exact ⟨s', t', hfirst⟩

theorem Refines.leadsTo_idle_inside (h : Refines isLocal s t) (hbal : t.Balanced isLocal)
    {r : Request β} (hk : t.client k = .inside r) :
    ∃ s' t', LeadsTo isLocal s t k s' t' .idle := by
  have hclient := hk
  rw [← h.client] at hclient
  have hstep : s.step isLocal k .destroy = some (s.setClient k r.destroy) := by
    simp only [SpinState.step, hclient]
  have habstract : t.step isLocal k .destroy = some (t.setClient k r.destroy) := by
    simp only [LockState.step, hk]
  have hp := h.point_none isLocal (k := k) (by rw [hclient]; rfl)
  have hfirst : LeadsTo isLocal s t k (s.setClient k r.destroy) (t.setClient k r.destroy)
      r.destroy :=
    ⟨.single ⟨k, _, fun r hr ↦ (by cases hr), hstep⟩, h.setClient isLocal hp _,
      hbal.step isLocal habstract, rfl⟩
  obtain ⟨s', t', hlast⟩ := hfirst.refines.leadsTo_idle_destroy isLocal hfirst.balanced
    (hfirst.at isLocal)
  exact ⟨s', t', hfirst.trans isLocal hlast⟩

/-- A busy client can, alone, finish or come to the point where it asks for its first lock. -/
theorem Refines.leadsTo_waiting (h : Refines isLocal s t) (hbal : t.Balanced isLocal)
    (hk : (t.client k).weight = 2) :
    ∃ s' t' c, LeadsTo isLocal s t k s' t' c ∧ c.weight ≤ 1 := by
  -- an unlock of the first lock, after a try that was refused
  have hunlock1 : ∀ {s : SpinState κ β} {t : LockState κ β} {this : BufferLock2 β} {hne},
      Refines isLocal s t → t.Balanced isLocal → t.client k = .unlock1 this hne →
      ∃ s' t', LeadsTo isLocal s t k s' t' (.lock1 this hne) := by
    intro s t this hne h hbal hc
    have hlast := h.leadsTo_unlock isLocal hbal
      (show (t.client k).call = some (this.buf1U, .unlock this.shared1) by rw [hc]; rfl)
    rwa [hc] at hlast
  cases hc : t.client k with
  | idle => simp [hc, Client.weight] at hk
  | lockEqual this heq => simp [hc, Client.weight] at hk
  | lock1 this hne => simp [hc, Client.weight] at hk
  | lock this => simp [hc, Client.weight] at hk
  | inside r =>
      obtain ⟨s', t', hleads⟩ := h.leadsTo_idle_inside isLocal hbal hc
      exact ⟨s', t', .idle, hleads, Nat.zero_le _⟩
  | destroy1 this =>
      obtain ⟨s', t', hleads⟩ := h.leadsTo_idle_destroy isLocal hbal (r := .two this) hc
      exact ⟨s', t', .idle, hleads, Nat.zero_le _⟩
  | destroy this =>
      obtain ⟨s', t', hleads⟩ := h.leadsTo_idle_destroy isLocal hbal (r := .one this) hc
      exact ⟨s', t', .idle, hleads, Nat.zero_le _⟩
  | destroy2 this hne =>
      obtain ⟨s', t', hleads⟩ := h.leadsTo_unlock isLocal hbal
        (show (t.client k).call = some (this.buf2U, .unlock this.shared2) by rw [hc]; rfl)
      rw [hc] at hleads
      exact ⟨s', t', .idle, hleads, Nat.zero_le _⟩
  | unlock1 this hne =>
      obtain ⟨s', t', hleads⟩ := hunlock1 h hbal hc
      exact ⟨s', t', .lock1 this hne, hleads, le_rfl⟩
  | lock2 this hne =>
      obtain ⟨r, s', t', htry, -⟩ := h.exists_return isLocal hbal
        (show (t.client k).call = some (this.buf2U, .tryLock this.shared2) by rw [hc]; rfl)
        (fun _ sh hsh ↦ by cases hsh)
      rw [hc] at htry
      cases r with
      | true =>
          obtain ⟨s'', t'', hleads⟩ := htry.refines.leadsTo_idle_inside isLocal htry.balanced
            (htry.at isLocal)
          exact ⟨s'', t'', .idle, htry.trans isLocal hleads, Nat.zero_le _⟩
      | false =>
          obtain ⟨s'', t'', hleads⟩ := hunlock1 htry.refines htry.balanced (htry.at isLocal)
          exact ⟨s'', t'', .lock1 this hne, htry.trans isLocal hleads, le_rfl⟩

-- While nobody is busy, all locks are free.
theorem LockState.Balanced.free (hbal : t.Balanced isLocal) (hk : ∀ k, (t.client k).weight ≤ 1)
    (b : β) : t.locks b = RWLock.free := by
  apply RWLock.eq_free
  intro j sh
  rw [hbal b j sh]
  have hj := hk j
  cases hc : t.client j with
  | idle => rfl
  | lockEqual this heq => rfl
  | lock1 this hne => rfl
  | lock this => rfl
  | _ => simp [hc, Client.weight] at hj

/-- While nobody is busy, any client can take its locks and give them back, alone. -/
theorem Refines.leadsTo_idle (h : Refines isLocal s t) (hbal : t.Balanced isLocal)
    (hall : ∀ k, (t.client k).weight ≤ 1) (hk : (t.client k).weight = 1) :
    ∃ s' t', LeadsTo isLocal s t k s' t' .idle := by
  have hfree := hbal.free isLocal hall
  cases hc : t.client k with
  | lockEqual this heq =>
      obtain ⟨r, s', t', hlock, -⟩ := h.exists_return isLocal hbal
        (show (t.client k).call = some (this.buf1U, .lock this.shared1) by rw [hc]; rfl)
        (fun _ _ _ ↦ hfree _)
      rw [hc] at hlock
      obtain ⟨s'', t'', hleads⟩ := hlock.refines.leadsTo_idle_inside isLocal hlock.balanced
        (hlock.at isLocal)
      exact ⟨s'', t'', hlock.trans isLocal hleads⟩
  | lock this =>
      obtain ⟨r, s', t', hlock, -⟩ := h.exists_return isLocal hbal
        (show (t.client k).call = some (this.bufU, .lock this.shared) by rw [hc]; rfl)
        (fun _ _ _ ↦ hfree _)
      rw [hc] at hlock
      obtain ⟨s'', t'', hleads⟩ := hlock.refines.leadsTo_idle_inside isLocal hlock.balanced
        (hlock.at isLocal)
      exact ⟨s'', t'', hlock.trans isLocal hleads⟩
  | lock1 this hne =>
      obtain ⟨r, s', t', hlock, hpoint, hlocks, -⟩ := h.exists_return isLocal hbal
        (show (t.client k).call = some (this.buf1U, .lock this.shared1) by rw [hc]; rfl)
        (fun _ _ _ ↦ hfree _)
      rw [hc] at hlock
      have hc' := hlock.at isLocal
      -- nobody is there to disturb the try
      obtain ⟨r', s'', t'', htry, -, -, hgranted⟩ := hlock.refines.exists_return isLocal
        hlock.balanced
        (show (t'.client k).call = some (this.buf2U, .tryLock this.shared2) by rw [hc']; rfl)
        (fun _ sh hsh ↦ by cases hsh)
      have hr' := hgranted hpoint fun _ ↦ by rw [hlocks _ hne.symm, hfree]
      rw [hr', hc'] at htry
      obtain ⟨u, v, hleads⟩ := htry.refines.leadsTo_idle_inside isLocal htry.balanced
        (htry.at isLocal)
      exact ⟨u, v, (hlock.trans isLocal htry).trans isLocal hleads⟩
  | _ => simp [hc, Client.weight] at hk

/-! ## 3. All clients -/

-- By induction on what the clients still have to do.
theorem Refines.exists_allIdle [Fintype κ] (n : ℕ) : ∀ (s : SpinState κ β) (t : LockState κ β),
    Refines isLocal s t → t.Balanced isLocal → ∑ k, (t.client k).weight = n →
    ∃ s' t', s.Finishes isLocal s' ∧ Refines isLocal s' t' ∧ t'.Balanced isLocal ∧
      ∀ k, t'.client k = .idle := by
  induction n using Nat.strong_induction_on with
  | _ n ih =>
      intro s t h hbal hn
      have hgo : ∀ {k s' t' c}, LeadsTo isLocal s t k s' t' c → c.weight < (t.client k).weight →
          ∃ s' t', s.Finishes isLocal s' ∧ Refines isLocal s' t' ∧ t'.Balanced isLocal ∧
            ∀ k, t'.client k = .idle := by
        intro k s' t' c hleads hlt
        have hsum := sum_weight_update_lt hlt
        rw [← hleads.client, hn] at hsum
        obtain ⟨u, v, hfin, hrest⟩ := ih _ hsum s' t' hleads.refines hleads.balanced rfl
        exact ⟨u, v, hleads.finishes.trans hfin, hrest⟩
      by_cases hbusy : ∃ k, (t.client k).weight = 2
      · obtain ⟨k, hk⟩ := hbusy
        obtain ⟨s', t', c, hleads, hc⟩ := h.leadsTo_waiting isLocal hbal hk
        exact hgo hleads (by omega)
      · have hall : ∀ k, (t.client k).weight ≤ 1 := by
          intro k
          have hk : (t.client k).weight ≠ 2 := fun hk ↦ hbusy ⟨k, hk⟩
          cases hc : t.client k <;> simp [hc, Client.weight] at hk ⊢
        by_cases hwait : ∃ k, (t.client k).weight = 1
        · obtain ⟨k, hk⟩ := hwait
          obtain ⟨s', t', hleads⟩ := h.leadsTo_idle isLocal hbal hall hk
          exact hgo hleads (by rw [hk]; exact Nat.one_pos)
        · refine ⟨s, t, .refl, h, hbal, fun k ↦ ?_⟩
          have hle := hall k
          have hne : (t.client k).weight ≠ 1 := fun hk ↦ hwait ⟨k, hk⟩
          cases hc : t.client k <;> simp [hc, Client.weight] at hle hne ⊢

/-- From every state of every run the clients can all finish, one access after the other, and then
every lock is unlocked. -/
theorem spinLocks_canFinish [Fintype κ] {allowed : Request β → Prop}
    (h : SpinReachable isLocal allowed s) :
    ∃ s', s.Finishes isLocal s' ∧ (∀ k, s'.client k = .idle) ∧
      ∀ b, (s'.lock b).newest = unlockedState := by
  obtain ⟨t, ht, href⟩ := h.refines
  obtain ⟨s', t', hfin, href', hbal, hidle⟩ :=
    Refines.exists_allIdle isLocal _ s t href (ht.balanced isLocal) rfl
  refine ⟨s', hfin, fun k ↦ by rw [href'.client, hidle k], fun b ↦ ?_⟩
  have hfree := hbal.free isLocal (fun k ↦ by rw [hidle k]; exact Nat.zero_le _) b
  rw [(href'.lock b).newest, hfree]
  rfl

theorem spinLocks_canFinish_disturbedTry : ∃ s s' : SpinState Bool Bool,
    s.client true = .inside (.two ⟨false, true, false, true⟩) ∧
    s.Finishes (fun _ ↦ false) s' ∧ s'.client true = .idle ∧
    (s'.lock true).newest = unlockedState := by
  obtain ⟨s, hs, hone, -⟩ := disturbedTry_reachable
  obtain ⟨s', hfin, hidle, hfree⟩ := spinLocks_canFinish (fun _ ↦ false) hs
  exact ⟨s, s', hone, hfin, hidle true, hfree true⟩

end Scnim
