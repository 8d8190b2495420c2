import Mathlib.Tactic.Linarith
import Scnim.Machine.Elements
import Scnim.PtrMath

/-!
# Pointers as arrays

What the templates of `scnim/ptrmath.nim` make of a pointer to a block of memory: offsets that stay
inside the block never overflow, they add up, and indexing is reading and storing the elements.
-/

open Machine

namespace Scnim

namespace Ptr

/-! ## 1. Offsets -/

variable {size n : ℕ} {off : ℤ}

theorem checkedMul_of_within (hfit : n * size < 2 ^ 63) (hlo : -n ≤ off) (hhi : off ≤ n) :
    checkedMul off size = some (off * size) := by
  have hbytes : (n : ℤ) * size < 2 ^ 63 := by exact_mod_cast hfit
  have hlow : -(n : ℤ) * size ≤ off * size :=
    mul_le_mul_of_nonneg_right hlo (Int.natCast_nonneg size)
  have hhigh : off * size ≤ (n : ℤ) * size :=
    mul_le_mul_of_nonneg_right hhi (Int.natCast_nonneg size)
  rw [neg_mul] at hlow
  exact checkedMul_of_fits (by omega) (by omega)

theorem plus_eq (p : Addr) (hfit : n * size < 2 ^ 63) (hlo : -n ≤ off) (hhi : off ≤ n) :
    plus size p off = some (p + BitVec.ofInt 64 (off * size)) := by
  unfold plus
  rw [checkedMul_of_within hfit hlo hhi]
  rfl

theorem minus_eq (p : Addr) (hfit : n * size < 2 ^ 63) (hlo : -n ≤ off) (hhi : off ≤ n) :
    minus size p off = some (p - BitVec.ofInt 64 (off * size)) := by
  unfold minus
  rw [checkedMul_of_within hfit hlo hhi]
  rfl

-- Wrapping addition of the scaled offsets.
theorem add_ofInt_mul (p : Addr) (size : ℕ) (a b : ℤ) :
    p + BitVec.ofInt 64 (a * size) + BitVec.ofInt 64 (b * size) =
      p + BitVec.ofInt 64 ((a + b) * size) := by
  rw [add_assoc, ← BitVec.ofInt_add, ← add_mul]

theorem plus_plus (p : Addr) (hfit : n * size < 2 ^ 63) {a b : ℤ} (ha : -n ≤ a ∧ a ≤ n)
    (hb : -n ≤ b ∧ b ≤ n) (hab : -n ≤ a + b ∧ a + b ≤ n) :
    (plus size p a).bind (plus size · b) = plus size p (a + b) := by
  rw [plus_eq p hfit ha.1 ha.2, Option.bind_some, plus_eq _ hfit hb.1 hb.2,
    plus_eq p hfit hab.1 hab.2, add_ofInt_mul]

theorem minus_plus (p : Addr) (hfit : n * size < 2 ^ 63) {k : ℤ} (hlo : -n ≤ k) (hhi : k ≤ n) :
    (plus size p k).bind (minus size · k) = some p := by
  rw [plus_eq p hfit hlo hhi, Option.bind_some, minus_eq _ hfit hlo hhi, add_sub_cancel_right]

/-! ## 2. Elements -/

theorem plus_elementAt (p : Addr) (hfit : n * size < 2 ^ 63) (i : Fin n) :
    plus size p (i : ℕ) = some (elementAt p size i) :=
  plus_ofNat p (lt_of_le_of_lt (Nat.mul_le_mul_right size i.isLt.le) hfit)

theorem index_eq (m : Memory 64) (p : Addr) (hfit : n * size < 2 ^ 63) (i : Fin n) :
    index size m p (i : ℕ) = some (elements m p size n i) := by
  unfold index
  rw [plus_elementAt p hfit i]
  rfl

theorem indexAssign_eq (m : Memory 64) (p : Addr) (hfit : n * size < 2 ^ 63) (i : Fin n)
    (val : List Byte) :
    indexAssign size m p (i : ℕ) val = some (storeBytes m (elementAt p size i) val) := by
  unfold indexAssign
  rw [plus_elementAt p hfit i]
  rfl

-- What is read after an assignment is the updated array.
theorem index_storeBytes (m : Memory 64) (p : Addr) (hfit : n * size < 2 ^ 63) (i j : Fin n)
    {val : List Byte} (hlen : val.length = size) :
    index size (storeBytes m (elementAt p size i) val) p (j : ℕ) =
      some (Function.update (elements m p size n) i val j) := by
  rw [index_eq _ p hfit j, elements_storeBytes m p i hlen (by omega)]

end Ptr

/-! ## 3. The array view -/

/-- The templates on a pointer to `n` elements of `size` bytes: assignments change the element they
name and nothing else, a moved pointer reaches the same elements at the shifted offsets and can be
moved back, and offsets add up.  None of these raises an overflow. -/
structure ArrayView (size : ℕ) (p : Addr) (n : ℕ) : Prop where
  assign : ∀ (m : Memory 64) (i : ℤ) (val : List Byte), 0 ≤ i → i < n → val.length = size →
    ∃ m', Ptr.indexAssign size m p i val = some m' ∧
      (∀ j : ℤ, 0 ≤ j → j < n → ∃ old, Ptr.index size m p j = some old ∧
        Ptr.index size m' p j = some (if i = j then val else old)) ∧
      ∀ a : Addr, ¬ (p.toNat + i * size ≤ a.toNat ∧ a.toNat < p.toNat + i * size + size) →
        m' a = m a
  moved : ∀ k : ℤ, 0 ≤ k → k ≤ n → ∃ q, Ptr.plus size p k = some q ∧
    (∀ i : ℤ, 0 ≤ i → i < n →
      (∃ e, Ptr.plus size q (i - k) = some e ∧ Ptr.plus size p i = some e) ∧
      (∀ m, Ptr.index size m q (i - k) = Ptr.index size m p i) ∧
      ∀ m val, Ptr.indexAssign size m q (i - k) val = Ptr.indexAssign size m p i val) ∧
    Ptr.minus size q k = some p ∧
    (Ptr.plusAssign size p k).bind (Ptr.minusAssign size · k) = some p
  assoc : ∀ a b : ℤ, -n ≤ a → a ≤ n → -n ≤ b → b ≤ n → -n ≤ a + b → a + b ≤ n →
    ∃ q, (Ptr.plus size p a).bind (Ptr.plus size · b) = some q ∧ Ptr.plus size p (a + b) = some q

namespace ArrayView

variable {size n : ℕ}

-- an index between 0 and `n` as the index of an element
theorem exists_fin {i : ℤ} (hlo : 0 ≤ i) (hhi : i < n) : ∃ k : Fin n, i = (k : ℕ) := by
  obtain ⟨k, rfl⟩ := Int.eq_ofNat_of_zero_le hlo
  exact ⟨⟨k, by omega⟩, rfl⟩

theorem of_assign (m : Memory 64) (p : Addr) (hfit : n * size < 2 ^ 63)
    (hwrap : p.toNat + n * size ≤ 2 ^ 64) {i : ℤ} (hlo : 0 ≤ i) (hhi : i < n) {val : List Byte}
    (hlen : val.length = size) :
    ∃ m', Ptr.indexAssign size m p i val = some m' ∧
      (∀ j : ℤ, 0 ≤ j → j < n → ∃ old, Ptr.index size m p j = some old ∧
        Ptr.index size m' p j = some (if i = j then val else old)) ∧
      ∀ a : Addr, ¬ (p.toNat + i * size ≤ a.toNat ∧ a.toNat < p.toNat + i * size + size) →
        m' a = m a := by
  obtain ⟨k, rfl⟩ := exists_fin hlo hhi
  refine ⟨_, Ptr.indexAssign_eq m p hfit k val, ?_, ?_⟩
  · intro j hj hjn
    obtain ⟨l, rfl⟩ := exists_fin hj hjn
    refine ⟨_, Ptr.index_eq m p hfit l, ?_⟩
    rw [Ptr.index_storeBytes m p hfit k l hlen, Function.update_apply]
    simp only [Nat.cast_inj, Fin.val_inj, eq_comm]
  · intro a ha
    apply storeBytes_outside
    rw [hlen, within_elementAt_iff_toNat p a k.isLt hwrap]
    exact_mod_cast ha

theorem of_moved (p : Addr) (hfit : n * size < 2 ^ 63) {k : ℤ} (hlo : 0 ≤ k) (hhi : k ≤ n) :
    ∃ q, Ptr.plus size p k = some q ∧
      (∀ i : ℤ, 0 ≤ i → i < n →
        (∃ e, Ptr.plus size q (i - k) = some e ∧ Ptr.plus size p i = some e) ∧
        (∀ m, Ptr.index size m q (i - k) = Ptr.index size m p i) ∧
        ∀ m val, Ptr.indexAssign size m q (i - k) val = Ptr.indexAssign size m p i val) ∧
      Ptr.minus size q k = some p ∧
      (Ptr.plusAssign size p k).bind (Ptr.minusAssign size · k) = some p := by
  have hq := Ptr.plus_eq p hfit (show -n ≤ k by omega) hhi
  have hback := Ptr.minus_plus p hfit (show -n ≤ k by omega) hhi
  refine ⟨_, hq, ?_, ?_, hback⟩
  · intro i hi hin
    -- the offset is negative for the elements below the moved pointer
    have hsame := Ptr.plus_plus p hfit (a := k) (b := i - k) (by omega) (by omega) (by omega)
    rw [hq, Option.bind_some, add_sub_cancel] at hsame
    refine ⟨⟨_, hsame.trans (Ptr.plus_eq p hfit (by omega) hin.le), ?_⟩, ?_, ?_⟩
    · exact Ptr.plus_eq p hfit (by omega) hin.le
    · intro m
      unfold Ptr.index
      rw [hsame]
    · intro m val
      unfold Ptr.indexAssign
      rw [hsame]
  · rwa [hq, Option.bind_some] at hback

end ArrayView

/-- A pointer to `n` elements that do not wrap around the address space, and whose size in bytes is
an `int`, is an array of them. -/
theorem arrayView {size n : ℕ} (p : Addr) (hwrap : p.toNat + n * size ≤ 2 ^ 64)
    (hfit : n * size < 2 ^ 63) : ArrayView size p n := by
  refine ⟨?_, ?_, ?_⟩
  · intro m i val hlo hhi hlen
    exact ArrayView.of_assign m p hfit hwrap hlo hhi hlen
  · intro k hlo hhi
    exact ArrayView.of_moved p hfit hlo hhi
  · intro a b ha ha' hb hb' hab hab'
    rw [Ptr.plus_plus p hfit ⟨ha, ha'⟩ ⟨hb, hb'⟩ ⟨hab, hab'⟩]
    exact ⟨_, Ptr.plus_eq p hfit hab hab', Ptr.plus_eq p hfit hab hab'⟩

-- four samples at the end of the address space
theorem arrayView_lastSamples : ArrayView 4 0xFFFFFFFFFFFFFFF0#64 4 :=
  arrayView 0xFFFFFFFFFFFFFFF0#64 (by decide) (by decide)

end Scnim
