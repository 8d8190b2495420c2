import Mathlib.Logic.Function.Basic
import Scnim.Machine.Memory

/-!
# Arrays in byte memory

Elements of one size, one behind the other.  An array is what stands in memory seen as a function of
the index; storing an element updates that function.
-/

namespace Machine

variable {w : ℕ}

/-! ## 1. Where the elements are -/

/-- The address of element `i` of the array at `base`. -/
def elementAt (base : BitVec w) (size i : ℕ) : BitVec w := base + BitVec.ofNat w (i * size)

@[simp] theorem elementAt_zero (base : BitVec w) (size : ℕ) : elementAt base size 0 = base := by
  rw [elementAt, Nat.zero_mul, BitVec.add_zero]

-- The end of an element is at most the end of the array.
theorem element_fits (size : ℕ) {n i : ℕ} (hi : i < n) : i * size + size ≤ n * size := by
  rw [← Nat.succ_mul]
  exact Nat.mul_le_mul_right size hi

theorem within_elementAt_iff {size n i : ℕ} (base a : BitVec w) (hi : i < n)
    (hfit : n * size ≤ 2 ^ w) :
    Within (elementAt base size i) size a ↔
      i * size ≤ gap base a ∧ gap base a < i * size + size :=
  within_shift_iff base a ((element_fits size hi).trans hfit)

theorem elementAt_apart {size n i j : ℕ} (base : BitVec w) (hi : i < n) (hj : j < n)
    (hij : i ≠ j) (hfit : n * size ≤ 2 ^ w) :
    Apart (elementAt base size i) size (elementAt base size j) size := by
  intro x hx hx'
  have hin := (within_elementAt_iff base x hi hfit).mp hx
  have hin' := (within_elementAt_iff base x hj hfit).mp hx'
  rcases Nat.lt_or_gt_of_ne hij with hlt | hlt
  · have hle := element_fits size hlt
    omega
  · have hle := element_fits size hlt
    omega

/-- Where the array does not wrap around, an element is an interval of numbers. -/
theorem within_elementAt_iff_toNat {size n i : ℕ} (base a : BitVec w) (hi : i < n)
    (hwrap : base.toNat + n * size ≤ 2 ^ w) :
    Within (elementAt base size i) size a ↔
      base.toNat + i * size ≤ a.toNat ∧ a.toNat < base.toNat + i * size + size := by
  have hend := element_fits size hi
  have hgap : gap base a = (2 ^ w - base.toNat + a.toNat) % 2 ^ w := by
    unfold gap
    rw [BitVec.toNat_sub]
  have hbase := base.isLt
  have ha := a.isLt
  rw [within_elementAt_iff base a hi (by omega), hgap]
  by_cases hle : base.toNat ≤ a.toNat
  · rw [show 2 ^ w - base.toNat + a.toNat = (a.toNat - base.toNat) + 2 ^ w by omega,
      Nat.add_mod_right, Nat.mod_eq_of_lt (by omega)]
    omega
  · rw [Nat.mod_eq_of_lt (by omega)]
    omega

/-! ## 2. What they hold -/

/-- Storing one of several windows of a size, any two of which are apart, updates what they hold. -/
theorem windows_storeBytes {ι : Type*} [DecidableEq ι] (m : Memory w) (at_ : ι → BitVec w)
    {size : ℕ} (hsize : size ≤ 2 ^ w) (hapart : ∀ i j, i ≠ j → Apart (at_ i) size (at_ j) size)
    (i : ι) {val : List Byte} (hlen : val.length = size) :
    (fun j ↦ loadBytes (storeBytes m (at_ i) val) (at_ j) size) =
      Function.update (fun j ↦ loadBytes m (at_ j) size) i val := by
  funext j
  by_cases hji : j = i
  · subst hji
    rw [Function.update_self]
    subst hlen
    exact loadBytes_storeBytes m _ val hsize
  · rw [Function.update_of_ne hji]
    apply loadBytes_storeBytes_apart m _ _ val hsize
    rw [hlen]
    exact hapart j i hji

/-- The array of `n` elements at `base`. -/
def elements (m : Memory w) (base : BitVec w) (size n : ℕ) : Fin n → List Byte :=
  fun i ↦ loadBytes m (elementAt base size i) size

theorem elements_storeBytes (m : Memory w) (base : BitVec w) {size n : ℕ} (i : Fin n)
    {val : List Byte} (hlen : val.length = size) (hfit : n * size ≤ 2 ^ w) :
    elements (storeBytes m (elementAt base size i) val) base size n =
      Function.update (elements m base size n) i val := by
  have hend := element_fits size i.isLt
  apply windows_storeBytes m (fun j : Fin n ↦ elementAt base size j) (by omega) _ i hlen
  intro j k hjk
  exact elementAt_apart base j.isLt k.isLt (fun h ↦ hjk (Fin.ext h)) hfit

end Machine
