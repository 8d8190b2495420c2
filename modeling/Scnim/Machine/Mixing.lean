import Mathlib.Data.Fintype.EquivFin
import Mathlib.RingTheory.Nilpotent.Basic
import Scnim.Machine.XorLinear

/-!
# Mixing words

The operations that hash functions of words are made of, each of which can be undone.
-/

namespace Machine

variable {w n : ℕ}

/-! ## 1. Exclusive or with a part of the word -/

theorem xor_ushiftRight_injective (hn : 0 < n) :
    Function.Injective fun x : BitVec w ↦ x ^^^ x >>> n := by
  apply XorLinear.injective (XorLinear.xor (fun _ _ ↦ rfl) (XorLinear.ushiftRight n))
  intro x hx
  -- a word that is its own shift is shorter than itself
  have hshift : x.toNat = x.toNat / 2 ^ n := by
    have := congrArg BitVec.toNat (BitVec.xor_eq_zero_iff.mp hx)
    rwa [BitVec.toNat_ushiftRight, Nat.shiftRight_eq_div_pow] at this
  apply BitVec.eq_of_toNat_eq
  rw [BitVec.toNat_ofNat, Nat.zero_mod]
  by_contra hne
  have hlt := Nat.div_lt_self (Nat.pos_of_ne_zero hne) (Nat.one_lt_two_pow hn.ne')
  omega

/-! ## 2. Sums with a multiple of the word -/

theorem twoPow_isNilpotent (hn : 0 < n) : IsNilpotent (BitVec.twoPow w n) := by
  refine ⟨w, ?_⟩
  have hcast : BitVec.twoPow w n = ((2 ^ n : ℕ) : BitVec w) := by
    apply BitVec.eq_of_toNat_eq
    rw [BitVec.toNat_twoPow, BitVec.natCast_eq_ofNat, BitVec.toNat_ofNat]
  rw [hcast, ← Nat.cast_pow, ← pow_mul]
  apply BitVec.eq_of_toNat_eq
  rw [BitVec.natCast_eq_ofNat, BitVec.toNat_ofNat]
  exact Nat.mod_eq_zero_of_dvd (Nat.pow_dvd_pow 2 (Nat.le_mul_of_pos_left w hn))

theorem add_shiftLeft_injective (hn : 0 < n) :
    Function.Injective fun x : BitVec w ↦ x + x <<< n := by
  have hunit := (twoPow_isNilpotent (w := w) hn).isUnit_one_add
  intro x y hxy
  apply hunit.mul_left_injective
  simp only [BitVec.shiftLeft_eq_mul_twoPow] at hxy
  simpa only [mul_add, mul_one] using hxy

theorem add_not_shiftLeft_injective (hn : 0 < n) :
    Function.Injective fun x : BitVec w ↦ x + ~~~(x <<< n) := by
  have hunit := (twoPow_isNilpotent (w := w) hn).isUnit_one_sub
  intro x y hxy
  apply hunit.mul_left_injective
  simp only [BitVec.shiftLeft_eq_mul_twoPow, BitVec.not_eq_neg_add] at hxy
  have hshift : x - x * BitVec.twoPow w n = y - y * BitVec.twoPow w n := by
    have := congrArg (· + 1#w) hxy
    simpa [sub_eq_add_neg, add_assoc] using this
  simpa only [mul_sub, mul_one] using hshift

-- On words what loses nothing reaches everything.
theorem bijective_of_injective {f : BitVec w → BitVec w} (hf : Function.Injective f) :
    Function.Bijective f := by
  have : Finite (BitVec w) := Finite.of_injective BitVec.toFin BitVec.toFin_injective
  exact Finite.injective_iff_bijective.mp hf

end Machine
