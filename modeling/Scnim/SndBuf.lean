import Mathlib.Tactic.NormNum
import Scnim.Machine.FloatRound

/-!
# Splitting a phase

`PhaseFrac` and `PhaseFrac1` of `scnim/SndBuf.nim`, and the C functions they were written from.  A
`cfloat` is given by its bits.
-/

open Machine

namespace Scnim

abbrev CFloat := BitVec FloatFormat.binary32.width

abbrev CDouble := BitVec FloatFormat.binary64.width

/-! ## 1. The functions -/

/-- `tuple[itemp: uint32, ftemp: cfloat]`: two fields next to each other, zero at first. -/
structure PhaseTuple where
  itemp : BitVec 32 := 0
  ftemp : CFloat := 0

-- the bits of a float in [1, 2) whose fraction is the lower half of the phase
def phaseBits (inPhase : BitVec 32) : BitVec 32 :=
  0x3F800000#32 ||| (0x007FFF80#32 &&& (inPhase <<< 7))

def oneFloat : CFloat := FloatFormat.binary32.ofRat 1

def phaseFrac (inPhase : BitVec 32) : CFloat :=
  let u : PhaseTuple := {}
  let u := { u with itemp := phaseBits inPhase }
  FloatFormat.binary32.sub u.ftemp oneFloat

def phaseFrac1 (inPhase : BitVec 32) : CFloat :=
  let u : PhaseTuple := {}
  let u := { u with itemp := phaseBits inPhase }
  u.ftemp

namespace Dev

/-- `union { uint32 itemp; float ftemp; }`: one storage for both. -/
structure PhaseUnion where
  bits : BitVec 32

def PhaseUnion.ftemp (u : PhaseUnion) : CFloat := u.bits

def phaseFrac (inPhase : BitVec 32) : CFloat :=
  FloatFormat.binary32.sub (PhaseUnion.ftemp ⟨phaseBits inPhase⟩) oneFloat

def phaseFrac1 (inPhase : BitVec 32) : CFloat := PhaseUnion.ftemp ⟨phaseBits inPhase⟩

end Dev

/-! ## 2. Exact splitting -/

open FloatFormat

/-- The phase `p` is split into its upper half and a fraction, and nothing is lost. -/
structure PhaseSplit (frac frac1 : BitVec 32 → CFloat) (p : BitVec 32) : Prop where
  frac1_eq : toRat (frac1 p) = some (1 + ((p.toNat % 2 ^ 16 : ℕ) : ℚ) / 2 ^ 16)
  frac_eq : toRat (frac p) = (toRat (frac1 p)).map fun q ↦ q - 1
  range : ∃ q, toRat (frac p) = some q ∧ 0 ≤ q ∧ q < 1
  lossless : ∃ q, toRat (frac p) = some q ∧
    ((p >>> 16).toNat : ℚ) + q = (p.toNat : ℚ) / 2 ^ 16
  increasing : ∀ p' : BitVec 32, p' >>> 16 = p >>> 16 → p < p' →
    ∃ q q', toRat (frac p) = some q ∧ toRat (frac p') = some q' ∧ q < q'

/-! ## 3. The C functions -/

theorem phaseBits_toNat (p : BitVec 32) :
    (phaseBits p).toNat = 0 * 2 ^ 31 + (126 * 2 ^ 23 + (2 ^ 23 + p.toNat % 2 ^ 16 * 2 ^ 7)) := by
  have hmask : 0x007FFF80#32 &&& (p <<< 7) = (0xFFFF#32 &&& p) <<< 7 := by
    rw [BitVec.shiftLeft_and_distrib]
    rfl
  have hlow : (0xFFFF#32 &&& p).toNat = p.toNat % 2 ^ 16 := by
    rw [BitVec.toNat_and, Nat.and_comm]
    exact Nat.and_two_pow_sub_one_eq_mod _ 16
  have hshift : ((0xFFFF#32 &&& p) <<< 7).toNat = p.toNat % 2 ^ 16 * 2 ^ 7 := by
    rw [BitVec.toNat_shiftLeft, hlow, Nat.shiftLeft_eq]
    omega
  unfold phaseBits
  rw [hmask, BitVec.toNat_or, hshift, show (0x3F800000#32).toNat = 127 <<< 23 from rfl,
    ← Nat.shiftLeft_add_eq_or_of_lt (by omega), Nat.shiftLeft_eq]
  omega

theorem dev_phaseFrac1_eq (p : BitVec 32) : toRat (Dev.phaseFrac1 p) =
    some (1 + ((p.toNat % 2 ^ 16 : ℕ) : ℚ) / 2 ^ 16) := by
  have hlow := Nat.mod_lt p.toNat (show 0 < 2 ^ 16 by decide)
  have hrat := toRat_of_toNat binary32 (phaseBits_toNat p) (Nat.zero_le 1)
    (show 2 ^ 23 + p.toNat % 2 ^ 16 * 2 ^ 7 < 2 ^ (23 + 1) by omega)
    (.inr (Nat.le_add_right _ _)) (by decide)
  rw [if_neg (by decide), show binary32.minExp + (126 : ℕ) = -23 by decide] at hrat
  refine hrat.trans (congrArg some ?_)
  push_cast
  norm_num
  ring

theorem oneFloat_eq : toRat oneFloat = some 1 := by decide +kernel

theorem dev_phaseFrac_eq (p : BitVec 32) : toRat (Dev.phaseFrac p) =
    some (((p.toNat % 2 ^ 16 : ℕ) : ℚ) / 2 ^ 16) := by
  have hlow := Nat.mod_lt p.toNat (show 0 < 2 ^ 16 by decide)
  have hdiff : |1 + ((p.toNat % 2 ^ 16 : ℕ) : ℚ) / 2 ^ 16 - 1| =
      ((p.toNat % 2 ^ 16 : ℕ) : ℚ) * 2 ^ (-16 : ℤ) := by
    rw [add_sub_cancel_left, abs_of_nonneg (by positivity), div_eq_mul_inv]
    norm_num
  have hsub := binary32.toRat_sub (dev_phaseFrac1_eq p) oneFloat_eq hdiff
    (show p.toNat % 2 ^ 16 < 2 ^ 24 by omega) (by decide) (by decide)
  refine hsub.trans (congrArg some ?_)
  ring

/-- With one storage for both fields every phase is split exactly. -/
theorem dev_phaseSplit (p : BitVec 32) : PhaseSplit Dev.phaseFrac Dev.phaseFrac1 p := by
  have hfrac := dev_phaseFrac_eq p
  have hfrac1 := dev_phaseFrac1_eq p
  have hdiv := Nat.div_add_mod p.toNat (2 ^ 16)
  have hlow := Nat.mod_lt p.toNat (show 0 < 2 ^ 16 by decide)
  constructor
  · exact hfrac1
  · rw [hfrac, hfrac1, Option.map_some]
    congr 1
    ring
  · refine ⟨_, hfrac, by positivity, ?_⟩
    rw [div_lt_one (by positivity)]
    exact_mod_cast hlow
  · refine ⟨_, hfrac, ?_⟩
    rw [BitVec.toNat_ushiftRight, Nat.shiftRight_eq_div_pow]
    rw [eq_div_iff (by norm_num), add_mul, div_mul_cancel₀ _ (by norm_num)]
    exact_mod_cast (by rw [Nat.mul_comm]; exact hdiv)
  · intro p' hslot hlt
    refine ⟨_, _, hfrac, dev_phaseFrac_eq p', ?_⟩
    have hdiv' := Nat.div_add_mod p'.toNat (2 ^ 16)
    have hsame : p'.toNat / 2 ^ 16 = p.toNat / 2 ^ 16 := by
      have := congrArg BitVec.toNat hslot
      rwa [BitVec.toNat_ushiftRight, BitVec.toNat_ushiftRight, Nat.shiftRight_eq_div_pow,
        Nat.shiftRight_eq_div_pow] at this
    rw [BitVec.lt_def] at hlt
    apply div_lt_div_of_pos_right _ (by positivity)
    exact_mod_cast (show p.toNat % 2 ^ 16 < p'.toNat % 2 ^ 16 by omega)

/-! ## 4. The Nim functions -/

theorem phaseFrac1_eq (p : BitVec 32) : toRat (phaseFrac1 p) = some 0 := by
  have hzero : toRat (0 : CFloat) = some 0 := by decide +kernel
  exact hzero

theorem phaseFrac_eq (p : BitVec 32) : toRat (phaseFrac p) = some (-1) := by
  have hminus : toRat (binary32.sub 0 oneFloat) = some (-1) := by decide +kernel
  exact hminus

/-- The tuple's fields do not share storage, so the phase never reaches the result: no phase is
split. -/
theorem phaseFrac_never (p : BitVec 32) :
    toRat (phaseFrac1 p) = some 0 ∧ toRat (phaseFrac p) = some (-1) ∧
    ¬ PhaseSplit phaseFrac phaseFrac1 p := by
  refine ⟨phaseFrac1_eq p, phaseFrac_eq p, fun h ↦ ?_⟩
  obtain ⟨q, hq, hnonneg, -⟩ := h.range
  rw [phaseFrac_eq, Option.some.injEq] at hq
  subst hq
  norm_num at hnonneg

-- The phase one half into slot 0, of which `PhaseFrac1` should be 1.5.
theorem phaseFrac_misses : toRat (phaseFrac1 0x8000#32) = some 0 ∧
    toRat (phaseFrac 0x8000#32) = some (-1) ∧
    ¬ ∀ p, PhaseSplit phaseFrac phaseFrac1 p := by
  refine ⟨phaseFrac1_eq _, phaseFrac_eq _, fun hall ↦ ?_⟩
  have hhalf := (hall 0x8000#32).frac1_eq
  rw [phaseFrac1_eq] at hhalf
  exact absurd hhalf (by decide +kernel)

end Scnim
