import Scnim.Machine.FloatApprox
import Scnim.RGenDraws

/-!
# Complex and polar numbers

The conversions by table of `dev/SC_Complex.h`, with the constants of `dev/SC_Constants.h`.  The
functions of the C library are parameters.
-/

open Machine
open Machine.FloatFormat

namespace Scnim.Dev

/-! ## 1. Constants and tables -/

structure Libm where
  acos : CDouble → CDouble
  sin : CDouble → CDouble
  cos : CDouble → CDouble
  atan : CDouble → CDouble

namespace Libm

variable (lib : Libm)

def pi : CDouble := lib.acos (binary64.ofRat (-1))

def pi2 : CDouble := binary64.mul lib.pi (binary64.ofRat (1 / 2))

def pi32 : CDouble := binary64.mul lib.pi (binary64.ofRat (3 / 2))

def twopi : CDouble := binary64.mul lib.pi (binary64.ofRat 2)

end Libm

def kSineSize : ℕ := 8192

def kSineMask : BitVec 32 := BitVec.ofNat 32 (kSineSize - 1)

def kPolarLUTSize : ℕ := 2049

def kPolarLUTSize2 : ℕ := kPolarLUTSize >>> 1

namespace Libm

variable (lib : Libm)

def kSinePhaseScale : CDouble := binary64.div (binary64.ofRat kSineSize) lib.twopi

-- What `initTables` stores.
def gSine (i : ℕ) : CFloat :=
  let sineIndexToPhase := binary64.div lib.twopi (binary64.ofRat kSineSize)
  let phase := binary64.mul (binary64.ofRat i) sineIndexToPhase
  binary64.convert binary32 (lib.sin phase)

def lutAngle (i : ℕ) : CDouble :=
  let rPolarLUTSize2 := binary64.div (binary64.ofRat 1) (binary64.ofRat kPolarLUTSize2)
  let slope := binary64.mul (binary64.ofRat ((i - kPolarLUTSize2 : ℤ) : ℚ)) rPolarLUTSize2
  lib.atan slope

def gPhaseLUT (i : ℕ) : CFloat := binary64.convert binary32 (lib.lutAngle i)

def gMagLUT (i : ℕ) : CFloat :=
  binary64.convert binary32 (binary64.div (binary64.ofRat 1) (lib.cos (lib.lutAngle i)))

end Libm

/-! ## 2. The conversions -/

structure SCComplex where
  real : CFloat
  imag : CFloat

structure SCPolar where
  mag : CFloat
  phase : CFloat

-- `table[index]`; none outside of the table
def entry (size : ℕ) (table : ℕ → CFloat) (index : BitVec 32) : Option CFloat :=
  if 0 ≤ index.toInt ∧ index.toInt < size then some (table index.toNat) else none

-- `(int32)x`; none where the number has no such value
def int32Of {F : FloatFormat} (x : BitVec F.width) : Option (BitVec 32) :=
  (toRat x).bind fun q ↦ Scnim.int32 (if 0 ≤ q then ⌊q⌋ else ⌈q⌉)

-- `(int32)(kPolarLUTSize2 + kPolarLUTSize2 * slope)` for the slope `minor / major`
def lutIndex (minor major : CFloat) : Option (BitVec 32) :=
  let slope := binary32.div minor major
  int32Of (F := binary32) (binary32.add (binary32.ofRat kPolarLUTSize2)
    (binary32.mul (binary32.ofRat kPolarLUTSize2) slope))

/-- `none` stands for undefined behaviour: an index that is no `int32`, or is outside of a table. -/
def SCComplex.toPolarApx (lib : Libm) (z : SCComplex) : Option SCPolar :=
  let absreal := fabs (F := binary32) z.real
  let absimag := fabs (F := binary32) z.imag
  if Less (F := binary32) absimag absreal then do
    let index ← lutIndex z.imag z.real
    let mag := binary32.mul (← entry kPolarLUTSize lib.gMagLUT index) absreal
    let phase ← entry kPolarLUTSize lib.gPhaseLUT index
    if Less (F := binary32) 0 z.real then
      return ⟨mag, phase⟩
    else
      return ⟨mag, binary64.convert binary32 (binary64.add lib.pi
        (binary32.convert binary64 phase))⟩
  else if Less (F := binary32) 0 absimag then do
    let index ← lutIndex z.real z.imag
    let mag := binary32.mul (← entry kPolarLUTSize lib.gMagLUT index) absimag
    let phase ← entry kPolarLUTSize lib.gPhaseLUT index
    let quarter := if Less (F := binary32) 0 z.imag then lib.pi2 else lib.pi32
    return ⟨mag, binary64.convert binary32 (binary64.sub quarter (binary32.convert binary64 phase))⟩
  else some ⟨0, 0⟩

def SCPolar.toComplexApx (lib : Libm) (p : SCPolar) : Option SCComplex := do
  let turn ← int32Of (F := binary64) (binary64.mul lib.kSinePhaseScale
    (binary32.convert binary64 p.phase))
  let sinindex := turn &&& kSineMask
  let cosindex := (sinindex + BitVec.ofNat 32 (kSineSize >>> 2)) &&& kSineMask
  let cosine ← entry (kSineSize + 1) lib.gSine cosindex
  let sine ← entry (kSineSize + 1) lib.gSine sinindex
  return ⟨binary32.mul p.mag cosine, binary32.mul p.mag sine⟩

/-! ## 3. Where the tables are read -/

theorem entry_ofNat (table : ℕ → CFloat) {size k : ℕ} (hk : k < size) (hsize : size ≤ 2 ^ 31) :
    entry size table (BitVec.ofNat 32 k) = some (table k) := by
  have hnat : (BitVec.ofNat 32 k).toNat = k := by
    rw [BitVec.toNat_ofNat]
    omega
  have hint : (BitVec.ofNat 32 k).toInt = k := by
    rw [BitVec.toInt_eq_toNat_of_lt (by omega), hnat]
  unfold entry
  rw [hint, hnat, if_pos (by omega)]

theorem isNan_nan : IsNan binary32.nan := by decide +kernel

theorem toRat_lutSize2 : toRat (F := binary32) (binary32.ofRat kPolarLUTSize2) = some 1024 := by
  decide +kernel

-- A slope of at most one gives an index of the table.
theorem index_of_slope {slope : CFloat} {s : ℚ} (hslope : toRat (F := binary32) slope = some s)
    (hs : |s| ≤ 1) : ∃ k ≤ 2048,
      int32Of (F := binary32) (binary32.add (binary32.ofRat kPolarLUTSize2)
        (binary32.mul (binary32.ofRat kPolarLUTSize2) slope)) = some (BitVec.ofNat 32 k) ∧
      |(k : ℚ) - (1024 + 1024 * s)| ≤ 1 + 1 / 2 ^ 12 := by
  have hF : 2 ≤ binary32.exp := by decide
  have hthousand : binary32.Fits 1024 := ⟨1, 10, by norm_num, by decide, by decide, by decide⟩
  have hzero : binary32.Fits 0 := ⟨0, 0, by norm_num, by decide, by decide, by decide⟩
  have htop : binary32.Fits 2048 := ⟨1, 11, by norm_num, by decide, by decide, by decide⟩
  rw [abs_le] at hs
  have hround : ∀ q : ℚ, |q| ≤ 2048 → |binary32.rnd q - q| ≤ 1 / 2 ^ 13 := by
    intro q hq
    refine (abs_rnd_sub_le q).trans (max_le ?_ (by decide +kernel))
    rw [div_le_div_iff₀ (by positivity) (by positivity)]
    show |q| * 2 ^ 13 ≤ 1 * 2 ^ 24
    linarith
  obtain ⟨hmulmax, hmullow, hmulhigh⟩ := rnd_between hthousand.neg hthousand
    (show -1024 ≤ 1024 * s by linarith) (by linarith)
  have hmul := toRat_mul_rnd hF toRat_lutSize2 hslope hmulmax
  obtain ⟨haddmax, haddlow, haddhigh⟩ := rnd_between hzero htop
    (show 0 ≤ 1024 + binary32.rnd (1024 * s) by linarith) (by linarith)
  have hadd := toRat_add_rnd hF toRat_lutSize2 hmul haddmax
  have herror := abs_le.mp (hround (1024 * s) (by rw [abs_le]; constructor <;> linarith))
  have herror' := abs_le.mp (hround (1024 + binary32.rnd (1024 * s))
    (by rw [abs_le]; constructor <;> linarith))
  generalize binary32.rnd (1024 + binary32.rnd (1024 * s)) = p at *
  have hfloor0 : 0 ≤ ⌊p⌋ := Int.floor_nonneg.mpr haddlow
  have hfloor1 : ⌊p⌋ ≤ 2048 := by
    have hle := (Int.floor_le p).trans haddhigh
    exact_mod_cast hle
  obtain ⟨k, hk⟩ := Int.eq_ofNat_of_zero_le hfloor0
  refine ⟨k, by omega, ?_, ?_⟩
  · unfold int32Of
    rw [hadd, Option.bind_some, if_pos haddlow, Scnim.int32, hk, if_pos (by omega)]
    rfl
  · have hlow := Int.floor_le p
    have hhigh := Int.lt_floor_add_one p
    rw [hk, Int.cast_natCast] at hlow hhigh
    rw [abs_le]
    constructor <;> linarith

theorem lutIndex_finite {minor major : CFloat} {p q : ℚ}
    (hminor : toRat (F := binary32) minor = some p) (hmajor : toRat (F := binary32) major = some q)
    (hle : |p| ≤ |q|) (hq : q ≠ 0) : ∃ k ≤ 2048,
      lutIndex minor major = some (BitVec.ofNat 32 k) ∧
      |(k : ℚ) - (1024 + 1024 * (p / q))| ≤ 1 + 1 / 2 ^ 11 := by
  have hone : binary32.Fits 1 := ⟨1, 0, by norm_num, by decide, by decide, by decide⟩
  have hratio : |p / q| ≤ 1 := by
    rw [abs_div, div_le_one (abs_pos.mpr hq)]
    exact hle
  have hslope := toRat_div_rnd (F := binary32) (by decide) hminor hmajor hq
    (hratio.trans_lt hone.abs_lt)
  obtain ⟨k, hk, hindex, hnear⟩ := index_of_slope hslope (abs_rnd_le hone hratio)
  refine ⟨k, hk, hindex, ?_⟩
  have hround : |binary32.rnd (p / q) - p / q| ≤ 1 / 2 ^ 24 := by
    refine (abs_rnd_sub_le _).trans (max_le ?_ (by decide +kernel))
    exact div_le_div_of_nonneg_right hratio (by positivity)
  rw [abs_le] at hround hnear ⊢
  constructor <;> linarith

theorem lutIndex_infinite {minor major : CFloat} {p : ℚ}
    (hminor : toRat (F := binary32) minor = some p) (hmajor : IsInfinite (F := binary32) major) :
    ∃ k ≤ 2048, lutIndex minor major = some (BitVec.ofNat 32 k) := by
  have hslope : toRat (F := binary32) (binary32.div minor major) = some 0 := by
    unfold div
    rw [value_of_toRat hminor, hminor, (isInfinite_iff.mp hmajor).1]
    rcases hmajor with h | h
    · rw [h]
      exact toRat_signed_zero (by decide) _ _
    · rw [h]
      exact toRat_signed_zero (by decide) _ _
  obtain ⟨k, hk, hindex, -⟩ := index_of_slope hslope (by norm_num)
  exact ⟨k, hk, hindex⟩

-- What is no number is no index.
theorem lutIndex_nan {minor major : CFloat} (h : IsNan (F := binary32) (binary32.div minor major)) :
    lutIndex minor major = none := by
  have hmul : IsNan (F := binary32)
      (binary32.mul (binary32.ofRat kPolarLUTSize2) (binary32.div minor major)) := by
    unfold mul
    rw [show value (binary32.div minor major) = none from h]
    split
    · next hnone => cases hnone
    · exact isNan_nan
  have hneg : ∀ x : CFloat, IsNan (F := binary32) x → value (binary32.neg x) = none := by
    intro x hx
    rw [isNan_iff] at hx
    show IsNan (F := binary32) (binary32.neg x)
    rw [isNan_iff, toRat_neg, fraction_neg, hx.1]
    exact ⟨rfl, hx.2⟩
  have hadd : toRat (F := binary32) (binary32.add (binary32.ofRat kPolarLUTSize2)
      (binary32.mul (binary32.ofRat kPolarLUTSize2) (binary32.div minor major))) = none := by
    unfold add sub
    rw [hneg _ hmul]
    split
    · next hnone => cases hnone
    · exact (isNan_iff.mp isNan_nan).1
  unfold lutIndex int32Of
  dsimp only
  rw [hadd, Option.bind_none]

/-! ## 4. Which points have a polar form -/

-- The polar form of a point whose slope has the index `k`, `angle` turned around.
def polarAt (lib : Libm) (k : ℕ) (length : CFloat) (angle : CFloat → CFloat) : SCPolar :=
  ⟨binary32.mul (lib.gMagLUT k) length, angle (lib.gPhaseLUT k)⟩

section Branches

variable (lib : Libm) (z : SCComplex)

-- The four directions that the eighths of the plane are turned to.
def besideReal (phase : CFloat) : CFloat :=
  if Less (F := binary32) 0 z.real then phase
  else binary64.convert binary32 (binary64.add lib.pi (binary32.convert binary64 phase))

def besideImag (phase : CFloat) : CFloat :=
  binary64.convert binary32 (binary64.sub
    (if Less (F := binary32) 0 z.imag then lib.pi2 else lib.pi32) (binary32.convert binary64 phase))

variable {lib z}

theorem toPolarApx_real (h : Less (F := binary32) (fabs (F := binary32) z.imag)
    (fabs (F := binary32) z.real)) {k : ℕ} (hk : k ≤ 2048)
    (hindex : lutIndex z.imag z.real = some (BitVec.ofNat 32 k)) :
    z.toPolarApx lib = some (polarAt lib k (fabs (F := binary32) z.real) (besideReal lib z)) := by
  have hmag := entry_ofNat lib.gMagLUT (show k < kPolarLUTSize by unfold kPolarLUTSize; omega)
    (by decide)
  have hphase := entry_ofNat lib.gPhaseLUT (show k < kPolarLUTSize by unfold kPolarLUTSize; omega)
    (by decide)
  unfold SCComplex.toPolarApx polarAt besideReal
  dsimp only
  rw [if_pos h, hindex]
  simp only [Option.bind_eq_bind, Option.bind_some, hmag, hphase]
  split <;> rfl

theorem toPolarApx_imag (h : ¬ Less (F := binary32) (fabs (F := binary32) z.imag)
    (fabs (F := binary32) z.real)) (hpos : Less (F := binary32) 0 (fabs (F := binary32) z.imag))
    {k : ℕ} (hk : k ≤ 2048) (hindex : lutIndex z.real z.imag = some (BitVec.ofNat 32 k)) :
    z.toPolarApx lib = some (polarAt lib k (fabs (F := binary32) z.imag) (besideImag lib z)) := by
  have hmag := entry_ofNat lib.gMagLUT (show k < kPolarLUTSize by unfold kPolarLUTSize; omega)
    (by decide)
  have hphase := entry_ofNat lib.gPhaseLUT (show k < kPolarLUTSize by unfold kPolarLUTSize; omega)
    (by decide)
  unfold SCComplex.toPolarApx polarAt besideImag
  dsimp only
  rw [if_neg h, if_pos hpos, hindex]
  simp only [Option.bind_eq_bind, Option.bind_some, hmag, hphase]
  rfl

theorem toPolarApx_imag_none (h : ¬ Less (F := binary32) (fabs (F := binary32) z.imag)
    (fabs (F := binary32) z.real)) (hpos : Less (F := binary32) 0 (fabs (F := binary32) z.imag))
    (hindex : lutIndex z.real z.imag = none) : z.toPolarApx lib = none := by
  unfold SCComplex.toPolarApx
  dsimp only
  rw [if_neg h, if_pos hpos, hindex]
  rfl

theorem toPolarApx_zero (h : ¬ Less (F := binary32) (fabs (F := binary32) z.imag)
    (fabs (F := binary32) z.real)) (hpos : ¬ Less (F := binary32) 0 (fabs (F := binary32) z.imag)) :
    z.toPolarApx lib = some ⟨0, 0⟩ := by
  unfold SCComplex.toPolarApx
  dsimp only
  rw [if_neg h, if_neg hpos]

end Branches

theorem toRat_zero32 : toRat (0 : CFloat) = some 0 := toRat_zero (F := binary32) (by decide)

-- The sign of a finite number, as the code tests it.
theorem less_zero_fabs {x : CFloat} {q : ℚ} (hx : toRat (F := binary32) x = some q) :
    Less (F := binary32) 0 (fabs (F := binary32) x) ↔ q ≠ 0 := by
  rw [less_iff toRat_zero32 (toRat_fabs hx), abs_pos]

/-- Every point has a polar form but one with two infinite parts, and one without a real part whose
imaginary part is anything but zero. -/
theorem SCComplex.toPolarApx_eq_none_iff (lib : Libm) (z : SCComplex) :
    z.toPolarApx lib = none ↔
      IsInfinite (F := binary32) z.real ∧ IsInfinite (F := binary32) z.imag ∨
      IsNan (F := binary32) z.real ∧ ¬ IsNan (F := binary32) z.imag ∧
        toRat (F := binary32) z.imag ≠ some 0 := by
  rcases toRat_or_isInfinite_or_isNan (F := binary32) z.real with ⟨a, ha⟩ | hinf | hnan
  · -- a finite real part: there always is a polar form
    refine iff_of_false ?_ fun h ↦ h.elim (fun h ↦ not_isInfinite_of_toRat ha h.1)
      fun h ↦ not_isNan_of_toRat ha h.1
    rw [← ne_eq, Option.ne_none_iff_exists']
    rcases toRat_or_isInfinite_or_isNan (F := binary32) z.imag with ⟨b, hb⟩ | hinf' | hnan'
    · have hless := less_iff (toRat_fabs hb) (toRat_fabs ha)
      by_cases hlt : |b| < |a|
      · obtain ⟨k, hk, hindex, -⟩ := lutIndex_finite hb ha hlt.le
          (abs_pos.mp ((abs_nonneg b).trans_lt hlt))
        exact ⟨_, toPolarApx_real (hless.mpr hlt) hk hindex⟩
      · by_cases hzero : b = 0
        · exact ⟨_, toPolarApx_zero (fun h ↦ hlt (hless.mp h))
            fun h ↦ (less_zero_fabs hb).mp h hzero⟩
        · obtain ⟨k, hk, hindex, -⟩ := lutIndex_finite ha hb (not_lt.mp hlt) hzero
          exact ⟨_, toPolarApx_imag (fun h ↦ hlt (hless.mp h)) ((less_zero_fabs hb).mpr hzero) hk
            hindex⟩
    · have htop := value_fabs_of_isInfinite hinf'
      obtain ⟨k, hk, hindex⟩ := lutIndex_infinite ha hinf'
      exact ⟨_, toPolarApx_imag (not_less_of_value_top htop) (less_of_value_top toRat_zero32 htop)
        hk hindex⟩
    · have hfabs := isNan_fabs hnan'
      exact ⟨_, toPolarApx_zero (not_less_of_isNan (.inl hfabs)) (not_less_of_isNan (.inr hfabs))⟩
  · have htop := value_fabs_of_isInfinite hinf
    rcases toRat_or_isInfinite_or_isNan (F := binary32) z.imag with ⟨b, hb⟩ | hinf' | hnan'
    · obtain ⟨k, hk, hindex⟩ := lutIndex_infinite hb hinf
      rw [toPolarApx_real (less_of_value_top (toRat_fabs hb) htop) hk hindex]
      exact iff_of_false (Option.some_ne_none _) fun h ↦
        h.elim (fun h ↦ not_isInfinite_of_toRat hb h.2) fun h ↦ hinf.not_isNan h.1
    · have htop' := value_fabs_of_isInfinite hinf'
      refine iff_of_true (toPolarApx_imag_none (not_less_of_value_top htop')
        (less_of_value_top toRat_zero32 htop') (lutIndex_nan ?_)) (.inl ⟨hinf, hinf'⟩)
      rw [div_of_isInfinite hinf hinf']
      exact isNan_nan
    · have hfabs := isNan_fabs hnan'
      rw [toPolarApx_zero (not_less_of_isNan (.inl hfabs)) (not_less_of_isNan (.inr hfabs))]
      exact iff_of_false (Option.some_ne_none _) fun h ↦
        h.elim (fun h ↦ h.2.not_isNan hnan') fun h ↦ h.2.1 hnan'
  · have hfabs : ¬ Less (F := binary32) (fabs (F := binary32) z.imag)
        (fabs (F := binary32) z.real) := not_less_of_isNan (.inr (isNan_fabs hnan))
    have hindex : lutIndex z.real z.imag = none := by
      apply lutIndex_nan
      rw [div_of_isNan hnan]
      exact isNan_nan
    rcases toRat_or_isInfinite_or_isNan (F := binary32) z.imag with ⟨b, hb⟩ | hinf' | hnan'
    · by_cases hzero : b = 0
      · rw [toPolarApx_zero hfabs fun h ↦ (less_zero_fabs hb).mp h hzero]
        refine iff_of_false (Option.some_ne_none _) fun h ↦
          h.elim (fun h ↦ h.1.not_isNan hnan) fun h ↦ h.2.2 ?_
        rw [hb, hzero]
      · refine iff_of_true (toPolarApx_imag_none hfabs ((less_zero_fabs hb).mpr hzero) hindex)
          (.inr ⟨hnan, not_isNan_of_toRat hb, ?_⟩)
        rwa [hb, ne_eq, Option.some.injEq]
    · have htop := value_fabs_of_isInfinite hinf'
      refine iff_of_true (toPolarApx_imag_none hfabs (less_of_value_top toRat_zero32 htop) hindex)
        (.inr ⟨hnan, hinf'.not_isNan, ?_⟩)
      rw [(isInfinite_iff.mp hinf').1]
      exact (Option.some_ne_none _).symm
    · rw [toPolarApx_zero hfabs (not_less_of_isNan (.inr (isNan_fabs hnan')))]
      exact iff_of_false (Option.some_ne_none _) fun h ↦
        h.elim (fun h ↦ h.1.not_isNan hnan) fun h ↦ h.2.1 hnan'

end Scnim.Dev
