import Mathlib.Analysis.Real.Pi.Bounds
import Scnim.Machine.Plane
import Scnim.Polar

/-!
# How exact the conversions are

A bin of a spectrum that is converted to its polar form and back keeps its place up to the spacing
of the tables.
-/

open Machine
open Machine.FloatFormat

namespace Scnim.Dev

/-! ## 1. The C library -/

/-- The functions of the C library are right but for the last bits. -/
structure Libm.Accurate (lib : Libm) : Prop where
  acos_near : Near (F := binary64) (lib.acos (binary64.ofRat (-1))) Real.pi (1 / 2 ^ 51)
  sin_near : ∀ {x : CDouble} {q : ℚ}, toRat x = some q → |q| ≤ 8 →
    Near (F := binary64) (lib.sin x) (Real.sin q) (1 / 2 ^ 51)
  cos_near : ∀ {x : CDouble} {q : ℚ}, toRat x = some q → |q| ≤ 1 →
    Near (F := binary64) (lib.cos x) (Real.cos q) (1 / 2 ^ 51)
  atan_near : ∀ {x : CDouble} {q : ℚ}, toRat x = some q → |q| ≤ 1 →
    Near (F := binary64) (lib.atan x) (Real.arctan q) (1 / 2 ^ 51)

/-! ## 2. Operations on numbers of a common size -/

section Operations

variable {x y : CDouble} {q r ε δ γ b e A B : ℝ}

theorem lt_overflow64 (h : B ≤ 2 ^ 40) : B < (binary64.overflow : ℚ) := by
  have hlt : (2 : ℚ) ^ 40 < binary64.overflow := by decide +kernel
  refine h.trans_lt ?_
  exact_mod_cast hlt

theorem lt_overflow32 (h : B ≤ 3 * 2 ^ 126) : B < (binary32.overflow : ℚ) := by
  have hlt : (3 : ℚ) * 2 ^ 126 < binary32.overflow := by decide +kernel
  refine h.trans_lt ?_
  exact_mod_cast hlt

theorem bottom64 : (2 : ℝ) ^ (binary64.minExp - 1) ≤ 1 / 2 ^ 100 := by
  have hle : (2 : ℚ) ^ (binary64.minExp - 1) ≤ 1 / 2 ^ 100 := by decide +kernel
  have hcast := (Rat.cast_le (K := ℝ)).mpr hle
  push_cast at hcast
  exact hcast

theorem bottom32 : (2 : ℝ) ^ (binary32.minExp - 1) = 1 / 2 ^ 150 := by
  have heq : (2 : ℚ) ^ (binary32.minExp - 1) = 1 / 2 ^ 150 := by decide +kernel
  have hcast := congrArg (Rat.cast (K := ℝ)) heq
  push_cast at hcast
  exact hcast

theorem mul64 (hx : Near (F := binary64) x q ε) (hy : Near (F := binary64) y r δ)
    (hA : |q| + ε ≤ A) (hB : |r| + δ ≤ B) (hmax : A * B ≤ 2 ^ 40)
    (hγ : A * δ + B * ε + (A * B / 2 ^ 53 + 1 / 2 ^ 100) ≤ γ) :
    Near (F := binary64) (binary64.mul x y) (q * r) γ := by
  refine Near.mul (by decide) hx hy hA hB (lt_overflow64 hmax) (le_trans ?_ hγ)
  exact add_le_add_right (add_le_add_right bottom64 _) _

theorem div64 (hx : Near (F := binary64) x q ε) (hy : Near (F := binary64) y r δ) (hb : 0 < b)
    (hr : b + δ ≤ |r|) (hA : |q| ≤ A * |r|) (he : ε + A * δ ≤ e * b) (hmax : A + e ≤ 2 ^ 40)
    (hγ : e + ((A + e) / 2 ^ 53 + 1 / 2 ^ 100) ≤ γ) :
    Near (F := binary64) (binary64.div x y) (q / r) γ := by
  refine Near.div (by decide) hx hy hb hr hA he (lt_overflow64 hmax) (le_trans ?_ hγ)
  exact add_le_add_right (add_le_add_right bottom64 _) _

theorem toFloat (hx : Near (F := binary64) x q ε) (hB : |q| + ε ≤ B) (hmax : B ≤ 2 ^ 40)
    (hγ : ε + (B / 2 ^ 24 + 1 / 2 ^ 150) ≤ γ) :
    Near (F := binary32) (binary64.convert binary32 x) q γ := by
  refine Near.convert (G := binary32) (by decide) hx hB
    (lt_overflow32 (hmax.trans (by norm_num))) (le_trans ?_ hγ)
  exact add_le_add_right (add_le_add_right bottom32.le _) _

theorem toDouble {x : CFloat} (hx : Near (F := binary32) x q ε) (hB : |q| + ε ≤ B)
    (hmax : B ≤ 2 ^ 40) (hγ : ε + (B / 2 ^ 53 + 1 / 2 ^ 100) ≤ γ) :
    Near (F := binary64) (binary32.convert binary64 x) q γ := by
  refine Near.convert (G := binary64) (by decide) hx hB (lt_overflow64 hmax) (le_trans ?_ hγ)
  exact add_le_add_right (add_le_add_right bottom64 _) _

-- A whole number of moderate size.
theorem near_intCast {z : ℤ} (hz : z.natAbs < 2 ^ 53) :
    Near (F := binary64) (binary64.ofRat z) (z : ℝ) 0 := by
  have hfits := fits_int32 hz
  have hrat : toRat (binary64.ofRat z) = some (z : ℚ) := by
    rw [toRat_ofRat_rnd binary64 hfits.abs_lt (by decide), rnd_of_fits hfits]
  have hnear := near_of_toRat (K := ℝ) hrat
  rwa [Rat.cast_intCast] at hnear

end Operations

/-! ## 3. The tables -/

theorem abs_arctan_le (s : ℝ) : |Real.arctan s| ≤ 2 := by
  have hlow := Real.neg_pi_div_two_lt_arctan s
  have hhigh := Real.arctan_lt_pi_div_two s
  have hpi := Real.pi_lt_d6
  exact abs_le.mpr ⟨by linarith, by linarith⟩

namespace Libm.Accurate

variable {lib : Libm} (hlib : lib.Accurate)

include hlib

theorem twopi_near : Near (F := binary64) lib.twopi (2 * Real.pi) (1 / 2 ^ 48) := by
  have htwo := near_intCast (z := 2) (by decide)
  have hmul := mul64 hlib.acos_near htwo (A := 4) (B := 2) (γ := 1 / 2 ^ 48)
    (by rw [abs_of_pos Real.pi_pos]; linarith [Real.pi_lt_d6]) (by norm_num) (by norm_num)
    (by norm_num)
  rw [mul_comm]
  exact_mod_cast hmul

theorem kSinePhaseScale_near :
    Near (F := binary64) lib.kSinePhaseScale (8192 / (2 * Real.pi)) (1 / 2 ^ 38) := by
  have hpi := Real.pi_gt_d6
  have hsize : |2 * Real.pi| = 2 * Real.pi := abs_of_pos (by positivity)
  have hdiv := div64 (near_intCast (z := 8192) (by decide)) hlib.twopi_near (b := 6) (A := 1400)
    (e := 1 / 2 ^ 39) (γ := 1 / 2 ^ 38) (by norm_num) (by rw [hsize]; linarith)
    (by rw [hsize]; norm_num; linarith) (by norm_num) (by norm_num) (by norm_num)
  exact_mod_cast hdiv

theorem gSine_near {i : ℕ} (hi : i ≤ 8192) :
    Near (F := binary32) (lib.gSine i) (Real.sin (i * (2 * Real.pi / 8192))) (1 / 2 ^ 22) := by
  have hpi := Real.pi_lt_d6
  have hpos := Real.pi_pos
  have hi1 : (i : ℝ) ≤ 8192 := by exact_mod_cast hi
  have hstep0 : |2 * Real.pi / 8192| = 2 * Real.pi / 8192 := abs_of_pos (by positivity)
  have hstep := div64 hlib.twopi_near (near_intCast (z := 8192) (by decide)) (b := 8192)
    (A := 7 / 8192) (e := 1 / 2 ^ 61) (γ := 1 / 2 ^ 60) (by norm_num) (by norm_num)
    (by rw [abs_of_pos (by positivity)]; norm_num; linarith) (by norm_num) (by norm_num)
    (by norm_num)
  have hphase := mul64 (near_intCast (z := i) (by omega)) hstep (A := 8192) (B := 1 / 1024)
    (γ := 1 / 2 ^ 46) (by rw [add_zero, abs_of_nonneg (by positivity)]; exact_mod_cast hi1)
    (by push_cast; rw [hstep0]; linarith) (by norm_num) (by norm_num)
  push_cast at hphase
  obtain ⟨p, hp, hnear⟩ := hphase
  have hsize : |(p : ℝ)| ≤ 8 := by
    refine abs_le_of_near hnear ?_
    rw [abs_of_nonneg (by positivity)]
    have hle := mul_le_mul_of_nonneg_right hi1 (show 0 ≤ 2 * Real.pi / 8192 by positivity)
    linarith
  have hsin := (hlib.sin_near hp (by exact_mod_cast hsize)).move
    ((Real.abs_sin_sub_sin_le p _).trans hnear) (γ := 1 / 2 ^ 45) (by norm_num)
  exact toFloat hsin (B := 2) (by linarith [Real.abs_sin_le_one (i * (2 * Real.pi / 8192))])
    (by norm_num) (by norm_num)

-- The slope of an entry is exact.
theorem atan_near_lut {i : ℕ} (hi : i ≤ 2048) : Near (F := binary64) (lib.lutAngle i)
    (Real.arctan ((i - 1024) / 1024)) (1 / 2 ^ 51) := by
  have hsteps : binary64.Fits (((i - 1024 : ℤ) : ℚ) * 2 ^ (-10 : ℤ)) :=
    fits_intCast_mul binary64 _ _ (by show _ < 2 ^ 53; omega) (by decide) (by decide)
  have hstep : toRat (binary64.div (binary64.ofRat 1) (binary64.ofRat kPolarLUTSize2)) =
      some (2 ^ (-10 : ℤ)) := by decide +kernel
  have hindex : toRat (binary64.ofRat ((i - kPolarLUTSize2 : ℤ) : ℚ)) =
      some ((i - 1024 : ℤ) : ℚ) := by
    have hfits := fits_int32 (z := (i : ℤ) - 1024) (by omega)
    exact (toRat_ofRat_rnd binary64 hfits.abs_lt (by decide)).trans (by rw [rnd_of_fits hfits])
  have hslope := toRat_mul_rnd (by decide) hindex hstep hsteps.abs_lt
  rw [rnd_of_fits hsteps] at hslope
  have hi1 : (i : ℚ) ≤ 2048 := by exact_mod_cast hi
  have hi0 : (0 : ℚ) ≤ i := Nat.cast_nonneg i
  have hatan := hlib.atan_near hslope (by
    push_cast
    rw [abs_le]
    norm_num
    constructor <;> linarith)
  have hvalue : ((((i - 1024 : ℤ) : ℚ) * 2 ^ (-10 : ℤ) : ℚ) : ℝ) = (i - 1024) / 1024 := by
    push_cast
    norm_num
    ring
  rw [hvalue] at hatan
  exact hatan

theorem gPhaseLUT_near {i : ℕ} (hi : i ≤ 2048) : Near (F := binary32) (lib.gPhaseLUT i)
    (Real.arctan ((i - 1024) / 1024)) (1 / 2 ^ 22) := by
  exact toFloat (hlib.atan_near_lut hi) (B := 3) (by linarith [abs_arctan_le ((i - 1024) / 1024)])
    (by norm_num) (by norm_num)

theorem gMagLUT_near {i : ℕ} (hi : i ≤ 2048) : Near (F := binary32) (lib.gMagLUT i)
    √(1 + ((i - 1024) / 1024) ^ 2) (1 / 2 ^ 22) := by
  have hi1 : (i : ℝ) ≤ 2048 := by exact_mod_cast hi
  have hi0 : (0 : ℝ) ≤ i := Nat.cast_nonneg i
  obtain ⟨p, hp, hangle⟩ := hlib.atan_near_lut hi
  have hs : |((i : ℝ) - 1024) / 1024| ≤ 1 := by
    rw [abs_le]
    constructor <;> linarith
  generalize ((i : ℝ) - 1024) / 1024 = s at hangle hs ⊢
  have hsq : s ^ 2 ≤ 1 := (sq_le_one_iff_abs_le_one s).mpr hs
  have hroot1 : 1 ≤ √(1 + s ^ 2) := Real.one_le_sqrt.mpr (by linarith [sq_nonneg s])
  have hroot2 : √(1 + s ^ 2) ≤ 3 / 2 := Real.sqrt_le_iff.mpr ⟨by norm_num, by linarith⟩
  have hquarter : |Real.arctan s| ≤ Real.pi / 4 := by
    rw [abs_le, ← Real.arctan_one, ← Real.arctan_neg]
    exact ⟨Real.arctan_mono (abs_le.mp hs).1, Real.arctan_mono (abs_le.mp hs).2⟩
  have hpi := Real.pi_lt_d6
  have hsize : |(p : ℝ)| ≤ 1 := abs_le_of_near hangle (by linarith)
  have hcos := (hlib.cos_near hp (by exact_mod_cast hsize)).move
    ((Real.abs_cos_sub_cos_le p _).trans hangle) (γ := 1 / 2 ^ 50) (by norm_num)
  have hcosine : |Real.cos (Real.arctan s)| = 1 / √(1 + s ^ 2) := by
    rw [Real.cos_arctan, abs_of_pos (by positivity)]
  have hbound : 2 / 3 ≤ 1 / √(1 + s ^ 2) := by
    rw [le_div_iff₀ (by linarith)]
    linarith
  have hone : Near (F := binary64) (binary64.ofRat 1) (1 : ℝ) 0 := by
    exact_mod_cast near_intCast (z := 1) (by decide)
  have hdiv := div64 hone hcos (b := 1 / 2) (A := 2) (e := 1 / 2 ^ 48) (γ := 1 / 2 ^ 47)
    (by norm_num) (by rw [hcosine]; linarith) (by rw [hcosine, abs_one]; linarith) (by norm_num)
    (by norm_num) (by norm_num)
  rw [Real.cos_arctan, one_div_one_div] at hdiv
  exact toFloat hdiv (B := 2) (by rw [abs_of_pos (by linarith)]; linarith) (by norm_num)
    (by norm_num)

end Libm.Accurate

/-! ## 4. To polar -/

-- An angle turned by a quarter, by half or by three quarters.
theorem turned_near {c y : CDouble} {α θ : ℝ} (hc : Near (F := binary64) c α (1 / 2 ^ 40))
    (hα : |α| ≤ 5) (hy : Near (F := binary64) y θ (1 / 2 ^ 21)) (hθ : |θ| ≤ 2) :
    Near (F := binary32) (binary64.convert binary32 (binary64.sub c y)) (α - θ) (1 / 2 ^ 18) := by
  have hsize : |α - θ| ≤ 7 := (abs_sub α θ).trans (by linarith)
  have hsub : Near (F := binary64) (binary64.sub c y) (α - θ) (1 / 2 ^ 20) :=
    Near.sub (by decide) hc hy (B := 8) (by linarith) (lt_overflow64 (by norm_num))
      (by show 1 / 2 ^ 40 + 1 / 2 ^ 21 + 8 / 2 ^ 53 ≤ _; norm_num)
  exact toFloat hsub (B := 8) (by linarith) (by norm_num) (by norm_num)

theorem phaseDouble_near {phase : CFloat} {s : ℝ}
    (hphase : Near (F := binary32) phase (Real.arctan s) (1 / 2 ^ 22)) :
    Near (F := binary64) (binary32.convert binary64 phase) (Real.arctan s) (1 / 2 ^ 21) :=
  toDouble hphase (B := 3) (by linarith [abs_arctan_le s]) (by norm_num) (by norm_num)

section ToPolar

variable {lib : Libm} (hlib : lib.Accurate) {k : ℕ} (hk : k ≤ 2048)

include hlib hk

theorem polarAt_near {length phase : CFloat} {ρ : ℚ} {s t α : ℝ}
    (hlength : toRat (F := binary32) length = some ρ) (hρ : 0 ≤ ρ) (hmax : ρ ≤ 2 ^ 126)
    (hs : s ^ 2 = (((k : ℝ) - 1024) / 1024) ^ 2) (hst : |s - t| ≤ (1 + 1 / 2 ^ 11) / 1024)
    (hα : |α| ≤ 5) (hphase : Near (F := binary32) phase (α + Real.arctan s) (1 / 2 ^ 18)) :
    ∃ m φ : ℚ, toRat (F := binary32) (binary32.mul (lib.gMagLUT k) length) = some m ∧
      toRat (F := binary32) phase = some φ ∧ |m| ≤ 2 ^ 127 ∧ |φ| ≤ 8 ∧
      ‖polarPoint m φ - slopePoint ρ α t‖ ≤ ρ / 1000 + 1 / 2 ^ 150 := by
  have hρ0 : (0 : ℝ) ≤ ρ := by exact_mod_cast hρ
  have hρ1 : (ρ : ℝ) ≤ 2 ^ 126 := by exact_mod_cast hmax
  have hlut := hlib.gMagLUT_near hk
  have hk1 : (k : ℝ) ≤ 2048 := by exact_mod_cast hk
  have hk0 : (0 : ℝ) ≤ k := Nat.cast_nonneg k
  have hsq : s ^ 2 ≤ 1 := by
    rw [hs, sq_le_one_iff_abs_le_one, abs_le]
    constructor <;> linarith
  rw [← hs] at hlut
  have hroot1 : 1 ≤ √(1 + s ^ 2) := Real.one_le_sqrt.mpr (by linarith [sq_nonneg s])
  have hroot2 : √(1 + s ^ 2) ≤ 3 / 2 := Real.sqrt_le_iff.mpr ⟨by norm_num, by linarith⟩
  have hmag : Near (F := binary32) (binary32.mul (lib.gMagLUT k) length) (√(1 + s ^ 2) * ρ)
      (ρ / 2 ^ 21 + 1 / 2 ^ 150) := by
    refine Near.mul (by decide) hlut (near_of_toRat hlength) (A := 2) (B := ρ) ?_ ?_ ?_ ?_
    · rw [abs_of_pos (by linarith)]
      linarith
    · rw [add_zero, abs_of_nonneg hρ0]
    · exact lt_overflow32 (by linarith)
    · rw [bottom32]
      show (2 : ℝ) * 0 + ρ * (1 / 2 ^ 22) + (2 * ρ / 2 ^ 24 + 1 / 2 ^ 150) ≤ _
      linarith
  obtain ⟨m, hm, hmnear⟩ := hmag
  obtain ⟨φ, hφ, hφnear⟩ := hphase
  have hlen0 : 0 ≤ √(1 + s ^ 2) * ρ := mul_nonneg (by linarith) hρ0
  have hlen1 : √(1 + s ^ 2) * ρ ≤ 3 / 2 * ρ := mul_le_mul_of_nonneg_right hroot2 hρ0
  refine ⟨m, φ, hm, hφ, ?_, ?_, ?_⟩
  · have hsize : |(m : ℝ)| ≤ 2 ^ 127 := by
      refine abs_le_of_near hmnear ?_
      rw [abs_of_nonneg hlen0]
      linarith
    exact_mod_cast hsize
  · have hsize : |(φ : ℝ)| ≤ 8 := by
      refine abs_le_of_near hφnear ?_
      linarith [abs_add_le α (Real.arctan s), abs_arctan_le s]
    exact_mod_cast hsize
  · refine (norm_polarPoint_sub_slopePoint_le _ _ s t _ _).trans ?_
    rw [mul_comm (ρ : ℝ) √(1 + s ^ 2), abs_of_nonneg hlen0, abs_of_nonneg hρ0]
    have hturn : √(1 + s ^ 2) * ρ * |(φ : ℝ) - (α + Real.arctan s)| ≤ 3 / 2 * ρ * (1 / 2 ^ 18) :=
      mul_le_mul hlen1 hφnear (abs_nonneg _) (by linarith)
    have hslope := mul_le_mul_of_nonneg_left hst hρ0
    linarith

-- A point that is nearer to the real axis.
theorem besideReal_near {z : SCComplex} {a : ℚ} (ha : toRat (F := binary32) z.real = some a)
    (hne : a ≠ 0) : ∃ α : ℝ, |α| ≤ 5 ∧ (∀ t, slopePoint |(a : ℝ)| α t = ⟨a, a * t⟩) ∧
      Near (F := binary32) (besideReal lib z (lib.gPhaseLUT k))
        (α + Real.arctan ((k - 1024) / 1024)) (1 / 2 ^ 18) := by
  have hphase := hlib.gPhaseLUT_near hk
  unfold besideReal
  by_cases hpos : 0 < a
  · rw [if_pos ((less_iff toRat_zero32 ha).mpr hpos)]
    refine ⟨0, by norm_num, fun t ↦ ?_, ?_⟩
    · rw [abs_of_pos (by exact_mod_cast hpos)]
      apply Complex.ext
      · rw [slopePoint_re, Real.cos_zero, Real.sin_zero, mul_zero, sub_zero, mul_one]
      · rw [slopePoint_im, Real.cos_zero, Real.sin_zero, zero_add, mul_one]
    · rw [zero_add]
      exact hphase.mono (by norm_num)
  · rw [if_neg fun h ↦ hpos ((less_iff toRat_zero32 ha).mp h)]
    have hpi := Real.pi_lt_d6
    have hneg : (a : ℝ) < 0 := by exact_mod_cast lt_of_le_of_ne (not_lt.mp hpos) hne
    refine ⟨Real.pi, by rw [abs_of_pos Real.pi_pos]; linarith, fun t ↦ ?_, ?_⟩
    · rw [abs_of_neg hneg]
      apply Complex.ext
      · rw [slopePoint_re, Real.cos_pi, Real.sin_pi]
        ring
      · rw [slopePoint_im, Real.cos_pi, Real.sin_pi]
        ring
    · have hturned := turned_near (hlib.acos_near.mono (by norm_num))
        (by rw [abs_of_pos Real.pi_pos]; linarith) (phaseDouble_near hphase).neg
        (by rw [abs_neg]; exact abs_arctan_le _)
      rwa [sub_neg_eq_add] at hturned

-- A point that is nearer to the imaginary axis.
theorem besideImag_near {z : SCComplex} {b : ℚ} (hb : toRat (F := binary32) z.imag = some b)
    (hne : b ≠ 0) : ∃ α : ℝ, |α| ≤ 5 ∧ (∀ t, slopePoint |(b : ℝ)| α (-t) = ⟨b * t, b⟩) ∧
      Near (F := binary32) (besideImag lib z (lib.gPhaseLUT k))
        (α + Real.arctan (-((k - 1024) / 1024))) (1 / 2 ^ 18) := by
  have hphase := phaseDouble_near (hlib.gPhaseLUT_near hk)
  have hquarter : ∀ {c : ℚ}, toRat (binary64.ofRat c) = some c → |(c : ℝ)| ≤ 3 / 2 →
      Near (F := binary64) (binary64.mul lib.pi (binary64.ofRat c)) (Real.pi * c) (1 / 2 ^ 40) ∧
        |Real.pi * c| ≤ 5 := by
    intro c hc hsize
    have hpi := Real.pi_lt_d6
    have hpos := abs_of_pos Real.pi_pos
    refine ⟨mul64 hlib.acos_near (near_of_toRat hc) (A := 4) (B := 3 / 2) (by rw [hpos]; linarith)
      (by linarith) (by norm_num) (by norm_num), ?_⟩
    rw [abs_mul, hpos]
    exact (mul_le_mul hpi.le hsize (abs_nonneg _) (by norm_num)).trans (by norm_num)
  rw [Real.arctan_neg]
  simp only [← sub_eq_add_neg]
  unfold besideImag
  by_cases hpos : 0 < b
  · obtain ⟨hnear, hsize⟩ := hquarter (c := 1 / 2) (by decide +kernel) (by norm_num)
    rw [if_pos ((less_iff toRat_zero32 hb).mpr hpos)]
    refine ⟨_, hsize, fun t ↦ ?_, turned_near hnear hsize hphase (abs_arctan_le _)⟩
    have hangle : Real.pi * ((1 / 2 : ℚ) : ℝ) = Real.pi / 2 := by
      push_cast
      ring
    rw [hangle, abs_of_pos (by exact_mod_cast hpos)]
    apply Complex.ext
    · rw [slopePoint_re, Real.cos_pi_div_two, Real.sin_pi_div_two]
      ring
    · rw [slopePoint_im, Real.cos_pi_div_two, Real.sin_pi_div_two]
      ring
  · obtain ⟨hnear, hsize⟩ := hquarter (c := 3 / 2) (by decide +kernel) (by norm_num)
    rw [if_neg fun h ↦ hpos ((less_iff toRat_zero32 hb).mp h)]
    refine ⟨_, hsize, fun t ↦ ?_, turned_near hnear hsize hphase (abs_arctan_le _)⟩
    have hneg : (b : ℝ) < 0 := by exact_mod_cast lt_of_le_of_ne (not_lt.mp hpos) hne
    have hangle : Real.pi * ((3 / 2 : ℚ) : ℝ) = Real.pi / 2 + Real.pi := by
      push_cast
      ring
    rw [hangle, abs_of_neg hneg]
    apply Complex.ext
    · rw [slopePoint_re, Real.cos_add_pi, Real.sin_add_pi, Real.cos_pi_div_two,
        Real.sin_pi_div_two]
      ring
    · rw [slopePoint_im, Real.cos_add_pi, Real.sin_add_pi, Real.cos_pi_div_two,
        Real.sin_pi_div_two]
      ring

end ToPolar

-- The index and the slope of the point itself.
theorem slope_close {k : ℕ} {q : ℚ} (h : |(k : ℚ) - (1024 + 1024 * q)| ≤ 1 + 1 / 2 ^ 11) :
    |((k : ℝ) - 1024) / 1024 - q| ≤ (1 + 1 / 2 ^ 11) / 1024 := by
  have hcast : |(k : ℝ) - (1024 + 1024 * q)| ≤ 1 + 1 / 2 ^ 11 := by
    have hle := (Rat.cast_le (K := ℝ)).mpr h
    push_cast at hle
    exact hle
  rw [show ((k : ℝ) - 1024) / 1024 - q = ((k : ℝ) - (1024 + 1024 * q)) / 1024 by ring, abs_div,
    abs_of_pos (by norm_num : (0 : ℝ) < 1024)]
  exact div_le_div_of_nonneg_right hcast (by norm_num)

/-- The polar form of a finite point is the point but for the spacing of the table. -/
theorem toPolarApx_near {lib : Libm} (hlib : lib.Accurate) {z : SCComplex} {a b : ℚ}
    (ha : toRat (F := binary32) z.real = some a) (hb : toRat (F := binary32) z.imag = some b)
    (hamax : |a| ≤ 2 ^ 126) (hbmax : |b| ≤ 2 ^ 126) :
    ∃ p m φ, z.toPolarApx lib = some p ∧ toRat (F := binary32) p.mag = some m ∧
      toRat (F := binary32) p.phase = some φ ∧ |m| ≤ 2 ^ 127 ∧ |φ| ≤ 8 ∧
      ‖polarPoint m φ - ⟨a, b⟩‖ ≤ ‖(⟨a, b⟩ : ℂ)‖ / 1000 + 1 / 2 ^ 150 := by
  have hless := less_iff (toRat_fabs hb) (toRat_fabs ha)
  have hre : |(a : ℝ)| ≤ ‖(⟨a, b⟩ : ℂ)‖ := Complex.abs_re_le_norm ⟨a, b⟩
  have him : |(b : ℝ)| ≤ ‖(⟨a, b⟩ : ℂ)‖ := Complex.abs_im_le_norm ⟨a, b⟩
  by_cases hlt : |b| < |a|
  · have hne := abs_pos.mp ((abs_nonneg b).trans_lt hlt)
    obtain ⟨k, hk, hindex, hclose⟩ := lutIndex_finite hb ha hlt.le hne
    obtain ⟨α, hα, hpoint, hphase⟩ := besideReal_near hlib hk ha hne
    obtain ⟨m, φ, hm, hφ, hmmax, hφmax, hnear⟩ := polarAt_near hlib hk (toRat_fabs ha)
      (abs_nonneg a) hamax rfl (slope_close hclose) hα hphase
    refine ⟨_, m, φ, toPolarApx_real (hless.mpr hlt) hk hindex, hm, hφ, hmmax, hφmax, ?_⟩
    have hnea : (a : ℝ) ≠ 0 := by exact_mod_cast hne
    rw [Rat.cast_abs, hpoint, Rat.cast_div, mul_div_cancel₀ _ hnea] at hnear
    linarith
  · by_cases hzero : b = 0
    · -- the origin
      have hazero : a = 0 := by
        rw [hzero, abs_zero, not_lt] at hlt
        exact abs_nonpos_iff.mp hlt
      refine ⟨_, 0, 0, toPolarApx_zero (fun h ↦ hlt (hless.mp h))
        (fun h ↦ (less_zero_fabs hb).mp h hzero), toRat_zero32, toRat_zero32, by norm_num,
        by norm_num, ?_⟩
      have horigin : polarPoint ((0 : ℚ) : ℝ) ((0 : ℚ) : ℝ) - ⟨a, b⟩ = 0 := by
        rw [hazero, hzero]
        apply Complex.ext <;> simp [polarPoint]
      rw [horigin, norm_zero]
      positivity
    · obtain ⟨k, hk, hindex, hclose⟩ := lutIndex_finite ha hb (not_lt.mp hlt) hzero
      obtain ⟨α, hα, hpoint, hphase⟩ := besideImag_near hlib hk hb hzero
      have hcross : |-(((k : ℝ) - 1024) / 1024) - -((a / b : ℚ) : ℝ)| ≤
          (1 + 1 / 2 ^ 11) / 1024 := by
        rw [← neg_sub_neg, neg_neg, neg_neg, abs_sub_comm]
        exact slope_close hclose
      obtain ⟨m, φ, hm, hφ, hmmax, hφmax, hnear⟩ := polarAt_near hlib hk (toRat_fabs hb)
        (abs_nonneg b) hbmax (neg_sq _) hcross hα hphase
      refine ⟨_, m, φ, toPolarApx_imag (fun h ↦ hlt (hless.mp h)) ((less_zero_fabs hb).mpr hzero)
        hk hindex, hm, hφ, hmmax, hφmax, ?_⟩
      have hneb : (b : ℝ) ≠ 0 := by exact_mod_cast hzero
      rw [Rat.cast_abs, hpoint, Rat.cast_div, mul_div_cancel₀ _ hneb] at hnear
      linarith

/-! ## 5. To complex -/

theorem and_kSineMask (v : BitVec 32) : (v &&& kSineMask).toNat = v.toNat % 8192 := by
  rw [BitVec.toNat_and, show kSineMask.toNat = 2 ^ 13 - 1 from rfl,
    Nat.and_two_pow_sub_one_eq_mod]

theorem ofInt_and_kSineMask (n : ℤ) :
    (BitVec.ofInt 32 n &&& kSineMask).toNat = (n % 8192).toNat := by
  rw [and_kSineMask, BitVec.toNat_ofInt]
  omega

-- A quarter of the table further on.
theorem cosindex_eq (n : ℤ) :
    ((BitVec.ofInt 32 n &&& kSineMask) + BitVec.ofNat 32 (kSineSize >>> 2)) &&& kSineMask =
      BitVec.ofInt 32 (n + 2048) &&& kSineMask := by
  apply BitVec.eq_of_toNat_eq
  rw [ofInt_and_kSineMask, and_kSineMask, BitVec.toNat_add, ofInt_and_kSineMask,
    show (BitVec.ofNat 32 (kSineSize >>> 2)).toNat = 2048 from rfl]
  omega

-- The sine table at a whole number of steps, taken around the circle.
theorem sin_mod (n : ℤ) : Real.sin (((n % 8192).toNat : ℕ) * (2 * Real.pi / 8192)) =
    Real.sin (n * (2 * Real.pi / 8192)) := by
  have hnat : (((n % 8192).toNat : ℕ) : ℤ) = n - 8192 * (n / 8192) := by omega
  have hreal : (((n % 8192).toNat : ℕ) : ℝ) = n - 8192 * (n / 8192 : ℤ) := by exact_mod_cast hnat
  rw [hreal, ← Real.sin_sub_int_mul_two_pi (n * (2 * Real.pi / 8192)) (n / 8192)]
  congr 1
  ring

theorem gSine_entry {lib : Libm} (hlib : lib.Accurate) (n : ℤ) :
    ∃ x, entry (kSineSize + 1) lib.gSine (BitVec.ofInt 32 n &&& kSineMask) = some x ∧
      Near (F := binary32) x (Real.sin (n * (2 * Real.pi / 8192))) (1 / 2 ^ 22) := by
  have hindex := ofInt_and_kSineMask n
  have hsmall : (n % 8192).toNat ≤ 8191 := by omega
  have hbits : BitVec.ofInt 32 n &&& kSineMask = BitVec.ofNat 32 (n % 8192).toNat := by
    rw [← hindex, BitVec.ofNat_toNat, BitVec.setWidth_eq]
  refine ⟨lib.gSine (n % 8192).toNat, ?_, ?_⟩
  · rw [hbits]
    exact entry_ofNat _ (by unfold kSineSize; omega) (by decide)
  · rw [← sin_mod]
    exact hlib.gSine_near (by omega)

-- A phase falls less than one step of the table from where it is read.
theorem turn_near {lib : Libm} (hlib : lib.Accurate) {phase : CFloat} {φ : ℚ}
    (hphase : toRat (F := binary32) phase = some φ) (hφ : |φ| ≤ 1024) :
    ∃ n : ℤ, int32Of (F := binary64) (binary64.mul lib.kSinePhaseScale
        (binary32.convert binary64 phase)) = some (BitVec.ofInt 32 n) ∧
      |n * (2 * Real.pi / 8192) - φ| ≤ 1 / 1303 := by
  have hpi0 := Real.pi_gt_d6
  have hpi1 := Real.pi_lt_d6
  have hφ1 : |(φ : ℝ)| ≤ 1024 := by exact_mod_cast hφ
  have hscale : |8192 / (2 * Real.pi)| ≤ 1304 := by
    rw [abs_of_pos (by positivity), div_le_iff₀ (by positivity)]
    linarith
  have hdouble : Near (F := binary64) (binary32.convert binary64 phase) (φ : ℝ) (1 / 2 ^ 42) :=
    toDouble (near_of_toRat hphase) (B := 1024) (by linarith) (by norm_num) (by norm_num)
  obtain ⟨p, hp, hnear⟩ := mul64 hlib.kSinePhaseScale_near hdouble (A := 1305) (B := 1025)
    (γ := 1 / 2 ^ 27) (by linarith) (by linarith) (by norm_num) (by norm_num)
  have hsize : |(p : ℝ)| ≤ 2 ^ 22 := by
    refine abs_le_of_near hnear ?_
    rw [abs_mul]
    have hprod := mul_le_mul hscale hφ1 (abs_nonneg _) (by norm_num)
    linarith
  have hsize' : |p| ≤ 2 ^ 22 := by exact_mod_cast hsize
  obtain ⟨n, hn⟩ : ∃ n, n = if 0 ≤ p then ⌊p⌋ else ⌈p⌉ := ⟨_, rfl⟩
  have hround : |(n : ℚ) - p| ≤ 1 := by
    rw [hn, abs_le]
    split
    · constructor <;> linarith [Int.floor_le p, Int.lt_floor_add_one p]
    · constructor <;> linarith [Int.le_ceil p, Int.ceil_lt_add_one p]
  have hrange : -2 ^ 31 ≤ n ∧ n < 2 ^ 31 := by
    rw [abs_le] at hround hsize'
    have hlow : ((-2 ^ 31 : ℤ) : ℚ) ≤ n := by
      push_cast
      linarith
    have hhigh : (n : ℚ) < (2 ^ 31 : ℤ) := by
      push_cast
      linarith
    exact ⟨by exact_mod_cast hlow, by exact_mod_cast hhigh⟩
  refine ⟨n, ?_, ?_⟩
  · unfold int32Of
    rw [hp, Option.bind_some, ← hn, Scnim.int32, if_pos hrange]
  · have hcast : |(n : ℝ) - p| ≤ 1 := by
      have hle := (Rat.cast_le (K := ℝ)).mpr hround
      push_cast at hle
      exact hle
    have hsteps : |(n : ℝ) - 8192 / (2 * Real.pi) * φ| ≤ 1 + 1 / 2 ^ 27 :=
      (abs_sub_le _ (p : ℝ) _).trans (add_le_add hcast hnear)
    have hangle : n * (2 * Real.pi / 8192) - φ =
        (n - 8192 / (2 * Real.pi) * φ) * (2 * Real.pi / 8192) := by
      field_simp
    rw [hangle, abs_mul, abs_of_pos (by positivity : 0 < 2 * Real.pi / 8192)]
    refine (mul_le_mul_of_nonneg_right hsteps (by positivity)).trans ?_
    linarith

theorem norm_sub_polarPoint_le {x y m ψ κ : ℝ} (hx : |x - m * Real.cos ψ| ≤ κ)
    (hy : |y - m * Real.sin ψ| ≤ κ) : ‖(⟨x, y⟩ : ℂ) - polarPoint m ψ‖ ≤ κ + κ := by
  refine (Complex.norm_le_abs_re_add_abs_im _).trans (add_le_add ?_ ?_)
  · rwa [Complex.sub_re, polarPoint_re]
  · rwa [Complex.sub_im, polarPoint_im]

/-- The complex form of a finite point is the point but for the spacing of the table. -/
theorem toComplexApx_near {lib : Libm} (hlib : lib.Accurate) {p : SCPolar} {m φ : ℚ}
    (hm : toRat (F := binary32) p.mag = some m) (hφ : toRat (F := binary32) p.phase = some φ)
    (hmmax : |m| ≤ 2 ^ 127) (hφmax : |φ| ≤ 1024) :
    ∃ z x y, p.toComplexApx lib = some z ∧ toRat (F := binary32) z.real = some x ∧
      toRat (F := binary32) z.imag = some y ∧
      ‖(⟨x, y⟩ : ℂ) - polarPoint m φ‖ ≤ |(m : ℝ)| / 1300 + 1 / 2 ^ 149 := by
  obtain ⟨n, hn, hturn⟩ := turn_near hlib hφ hφmax
  obtain ⟨sine, hsentry, hsine⟩ := gSine_entry hlib n
  obtain ⟨cosine, hcentry, hcosine⟩ := gSine_entry hlib (n + 2048)
  rw [show ((n + 2048 : ℤ) : ℝ) * (2 * Real.pi / 8192) =
    n * (2 * Real.pi / 8192) + Real.pi / 2 by push_cast; ring, Real.sin_add_pi_div_two] at hcosine
  generalize (n : ℝ) * (2 * Real.pi / 8192) = ψ at hturn hsine hcosine
  have hpart : ∀ {table : CFloat} {c : ℝ}, |c| ≤ 1 → Near (F := binary32) table c (1 / 2 ^ 22) →
      Near (F := binary32) (binary32.mul p.mag table) (m * c)
        (|(m : ℝ)| / 2 ^ 21 + 1 / 2 ^ 150) := by
    intro table c hc htable
    have hm1 : |(m : ℝ)| ≤ 2 ^ 127 := by exact_mod_cast hmmax
    have hm0 := abs_nonneg (m : ℝ)
    refine Near.mul (by decide) (near_of_toRat hm) htable (A := |(m : ℝ)|) (B := 1 + 1 / 2 ^ 22)
      (by rw [add_zero]) (by linarith) (lt_overflow32 (by linarith)) ?_
    rw [bottom32]
    show |(m : ℝ)| * (1 / 2 ^ 22) + (1 + 1 / 2 ^ 22) * 0 +
      (|(m : ℝ)| * (1 + 1 / 2 ^ 22) / 2 ^ 24 + 1 / 2 ^ 150) ≤ _
    linarith
  obtain ⟨x, hx, hxnear⟩ := hpart (Real.abs_cos_le_one ψ) hcosine
  obtain ⟨y, hy, hynear⟩ := hpart (Real.abs_sin_le_one ψ) hsine
  refine ⟨⟨binary32.mul p.mag cosine, binary32.mul p.mag sine⟩, x, y, ?_, hx, hy, ?_⟩
  · unfold SCPolar.toComplexApx
    simp only [hn, Option.bind_eq_bind, Option.bind_some]
    rw [cosindex_eq, hcentry, hsentry]
    rfl
  · have hmoved := norm_polarPoint_sub_le (m : ℝ) ψ m φ
    rw [sub_self, abs_zero, zero_add] at hmoved
    have hangle := mul_le_mul_of_nonneg_left hturn (abs_nonneg (m : ℝ))
    have hread := norm_sub_polarPoint_le hxnear hynear
    refine (norm_sub_le_norm_sub_add_norm_sub _ (polarPoint m ψ) _).trans ?_
    linarith [abs_nonneg (m : ℝ)]

/-! ## 6. There and back -/

/-- A finite point that is converted to its polar form and back moves by less than a 512th of its
distance from the origin. -/
theorem roundTrip_near {lib : Libm} (hlib : lib.Accurate) {z : SCComplex} {a b : ℚ}
    (ha : toRat (F := binary32) z.real = some a) (hb : toRat (F := binary32) z.imag = some b)
    (hamax : |a| ≤ 2 ^ 126) (hbmax : |b| ≤ 2 ^ 126) :
    ∃ p z' x y, z.toPolarApx lib = some p ∧ p.toComplexApx lib = some z' ∧
      toRat (F := binary32) z'.real = some x ∧ toRat (F := binary32) z'.imag = some y ∧
      ‖(⟨x, y⟩ : ℂ) - ⟨a, b⟩‖ ≤ (‖(⟨a, b⟩ : ℂ)‖ + 1 / 2 ^ 139) / 512 := by
  obtain ⟨p, m, φ, hp, hm, hφ, hmmax, hφmax, hpolar⟩ := toPolarApx_near hlib ha hb hamax hbmax
  obtain ⟨z', x, y, hz', hx, hy, hcomplex⟩ := toComplexApx_near hlib hm hφ hmmax
    (hφmax.trans (by norm_num))
  refine ⟨p, z', x, y, hp, hz', hx, hy, ?_⟩
  have hlength : |(m : ℝ)| ≤ ‖(⟨a, b⟩ : ℂ)‖ + ‖polarPoint m φ - ⟨a, b⟩‖ := by
    rw [← norm_polarPoint m φ, show polarPoint m φ = ⟨a, b⟩ + (polarPoint m φ - ⟨a, b⟩) by ring]
    refine (norm_add_le _ _).trans ?_
    rw [add_sub_cancel_left]
  refine (norm_sub_le_norm_sub_add_norm_sub _ (polarPoint m φ) _).trans ?_
  linarith [norm_nonneg (⟨a, b⟩ : ℂ)]

/-! ## 7. A library that is exact but for rounding -/

noncomputable def nearest (r : ℝ) : CDouble := binary64.ofRat (⌊r * 2 ^ 60⌋ / 2 ^ 60)

theorem nearest_near {r : ℝ} (hr : |r| ≤ 7 / 2) :
    Near (F := binary64) (nearest r) r (1 / 2 ^ 51) := by
  have hlow := Int.floor_le (r * 2 ^ 60)
  have hhigh := Int.lt_floor_add_one (r * 2 ^ 60)
  unfold nearest
  generalize ⌊r * 2 ^ 60⌋ = n at hlow hhigh ⊢
  have hexact : |((n / 2 ^ 60 : ℚ) : ℝ) - r| ≤ 1 / 2 ^ 60 := by
    rw [Rat.cast_div, Rat.cast_intCast, Rat.cast_pow, Rat.cast_ofNat, abs_le]
    constructor <;> linarith
  have hsize : |((n / 2 ^ 60 : ℚ) : ℝ)| ≤ 7 / 2 + 1 / 2 ^ 60 :=
    abs_le_of_near hexact (by linarith)
  refine near_rnd (toRat_ofRat_rnd binary64 (abs_lt_overflow hsize (lt_overflow64 (by norm_num)))
    (by decide)) hexact hsize ?_
  have hbottom := bottom64
  show 1 / 2 ^ 60 + ((7 / 2 + 1 / 2 ^ 60) / 2 ^ 53 + (2 : ℝ) ^ (binary64.minExp - 1)) ≤ 1 / 2 ^ 51
  linarith

noncomputable def Libm.rounded : Libm where
  acos x := nearest (Real.arccos ((toRat x).getD 0 : ℚ))
  sin x := nearest (Real.sin ((toRat x).getD 0 : ℚ))
  cos x := nearest (Real.cos ((toRat x).getD 0 : ℚ))
  atan x := nearest (Real.arctan ((toRat x).getD 0 : ℚ))

theorem Libm.rounded_accurate : Libm.rounded.Accurate := by
  constructor
  · have hminus : toRat (binary64.ofRat (-1)) = some (-1) := by decide +kernel
    show Near (nearest (Real.arccos ((toRat (binary64.ofRat (-1))).getD 0 : ℚ))) _ _
    rw [hminus, Option.getD_some, Rat.cast_neg, Rat.cast_one, Real.arccos_neg_one]
    apply nearest_near
    rw [abs_of_pos Real.pi_pos]
    linarith [Real.pi_lt_d6]
  · intro x q hx _
    show Near (nearest (Real.sin ((toRat x).getD 0 : ℚ))) _ _
    rw [hx]
    exact nearest_near ((Real.abs_sin_le_one q).trans (by norm_num))
  · intro x q hx _
    show Near (nearest (Real.cos ((toRat x).getD 0 : ℚ))) _ _
    rw [hx]
    exact nearest_near ((Real.abs_cos_le_one q).trans (by norm_num))
  · intro x q hx _
    show Near (nearest (Real.arctan ((toRat x).getD 0 : ℚ))) _ _
    rw [hx]
    exact nearest_near ((abs_arctan_le q).trans (by norm_num))

end Scnim.Dev
