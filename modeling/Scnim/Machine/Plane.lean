import Mathlib.Analysis.SpecialFunctions.Trigonometric.Arctan
import Mathlib.Analysis.SpecialFunctions.Trigonometric.Bounds

/-!
# Points of the plane by length and angle

How far a point moves when its length and its angle are only approximate.
-/

open Complex

namespace Machine

/-- The point at an angle, as far from the origin as `r` says. -/
noncomputable def polarPoint (r θ : ℝ) : ℂ := r * exp (θ * I)

theorem norm_polarPoint (r θ : ℝ) : ‖polarPoint r θ‖ = |r| := by
  unfold polarPoint
  rw [norm_mul, norm_exp_ofReal_mul_I, mul_one, norm_real, Real.norm_eq_abs]

theorem polarPoint_re (r θ : ℝ) : (polarPoint r θ).re = r * Real.cos θ := by
  unfold polarPoint
  rw [re_ofReal_mul, exp_ofReal_mul_I_re]

theorem polarPoint_im (r θ : ℝ) : (polarPoint r θ).im = r * Real.sin θ := by
  unfold polarPoint
  rw [im_ofReal_mul, exp_ofReal_mul_I_im]

theorem norm_exp_sub_exp_le (φ θ : ℝ) : ‖exp (φ * I) - exp (θ * I)‖ ≤ |φ - θ| := by
  have hturn : exp (φ * I) - exp (θ * I) = exp (θ * I) * (exp (I * ↑(φ - θ)) - 1) := by
    rw [mul_sub, mul_one, ← exp_add]
    push_cast
    ring_nf
  rw [hturn, norm_mul, norm_exp_ofReal_mul_I, one_mul, ← Real.norm_eq_abs]
  exact Real.norm_exp_I_mul_ofReal_sub_one_le

theorem norm_polarPoint_sub_le (m φ r θ : ℝ) :
    ‖polarPoint m φ - polarPoint r θ‖ ≤ |m - r| + |r| * |φ - θ| := by
  have hsplit : polarPoint m φ - polarPoint r θ =
      ((m - r : ℝ) : ℂ) * exp (φ * I) + r * (exp (φ * I) - exp (θ * I)) := by
    unfold polarPoint
    push_cast
    ring
  rw [hsplit]
  refine (norm_add_le _ _).trans (add_le_add ?_ ?_)
  · rw [norm_mul, norm_exp_ofReal_mul_I, mul_one, norm_real, Real.norm_eq_abs]
  · rw [norm_mul, norm_real, Real.norm_eq_abs]
    exact mul_le_mul_of_nonneg_left (norm_exp_sub_exp_le φ θ) (abs_nonneg r)

/-! ## 1. Slopes -/

-- The length of the vector with the given slope over a step of one.
theorem exp_arctan (s : ℝ) : (1 + s * I : ℂ) = polarPoint (√(1 + s ^ 2)) (Real.arctan s) := by
  have hpos : 0 < √(1 + s ^ 2) := Real.sqrt_pos.mpr (by positivity)
  apply Complex.ext
  · rw [polarPoint_re, Real.cos_arctan]
    field_simp
    simp
  · rw [polarPoint_im, Real.sin_arctan]
    field_simp
    simp

/-- A step of `ρ` in the direction `α` and one of `ρ * s` across it. -/
noncomputable def slopePoint (ρ α s : ℝ) : ℂ := polarPoint ρ α * (1 + s * I)

theorem slopePoint_eq (ρ α s : ℝ) :
    slopePoint ρ α s = polarPoint (ρ * √(1 + s ^ 2)) (α + Real.arctan s) := by
  unfold slopePoint
  rw [exp_arctan]
  unfold polarPoint
  push_cast
  rw [add_mul, exp_add]
  ring

theorem slopePoint_re (ρ α s : ℝ) :
    (slopePoint ρ α s).re = ρ * (Real.cos α - s * Real.sin α) := by
  unfold slopePoint
  rw [mul_re, polarPoint_re, polarPoint_im]
  simp
  ring

theorem slopePoint_im (ρ α s : ℝ) :
    (slopePoint ρ α s).im = ρ * (Real.sin α + s * Real.cos α) := by
  unfold slopePoint
  rw [mul_im, polarPoint_re, polarPoint_im]
  simp
  ring

theorem norm_slopePoint_sub (ρ α s t : ℝ) :
    ‖slopePoint ρ α s - slopePoint ρ α t‖ = |ρ| * |s - t| := by
  have hsplit : slopePoint ρ α s - slopePoint ρ α t = polarPoint ρ α * (((s - t : ℝ) : ℂ) * I) := by
    unfold slopePoint
    push_cast
    ring
  rw [hsplit, norm_mul, norm_mul, norm_polarPoint, norm_real, norm_I, mul_one, Real.norm_eq_abs]

/-- The length of `s`, near its angle, for a point whose slope is near `s`. -/
theorem norm_polarPoint_sub_slopePoint_le (ρ α s t m φ : ℝ) :
    ‖polarPoint m φ - slopePoint ρ α t‖ ≤ |m - ρ * √(1 + s ^ 2)| +
      |ρ * √(1 + s ^ 2)| * |φ - (α + Real.arctan s)| + |ρ| * |s - t| := by
  refine (norm_sub_le_norm_sub_add_norm_sub _ (slopePoint ρ α s) _).trans (add_le_add ?_ ?_)
  · rw [slopePoint_eq]
    exact norm_polarPoint_sub_le _ _ _ _
  · rw [norm_slopePoint_sub]

end Machine
