import Scnim.Lookup

/-!
# Signals of a unit

The wrappers of `dev/SC_PlugIn.hpp` for inputs of the audio rate and of the control rate.
-/

open Machine
open Machine.FloatFormat

namespace Scnim.Dev

/-! ## 1. Audio rate -/

structure AudioSignal where
  pointer : Addr

namespace AudioSignal

-- `return *pointer++`
def consume (m : Memory 64) (s : AudioSignal) : CFloat × AudioSignal :=
  (tableAt m s.pointer 0, ⟨elementAt s.pointer 4 1⟩)

-- What call `k` of `consume` returns.
def sample (m : Memory 64) (s : AudioSignal) (k : ℕ) : CFloat :=
  (consume m ((fun s ↦ (consume m s).2)^[k] s)).1

/-- The calls return the samples of the block one after the other. -/
theorem sample_eq (m : Memory 64) (s : AudioSignal) (k : ℕ) :
    s.sample m k = tableAt m s.pointer k := by
  have hstate : (fun s ↦ (consume m s).2)^[k] s = ⟨elementAt s.pointer 4 k⟩ := by
    induction k with
    | zero => rw [Function.iterate_zero_apply, elementAt_zero]
    | succ k ih =>
        rw [Function.iterate_succ_apply', ih]
        show AudioSignal.mk (elementAt _ 4 1) = _
        unfold elementAt
        rw [BitVec.add_assoc, ← BitVec.ofNat_add, ← Nat.add_mul]
  unfold sample
  rw [hstate]
  unfold consume tableAt
  rw [elementAt_zero]

end AudioSignal

/-! ## 2. Control rate -/

structure SlopeSignal where
  value : CFloat
  slope : CFloat

namespace SlopeSignal

def consume (s : SlopeSignal) : CFloat × SlopeSignal :=
  (s.value, { s with value := binary32.add s.value s.slope })

-- What call `k` of `consume` returns.
def sample (s : SlopeSignal) (k : ℕ) : CFloat := (consume ((fun s ↦ s.consume.2)^[k] s)).1

theorem sample_eq (s : SlopeSignal) (k : ℕ) :
    s.sample k = (fun z ↦ binary32.add z s.slope)^[k] s.value := by
  have hstate : (fun s : SlopeSignal ↦ s.consume.2)^[k] s =
      ⟨(fun z ↦ binary32.add z s.slope)^[k] s.value, s.slope⟩ := by
    induction k with
    | zero => rfl
    | succ k ih =>
        rw [Function.iterate_succ_apply', Function.iterate_succ_apply', ih]
        rfl
  unfold sample
  rw [hstate]
  rfl

end SlopeSignal

-- `CALCSLOPE(next, prev)`; the factor of the unit's rate becomes a float first.
def calcSlope (mSlopeFactor : CDouble) (next prev : CFloat) : CFloat :=
  binary32.mul (binary32.sub next prev) (binary64.convert binary32 mSlopeFactor)

def makeSlope (mSlopeFactor : CDouble) (next last : CFloat) : SlopeSignal :=
  { value := last, slope := calcSlope mSlopeFactor next last }

/-! ## 3. How straight the slope is -/

section Slope

variable {N : ℕ} {mSlopeFactor : CDouble} {next last : CFloat} {q r M : ℚ}

-- `mSlopeFactor` is `1. / NumSamples`, here as a float.
theorem slopeFactor_near (hN : 0 < N) (hmax : N ≤ 2 ^ 20)
    (hrate : toRat mSlopeFactor = some (binary64.rnd (1 / N))) :
    Near (F := binary32) (binary64.convert binary32 mSlopeFactor) (1 / N : ℚ)
      (1 / N / 2 ^ 23) := by
  have hN1 : (1 : ℚ) ≤ N := by exact_mod_cast hN
  have hN2 : (N : ℚ) ≤ 2 ^ 20 := by exact_mod_cast hmax
  have hlow : 1 / 2 ^ 20 ≤ (1 : ℚ) / N := one_div_le_one_div_of_le (by positivity) hN2
  have hhigh : (1 : ℚ) / N ≤ 1 := (div_le_one (by positivity)).mpr hN1
  obtain ⟨w, hw⟩ : ∃ w : ℚ, w = 1 / N := ⟨_, rfl⟩
  rw [← hw] at hrate hlow hhigh ⊢
  have hw0 : 0 < w := lt_of_lt_of_le (by norm_num) hlow
  have hbottom : ∀ {F : FloatFormat} {p : ℚ}, F.minExp + F.mant ≤ -21 → 1 / 2 ^ 21 ≤ |p| →
      2 ^ (F.minExp + F.mant) ≤ |p| := by
    intro F p hF hp
    refine (zpow_le_zpow_right₀ (by norm_num) hF).trans ?_
    norm_num at hp ⊢
    exact hp
  have hdouble : |binary64.rnd w - w| ≤ w / 2 ^ 53 := by
    have hrel := abs_rnd_sub_le_of_normal (F := binary64) (q := w)
      (hbottom (by decide) (by rw [abs_of_pos hw0]; linarith))
    rwa [abs_of_pos hw0] at hrel
  rw [abs_le] at hdouble
  have hfloat : |binary32.rnd (binary64.rnd w) - binary64.rnd w| ≤ binary64.rnd w / 2 ^ 24 := by
    have hpos : 0 < binary64.rnd w := by linarith
    have hrel := abs_rnd_sub_le_of_normal (F := binary32) (q := binary64.rnd w)
      (hbottom (by decide) (by rw [abs_of_pos hpos]; linarith))
    rwa [abs_of_pos hpos] at hrel
  rw [abs_le] at hfloat
  have hbelow : |binary64.rnd w| < binary32.overflow := by
    refine lt_of_le_of_lt ?_ (show (2 : ℚ) < binary32.overflow by decide +kernel)
    rw [abs_le]
    constructor <;> linarith
  refine ⟨_, toRat_convert_rnd (G := binary32) (by decide) hrate hbelow, ?_⟩
  rw [Rat.cast_id, abs_le]
  constructor <;> linarith

-- Numbers of a size that the signals of a server have.
theorem moderate_of_mem (hlow : 1 / 2 ^ 126 ≤ M) (hhigh : M ≤ 2 ^ 123) : binary32.Moderate M := by
  constructor
  · show (2 : ℚ) ^ (-150 : ℤ) ≤ M / 2 ^ 24
    rw [le_div_iff₀ (by positivity)]
    refine le_trans ?_ hlow
    norm_num
  · refine lt_of_le_of_lt (b := 2 ^ 127) ?_ (by decide +kernel)
    linarith

theorem calcSlope_near (hN : 0 < N) (hmax : N ≤ 2 ^ 20)
    (hrate : toRat mSlopeFactor = some (binary64.rnd (1 / N)))
    (hlast : toRat last = some q) (hnext : toRat next = some r) (hM : binary32.Moderate M)
    (hMN : binary32.Moderate (M / N)) (hq : |q| ≤ M) (hr : |r| ≤ M) :
    Near (F := binary32) (calcSlope mSlopeFactor next last) ((r - q) * (1 / N))
      (11 * (M / N / 2 ^ 24)) := by
  have hfactor := slopeFactor_near hN hmax hrate
  have hdiff := hM.sub (by decide) (near_exact (F := binary32) hnext M)
    (near_exact (F := binary32) hlast M) (c := 2) ((abs_sub r q).trans (by linarith)) (e := 2)
    (by norm_num) (by norm_num) (f := 2) (by norm_num)
  have hM0 := hM.nonneg
  have hw0 : (0 : ℚ) ≤ 1 / N := by positivity
  have hbottom : (2 : ℚ) ^ (binary32.minExp - 1) ≤ M / N / 2 ^ 24 := hMN.1
  have htop : 81 / 32 * (M / N) < binary32.overflow := hMN.lt_overflow (by norm_num)
  rw [div_eq_mul_one_div M (N : ℚ)] at hbottom htop ⊢
  refine Near.mul (by decide) hdiff hfactor (A := 9 / 4 * M) (B := 9 / 8 * (1 / N)) ?_ ?_ ?_ ?_
  · show |r - q| + 2 * (M / 2 ^ 24) ≤ 9 / 4 * M
    have htwo : |r - q| ≤ 2 * M := (abs_sub r q).trans (by linarith)
    linarith
  · rw [abs_of_nonneg hw0]
    linarith
  · rw [Rat.cast_id]
    linarith
  · show 9 / 4 * M * (1 / N / 2 ^ 23) + 9 / 8 * (1 / N) * (2 * (M / 2 ^ 24)) +
      (9 / 4 * M * (9 / 8 * (1 / N)) / 2 ^ 24 + _) ≤ _
    linarith [mul_nonneg hM0 hw0]

-- A point between the ends of the line.
theorem abs_line_le {j : ℕ} (hN : 0 < N) (hj : j ≤ N) (hq : |q| ≤ M) (hr : |r| ≤ M) :
    |q + (r - q) * (j / N)| ≤ M := by
  have hN0 : (0 : ℚ) < N := by exact_mod_cast hN
  have hshare0 : (0 : ℚ) ≤ j / N := by positivity
  have hshare1 : (j : ℚ) / N ≤ 1 := (div_le_one hN0).mpr (by exact_mod_cast hj)
  generalize (j : ℚ) / N = t at hshare0 hshare1 ⊢
  calc |q + (r - q) * t| = |(1 - t) * q + t * r| := by ring_nf
    _ ≤ (1 - t) * |q| + t * |r| := by
        refine (abs_add_le _ _).trans ?_
        rw [abs_mul, abs_mul, abs_of_nonneg hshare0, abs_of_nonneg (by linarith : 0 ≤ 1 - t)]
    _ ≤ (1 - t) * M + t * M :=
        add_le_add (mul_le_mul_of_nonneg_left hq (by linarith))
          (mul_le_mul_of_nonneg_left hr hshare0)
    _ = M := by ring

/-- Over a block of `N` samples the signal that `makeSlope` makes follows the line from the last
value to the next one, and leaves it by no more than three units a sample. -/
theorem makeSlope_near (hN : 0 < N) (hmax : N ≤ 2 ^ 20)
    (hrate : toRat mSlopeFactor = some (binary64.rnd (1 / N)))
    (hlast : toRat last = some q) (hnext : toRat next = some r) (hlow : 1 / 2 ^ 106 ≤ M)
    (hhigh : M ≤ 2 ^ 120) (hq : |q| ≤ M) (hr : |r| ≤ M) {k : ℕ} (hk : k ≤ N) :
    ∃ p, toRat ((makeSlope mSlopeFactor next last).sample k) = some p ∧
      |p - (q + (r - q) * (k / N))| ≤ (3 * k + 11) * (M / 2 ^ 24) := by
  have hN0 : (0 : ℚ) < N := by exact_mod_cast hN
  have hN1 : (1 : ℚ) ≤ N := by exact_mod_cast hN
  have hN2 : (N : ℚ) ≤ 2 ^ 20 := by exact_mod_cast hmax
  have hM0 : 0 ≤ M := le_trans (by positivity) hlow
  have hMN : binary32.Moderate (M / N) := by
    refine moderate_of_mem ?_ ((div_le_self hM0 hN1).trans (hhigh.trans (by norm_num)))
    rw [le_div_iff₀ hN0]
    linarith
  obtain ⟨s, hs, hnear⟩ := calcSlope_near hN hmax hrate hlast hnext
    (moderate_of_mem (by linarith) (by linarith)) hMN hq hr
  -- what the error of the slope has grown to
  have hgrown : ∀ j ≤ N, |(q + j * s) - (q + (r - q) * (j / N))| ≤ 11 * (M / 2 ^ 24) := by
    intro j hj
    have hj1 : (j : ℚ) ≤ N := by exact_mod_cast hj
    rw [show (q + j * s) - (q + (r - q) * (j / N)) = j * (s - (r - q) * (1 / N)) by ring, abs_mul,
      abs_of_nonneg (Nat.cast_nonneg j)]
    calc (j : ℚ) * |s - (r - q) * (1 / N)| ≤ N * (11 * (M / N / 2 ^ 24)) :=
          mul_le_mul hj1 hnear (abs_nonneg _) hN0.le
      _ = 11 * (M / 2 ^ 24) := by
          field_simp
  have hsize : ∀ j ≤ k, |q + j * s| ≤ 9 / 8 * M := by
    intro j hj
    have hline := abs_line_le (j := j) hN (hj.trans hk) hq hr
    have hdrift := hgrown j (hj.trans hk)
    rw [show q + j * s = (q + (r - q) * (j / N)) + ((q + j * s) - (q + (r - q) * (j / N))) by ring]
    refine (abs_add_le _ _).trans ?_
    linarith
  have hk1 : (k : ℚ) ≤ N := by exact_mod_cast hk
  have hlarger : binary32.Moderate (9 / 8 * M) := moderate_of_mem (by linarith) (by linarith)
  rw [SlopeSignal.sample_eq]
  obtain ⟨p, hp, hdrift⟩ := hlarger.iterate_add (by decide) hlast hs (n := k)
    (show 2 * (k : ℚ) ≤ 2 ^ 24 by linarith) hsize
  have hround : |p - (q + k * s)| ≤ 2 * k * (9 / 8 * M / 2 ^ 24) := hdrift
  refine ⟨p, hp, ?_⟩
  calc |p - (q + (r - q) * (k / N))|
      ≤ |p - (q + k * s)| + |(q + k * s) - (q + (r - q) * (k / N))| := abs_sub_le _ _ _
    _ ≤ 2 * k * (9 / 8 * M / 2 ^ 24) + 11 * (M / 2 ^ 24) := add_le_add hround (hgrown k hk)
    _ ≤ (3 * k + 11) * (M / 2 ^ 24) := by
        linarith [mul_nonneg (Nat.cast_nonneg (α := ℚ) k) hM0]

-- halfway through a block of 64 samples
theorem makeSlope_near_half :
    ∃ p, toRat ((makeSlope 0x3F90000000000000 0x3F800000 0).sample 32) = some p ∧
      |p - (0 + (1 - 0) * ((32 : ℕ) / (64 : ℕ)))| ≤ (3 * (32 : ℕ) + 11) * (1 / 2 ^ 24) :=
  makeSlope_near (by decide) (by decide) (by decide +kernel) (by decide +kernel)
    (by decide +kernel) (by norm_num) (by norm_num) (by norm_num) (by norm_num) (by decide)

end Slope

end Scnim.Dev
