import Scnim.Machine.FloatRound

/-!
# Approximate results

How far the operations of a format take a number from the one that exact arithmetic gives.
-/

namespace Machine

namespace FloatFormat

variable {F : FloatFormat}

section Near

variable {K : Type*} [Field K] [LinearOrder K] {x y : BitVec F.width} {p : ℚ}
  {q r ε δ γ b e A B : K}

/-- The bits stand for a number that is at most `ε` away from `q`, which may be irrational. -/
def Near (x : BitVec F.width) (q ε : K) : Prop := ∃ p : ℚ, toRat x = some p ∧ |(p : K) - q| ≤ ε

theorem Near.mono (h : Near x q ε) (hle : ε ≤ δ) : Near x q δ := by
  obtain ⟨p, hp, hnear⟩ := h
  exact ⟨p, hp, hnear.trans hle⟩

theorem Near.neg (h : Near x q ε) : Near (F.neg x) (-q) ε := by
  obtain ⟨p, hp, hnear⟩ := h
  refine ⟨-p, by rw [toRat_neg, hp, Option.map_some], ?_⟩
  rwa [Rat.cast_neg, show -(p : K) - -q = -(p - q) by ring, abs_neg]

variable [IsStrictOrderedRing K]

theorem near_of_toRat (hx : toRat x = some p) : Near x (p : K) 0 :=
  ⟨p, hx, by rw [sub_self, abs_zero]⟩

-- Near another number as well.
theorem Near.move (h : Near x q ε) (hqr : |q - r| ≤ δ) (hγ : ε + δ ≤ γ) : Near x r γ := by
  obtain ⟨p, hp, hnear⟩ := h
  exact ⟨p, hp, (abs_sub_le _ q _).trans ((add_le_add hnear hqr).trans hγ)⟩

/-! ## 1. Operations -/

theorem abs_le_of_near (hp : |(p : K) - q| ≤ ε) (hB : |q| + ε ≤ B) : |(p : K)| ≤ B := by
  rw [show (p : K) = q + (p - q) by ring]
  exact (abs_add_le _ _).trans ((add_le_add_right hp _).trans hB)

theorem abs_lt_overflow (hp : |(p : K)| ≤ B) (hmax : B < (F.overflow : ℚ)) : |p| < F.overflow := by
  exact_mod_cast hp.trans_lt hmax

-- A result rounded once.
theorem near_rnd (hx : toRat x = some (F.rnd p)) (hp : |(p : K) - q| ≤ ε) (hB : |(p : K)| ≤ B)
    (hγ : ε + (B / 2 ^ (F.mant + 1) + 2 ^ (F.minExp - 1)) ≤ γ) : Near x q γ := by
  have hround : |((F.rnd p : ℚ) : K) - p| ≤ max (|(p : K)| / 2 ^ (F.mant + 1))
      (2 ^ (F.minExp - 1)) := by
    have hle := (Rat.cast_le (K := K)).mpr (abs_rnd_sub_le (F := F) p)
    push_cast at hle
    exact hle
  have hsum : max (|(p : K)| / 2 ^ (F.mant + 1)) (2 ^ (F.minExp - 1)) ≤
      B / 2 ^ (F.mant + 1) + 2 ^ (F.minExp - 1) := by
    have hrel : |(p : K)| / 2 ^ (F.mant + 1) ≤ B / 2 ^ (F.mant + 1) :=
      div_le_div_of_nonneg_right hB (by positivity)
    have hbottom : (0 : K) < 2 ^ (F.minExp - 1) := zpow_pos two_pos _
    have hpos : (0 : K) ≤ |(p : K)| / 2 ^ (F.mant + 1) := by positivity
    apply max_le <;> linarith
  refine ⟨_, hx, ?_⟩
  calc |((F.rnd p : ℚ) : K) - q| ≤ |((F.rnd p : ℚ) : K) - p| + |(p : K) - q| := abs_sub_le _ _ _
    _ ≤ γ := by linarith

/-- `B` bounds the difference and its error. -/
theorem Near.sub (hF : 2 ≤ F.exp) (hx : Near x q ε) (hy : Near y r δ)
    (hB : |q - r| + (ε + δ) ≤ B) (hmax : B < (F.overflow : ℚ))
    (hγ : ε + δ + B / 2 ^ (F.mant + 1) ≤ γ) : Near (F.sub x y) (q - r) γ := by
  obtain ⟨p, hp, hpq⟩ := hx
  obtain ⟨s, hs, hsr⟩ := hy
  have hexact : |((p - s : ℚ) : K) - (q - r)| ≤ ε + δ := by
    rw [Rat.cast_sub, show (p - s : K) - (q - r) = (p - q) - (s - r) by ring]
    exact (abs_sub _ _).trans (add_le_add hpq hsr)
  have hsize := abs_le_of_near hexact hB
  -- nothing is lost at the bottom
  have hround : |((F.rnd (p - s) : ℚ) : K) - (p - s : ℚ)| ≤
      |((p - s : ℚ) : K)| / 2 ^ (F.mant + 1) := by
    have hle := (Rat.cast_le (K := K)).mpr (abs_rnd_sub_le_of_units hF
      ((fits_of_toRat hF hp).units_sub (fits_of_toRat hF hs)))
    push_cast at hle ⊢
    exact hle
  have hrel : |((p - s : ℚ) : K)| / 2 ^ (F.mant + 1) ≤ B / 2 ^ (F.mant + 1) :=
    div_le_div_of_nonneg_right hsize (by positivity)
  refine ⟨_, toRat_sub_rnd hF hp hs (abs_lt_overflow hsize hmax), ?_⟩
  calc |((F.rnd (p - s) : ℚ) : K) - (q - r)|
      ≤ |((F.rnd (p - s) : ℚ) : K) - (p - s : ℚ)| + |((p - s : ℚ) : K) - (q - r)| :=
        abs_sub_le _ _ _
    _ ≤ γ := by linarith

/-- `A` and `B` bound the factors and their errors. -/
theorem Near.mul (hF : 2 ≤ F.exp) (hx : Near x q ε) (hy : Near y r δ) (hA : |q| + ε ≤ A)
    (hB : |r| + δ ≤ B) (hmax : A * B < (F.overflow : ℚ))
    (hγ : A * δ + B * ε + (A * B / 2 ^ (F.mant + 1) + 2 ^ (F.minExp - 1)) ≤ γ) :
    Near (F.mul x y) (q * r) γ := by
  obtain ⟨p, hp, hpq⟩ := hx
  obtain ⟨s, hs, hsr⟩ := hy
  have hδ : 0 ≤ δ := (abs_nonneg _).trans hsr
  have hpA := abs_le_of_near hpq hA
  have hsB := abs_le_of_near hsr hB
  have hrB : |r| ≤ B := le_trans (by linarith) hB
  have hexact : |((p * s : ℚ) : K) - q * r| ≤ A * δ + B * ε := by
    rw [Rat.cast_mul, show (p * s : K) - q * r = p * (s - r) + r * (p - q) by ring]
    refine (abs_add_le _ _).trans ?_
    rw [abs_mul, abs_mul]
    exact add_le_add (mul_le_mul hpA hsr (abs_nonneg _) ((abs_nonneg _).trans hpA))
      (mul_le_mul hrB hpq (abs_nonneg _) ((abs_nonneg _).trans hrB))
  have hsize : |((p * s : ℚ) : K)| ≤ A * B := by
    rw [Rat.cast_mul, abs_mul]
    exact mul_le_mul hpA hsB (abs_nonneg _) ((abs_nonneg _).trans hpA)
  exact near_rnd (toRat_mul_rnd hF hp hs (abs_lt_overflow hsize hmax)) hexact hsize hγ

/-- `b` bounds the divisor from below, `A` the quotient, and `e` the error before it is rounded. -/
theorem Near.div (hF : 2 ≤ F.exp) (hx : Near x q ε) (hy : Near y r δ) (hb : 0 < b)
    (hr : b + δ ≤ |r|) (hA : |q| ≤ A * |r|) (he : ε + A * δ ≤ e * b)
    (hmax : A + e < (F.overflow : ℚ))
    (hγ : e + ((A + e) / 2 ^ (F.mant + 1) + 2 ^ (F.minExp - 1)) ≤ γ) :
    Near (F.div x y) (q / r) γ := by
  obtain ⟨p, hp, hpq⟩ := hx
  obtain ⟨s, hs, hsr⟩ := hy
  have hδ : 0 ≤ δ := (abs_nonneg _).trans hsr
  have hr0 : 0 < |r| := by linarith
  have hs0 : b ≤ |(s : K)| := by
    have hdiff := abs_sub_abs_le_abs_sub r (s : K)
    rw [abs_sub_comm] at hdiff
    linarith
  have hsne : (s : K) ≠ 0 := abs_pos.mp (hb.trans_le hs0)
  have hquot : |q / r| ≤ A := by
    rw [abs_div, div_le_iff₀ hr0]
    exact hA
  have hexact : |((p / s : ℚ) : K) - q / r| ≤ e := by
    have hA0 : 0 ≤ A := (abs_nonneg _).trans hquot
    rw [Rat.cast_div, show (p / s : K) - q / r = ((p - q) + q / r * (r - s)) / s by
      field_simp [abs_pos.mp hr0]; ring, abs_div, div_le_iff₀ (hb.trans_le hs0)]
    have he0 : 0 ≤ e := by
      by_contra! hneg
      have hlow : 0 ≤ ε + A * δ := add_nonneg ((abs_nonneg _).trans hpq) (mul_nonneg hA0 hδ)
      linarith [mul_neg_of_neg_of_pos hneg hb]
    calc |(p : K) - q + q / r * (r - s)| ≤ |(p : K) - q| + |q / r| * |r - s| := by
          rw [← abs_mul]
          exact abs_add_le _ _
      _ ≤ ε + A * δ := by
          rw [abs_sub_comm r]
          exact add_le_add hpq (mul_le_mul hquot hsr (abs_nonneg _) hA0)
      _ ≤ e * |(s : K)| := he.trans (mul_le_mul_of_nonneg_left hs0 he0)
  have hsize := abs_le_of_near hexact (add_le_add_left hquot e)
  exact near_rnd (toRat_div_rnd hF hp hs (by exact_mod_cast hsne) (abs_lt_overflow hsize hmax))
    hexact hsize hγ

theorem Near.convert {G : FloatFormat} (hG : 2 ≤ G.exp) (hx : Near x q ε) (hB : |q| + ε ≤ B)
    (hmax : B < (G.overflow : ℚ)) (hγ : ε + (B / 2 ^ (G.mant + 1) + 2 ^ (G.minExp - 1)) ≤ γ) :
    Near (F.convert G x) q γ := by
  obtain ⟨p, hp, hpq⟩ := hx
  have hsize := abs_le_of_near hpq hB
  exact near_rnd (toRat_convert_rnd hG hp (abs_lt_overflow hsize hmax)) hpq hsize hγ

end Near

/-! ## 2. A share of a difference -/

-- A share that is below one by more than two roundings add does not exceed the whole.
theorem rnd_mul_rnd_le (hF : 2 ≤ F.exp) {f d : ℚ} (hf0 : 0 ≤ f)
    (hf1 : (f + 1 / 2 ^ (F.mant + 1)) * (1 + 1 / 2 ^ (F.mant + 1)) ≤ 1) (hd0 : 0 ≤ d)
    (hd : ∃ z : ℤ, d = z * 2 ^ F.minExp) : F.rnd (f * F.rnd d) ≤ d := by
  have hunit : (0 : ℚ) < 1 / 2 ^ (F.mant + 1) := by positivity
  have hfone : f ≤ 1 := by
    have hexpand : (f + 1 / 2 ^ (F.mant + 1)) * 1 ≤
        (f + 1 / 2 ^ (F.mant + 1)) * (1 + 1 / 2 ^ (F.mant + 1)) :=
      mul_le_mul_of_nonneg_left (by linarith) (by linarith)
    linarith
  obtain ⟨z, rfl⟩ := hd
  rcases fits_or_le hF z with hfits | hsize
  · -- the difference is exact
    rw [rnd_of_fits hfits]
    exact rnd_le hfits (mul_le_of_le_one_left hd0 hfone)
  · obtain ⟨d, hd⟩ : ∃ d : ℚ, d = z * 2 ^ F.minExp := ⟨_, rfl⟩
    have hround := abs_le.mp (abs_rnd_sub_le_of_units (F := F) hF ⟨z, hd⟩)
    rw [← hd] at hd0 hsize ⊢
    rw [abs_of_nonneg hd0] at hsize
    rw [abs_of_nonneg hd0] at hround
    have hrnd0 : 0 ≤ F.rnd d := rnd_nonneg hd0
    have hrnd1 : F.rnd d ≤ d * (1 + 1 / 2 ^ (F.mant + 1)) := by
      rw [mul_add, mul_one, mul_one_div]
      linarith [hround.2]
    have hshare0 : 0 ≤ f * F.rnd d := mul_nonneg hf0 hrnd0
    have hshare1 : f * F.rnd d ≤ F.rnd d := mul_le_of_le_one_left hrnd0 hfone
    have herror : |F.rnd (f * F.rnd d) - f * F.rnd d| ≤
        d * (1 + 1 / 2 ^ (F.mant + 1)) * (1 / 2 ^ (F.mant + 1)) := by
      refine (abs_rnd_sub_le _).trans (max_le ?_ ?_)
      · rw [abs_of_nonneg hshare0, div_eq_mul_one_div]
        exact mul_le_mul_of_nonneg_right (hshare1.trans hrnd1) hunit.le
      · rw [zpow_sub₀ two_ne_zero, zpow_one, mul_one_div, le_div_iff₀ (by positivity)]
        have hhalf : (2 : ℚ) ^ F.minExp / 2 * 2 ^ (F.mant + 1) ≤ d := by linarith
        exact hhalf.trans (le_mul_of_one_le_right hd0 (by linarith))
    calc F.rnd (f * F.rnd d)
        ≤ f * F.rnd d + d * (1 + 1 / 2 ^ (F.mant + 1)) * (1 / 2 ^ (F.mant + 1)) := by
          linarith [(abs_le.mp herror).2]
      _ ≤ f * (d * (1 + 1 / 2 ^ (F.mant + 1))) +
            d * (1 + 1 / 2 ^ (F.mant + 1)) * (1 / 2 ^ (F.mant + 1)) :=
          add_le_add_left (mul_le_mul_of_nonneg_left hrnd1 hf0) _
      _ = d * ((f + 1 / 2 ^ (F.mant + 1)) * (1 + 1 / 2 ^ (F.mant + 1))) := by ring
      _ ≤ d := mul_le_of_le_one_right hd0 hf1

theorem rnd_mul_rnd_between (hF : 2 ≤ F.exp) {f d : ℚ} (hf0 : 0 ≤ f)
    (hf1 : (f + 1 / 2 ^ (F.mant + 1)) * (1 + 1 / 2 ^ (F.mant + 1)) ≤ 1)
    (hd : ∃ z : ℤ, d = z * 2 ^ F.minExp) :
    min 0 d ≤ F.rnd (f * F.rnd d) ∧ F.rnd (f * F.rnd d) ≤ max 0 d := by
  rcases le_total 0 d with hpos | hneg
  · rw [min_eq_left hpos, max_eq_right hpos]
    exact ⟨rnd_nonneg (mul_nonneg hf0 (rnd_nonneg hpos)), rnd_mul_rnd_le hF hf0 hf1 hpos hd⟩
  · rw [min_eq_right hneg, max_eq_left hneg]
    obtain ⟨z, hz⟩ := hd
    have hle := rnd_mul_rnd_le hF hf0 hf1 (neg_nonneg.mpr hneg)
      ⟨-z, by rw [hz]; push_cast; ring⟩
    rw [rnd_neg, mul_neg, rnd_neg] at hle
    exact ⟨neg_le_neg_iff.mp hle,
      rnd_nonpos (mul_nonpos_of_nonneg_of_nonpos hf0 (rnd_nonpos hneg))⟩

/-! ## 3. Errors in units -/

variable (F)

/-- Large enough for its units to count at the bottom of the format, and far from its top. -/
def Moderate (M : ℚ) : Prop := 2 ^ (F.minExp - 1) ≤ M / 2 ^ (F.mant + 1) ∧ 16 * M < F.overflow

variable {F}

section Moderate

variable {M : ℚ} {x y : BitVec F.width} {q r k a b c e f : ℚ}

theorem Moderate.nonneg (h : F.Moderate M) : 0 ≤ M := by
  have hpos := (zpow_pos two_pos (F.minExp - 1)).le.trans h.1
  rwa [le_div_iff₀ (by positivity), zero_mul] at hpos

theorem Moderate.lt_overflow (h : F.Moderate M) (hc : c ≤ 16) : c * M < F.overflow :=
  (mul_le_mul_of_nonneg_right hc h.nonneg).trans_lt h.2

theorem near_exact (hx : toRat x = some q) (M : ℚ) : Near x q (0 * (M / 2 ^ (F.mant + 1))) := by
  rw [zero_mul]
  exact near_of_toRat hx

/-- Sizes are in units of `M`, errors in units of `M` shifted below the significand. -/
theorem Moderate.sub (h : F.Moderate M) (hF : 2 ≤ F.exp)
    (hx : Near x q (a * (M / 2 ^ (F.mant + 1)))) (hy : Near y r (b * (M / 2 ^ (F.mant + 1))))
    (hc : |q - r| ≤ c * M) (hce : c + (a + b) / 2 ^ (F.mant + 1) ≤ e) (he : e ≤ 16)
    (hf : a + b + e ≤ f) : Near (F.sub x y) (q - r) (f * (M / 2 ^ (F.mant + 1))) := by
  have hsize := mul_le_mul_of_nonneg_right hce h.nonneg
  have hsum := mul_le_mul_of_nonneg_right hf
    (div_nonneg h.nonneg (by positivity : (0 : ℚ) ≤ 2 ^ (F.mant + 1)))
  refine Near.sub hF hx hy (B := e * M) ?_ (h.lt_overflow he) ?_
  · rw [add_mul, div_mul_eq_mul_div, mul_div_assoc] at hsize
    linarith
  · rw [mul_div_assoc]
    linarith

theorem Moderate.add (h : F.Moderate M) (hF : 2 ≤ F.exp)
    (hx : Near x q (a * (M / 2 ^ (F.mant + 1)))) (hy : Near y r (b * (M / 2 ^ (F.mant + 1))))
    (hc : |q + r| ≤ c * M) (hce : c + (a + b) / 2 ^ (F.mant + 1) ≤ e) (he : e ≤ 16)
    (hf : a + b + e ≤ f) : Near (F.add x y) (q + r) (f * (M / 2 ^ (F.mant + 1))) := by
  have hsub := h.sub hF hx hy.neg (by rwa [sub_neg_eq_add]) hce he hf
  rwa [sub_neg_eq_add] at hsub

-- An exact factor of at most `k`.
theorem Moderate.mul (h : F.Moderate M) (hF : 2 ≤ F.exp) (hx : toRat x = some q) (hk : |q| ≤ k)
    (hy : Near y r (b * (M / 2 ^ (F.mant + 1)))) (hc : |r| ≤ c * M)
    (hce : c + b / 2 ^ (F.mant + 1) ≤ e) (he : k * e ≤ 16) (hf : k * b + k * e + 1 ≤ f) :
    Near (F.mul x y) (q * r) (f * (M / 2 ^ (F.mant + 1))) := by
  have hbottom := h.1
  have hsize := mul_le_mul_of_nonneg_right hce h.nonneg
  have hsum := mul_le_mul_of_nonneg_right hf
    (div_nonneg h.nonneg (by positivity : (0 : ℚ) ≤ 2 ^ (F.mant + 1)))
  refine Near.mul hF (near_of_toRat hx) hy (A := k) (B := e * M) ?_ ?_ ?_ ?_
  · rwa [add_zero]
  · rw [add_mul, div_mul_eq_mul_div, mul_div_assoc] at hsize
    linarith
  · rw [← mul_assoc]
    exact h.lt_overflow he
  · rw [mul_zero, ← mul_assoc k e M, mul_div_assoc, ← mul_assoc k b]
    linarith

-- The factor of at most one stands on the right.
theorem Moderate.mulRight (h : F.Moderate M) (hF : 2 ≤ F.exp)
    (hx : Near x q (b * (M / 2 ^ (F.mant + 1)))) (hc : |q| ≤ c * M) (hy : toRat y = some r)
    (hr : |r| ≤ 1) (hce : c + b / 2 ^ (F.mant + 1) ≤ e) (he : e ≤ 16) (hf : b + e + 1 ≤ f) :
    Near (F.mul x y) (q * r) (f * (M / 2 ^ (F.mant + 1))) := by
  have hbottom := h.1
  have hsize := mul_le_mul_of_nonneg_right hce h.nonneg
  have hsum := mul_le_mul_of_nonneg_right hf
    (div_nonneg h.nonneg (by positivity : (0 : ℚ) ≤ 2 ^ (F.mant + 1)))
  refine Near.mul hF hx (near_of_toRat hy) (A := e * M) (B := 1) ?_ ?_ ?_ ?_
  · rw [add_mul, div_mul_eq_mul_div, mul_div_assoc] at hsize
    linarith
  · rwa [add_zero]
  · rw [mul_one]
    exact h.lt_overflow he
  · rw [mul_zero, mul_one, mul_div_assoc]
    linarith

/-- The same number added again and again: the error grows by two units a time. -/
theorem Moderate.iterate_add (h : F.Moderate M) (hF : 2 ≤ F.exp) (hx : toRat x = some q)
    (hy : toRat y = some r) {n : ℕ} (hn : 2 * (n : ℚ) ≤ 2 ^ (F.mant + 1))
    (hsize : ∀ k ≤ n, |q + k * r| ≤ M) : Near ((fun z ↦ F.add z y)^[n] x) (q + n * r)
      (2 * n * (M / 2 ^ (F.mant + 1))) := by
  induction n with
  | zero =>
      have hstart := near_exact hx M
      simpa using hstart
  | succ n ih =>
      push_cast at hn
      have hlast := hsize (n + 1) le_rfl
      push_cast at hlast
      have hnear := ih (by linarith) fun k hk ↦ hsize k (by omega)
      have hsmall : (2 * n + 0) / 2 ^ (F.mant + 1) ≤ (1 : ℚ) := by
        rw [div_le_one (by positivity)]
        linarith
      rw [Function.iterate_succ_apply']
      push_cast
      rw [show q + ((n : ℚ) + 1) * r = q + n * r + r by ring] at hlast ⊢
      exact h.add hF hnear (near_exact hy M) (c := 1) (by rwa [one_mul]) (e := 2) (by linarith)
        (by norm_num) (by linarith)

end Moderate

end FloatFormat

end Machine
