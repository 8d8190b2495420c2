import Scnim.Machine.Float

/-!
# Rounded arithmetic

What the rounding of an interchange format does to a number that does not fit it, and the
operations that round.
-/

namespace Machine

namespace FloatFormat

abbrev binary64 : FloatFormat := ⟨11, 52⟩

/-! ## 1. The nearest natural number -/

theorem abs_sub_roundEven_le {r : ℚ} (hr : 0 ≤ r) : |r - roundEven r| ≤ 1 / 2 := by
  have hfloor := Nat.floor_le hr
  have hnext := Nat.lt_floor_add_one r
  rw [abs_le]
  unfold roundEven
  dsimp only
  split
  · constructor <;> linarith
  · split
    · push_cast
      constructor <;> linarith
    · have hhalf : r - ⌊r⌋₊ = 1 / 2 := by linarith
      rcases Nat.mod_two_eq_zero_or_one ⌊r⌋₊ with heven | hodd
      · rw [heven]
        push_cast
        constructor <;> linarith
      · rw [hodd]
        push_cast
        constructor <;> linarith

theorem roundEven_le {r : ℚ} {n : ℕ} (hr : 0 ≤ r) (h : r < n + 1 / 2) : roundEven r ≤ n := by
  have hnear := abs_le.mp (abs_sub_roundEven_le hr)
  by_contra hlt
  have hsucc : ((n + 1 : ℕ) : ℚ) ≤ roundEven r := by exact_mod_cast not_le.mp hlt
  push_cast at hsucc
  linarith

theorem le_roundEven {n : ℕ} {r : ℚ} (h : (n : ℚ) ≤ r) : n ≤ roundEven r := by
  have hnear := abs_le.mp (abs_sub_roundEven_le ((Nat.cast_nonneg n).trans h))
  by_contra hlt
  have hsucc : ((roundEven r + 1 : ℕ) : ℚ) ≤ n := by exact_mod_cast not_le.mp hlt
  push_cast at hsucc
  linarith

theorem abs_roundEven_sub_le {r : ℚ} (hr : 0 ≤ r) (m : ℕ) : |roundEven r - r| ≤ |m - r| := by
  have hnear := abs_sub_roundEven_le hr
  rcases eq_or_ne m (roundEven r) with rfl | hne
  · exact le_rfl
  · have hdist : (1 : ℚ) ≤ |(m : ℚ) - roundEven r| := by
      have hint : (1 : ℤ) ≤ |(m : ℤ) - roundEven r| := Int.one_le_abs (by omega)
      exact_mod_cast hint
    have htri := abs_sub_le (m : ℚ) r (roundEven r)
    rw [abs_sub_comm (roundEven r : ℚ) r]
    linarith

/-! ## 2. Rounding a number -/

variable (F : FloatFormat)

/-- The numbers of the format. -/
def Fits (q : ℚ) : Prop :=
  ∃ (n : ℕ) (k : ℤ), |q| = n * 2 ^ k ∧ n < 2 ^ (F.mant + 1) ∧ F.minExp ≤ k ∧
    k + 3 ≤ F.minExp + 2 ^ F.exp

-- The least number that is rounded to infinity.
def overflow : ℚ := ((2 ^ (F.mant + 1) - 1 : ℕ) + 1 / 2) * 2 ^ (F.minExp + 2 ^ F.exp - 3)

-- The exponent of the lowest bit of the numbers next to `q`.
def ulpExp (q : ℚ) : ℤ := max (Int.log 2 |q| - F.mant) F.minExp

/-- The number nearest to `q`, with no bound on the exponent. -/
def rnd (q : ℚ) : ℚ :=
  if q < 0 then -(roundEven (-q / 2 ^ F.ulpExp q) * 2 ^ F.ulpExp q)
  else roundEven (q / 2 ^ F.ulpExp q) * 2 ^ F.ulpExp q

theorem ulpExp_neg (q : ℚ) : F.ulpExp (-q) = F.ulpExp q := by
  unfold ulpExp
  rw [abs_neg]

theorem rnd_zero : F.rnd 0 = 0 := by
  unfold rnd
  rw [if_neg (lt_irrefl 0), zero_div, show roundEven 0 = 0 from roundEven_natCast 0,
    Nat.cast_zero, zero_mul]

theorem rnd_neg (q : ℚ) : F.rnd (-q) = -F.rnd q := by
  rcases lt_trichotomy q 0 with hneg | rfl | hpos
  · unfold rnd
    rw [ulpExp_neg, if_neg (by linarith), if_pos hneg, neg_neg]
  · rw [neg_zero, rnd_zero, neg_zero]
  · unfold rnd
    rw [ulpExp_neg, if_pos (neg_neg_of_pos hpos), if_neg hpos.not_gt, neg_neg]

theorem rnd_of_pos {q : ℚ} (hq : 0 < q) :
    F.rnd q = roundEven (q / 2 ^ F.ulpExp q) * 2 ^ F.ulpExp q := if_neg hq.not_gt

theorem div_ulp_lt {q : ℚ} (hq : 0 < q) : q / 2 ^ F.ulpExp q < (2 ^ (F.mant + 1) : ℕ) := by
  have hhigh : q < (2 : ℚ) ^ (Int.log 2 q + 1) :=
    Int.lt_zpow_succ_log_self (by decide : 1 < 2) q
  push_cast
  rw [div_lt_iff₀ (zpow_pos two_pos _), ← zpow_natCast, ← zpow_add₀ two_ne_zero]
  refine hhigh.trans_le (zpow_le_zpow_right₀ (by norm_num) ?_)
  unfold ulpExp
  rw [abs_of_pos hq]
  push_cast
  omega

theorem le_div_ulp {q : ℚ} (hq : 0 < q) (h : F.minExp < F.ulpExp q) :
    ((2 ^ F.mant : ℕ) : ℚ) ≤ q / 2 ^ F.ulpExp q := by
  have hlow : (2 : ℚ) ^ Int.log 2 q ≤ q := Int.zpow_log_le_self (by decide : 1 < 2) hq
  push_cast
  rw [le_div_iff₀ (zpow_pos two_pos _), ← zpow_natCast, ← zpow_add₀ two_ne_zero]
  refine (zpow_le_zpow_right₀ (by norm_num) ?_).trans hlow
  unfold ulpExp at h ⊢
  rw [abs_of_pos hq] at h ⊢
  omega

theorem minExp_le_ulpExp (q : ℚ) : F.minExp ≤ F.ulpExp q := le_max_right _ _

theorem ulpExp_le {q : ℚ} (hq : 0 < q) (hmax : q < F.overflow) (hF : 2 ≤ F.exp) :
    F.ulpExp q + 3 ≤ F.minExp + 2 ^ F.exp := by
  have hfour : (2 : ℤ) ^ 2 ≤ 2 ^ F.exp := pow_le_pow_right₀ (by norm_num) hF
  have hlog : Int.log 2 q < F.mant + 1 + (F.minExp + 2 ^ F.exp - 3) := by
    apply (Int.lt_zpow_iff_log_lt (by decide : 1 < 2) hq).mp
    refine hmax.trans_le ?_
    have hsig : ((2 ^ (F.mant + 1) - 1 : ℕ) : ℚ) + 1 = 2 ^ (F.mant + 1) := by
      exact_mod_cast Nat.sub_add_cancel (Nat.two_pow_pos (F.mant + 1))
    have hpow : ((2 : ℕ) : ℚ) ^ ((F.mant : ℤ) + 1) = 2 ^ (F.mant + 1) := by
      exact_mod_cast zpow_natCast (2 : ℚ) (F.mant + 1)
    unfold overflow
    rw [zpow_add₀ (by norm_num : ((2 : ℕ) : ℚ) ≠ 0), hpow, ← hsig]
    apply mul_le_mul_of_nonneg_right _ (zpow_pos two_pos _).le
    linarith
  unfold ulpExp
  rw [abs_of_pos hq]
  omega

-- The bits of a number and of its opposite.
theorem toRat_ofRat_of_bits {q : ℚ} (hq : 0 < q) {j n : ℕ}
    (hround : F.roundBits q = j * 2 ^ F.mant + n) (hn : n < 2 ^ (F.mant + 1))
    (hfull : j = 0 ∨ 2 ^ F.mant ≤ n) (hj : j + 3 ≤ 2 ^ F.exp) :
    toRat (F.ofRat q) = some ((n : ℚ) * 2 ^ (F.minExp + j)) ∧
    toRat (F.ofRat (-q)) = some (-((n : ℚ) * 2 ^ (F.minExp + j))) := by
  have hlow := F.bits_lt hn hj
  have hwidth : 2 ^ F.width = 2 ^ (F.exp + F.mant) + 2 ^ (F.exp + F.mant) := by
    rw [show F.width = F.exp + F.mant + 1 by unfold width; omega, pow_succ]
    omega
  constructor
  · have hbits : (F.ofRat q).toNat = 0 * 2 ^ (F.exp + F.mant) + (j * 2 ^ F.mant + n) := by
      unfold ofRat
      rw [if_neg hq.ne', if_neg hq.not_gt, hround, BitVec.toNat_ofNat,
        Nat.mod_eq_of_lt (by omega), Nat.zero_mul, Nat.zero_add]
    rw [F.toRat_of_toNat hbits (Nat.zero_le 1) hn hfull hj, if_neg (by decide)]
  · have hbits : (F.ofRat (-q)).toNat = 1 * 2 ^ (F.exp + F.mant) + (j * 2 ^ F.mant + n) := by
      unfold ofRat
      rw [if_neg (neg_ne_zero.mpr hq.ne'), if_pos (neg_neg_of_pos hq), neg_neg, hround,
        BitVec.toNat_ofNat, Nat.mod_eq_of_lt (by omega), Nat.one_mul]
    rw [F.toRat_of_toNat hbits le_rfl hn hfull hj, if_pos rfl]

theorem roundBits_rnd {q : ℚ} (hq : 0 < q) (hmax : q < F.overflow) (hF : 2 ≤ F.exp) :
    ∃ j n : ℕ, F.roundBits q = j * 2 ^ F.mant + n ∧ F.rnd q = n * 2 ^ (F.minExp + j) ∧
      n < 2 ^ (F.mant + 1) ∧ (j = 0 ∨ 2 ^ F.mant ≤ n) ∧ j + 3 ≤ 2 ^ F.exp := by
  obtain ⟨j, hj⟩ : ∃ j : ℕ, F.ulpExp q = F.minExp + j :=
    ⟨(F.ulpExp q - F.minExp).toNat, by have := F.minExp_le_ulpExp q; omega⟩
  have hquot : 0 ≤ q / 2 ^ F.ulpExp q := div_nonneg hq.le (zpow_pos two_pos _).le
  have hle : roundEven (q / 2 ^ F.ulpExp q) ≤ 2 ^ (F.mant + 1) :=
    roundEven_le hquot ((F.div_ulp_lt hq).trans (lt_add_of_pos_right _ (by norm_num)))
  have hjmax : j + 3 ≤ 2 ^ F.exp := by
    have hcast : ((j + 3 : ℕ) : ℤ) ≤ ((2 ^ F.exp : ℕ) : ℤ) := by
      have := F.ulpExp_le hq hmax hF
      push_cast
      omega
    exact_mod_cast hcast
  have htop : ∀ {j n : ℕ}, n < 2 ^ (F.mant + 1) → j + 3 ≤ 2 ^ F.exp →
      j * 2 ^ F.mant + n ≤ (2 ^ F.exp - 1) * 2 ^ F.mant := by
    intro j n hn hj
    rw [pow_succ] at hn
    calc j * 2 ^ F.mant + n ≤ j * 2 ^ F.mant + 2 ^ F.mant * 2 := by omega
      _ = (j + 2) * 2 ^ F.mant := by ring
      _ ≤ (2 ^ F.exp - 1) * 2 ^ F.mant := Nat.mul_le_mul_right _ (by omega)
  have hbits : F.roundBits q = min (j * 2 ^ F.mant + roundEven (q / 2 ^ F.ulpExp q))
      ((2 ^ F.exp - 1) * 2 ^ F.mant) := by
    have hulp : max (Int.log 2 q - F.mant) F.minExp = F.ulpExp q := by
      unfold ulpExp
      rw [abs_of_pos hq]
    unfold roundBits
    dsimp only
    rw [hulp, show (F.ulpExp q - F.minExp).toNat = j by omega]
  have hrnd := F.rnd_of_pos hq
  rcases Nat.lt_or_eq_of_le hle with hlt | hcarry
  · refine ⟨j, _, ?_, by rw [hrnd, hj], hlt, ?_, hjmax⟩
    · rw [hbits, min_eq_left (htop hlt hjmax)]
    · rcases Nat.eq_zero_or_pos j with hj0 | hjpos
      · exact .inl hj0
      · exact .inr (le_roundEven (F.le_div_ulp hq (by omega)))
  · -- rounded up to the next power of two
    have hhalf : 2 ^ F.mant < 2 ^ (F.mant + 1) := Nat.pow_lt_pow_right (by decide) (by omega)
    have hjnext : j + 1 + 3 ≤ 2 ^ F.exp := by
      by_contra hlast
      have hlastExp : F.ulpExp q = F.minExp + 2 ^ F.exp - 3 := by
        have hcast : ((j + 3 : ℕ) : ℤ) = ((2 ^ F.exp : ℕ) : ℤ) := by
          exact_mod_cast (show j + 3 = 2 ^ F.exp by omega)
        push_cast at hcast
        omega
      have hbelow : roundEven (q / 2 ^ F.ulpExp q) ≤ 2 ^ (F.mant + 1) - 1 := by
        apply roundEven_le hquot
        rw [div_lt_iff₀ (zpow_pos two_pos _), hlastExp]
        exact hmax
      have := Nat.two_pow_pos (F.mant + 1)
      omega
    have hsum : j * 2 ^ F.mant + 2 ^ (F.mant + 1) = (j + 1) * 2 ^ F.mant + 2 ^ F.mant := by
      rw [pow_succ]
      ring
    refine ⟨j + 1, 2 ^ F.mant, ?_, ?_, hhalf, .inr le_rfl, hjnext⟩
    · rw [hbits, hcarry, hsum, min_eq_left (htop hhalf hjnext)]
    · rw [hrnd, hcarry, hj]
      push_cast
      rw [zpow_add₀ two_ne_zero, zpow_add₀ two_ne_zero, zpow_add₀ two_ne_zero, zpow_one]
      ring

/-- The bits of a number that is not too large stand for the number rounded. -/
theorem toRat_ofRat_rnd {q : ℚ} (hmax : |q| < F.overflow) (hF : 2 ≤ F.exp) :
    toRat (F.ofRat q) = some (F.rnd q) := by
  rcases lt_trichotomy q 0 with hneg | rfl | hpos
  · rw [abs_of_neg hneg] at hmax
    obtain ⟨j, n, hround, hrnd, hn, hfull, hj⟩ := F.roundBits_rnd (neg_pos.mpr hneg) hmax hF
    have hbits := (F.toRat_ofRat_of_bits (neg_pos.mpr hneg) hround hn hfull hj).2
    rw [neg_neg] at hbits
    rw [hbits, ← hrnd, rnd_neg, neg_neg]
  · have hfour : 2 ^ 2 ≤ 2 ^ F.exp := Nat.pow_le_pow_right (by decide) hF
    have hbits : (F.ofRat 0).toNat = 0 * 2 ^ (F.exp + F.mant) + (0 * 2 ^ F.mant + 0) := by
      simp [ofRat]
    rw [F.toRat_of_toNat hbits (Nat.zero_le 1) (Nat.two_pow_pos _) (.inl rfl) (by omega),
      if_neg (by omega), Nat.cast_zero, zero_mul, rnd_zero]
  · rw [abs_of_pos hpos] at hmax
    obtain ⟨j, n, hround, hrnd, hn, hfull, hj⟩ := F.roundBits_rnd hpos hmax hF
    rw [(F.toRat_ofRat_of_bits hpos hround hn hfull hj).1, hrnd]

/-! ## 3. Where a rounded number lies -/

variable {F}

theorem Fits.neg {q : ℚ} (h : F.Fits q) : F.Fits (-q) := by
  obtain ⟨n, k, hq, hrest⟩ := h
  exact ⟨n, k, by rw [abs_neg, hq], hrest⟩

theorem Fits.abs {q : ℚ} (h : F.Fits q) : F.Fits |q| := by
  obtain ⟨n, k, hq, hrest⟩ := h
  exact ⟨n, k, by rw [abs_abs, hq], hrest⟩

-- The largest number of the format is half a unit below the overflow.
theorem Fits.abs_add_lt {q ε : ℚ} (h : F.Fits q)
    (hε : ε < 1 / 2 * 2 ^ (F.minExp + 2 ^ F.exp - 3)) : |q| + ε < F.overflow := by
  obtain ⟨n, k, hq, hn, hk, hkmax⟩ := h
  have hsig : (n : ℚ) ≤ (2 ^ (F.mant + 1) - 1 : ℕ) := by exact_mod_cast Nat.le_sub_one_of_lt hn
  have hexp : (2 : ℚ) ^ k ≤ 2 ^ (F.minExp + 2 ^ F.exp - 3) :=
    zpow_le_zpow_right₀ (by norm_num) (by omega)
  have hle := mul_le_mul hsig hexp (zpow_pos two_pos _).le (Nat.cast_nonneg _)
  unfold overflow
  rw [add_mul, hq]
  exact add_lt_add_of_le_of_lt hle hε

theorem Fits.abs_lt {q : ℚ} (h : F.Fits q) : |q| < F.overflow := by
  have hpos : (0 : ℚ) < 1 / 2 * 2 ^ (F.minExp + 2 ^ F.exp - 3) :=
    mul_pos (by norm_num) (zpow_pos two_pos _)
  have hlt := h.abs_add_lt hpos
  rwa [add_zero] at hlt

theorem fits_intCast_mul (F : FloatFormat) (z : ℤ) (k : ℤ) (hz : z.natAbs < 2 ^ (F.mant + 1))
    (hk : F.minExp ≤ k) (hkmax : k + 3 ≤ F.minExp + 2 ^ F.exp) : F.Fits (z * 2 ^ k) := by
  refine ⟨z.natAbs, k, ?_, hz, hk, hkmax⟩
  have hpos : (0 : ℚ) < 2 ^ k := zpow_pos two_pos k
  rw [abs_mul, abs_of_pos hpos, ← Int.cast_abs, Int.abs_eq_natAbs]
  rfl

theorem fits_of_toRat (hF : 2 ≤ F.exp) {x : BitVec F.width} {q : ℚ} (h : toRat x = some q) :
    F.Fits q := by
  have hfour : (2 : ℤ) ^ 2 ≤ 2 ^ F.exp := pow_le_pow_right₀ (by norm_num) hF
  have hfrac : fraction x < 2 ^ F.mant := Nat.mod_lt _ (Nat.two_pow_pos _)
  unfold toRat at h
  split at h
  · cases h
  · next hfinite =>
      rw [Option.some.injEq] at h
      have habs : |q| = magnitude x := by
        rw [← h]
        split
        · rw [abs_neg, abs_of_nonneg (magnitude_nonneg x)]
        · exact abs_of_nonneg (magnitude_nonneg x)
      have hbelow : exponent x < 2 ^ F.exp := Nat.mod_lt _ (Nat.two_pow_pos _)
      rw [magnitude] at habs
      split at habs
      · exact ⟨_, _, habs, by rw [pow_succ]; omega, le_rfl, by omega⟩
      · refine ⟨_, _, habs, by rw [pow_succ]; omega, by omega, ?_⟩
        have hcast : ((exponent x + 2 : ℕ) : ℤ) ≤ ((2 ^ F.exp : ℕ) : ℤ) := by
          exact_mod_cast (show exponent x + 2 ≤ 2 ^ F.exp by omega)
        push_cast at hcast
        omega

-- Counted in the units of `q`, a number of the format is whole or below the first full significand.
theorem Fits.whole_or_lt {q b : ℚ} (hb : F.Fits b) (hbpos : 0 ≤ b) :
    (∃ m : ℕ, b = m * 2 ^ F.ulpExp q) ∨
      (F.minExp < F.ulpExp q ∧ b < (2 ^ F.mant : ℕ) * 2 ^ F.ulpExp q) := by
  obtain ⟨n, k, habs, hn, hk, -⟩ := hb
  rw [abs_of_nonneg hbpos] at habs
  rcases le_or_gt (F.ulpExp q) k with hle | hlt
  · obtain ⟨d, hd⟩ : ∃ d : ℕ, k = F.ulpExp q + d := ⟨(k - F.ulpExp q).toNat, by omega⟩
    refine .inl ⟨n * 2 ^ d, ?_⟩
    rw [habs, hd, zpow_add₀ two_ne_zero, zpow_natCast]
    push_cast
    ring
  · refine .inr ⟨hk.trans_lt hlt, ?_⟩
    calc b < 2 ^ (F.mant + 1) * 2 ^ k := by
          rw [habs]
          apply mul_lt_mul_of_pos_right _ (zpow_pos two_pos k)
          exact_mod_cast hn
      _ ≤ (2 ^ F.mant : ℕ) * 2 ^ F.ulpExp q := by
          push_cast
          rw [← zpow_natCast, ← zpow_natCast, ← zpow_add₀ two_ne_zero, ← zpow_add₀ two_ne_zero]
          exact zpow_le_zpow_right₀ (by norm_num) (by push_cast; omega)

theorem rnd_le_of_pos {q b : ℚ} (hb : F.Fits b) (hq : 0 < q) (h : q ≤ b) : F.rnd q ≤ b := by
  have hpos : (0 : ℚ) < 2 ^ F.ulpExp q := zpow_pos two_pos _
  rw [F.rnd_of_pos hq]
  rcases hb.whole_or_lt (q := q) (hq.le.trans h) with ⟨m, rfl⟩ | ⟨hnormal, hlt⟩
  · apply mul_le_mul_of_nonneg_right _ hpos.le
    exact_mod_cast roundEven_le (div_nonneg hq.le hpos.le)
      (((div_le_iff₀ hpos).mpr h).trans_lt (lt_add_of_pos_right _ (by norm_num)))
  · have hlarge := (le_div_iff₀ hpos).mp (F.le_div_ulp hq hnormal)
    exact absurd (h.trans_lt hlt) (not_lt.mpr hlarge)

theorem le_rnd_of_pos {q b : ℚ} (hb : F.Fits b) (hbpos : 0 < b) (h : b ≤ q) : b ≤ F.rnd q := by
  have hq := hbpos.trans_le h
  have hpos : (0 : ℚ) < 2 ^ F.ulpExp q := zpow_pos two_pos _
  rw [F.rnd_of_pos hq]
  rcases hb.whole_or_lt (q := q) hbpos.le with ⟨m, rfl⟩ | ⟨hnormal, hlt⟩
  · apply mul_le_mul_of_nonneg_right _ hpos.le
    exact_mod_cast le_roundEven ((le_div_iff₀ hpos).mpr h)
  · have hround : ((2 ^ F.mant : ℕ) : ℚ) ≤ roundEven (q / 2 ^ F.ulpExp q) := by
      exact_mod_cast le_roundEven (F.le_div_ulp hq hnormal)
    exact hlt.le.trans (mul_le_mul_of_nonneg_right hround hpos.le)

-- No multiple of the unit of `q` is nearer.
theorem abs_rnd_sub_le_of_whole {q : ℚ} (hq : 0 < q) (m : ℕ) :
    |F.rnd q - q| ≤ |m * 2 ^ F.ulpExp q - q| := by
  have hpos : (0 : ℚ) < 2 ^ F.ulpExp q := zpow_pos two_pos _
  have hunits : ∀ n : ℕ, |(n : ℚ) * 2 ^ F.ulpExp q - q| =
      |(n : ℚ) - q / 2 ^ F.ulpExp q| * 2 ^ F.ulpExp q := by
    intro n
    rw [← abs_of_pos hpos, ← abs_mul, abs_of_pos hpos, sub_mul, div_mul_cancel₀ _ hpos.ne']
  rw [F.rnd_of_pos hq, hunits, hunits]
  exact mul_le_mul_of_nonneg_right (abs_roundEven_sub_le (div_nonneg hq.le hpos.le) m) hpos.le

theorem abs_rnd_sub_le_of_pos {q b : ℚ} (hb : F.Fits b) (hq : 0 < q) :
    |F.rnd q - q| ≤ |b - q| := by
  rcases lt_or_ge b 0 with hneg | hnonneg
  · have hzero := abs_rnd_sub_le_of_whole (F := F) hq 0
    rw [Nat.cast_zero, zero_mul, zero_sub, abs_neg, abs_of_pos hq] at hzero
    rw [abs_of_neg (show b - q < 0 by linarith)]
    linarith
  · rcases hb.whole_or_lt (q := q) hnonneg with ⟨m, rfl⟩ | ⟨hnormal, hlt⟩
    · exact abs_rnd_sub_le_of_whole hq m
    · -- the first full significand lies between `b` and `q`
      have hfull := abs_rnd_sub_le_of_whole (F := F) hq (2 ^ F.mant)
      have hlarge := (le_div_iff₀ (zpow_pos two_pos _)).mp (F.le_div_ulp hq hnormal)
      rw [abs_of_nonpos (sub_nonpos.mpr hlarge)] at hfull
      rw [abs_of_neg (show b - q < 0 by linarith)]
      linarith

theorem rnd_nonneg {q : ℚ} (hq : 0 ≤ q) : 0 ≤ F.rnd q := by
  unfold rnd
  rw [if_neg hq.not_gt]
  exact mul_nonneg (Nat.cast_nonneg _) (zpow_pos two_pos _).le

theorem rnd_nonpos {q : ℚ} (hq : q ≤ 0) : F.rnd q ≤ 0 := by
  have hneg : 0 ≤ F.rnd (-q) := rnd_nonneg (neg_nonneg.mpr hq)
  rwa [rnd_neg, neg_nonneg] at hneg

/-- Rounding does not pass a number of the format. -/
theorem rnd_le {q b : ℚ} (hb : F.Fits b) (h : q ≤ b) : F.rnd q ≤ b := by
  rcases lt_trichotomy q 0 with hneg | rfl | hpos
  · have hsign := F.rnd_neg q
    rcases lt_or_ge b 0 with hbneg | hbpos
    · have hle := le_rnd_of_pos hb.neg (neg_pos.mpr hbneg) (neg_le_neg h)
      linarith
    · have hnonneg : 0 ≤ F.rnd (-q) := rnd_nonneg (neg_nonneg.mpr hneg.le)
      linarith
  · rw [rnd_zero]
    exact h
  · exact rnd_le_of_pos hb hpos h

theorem le_rnd {q b : ℚ} (hb : F.Fits b) (h : b ≤ q) : b ≤ F.rnd q := by
  have hle := rnd_le hb.neg (neg_le_neg h)
  rw [rnd_neg] at hle
  exact neg_le_neg_iff.mp hle

theorem fits_rnd (hF : 2 ≤ F.exp) {q : ℚ} (hmax : |q| < F.overflow) : F.Fits (F.rnd q) :=
  fits_of_toRat hF (F.toRat_ofRat_rnd hmax hF)

theorem rnd_of_fits {q : ℚ} (h : F.Fits q) : F.rnd q = q :=
  le_antisymm (rnd_le h le_rfl) (le_rnd h le_rfl)

theorem rnd_between {q lo hi : ℚ} (hlo : F.Fits lo) (hhi : F.Fits hi) (hlow : lo ≤ q)
    (hhigh : q ≤ hi) : |q| < F.overflow ∧ lo ≤ F.rnd q ∧ F.rnd q ≤ hi := by
  refine ⟨abs_lt.mpr ⟨?_, ?_⟩, le_rnd hlo hlow, rnd_le hhi hhigh⟩
  · exact (abs_lt.mp hlo.abs_lt).1.trans_le hlow
  · exact hhigh.trans_lt (abs_lt.mp hhi.abs_lt).2

theorem abs_rnd_le {q b : ℚ} (hb : F.Fits b) (h : |q| ≤ b) : |F.rnd q| ≤ b := by
  obtain ⟨hlow, hhigh⟩ := abs_le.mp h
  exact abs_le.mpr ⟨le_rnd hb.neg hlow, rnd_le hb hhigh⟩

/-- No number of the format is nearer than the rounded one. -/
theorem abs_rnd_sub_le_of_fits {b : ℚ} (hb : F.Fits b) (q : ℚ) : |F.rnd q - q| ≤ |b - q| := by
  rcases lt_trichotomy q 0 with hneg | rfl | hpos
  · have h := abs_rnd_sub_le_of_pos hb.neg (neg_pos.mpr hneg)
    rwa [rnd_neg, ← neg_add', abs_neg, ← neg_add', abs_neg, ← sub_eq_add_neg,
      ← sub_eq_add_neg] at h
  · rw [rnd_zero, sub_zero, abs_zero]
    exact abs_nonneg _
  · exact abs_rnd_sub_le_of_pos hb hpos

theorem rnd_mono (hF : 2 ≤ F.exp) {q r : ℚ} (hq : |q| < F.overflow) (hr : |r| < F.overflow)
    (h : q ≤ r) : F.rnd q ≤ F.rnd r := by
  by_contra hlt
  have hcross := not_le.mp hlt
  have hqr := abs_rnd_sub_le_of_fits (fits_rnd hF hr) q
  have hrq := abs_rnd_sub_le_of_fits (fits_rnd hF hq) r
  -- each would be nearer to the other one's number
  have hbelow : F.rnd r < q := by
    by_contra hge
    exact hlt (rnd_le (fits_rnd hF hr) (not_lt.mp hge))
  have habove : r < F.rnd q := by
    by_contra hge
    exact hlt (le_rnd (fits_rnd hF hq) (not_lt.mp hge))
  rw [abs_of_pos (by linarith), abs_of_neg (by linarith)] at hqr
  rw [abs_of_neg (by linarith), abs_of_pos (by linarith)] at hrq
  have heq : q = r := by linarith
  rw [heq] at hcross
  exact lt_irrefl _ hcross

/-! ## 4. How far rounding moves a number -/

theorem abs_rnd_sub_le_ulp (q : ℚ) : |F.rnd q - q| ≤ 2 ^ F.ulpExp q / 2 := by
  have hpos : (0 : ℚ) < 2 ^ F.ulpExp q := zpow_pos two_pos _
  have hnear : ∀ {p : ℚ}, 0 ≤ p →
      |roundEven (p / 2 ^ F.ulpExp q) * 2 ^ F.ulpExp q - p| ≤ 2 ^ F.ulpExp q / 2 := by
    intro p hp
    have hround := abs_sub_roundEven_le (div_nonneg hp hpos.le)
    rw [show roundEven (p / 2 ^ F.ulpExp q) * 2 ^ F.ulpExp q - p =
      -((p / 2 ^ F.ulpExp q - roundEven (p / 2 ^ F.ulpExp q)) * 2 ^ F.ulpExp q) by
        rw [sub_mul, div_mul_cancel₀ _ hpos.ne']
        ring, abs_neg, abs_mul, abs_of_pos hpos]
    linarith [mul_le_mul_of_nonneg_right hround hpos.le]
  unfold rnd
  split
  · next hneg =>
      rw [← abs_neg, neg_sub, sub_neg_eq_add, add_comm, ← sub_neg_eq_add]
      exact hnear (neg_nonneg.mpr hneg.le)
  · next hpos => exact hnear (not_lt.mp hpos)

theorem two_zpow_ulpExp_le {q : ℚ} (hq : q ≠ 0) :
    (2 : ℚ) ^ F.ulpExp q ≤ max (|q| / 2 ^ F.mant) (2 ^ F.minExp) := by
  have hlow : (2 : ℚ) ^ Int.log 2 |q| ≤ |q| :=
    Int.zpow_log_le_self (by decide : 1 < 2) (abs_pos.mpr hq)
  unfold ulpExp
  rcases max_choice (Int.log 2 |q| - F.mant) F.minExp with h | h
  · rw [h, zpow_sub₀ two_ne_zero, zpow_natCast]
    exact le_max_of_le_left (div_le_div_of_nonneg_right hlow (by positivity))
  · rw [h]
    exact le_max_right _ _

/-- The error of a rounding, relative or at the bottom of the format. -/
theorem abs_rnd_sub_le (q : ℚ) :
    |F.rnd q - q| ≤ max (|q| / 2 ^ (F.mant + 1)) (2 ^ (F.minExp - 1)) := by
  rcases eq_or_ne q 0 with rfl | hq
  · rw [rnd_zero, sub_zero, abs_zero]
    exact le_max_of_le_left (by positivity)
  · have hhalf : max (|q| / 2 ^ (F.mant + 1)) (2 ^ (F.minExp - 1)) =
        max (|q| / 2 ^ F.mant) (2 ^ F.minExp) / 2 := by
      rw [← max_div_div_right (by norm_num), pow_succ, zpow_sub₀ two_ne_zero, zpow_one, div_div]
    rw [hhalf]
    linarith [abs_rnd_sub_le_ulp (F := F) q, two_zpow_ulpExp_le (F := F) hq]

theorem abs_rnd_sub_lt {q ε : ℚ} (hrel : |q| / 2 ^ (F.mant + 1) < ε)
    (hbottom : 2 ^ (F.minExp - 1) < ε) : |F.rnd q - q| < ε :=
  (abs_rnd_sub_le q).trans_lt (max_lt hrel hbottom)

theorem abs_rnd_sub_le_of_normal {q : ℚ} (h : 2 ^ (F.minExp + F.mant) ≤ |q|) :
    |F.rnd q - q| ≤ |q| / 2 ^ (F.mant + 1) := by
  refine (abs_rnd_sub_le q).trans (max_le le_rfl ?_)
  rw [le_div_iff₀ (by positivity), ← zpow_natCast, ← zpow_add₀ two_ne_zero]
  refine le_of_eq_of_le ?_ h
  congr 1
  push_cast
  ring

theorem Fits.units {q : ℚ} (h : F.Fits q) : ∃ z : ℤ, q = z * 2 ^ F.minExp := by
  obtain ⟨n, k, hq, -, hk, -⟩ := h
  obtain ⟨d, rfl⟩ : ∃ d : ℕ, k = F.minExp + d := ⟨(k - F.minExp).toNat, by omega⟩
  rw [zpow_add₀ two_ne_zero, zpow_natCast] at hq
  rcases abs_choice q with h | h
  · refine ⟨n * 2 ^ d, ?_⟩
    rw [← h, hq]
    push_cast
    ring
  · refine ⟨-(n * 2 ^ d), ?_⟩
    rw [← neg_neg q, ← h, hq]
    push_cast
    ring

-- Counted in the lowest bit of the format, a number fits it or has a full significand.
theorem fits_or_le (hF : 2 ≤ F.exp) (z : ℤ) : F.Fits (z * 2 ^ F.minExp) ∨
    (2 : ℚ) ^ (F.mant + 1) * 2 ^ F.minExp ≤ |(z : ℚ) * 2 ^ F.minExp| := by
  have hfour : (2 : ℤ) ^ 2 ≤ 2 ^ F.exp := pow_le_pow_right₀ (by norm_num) hF
  have hbottom : (0 : ℚ) < 2 ^ F.minExp := zpow_pos two_pos _
  rcases lt_or_ge z.natAbs (2 ^ (F.mant + 1)) with hsmall | hlarge
  · exact .inl (F.fits_intCast_mul z _ hsmall le_rfl (by omega))
  · right
    rw [abs_mul, abs_of_pos hbottom, ← Int.cast_abs, Int.abs_eq_natAbs]
    apply mul_le_mul_of_nonneg_right _ hbottom.le
    exact_mod_cast hlarge

-- Only the relative part remains where nothing is lost at the bottom.
theorem abs_rnd_sub_le_of_units (hF : 2 ≤ F.exp) {q : ℚ} (h : ∃ z : ℤ, q = z * 2 ^ F.minExp) :
    |F.rnd q - q| ≤ |q| / 2 ^ (F.mant + 1) := by
  obtain ⟨z, rfl⟩ := h
  rcases fits_or_le hF z with hfits | hlarge
  · rw [rnd_of_fits hfits, sub_self, abs_zero]
    positivity
  · refine (abs_rnd_sub_le _).trans (max_le le_rfl ?_)
    rw [le_div_iff₀ (by positivity), zpow_sub₀ two_ne_zero, zpow_one]
    refine le_trans ?_ hlarge
    rw [mul_comm]
    apply mul_le_mul_of_nonneg_left _ (by positivity)
    linarith [show (0 : ℚ) < 2 ^ F.minExp from zpow_pos two_pos _]

theorem rnd_ne_zero (hF : 2 ≤ F.exp) {q : ℚ} (h : ∃ z : ℤ, q = z * 2 ^ F.minExp) (hq : q ≠ 0) :
    F.rnd q ≠ 0 := by
  intro hzero
  have herror := abs_rnd_sub_le_of_units hF h
  have hpos := abs_pos.mpr hq
  rw [hzero, zero_sub, abs_neg, le_div_iff₀ (by positivity)] at herror
  have hone : (1 : ℚ) < 2 ^ (F.mant + 1) := one_lt_pow₀ (by norm_num) (Nat.succ_ne_zero _)
  exact absurd herror (not_le.mpr (lt_mul_of_one_lt_right hpos hone))

theorem Fits.units_sub {q r : ℚ} (hq : F.Fits q) (hr : F.Fits r) :
    ∃ z : ℤ, q - r = z * 2 ^ F.minExp := by
  obtain ⟨y, rfl⟩ := hq.units
  obtain ⟨z, rfl⟩ := hr.units
  exact ⟨y - z, by push_cast; ring⟩

/-! ## 5. The order of the bits -/

theorem toNat_of_not_negative {x : BitVec F.width} (hx : ¬ negative x) :
    x.toNat = exponent x * 2 ^ F.mant + fraction x := by
  have hlt : x.toNat < 2 ^ F.mant * 2 ^ F.exp := by
    rw [← pow_add, Nat.add_comm]
    exact not_le.mp hx
  unfold exponent fraction
  rw [Nat.mod_eq_of_lt (Nat.div_lt_of_lt_mul hlt), Nat.div_add_mod']

theorem magnitude_lt_of_exponent {x y : BitVec F.width} (h : exponent x < exponent y) :
    magnitude x < magnitude y := by
  have hfrac : fraction x < 2 ^ F.mant := Nat.mod_lt _ (Nat.two_pow_pos _)
  have hupper : magnitude x < 2 ^ F.mant * 2 ^ (F.minExp + exponent x) := by
    unfold magnitude
    split
    · next hzero =>
        rw [hzero, Nat.cast_zero, add_zero]
        apply mul_lt_mul_of_pos_right _ (zpow_pos two_pos _)
        exact_mod_cast hfrac
    · rw [zpow_sub_one₀ two_ne_zero, ← mul_assoc, mul_right_comm]
      apply mul_lt_mul_of_pos_right _ (zpow_pos two_pos _)
      have hcast : ((2 ^ F.mant + fraction x : ℕ) : ℚ) < 2 ^ F.mant + 2 ^ F.mant := by
        exact_mod_cast Nat.add_lt_add_left hfrac _
      linarith
  have hlower : (2 : ℚ) ^ F.mant * 2 ^ (F.minExp + exponent y - 1) ≤ magnitude y := by
    unfold magnitude
    rw [if_neg (Nat.ne_zero_of_lt h)]
    apply mul_le_mul_of_nonneg_right _ (zpow_pos two_pos _).le
    exact_mod_cast Nat.le_add_right _ _
  refine hupper.trans_le (le_trans ?_ hlower)
  apply mul_le_mul_of_nonneg_left _ (by positivity)
  exact zpow_le_zpow_right₀ (by norm_num) (by omega)

/-- Numbers that are not negative are ordered as their bits are. -/
theorem magnitude_lt {x y : BitVec F.width} (hx : ¬ negative x) (hy : ¬ negative y)
    (h : x.toNat < y.toNat) : magnitude x < magnitude y := by
  have hfrac : fraction y < 2 ^ F.mant := Nat.mod_lt _ (Nat.two_pow_pos _)
  rw [toNat_of_not_negative hx, toNat_of_not_negative hy] at h
  rcases lt_trichotomy (exponent x) (exponent y) with hlt | heq | hgt
  · exact magnitude_lt_of_exponent hlt
  · rw [heq] at h
    have hless : ((fraction x : ℕ) : ℚ) < fraction y := by
      exact_mod_cast Nat.lt_of_add_lt_add_left h
    unfold magnitude
    rw [heq]
    split
    · exact mul_lt_mul_of_pos_right hless (zpow_pos two_pos _)
    · apply mul_lt_mul_of_pos_right _ (zpow_pos two_pos _)
      push_cast
      linarith
  · have hstep := Nat.mul_le_mul_right (2 ^ F.mant) (Nat.succ_le_of_lt hgt)
    rw [Nat.succ_mul] at hstep
    omega

theorem eq_magnitude {x : BitVec F.width} {q : ℚ} (hx : toRat x = some q) (hneg : ¬ negative x) :
    q = magnitude x := by
  unfold toRat at hx
  rw [if_neg hneg] at hx
  split at hx
  · cases hx
  · exact (Option.some.inj hx).symm

/-! ## 6. Operations -/

variable (F)

def inf : BitVec F.width := BitVec.ofNat F.width ((2 ^ F.exp - 1) * 2 ^ F.mant)

def add (x y : BitVec F.width) : BitVec F.width := F.sub x (F.neg y)

-- `z` with the sign of a product or a quotient of `x` and `y`
def signed (x y z : BitVec F.width) : BitVec F.width :=
  if negative x ↔ negative y then z else F.neg z

def mul (x y : BitVec F.width) : BitVec F.width :=
  match value x, value y with
  | some _, some _ =>
      match toRat x, toRat y with
      | some q, some r => if q * r = 0 then F.signed x y 0 else F.ofRat (q * r)
      | none, some r => if r = 0 then F.nan else F.signed x y F.inf
      | some q, none => if q = 0 then F.nan else F.signed x y F.inf
      | none, none => F.signed x y F.inf
  | _, _ => F.nan

def div (x y : BitVec F.width) : BitVec F.width :=
  match value x, value y with
  | some _, some _ =>
      match toRat x, toRat y with
      | some q, some r =>
          if r = 0 then if q = 0 then F.nan else F.signed x y F.inf
          else if q = 0 then F.signed x y 0
          else F.ofRat (q / r)
      | none, some _ => F.signed x y F.inf
      | some _, none => F.signed x y 0
      | none, none => F.nan
  | _, _ => F.nan

def convert (G : FloatFormat) (x : BitVec F.width) : BitVec G.width :=
  match value x, toRat x with
  | some _, some q =>
      if q = 0 then if negative x then G.neg 0 else 0 else G.ofRat q
  | some _, none => if negative x then G.neg G.inf else G.inf
  | none, _ => G.nan

variable {F}

-- `x < y`; false where one of them is a NaN
def Less (x y : BitVec F.width) : Prop :=
  match value x, value y with
  | some a, some b => a < b
  | _, _ => False

instance (x y : BitVec F.width) : Decidable (Less x y) := by
  unfold Less
  cases value x <;> cases value y <;> infer_instance

theorem toNat_neg (x : BitVec F.width) :
    (F.neg x).toNat = x.toNat ^^^ 2 ^ (F.exp + F.mant) := by
  have hwidth : 2 ^ (F.exp + F.mant) < 2 ^ F.width :=
    Nat.pow_lt_pow_right (by decide) (by unfold width; omega)
  unfold neg
  rw [BitVec.toNat_xor, BitVec.toNat_ofNat, Nat.mod_eq_of_lt hwidth]

theorem neg_mod (x : BitVec F.width) :
    (F.neg x).toNat % 2 ^ (F.exp + F.mant) = x.toNat % 2 ^ (F.exp + F.mant) := by
  rw [toNat_neg, Nat.xor_mod_two_pow, Nat.mod_self, Nat.xor_zero]

theorem exponent_neg (x : BitVec F.width) : exponent (F.neg x) = exponent x := by
  have hbits : ∀ x : BitVec F.width,
      exponent x = x.toNat % 2 ^ (F.exp + F.mant) / 2 ^ F.mant := by
    intro x
    unfold exponent
    rw [Nat.add_comm, pow_add, Nat.mod_mul_right_div_self]
  rw [hbits, hbits, neg_mod]

theorem fraction_neg (x : BitVec F.width) : fraction (F.neg x) = fraction x := by
  have hbits : ∀ x : BitVec F.width,
      fraction x = x.toNat % 2 ^ (F.exp + F.mant) % 2 ^ F.mant := by
    intro x
    unfold fraction
    rw [Nat.mod_mod_of_dvd _ (pow_dvd_pow 2 (Nat.le_add_left _ _))]
  rw [hbits, hbits, neg_mod]

theorem negative_neg (x : BitVec F.width) : negative (F.neg x) ↔ ¬ negative x := by
  have hbits : ∀ x : BitVec F.width,
      negative x ↔ x.toNat.testBit (F.exp + F.mant) = true := by
    intro x
    have hlt : x.toNat < 2 ^ (F.exp + F.mant + 1) :=
      x.isLt.trans_eq (congrArg (2 ^ ·) (show F.width = F.exp + F.mant + 1 by unfold width; omega))
    unfold negative
    exact ⟨fun h ↦ Nat.testBit_of_two_pow_le_and_two_pow_add_one_gt h hlt,
      Nat.ge_two_pow_of_testBit⟩
  rw [hbits, hbits, toNat_neg, Nat.testBit_xor, Nat.testBit_two_pow_self]
  cases x.toNat.testBit (F.exp + F.mant) <;> decide

theorem toRat_neg (x : BitVec F.width) : toRat (F.neg x) = (toRat x).map (-·) := by
  have hmag : magnitude (F.neg x) = magnitude x := by
    unfold magnitude
    rw [exponent_neg, fraction_neg]
  unfold toRat
  rw [exponent_neg, hmag]
  simp only [negative_neg]
  by_cases hfinite : exponent x = 2 ^ F.exp - 1
  · rw [if_pos hfinite, if_pos hfinite]
    rfl
  · rw [if_neg hfinite, if_neg hfinite, Option.map_some]
    by_cases hsign : negative x
    · rw [if_neg (not_not.mpr hsign), if_pos hsign, neg_neg]
    · rw [if_pos hsign, if_neg hsign]

theorem toRat_zero (hF : 2 ≤ F.exp) : toRat (0 : BitVec F.width) = some 0 := by
  have hfour : 2 ^ 2 ≤ 2 ^ F.exp := Nat.pow_le_pow_right (by decide) hF
  have hbits : (0 : BitVec F.width).toNat =
      0 * 2 ^ (F.exp + F.mant) + (0 * 2 ^ F.mant + 0) := by simp
  rw [F.toRat_of_toNat hbits (Nat.zero_le 1) (Nat.two_pow_pos _) (.inl rfl) (by omega),
    if_neg (by decide), Nat.cast_zero, zero_mul]

theorem toRat_signed_zero (hF : 2 ≤ F.exp) (x y : BitVec F.width) :
    toRat (F.signed x y 0) = some 0 := by
  unfold signed
  split
  · exact toRat_zero hF
  · rw [toRat_neg, toRat_zero hF, Option.map_some, neg_zero]

theorem toRat_sub_rnd (hF : 2 ≤ F.exp) {x y : BitVec F.width} {q r : ℚ} (hx : toRat x = some q)
    (hy : toRat y = some r) (hmax : |q - r| < F.overflow) :
    toRat (F.sub x y) = some (F.rnd (q - r)) := by
  unfold sub
  rw [value_of_toRat hx, value_of_toRat hy, hx, hy]
  dsimp only
  split
  · next hzero =>
      obtain ⟨rfl, hneg, hpos⟩ := hzero
      have hq : q = 0 := le_antisymm ((toRat_sign hx).1 hneg) ((toRat_sign hy).2 hpos)
      rw [hx, hq, sub_zero, rnd_zero]
  · exact F.toRat_ofRat_rnd hmax hF

theorem toRat_sub_none (hnan : toRat F.nan = none) {x y : BitVec F.width} {r : ℚ}
    (hx : toRat x = none) (hy : toRat y = some r) : toRat (F.sub x y) = none := by
  unfold sub
  rw [value_of_toRat hy, hx, hy]
  cases value x with
  | none => exact hnan
  | some a => exact hx

theorem toRat_add_rnd (hF : 2 ≤ F.exp) {x y : BitVec F.width} {q r : ℚ} (hx : toRat x = some q)
    (hy : toRat y = some r) (hmax : |q + r| < F.overflow) :
    toRat (F.add x y) = some (F.rnd (q + r)) := by
  have hneg : toRat (F.neg y) = some (-r) := by rw [toRat_neg, hy, Option.map_some]
  have hsub := toRat_sub_rnd hF hx hneg (by rwa [sub_neg_eq_add])
  rwa [sub_neg_eq_add] at hsub

theorem toRat_mul_rnd (hF : 2 ≤ F.exp) {x y : BitVec F.width} {q r : ℚ} (hx : toRat x = some q)
    (hy : toRat y = some r) (hmax : |q * r| < F.overflow) :
    toRat (F.mul x y) = some (F.rnd (q * r)) := by
  unfold mul
  rw [value_of_toRat hx, value_of_toRat hy, hx, hy]
  dsimp only
  split
  · next hzero => rw [hzero, toRat_signed_zero hF, rnd_zero]
  · exact F.toRat_ofRat_rnd hmax hF

theorem toRat_convert_rnd {G : FloatFormat} (hG : 2 ≤ G.exp) {x : BitVec F.width} {q : ℚ}
    (hx : toRat x = some q) (hmax : |q| < G.overflow) :
    toRat (F.convert G x) = some (G.rnd q) := by
  unfold convert
  rw [value_of_toRat hx, hx]
  dsimp only
  by_cases hq : q = 0
  · rw [if_pos hq, hq, rnd_zero]
    split
    · rw [toRat_neg, toRat_zero hG, Option.map_some, neg_zero]
    · exact toRat_zero hG
  · rw [if_neg hq]
    exact G.toRat_ofRat_rnd hmax hG

-- The same between two numbers of the format.
section Between

variable {x y : BitVec F.width} {q r lo hi : ℚ} (hF : 2 ≤ F.exp) (hx : toRat x = some q)
  (hy : toRat y = some r) (hlo : F.Fits lo) (hhi : F.Fits hi)

include hF hx hy hlo hhi in
theorem toRat_add_between (hlow : lo ≤ q + r) (hhigh : q + r ≤ hi) :
    ∃ p, toRat (F.add x y) = some p ∧ lo ≤ p ∧ p ≤ hi := by
  obtain ⟨hmax, hrange⟩ := rnd_between hlo hhi hlow hhigh
  exact ⟨_, toRat_add_rnd hF hx hy hmax, hrange⟩

include hF hx hy hlo hhi in
theorem toRat_sub_between (hlow : lo ≤ q - r) (hhigh : q - r ≤ hi) :
    ∃ p, toRat (F.sub x y) = some p ∧ lo ≤ p ∧ p ≤ hi := by
  obtain ⟨hmax, hrange⟩ := rnd_between hlo hhi hlow hhigh
  exact ⟨_, toRat_sub_rnd hF hx hy hmax, hrange⟩

include hF hx hy hlo hhi in
theorem toRat_mul_between (hlow : lo ≤ q * r) (hhigh : q * r ≤ hi) :
    ∃ p, toRat (F.mul x y) = some p ∧ lo ≤ p ∧ p ≤ hi := by
  obtain ⟨hmax, hrange⟩ := rnd_between hlo hhi hlow hhigh
  exact ⟨_, toRat_mul_rnd hF hx hy hmax, hrange⟩

end Between

theorem toRat_convert_between {G : FloatFormat} (hG : 2 ≤ G.exp) {x : BitVec F.width}
    {q lo hi : ℚ} (hx : toRat x = some q) (hlo : G.Fits lo) (hhi : G.Fits hi) (hlow : lo ≤ q)
    (hhigh : q ≤ hi) : ∃ p, toRat (F.convert G x) = some p ∧ lo ≤ p ∧ p ≤ hi := by
  obtain ⟨hmax, hrange⟩ := rnd_between hlo hhi hlow hhigh
  exact ⟨_, toRat_convert_rnd hG hx hmax, hrange⟩

theorem less_iff {x y : BitVec F.width} {q r : ℚ} (hx : toRat x = some q) (hy : toRat y = some r) :
    Less x y ↔ q < r := by
  unfold Less
  rw [value_of_toRat hx, value_of_toRat hy]
  dsimp only
  rw [WithBot.coe_lt_coe, WithTop.coe_lt_coe]

theorem toRat_div_rnd (hF : 2 ≤ F.exp) {x y : BitVec F.width} {q r : ℚ} (hx : toRat x = some q)
    (hy : toRat y = some r) (hr : r ≠ 0) (hmax : |q / r| < F.overflow) :
    toRat (F.div x y) = some (F.rnd (q / r)) := by
  unfold div
  rw [value_of_toRat hx, value_of_toRat hy, hx, hy]
  dsimp only
  rw [if_neg hr]
  split
  · next hzero => rw [hzero, toRat_signed_zero hF, zero_div, rnd_zero]
  · exact F.toRat_ofRat_rnd hmax hF

/-! ## 7. What is not finite -/

def IsNan (x : BitVec F.width) : Prop := value x = none

def IsInfinite (x : BitVec F.width) : Prop := value x = some ⊤ ∨ value x = some ⊥

instance (x : BitVec F.width) : Decidable (IsNan x) := by
  unfold IsNan
  infer_instance

instance (x : BitVec F.width) : Decidable (IsInfinite x) := by
  unfold IsInfinite
  infer_instance

-- `fabs(x)` clears the sign.
def fabs (x : BitVec F.width) : BitVec F.width := if negative x then F.neg x else x

theorem isInfinite_iff {x : BitVec F.width} :
    IsInfinite x ↔ toRat x = none ∧ fraction x = 0 := by
  unfold IsInfinite value
  cases hx : toRat x with
  | some q =>
      have htop : (q : WithTop ℚ) ≠ ⊤ := WithTop.coe_ne_top
      simp only [Option.some.injEq, WithBot.coe_ne_bot, or_false, reduceCtorEq, false_and,
        iff_false]
      exact fun h ↦ htop (WithBot.coe_injective h)
  | none =>
      by_cases hzero : fraction x = 0
      · by_cases hneg : negative x
        · simp [hzero, hneg]
        · simp only [hzero, hneg, if_true, if_false, and_self, iff_true]
          exact .inl rfl
      · simp [hzero]

theorem isNan_iff {x : BitVec F.width} : IsNan x ↔ toRat x = none ∧ fraction x ≠ 0 := by
  unfold IsNan value
  cases toRat x with
  | some q => simp
  | none => simp

theorem toRat_of_value {x : BitVec F.width} {q : ℚ}
    (hx : value x = some ((q : WithTop ℚ) : ExtRat)) : toRat x = some q := by
  unfold value at hx
  cases hr : toRat x with
  | some r =>
      rw [hr] at hx
      exact congrArg some (WithTop.coe_injective (WithBot.coe_injective (Option.some.inj hx)))
  | none =>
      rw [hr] at hx
      dsimp only at hx
      split at hx
      · split at hx
        · exact absurd (Option.some.inj hx).symm (WithBot.coe_ne_bot)
        · exact absurd (WithBot.coe_injective (Option.some.inj hx)).symm WithTop.coe_ne_top
      · cases hx

theorem value_inf (F : FloatFormat) : value F.inf = some ⊤ := by
  have hpos : 0 < 2 ^ F.mant := Nat.two_pow_pos _
  have hexp : 0 < 2 ^ F.exp := Nat.two_pow_pos _
  have hlt : (2 ^ F.exp - 1) * 2 ^ F.mant < 2 ^ (F.exp + F.mant) := by
    rw [pow_add]
    exact Nat.mul_lt_mul_of_pos_right (by omega) hpos
  have hbits : F.inf.toNat = (2 ^ F.exp - 1) * 2 ^ F.mant := by
    unfold inf
    rw [BitVec.toNat_ofNat, Nat.mod_eq_of_lt]
    exact hlt.trans (Nat.pow_lt_pow_right (by decide) (by unfold width; omega))
  have hexponent : exponent F.inf = 2 ^ F.exp - 1 := by
    unfold exponent
    rw [hbits, Nat.mul_div_cancel _ hpos, Nat.mod_eq_of_lt (by omega)]
  have hfraction : fraction F.inf = 0 := by
    unfold fraction
    rw [hbits, Nat.mul_mod_left]
  have hsign : ¬ negative F.inf := by
    unfold negative
    rw [hbits]
    omega
  unfold value toRat
  rw [if_pos hexponent]
  dsimp only
  rw [if_pos hfraction, if_neg hsign]
  rfl

theorem value_neg_of_top {x : BitVec F.width} (hx : value x = some ⊤) :
    value (F.neg x) = some ⊥ := by
  obtain ⟨hrat, hzero⟩ := isInfinite_iff.mp (.inl hx)
  have hsign : ¬ negative x := by
    intro hneg
    unfold value at hx
    rw [hrat] at hx
    dsimp only at hx
    rw [if_pos hzero, if_pos hneg] at hx
    exact absurd (Option.some.inj hx) bot_ne_top
  unfold value
  rw [toRat_neg, hrat, fraction_neg, Option.map_none]
  dsimp only
  rw [if_pos hzero, if_pos (by rwa [negative_neg])]

theorem not_isInfinite_of_toRat {x : BitVec F.width} {q : ℚ} (hx : toRat x = some q) :
    ¬ IsInfinite x := by
  rw [isInfinite_iff, hx]
  exact fun h ↦ Option.some_ne_none q h.1

theorem not_isNan_of_toRat {x : BitVec F.width} {q : ℚ} (hx : toRat x = some q) : ¬ IsNan x := by
  rw [isNan_iff, hx]
  exact fun h ↦ Option.some_ne_none q h.1

theorem IsInfinite.not_isNan {x : BitVec F.width} (hx : IsInfinite x) : ¬ IsNan x := by
  rw [isNan_iff]
  exact fun h ↦ h.2 (isInfinite_iff.mp hx).2

theorem toRat_or_isInfinite_or_isNan (x : BitVec F.width) :
    (∃ q, toRat x = some q) ∨ IsInfinite x ∨ IsNan x := by
  rw [isInfinite_iff, isNan_iff]
  cases toRat x with
  | some q => exact .inl ⟨q, rfl⟩
  | none =>
      by_cases hzero : fraction x = 0
      · exact .inr (.inl ⟨rfl, hzero⟩)
      · exact .inr (.inr ⟨rfl, hzero⟩)

theorem toRat_fabs {x : BitVec F.width} {q : ℚ} (hx : toRat x = some q) :
    toRat (fabs x) = some |q| := by
  unfold fabs
  split
  · next hneg => rw [toRat_neg, hx, Option.map_some, abs_of_nonpos ((toRat_sign hx).1 hneg)]
  · next hneg => rw [hx, abs_of_nonneg ((toRat_sign hx).2 hneg)]

theorem value_fabs_of_isInfinite {x : BitVec F.width} (hx : IsInfinite x) :
    value (fabs x) = some ⊤ := by
  obtain ⟨hrat, hzero⟩ := isInfinite_iff.mp hx
  unfold fabs
  by_cases hneg : negative x
  · rw [if_pos hneg]
    unfold value
    rw [toRat_neg, hrat, fraction_neg, if_pos hzero, Option.map_none]
    dsimp only
    rw [if_neg (by rw [negative_neg]; exact not_not.mpr hneg)]
    rfl
  · rw [if_neg hneg]
    unfold value
    rw [hrat]
    dsimp only
    rw [if_pos hzero, if_neg hneg]
    rfl

theorem isNan_fabs {x : BitVec F.width} (hx : IsNan x) : IsNan (fabs x) := by
  rw [isNan_iff] at hx ⊢
  unfold fabs
  split
  · rw [toRat_neg, fraction_neg, hx.1]
    exact ⟨rfl, hx.2⟩
  · exact hx

theorem not_less_of_isNan {x y : BitVec F.width} (h : IsNan x ∨ IsNan y) : ¬ Less x y := by
  unfold Less
  rcases h with h | h
  · rw [show value x = none from h]
    exact id
  · rw [show value y = none from h]
    cases value x <;> exact id

theorem less_of_value_top {x y : BitVec F.width} {q : ℚ} (hx : toRat x = some q)
    (hy : value y = some ⊤) : Less x y := by
  unfold Less
  rw [value_of_toRat hx, hy]
  exact WithBot.coe_lt_coe.mpr (WithTop.coe_lt_top q)

theorem not_less_of_value_top {x y : BitVec F.width} (hx : value x = some ⊤) : ¬ Less x y := by
  unfold Less
  rw [hx]
  cases value y with
  | none => exact id
  | some b => exact not_top_lt

theorem div_of_isInfinite {x y : BitVec F.width} (hx : IsInfinite x) (hy : IsInfinite y) :
    F.div x y = F.nan := by
  unfold div
  rw [(isInfinite_iff.mp hx).1, (isInfinite_iff.mp hy).1]
  rcases hx with hx | hx <;> rcases hy with hy | hy <;> rw [hx, hy]

theorem div_of_isNan {x y : BitVec F.width} (hx : IsNan x) : F.div x y = F.nan := by
  unfold div
  rw [show value x = none from hx]

end FloatFormat

end Machine
