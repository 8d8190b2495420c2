import Mathlib.Algebra.Order.Floor.Semiring
import Mathlib.Data.BitVec
import Mathlib.Data.Int.Log
import Mathlib.Data.Rat.Floor
import Mathlib.Order.WithBot

/-!
# Binary floating point

The interchange formats: a sign bit, a biased exponent and a fraction.  A bit pattern stands for an
exact rational, for an infinity or for no number at all.
-/

namespace Machine

-- The numbers a bit pattern can stand for.
abbrev ExtRat := WithBot (WithTop ℚ)

structure FloatFormat where
  exp : ℕ
  mant : ℕ
  deriving DecidableEq

namespace FloatFormat

abbrev binary32 : FloatFormat := ⟨8, 23⟩

variable (F : FloatFormat)

abbrev width : ℕ := 1 + F.exp + F.mant

-- The exponent of the lowest bit of the smallest numbers.
def minExp : ℤ := 2 - 2 ^ (F.exp - 1) - F.mant

/-! ## 1. The numbers bits stand for -/

section Decode

variable {F : FloatFormat} (x : BitVec F.width)

def negative : Prop := 2 ^ (F.exp + F.mant) ≤ x.toNat

instance : Decidable (negative x) := inferInstanceAs (Decidable (_ ≤ _))

def exponent : ℕ := x.toNat / 2 ^ F.mant % 2 ^ F.exp

def fraction : ℕ := x.toNat % 2 ^ F.mant

def magnitude : ℚ :=
  if exponent x = 0 then fraction x * 2 ^ F.minExp
  else (2 ^ F.mant + fraction x : ℕ) * 2 ^ (F.minExp + exponent x - 1)

/-- The rational the bits stand for; none for infinities and NaNs. -/
def toRat : Option ℚ :=
  if exponent x = 2 ^ F.exp - 1 then none
  else some (if negative x then -magnitude x else magnitude x)

/-- The number the bits stand for; none for NaNs. -/
def value : Option ExtRat :=
  match toRat x with
  | some q => some (q : WithTop ℚ)
  | none => if fraction x = 0 then some (if negative x then ⊥ else (⊤ : WithTop ℚ)) else none

end Decode

/-! ## 2. Rounding and subtraction -/

-- The nearest natural number, the even one of two.
def roundEven (r : ℚ) : ℕ :=
  let n := ⌊r⌋₊
  if r - n < 1 / 2 then n else if 1 / 2 < r - n then n + 1 else n + n % 2

-- The bits of a positive number without its sign, rounded to the nearest.
def roundBits (q : ℚ) : ℕ :=
  let k := max (Int.log 2 q - F.mant) F.minExp
  min ((k - F.minExp).toNat * 2 ^ F.mant + roundEven (q / 2 ^ k)) ((2 ^ F.exp - 1) * 2 ^ F.mant)

-- The bits of a number, rounded to the nearest; zero is positive.
def ofRat (q : ℚ) : BitVec F.width :=
  BitVec.ofNat F.width (if q = 0 then 0
    else if q < 0 then 2 ^ (F.exp + F.mant) + F.roundBits (-q) else F.roundBits q)

-- a quiet NaN
def nan : BitVec F.width :=
  BitVec.ofNat F.width ((2 ^ F.exp - 1) * 2 ^ F.mant + 2 ^ (F.mant - 1))

def neg (x : BitVec F.width) : BitVec F.width := x ^^^ BitVec.ofNat F.width (2 ^ (F.exp + F.mant))

def sub (x y : BitVec F.width) : BitVec F.width :=
  match value x, value y with
  | some a, some b =>
      match toRat x, toRat y with
      -- the difference of -0 and +0 is -0
      | some q, some r => if q = r ∧ negative x ∧ ¬ negative y then x else F.ofRat (q - r)
      | none, some _ => x
      | some _, none => F.neg y
      | none, none => if a = b then F.nan else x
  | _, _ => F.nan

/-! ## 3. Exact results -/

theorem roundEven_natCast (n : ℕ) : roundEven (n : ℚ) = n := by
  unfold roundEven
  simp

theorem bits_lt {j n : ℕ} (hn : n < 2 ^ (F.mant + 1)) (hj : j + 3 ≤ 2 ^ F.exp) :
    j * 2 ^ F.mant + n < 2 ^ (F.exp + F.mant) := by
  rw [pow_succ] at hn
  rw [pow_add]
  calc j * 2 ^ F.mant + n < j * 2 ^ F.mant + 2 ^ F.mant * 2 := Nat.add_lt_add_left hn _
    _ = (j + 2) * 2 ^ F.mant := by ring
    _ ≤ 2 ^ F.exp * 2 ^ F.mant := Nat.mul_le_mul_right _ (by omega)

/-- The number whose lowest bit has the exponent `minExp + j`: either its significand `n` is full or
that exponent is the smallest. -/
theorem toRat_of_toNat {x : BitVec F.width} {s j n : ℕ}
    (hx : x.toNat = s * 2 ^ (F.exp + F.mant) + (j * 2 ^ F.mant + n)) (hs : s ≤ 1)
    (hn : n < 2 ^ (F.mant + 1)) (hfull : j = 0 ∨ 2 ^ F.mant ≤ n) (hj : j + 3 ≤ 2 ^ F.exp) :
    toRat x =
      some (if s = 1 then -((n : ℚ) * 2 ^ (F.minExp + j)) else (n : ℚ) * 2 ^ (F.minExp + j)) := by
  have hP : 0 < 2 ^ F.mant := Nat.two_pow_pos _
  have hdouble : n < 2 ^ F.mant * 2 := by rwa [pow_succ] at hn
  have htop : 2 ^ (F.exp + F.mant) = 2 ^ F.exp * 2 ^ F.mant := pow_add 2 _ _
  have hlow := F.bits_lt hn hj
  have hneg : negative x ↔ s = 1 := by
    unfold negative
    rw [hx]
    constructor
    · intro h
      by_contra hs1
      rw [show s = 0 by omega] at h
      omega
    · rintro rfl
      omega
  rw [htop, show s * (2 ^ F.exp * 2 ^ F.mant) + (j * 2 ^ F.mant + n) =
    n + 2 ^ F.mant * (s * 2 ^ F.exp + j) by ring] at hx
  have hfrac : fraction x = n % 2 ^ F.mant := by
    unfold fraction
    rw [hx, Nat.add_mul_mod_self_left]
  have hexp : exponent x = if 2 ^ F.mant ≤ n then j + 1 else 0 := by
    unfold exponent
    rw [hx, Nat.add_mul_div_left _ _ hP, ← Nat.add_assoc, Nat.add_right_comm, Nat.mul_comm s,
      Nat.add_mul_mod_self_left]
    split
    · next hle =>
        rw [Nat.div_eq_of_lt_le (show 1 * 2 ^ F.mant ≤ n by omega) (by omega),
          Nat.mod_eq_of_lt (by omega), Nat.add_comm]
    · next hlt =>
        rw [Nat.div_eq_of_lt (by omega), hfull.resolve_right hlt]
        exact Nat.mod_eq_of_lt (by omega)
  have hmag : magnitude x = (n : ℚ) * 2 ^ (F.minExp + j) := by
    unfold magnitude
    rw [hexp, hfrac]
    by_cases hle : 2 ^ F.mant ≤ n
    · have hmod : 2 ^ F.mant + n % 2 ^ F.mant = n := by
        rw [Nat.mod_eq_sub_mod hle, Nat.mod_eq_of_lt (by omega)]
        omega
      rw [if_pos hle, if_neg (by omega), hmod]
      congr 2
      push_cast
      ring
    · rw [if_neg hle, if_pos rfl, Nat.mod_eq_of_lt (by omega), hfull.resolve_right hle]
      simp
  unfold toRat
  rw [hmag, if_neg]
  · simp only [hneg]
  · rw [hexp]
    split <;> omega

theorem roundBits_eq {q : ℚ} {n : ℕ} {k : ℤ} (hpos : 0 < q) (hq : q = n * 2 ^ k)
    (hn : n < 2 ^ (F.mant + 1)) (hk : F.minExp ≤ k) (hkmax : k + 3 ≤ F.minExp + 2 ^ F.exp) :
    ∃ j N : ℕ, F.roundBits q = j * 2 ^ F.mant + N ∧ q = N * 2 ^ (F.minExp + j) ∧
      N < 2 ^ (F.mant + 1) ∧ (j = 0 ∨ 2 ^ F.mant ≤ N) ∧ j + 3 ≤ 2 ^ F.exp := by
  have htwo : (2 : ℚ) ≠ 0 := two_ne_zero
  have hlow : (2 : ℚ) ^ Int.log 2 q ≤ q := Int.zpow_log_le_self (by decide : 1 < 2) hpos
  have hhigh : q < (2 : ℚ) ^ (Int.log 2 q + 1) :=
    Int.lt_zpow_succ_log_self (by decide : 1 < 2) q
  have hlog : Int.log 2 q < F.mant + 1 + k := by
    apply (Int.lt_zpow_iff_log_lt (by decide : 1 < 2) hpos).mp
    rw [hq]
    push_cast
    rw [zpow_add₀ htwo]
    apply mul_lt_mul_of_pos_right _ (zpow_pos two_pos k)
    exact_mod_cast hn
  obtain ⟨K, hK⟩ : ∃ K, K = max (Int.log 2 q - F.mant) F.minExp := ⟨_, rfl⟩
  have hKk : K ≤ k := by omega
  have hKmin : F.minExp ≤ K := by omega
  obtain ⟨d, hd⟩ : ∃ d : ℕ, k = K + d := ⟨(k - K).toNat, by omega⟩
  obtain ⟨j, hj⟩ : ∃ j : ℕ, K = F.minExp + j := ⟨(K - F.minExp).toNat, by omega⟩
  have hscaled : q = (n * 2 ^ d : ℕ) * 2 ^ K := by
    rw [hq, hd, zpow_add₀ htwo, zpow_natCast]
    push_cast
    ring
  have hKpos : (0 : ℚ) < 2 ^ K := zpow_pos two_pos K
  have hless : n * 2 ^ d < 2 ^ (F.mant + 1) := by
    have hbound : ((n * 2 ^ d : ℕ) : ℚ) * 2 ^ K < (2 ^ (F.mant + 1) : ℕ) * 2 ^ K := by
      rw [← hscaled]
      push_cast
      rw [← zpow_natCast, ← zpow_add₀ htwo]
      exact hhigh.trans_le (zpow_le_zpow_right₀ (by norm_num) (by push_cast; omega))
    exact_mod_cast lt_of_mul_lt_mul_right hbound hKpos.le
  have hfull : j = 0 ∨ 2 ^ F.mant ≤ n * 2 ^ d := by
    by_cases hj0 : j = 0
    · exact .inl hj0
    · right
      have hbound : ((2 ^ F.mant : ℕ) : ℚ) * 2 ^ K ≤ (n * 2 ^ d : ℕ) * 2 ^ K := by
        rw [← hscaled]
        push_cast
        rw [← zpow_natCast, ← zpow_add₀ htwo]
        exact (zpow_le_zpow_right₀ (by norm_num) (by omega)).trans hlow
      exact_mod_cast le_of_mul_le_mul_right hbound hKpos
  have hjmax : j + 3 ≤ 2 ^ F.exp := by
    have : ((j + 3 : ℕ) : ℤ) ≤ ((2 ^ F.exp : ℕ) : ℤ) := by push_cast; omega
    exact_mod_cast this
  refine ⟨j, n * 2 ^ d, ?_, by rw [← hj]; exact hscaled, hless, hfull, hjmax⟩
  have hquot : q / 2 ^ K = ((n * 2 ^ d : ℕ) : ℚ) := by
    rw [hscaled, mul_div_cancel_right₀ _ hKpos.ne']
  have htop : j * 2 ^ F.mant + n * 2 ^ d ≤ (2 ^ F.exp - 1) * 2 ^ F.mant := by
    rw [pow_succ] at hless
    calc j * 2 ^ F.mant + n * 2 ^ d ≤ j * 2 ^ F.mant + 2 ^ F.mant * 2 := by omega
      _ = (j + 2) * 2 ^ F.mant := by ring
      _ ≤ (2 ^ F.exp - 1) * 2 ^ F.mant := Nat.mul_le_mul_right _ (by omega)
  unfold roundBits
  dsimp only
  rw [← hK, hquot, roundEven_natCast, show (K - F.minExp).toNat = j by omega, min_eq_left htop]

/-- A number that fits the format is its own rounding. -/
theorem toRat_ofRat {q : ℚ} {n : ℕ} {k : ℤ} (hq : |q| = n * 2 ^ k) (hn : n < 2 ^ (F.mant + 1))
    (hk : F.minExp ≤ k) (hkmax : k + 3 ≤ F.minExp + 2 ^ F.exp) : toRat (F.ofRat q) = some q := by
  have hwidth : 2 ^ F.width = 2 ^ (F.exp + F.mant) + 2 ^ (F.exp + F.mant) := by
    rw [show F.width = F.exp + F.mant + 1 by unfold width; omega, pow_succ]
    omega
  -- the bits of a number below the largest exponent fit
  have hbits : ∀ {s j N : ℕ}, s ≤ 1 → N < 2 ^ (F.mant + 1) → j + 3 ≤ 2 ^ F.exp →
      (BitVec.ofNat F.width (s * 2 ^ (F.exp + F.mant) + (j * 2 ^ F.mant + N))).toNat =
        s * 2 ^ (F.exp + F.mant) + (j * 2 ^ F.mant + N) := by
    intro s j N hs hN hj
    have hlow := F.bits_lt hN hj
    have hsign := Nat.mul_le_mul_right (2 ^ (F.exp + F.mant)) hs
    rw [BitVec.toNat_ofNat, Nat.mod_eq_of_lt (by omega)]
  rcases lt_trichotomy q 0 with hneg | rfl | hpos
  · rw [abs_of_neg hneg] at hq
    obtain ⟨j, N, hround, hqN, hN, hfull, hj⟩ :=
      F.roundBits_eq (neg_pos.mpr hneg) hq hn hk hkmax
    have hrat := toRat_of_toNat F (hbits (show 1 ≤ 1 from le_rfl) hN hj) le_rfl hN hfull hj
    rw [if_pos rfl, ← hqN, neg_neg, one_mul] at hrat
    unfold ofRat
    rw [if_neg hneg.ne, if_pos hneg, hround]
    exact hrat
  · have hzero : 3 ≤ 2 ^ F.exp := by
      have : (3 : ℤ) ≤ ((2 ^ F.exp : ℕ) : ℤ) := by push_cast; omega
      exact_mod_cast this
    have hrat := toRat_of_toNat F (hbits (Nat.zero_le 1) (Nat.two_pow_pos _)
      (show 0 + 3 ≤ 2 ^ F.exp by omega)) (Nat.zero_le 1) (Nat.two_pow_pos _) (.inl rfl)
      (by omega)
    simpa [ofRat] using hrat
  · rw [abs_of_pos hpos] at hq
    obtain ⟨j, N, hround, hqN, hN, hfull, hj⟩ := F.roundBits_eq hpos hq hn hk hkmax
    have hrat := toRat_of_toNat F (hbits (Nat.zero_le 1) hN hj) (Nat.zero_le 1) hN hfull hj
    rw [if_neg (by omega), ← hqN, zero_mul, zero_add] at hrat
    unfold ofRat
    rw [if_neg hpos.ne', if_neg hpos.not_gt, hround]
    exact hrat

theorem magnitude_nonneg {F : FloatFormat} (x : BitVec F.width) : 0 ≤ magnitude x := by
  unfold magnitude
  split
  · exact mul_nonneg (Nat.cast_nonneg _) (zpow_pos two_pos _).le
  · exact mul_nonneg (Nat.cast_nonneg _) (zpow_pos two_pos _).le

theorem toRat_sign {F : FloatFormat} {x : BitVec F.width} {q : ℚ} (hx : toRat x = some q) :
    (negative x → q ≤ 0) ∧ (¬ negative x → 0 ≤ q) := by
  have hmag := magnitude_nonneg x
  unfold toRat at hx
  split at hx
  · cases hx
  · rw [Option.some.injEq] at hx
    subst hx
    constructor
    · intro hneg
      rw [if_pos hneg]
      exact neg_nonpos.mpr hmag
    · intro hpos
      rw [if_neg hpos]
      exact hmag

theorem value_of_toRat {F : FloatFormat} {x : BitVec F.width} {q : ℚ} (hx : toRat x = some q) :
    value x = some ((q : WithTop ℚ) : ExtRat) := by
  unfold value
  rw [hx]

/-- A difference that fits the format is exact. -/
theorem toRat_sub {x y : BitVec F.width} {q r : ℚ} (hx : toRat x = some q) (hy : toRat y = some r)
    {n : ℕ} {k : ℤ} (hq : |q - r| = n * 2 ^ k) (hn : n < 2 ^ (F.mant + 1)) (hk : F.minExp ≤ k)
    (hkmax : k + 3 ≤ F.minExp + 2 ^ F.exp) : toRat (F.sub x y) = some (q - r) := by
  unfold sub
  rw [value_of_toRat hx, value_of_toRat hy, hx, hy]
  dsimp only
  split
  · next hzero =>
      obtain ⟨heq, hneg, hpos⟩ := hzero
      have hq0 : q ≤ 0 := (toRat_sign hx).1 hneg
      have hr0 : 0 ≤ r := (toRat_sign hy).2 hpos
      rw [hx, show q = 0 from le_antisymm hq0 (heq ▸ hr0), show r = 0 from heq ▸ le_antisymm hq0
        (heq ▸ hr0), sub_zero]
  · exact F.toRat_ofRat hq hn hk hkmax

end FloatFormat

end Machine
