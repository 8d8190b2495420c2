import Mathlib.Algebra.Polynomial.Derivative
import Mathlib.Algebra.Polynomial.Eval.Degree
import Scnim.Machine.Elements
import Scnim.Machine.FloatApprox
import Scnim.PtrMath
import Scnim.SndBuf

/-!
# Table lookup

The interpolating lookups of `dev/SC_SndBuf.h`, of which `scnim/SndBuf.nim` has only the names.
-/

open Machine
open Machine.FloatFormat

namespace Scnim.Dev

/-! ## 1. The functions -/

-- `table[k]`
def tableAt (m : Memory 64) (table : Addr) (k : ℕ) : CFloat := loadBits 32 m (elementAt table 4 k)

-- The slot of the table that the upper half of the phase selects.
def slotOf (phase mask : BitVec 32) : ℕ := ((phase >>> 16) &&& mask).toNat

-- `phase` and `mask` are signed.
def lookup (m : Memory 64) (table : Addr) (phase mask : BitVec 32) : CFloat :=
  loadBits 32 m (table + BitVec.ofInt 64 ((phase.sshiftRight 16 &&& mask).toInt * 4))

def lookupi (m : Memory 64) (table : Addr) (phase mask : BitVec 32) : CFloat :=
  let frac := phaseFrac phase
  let a := tableAt m table (slotOf phase mask)
  let b := tableAt m table (slotOf phase mask + 1)
  binary32.add a (binary32.mul frac (binary32.sub b a))

def lookupi2 (m : Memory 64) (table : Addr) (phase mask : BitVec 32) : CFloat :=
  let frac := phaseFrac1 phase
  let a := tableAt m table (slotOf phase mask)
  let b := tableAt m table (slotOf phase mask + 1)
  binary32.add a (binary32.mul frac b)

-- The tables are read at an offset in bytes; `xlobits1` is 13.
def lookupi1 (m : Memory 64) (table0 table1 : Addr) (pphase lomask : BitVec 32) : CFloat :=
  let pfrac := phaseFrac1 pphase
  let index := ((pphase >>> 13) &&& lomask).toNat
  let val1 : CFloat := loadBits 32 m (table0 + BitVec.ofNat 64 index)
  let val2 : CFloat := loadBits 32 m (table1 + BitVec.ofNat 64 index)
  binary32.add val1 (binary32.mul val2 pfrac)

def lininterp (x a b : CFloat) : CFloat :=
  binary32.add a (binary32.mul x (binary32.sub b a))

-- 4-point, 3rd-order Hermite (x-form)
def cubicinterp (x y0 y1 y2 y3 : CFloat) : CFloat :=
  let c0 := y1
  let c1 := binary32.mul (binary32.ofRat (1 / 2)) (binary32.sub y2 y0)
  let c2 := binary32.sub (binary32.add (binary32.sub y0 (binary32.mul (binary32.ofRat (5 / 2)) y1))
    (binary32.mul (binary32.ofRat 2) y2)) (binary32.mul (binary32.ofRat (1 / 2)) y3)
  let c3 := binary32.add (binary32.mul (binary32.ofRat (1 / 2)) (binary32.sub y3 y0))
    (binary32.mul (binary32.ofRat (3 / 2)) (binary32.sub y1 y2))
  binary32.add (binary32.mul (binary32.add (binary32.mul (binary32.add (binary32.mul c3 x) c2) x)
    c1) x) c0

/-! ## 2. What is read -/

theorem slotOf_le (phase mask : BitVec 32) : slotOf phase mask ≤ mask.toNat := by
  unfold slotOf
  rw [BitVec.toNat_and]
  exact Nat.and_le_right

def SameWithin (m m' : Memory 64) (base : Addr) (len : ℕ) : Prop :=
  ∀ a, Within base len a → m' a = m a

-- Equal bytes of a table of `n` floats give equal floats.
theorem tableAt_congr {m m' : Memory 64} {table : Addr} {n k : ℕ} (hn : n ≤ 2 ^ 62) (hk : k < n)
    (h : SameWithin m m' table (n * 4)) : tableAt m' table k = tableAt m table k := by
  apply loadBits_congr (by decide)
  intro a ha
  have hend := element_fits 4 hk
  have hinside := (within_elementAt_iff table a hk (by omega)).mp ha
  apply h
  unfold Within
  omega

-- For a mask that is not negative the signed slot is no more than the mask either.
theorem lookup_eq (phase : BitVec 32) {mask : BitVec 32} (hmask : 0 ≤ mask.toInt) :
    ∃ k ≤ mask.toNat, ∀ m table, lookup m table phase mask = tableAt m table k := by
  have hle : (phase.sshiftRight 16 &&& mask).toNat ≤ mask.toNat := by
    rw [BitVec.toNat_and]
    exact Nat.and_le_right
  have hsmall : mask.toNat < 2 ^ 31 := by
    rw [BitVec.toInt_eq_toNat_cond] at hmask
    split at hmask
    · omega
    · have := mask.isLt
      omega
  refine ⟨_, hle, fun m table ↦ ?_⟩
  unfold lookup tableAt elementAt
  rw [BitVec.toInt_eq_toNat_of_lt (by omega), ← BitVec.ofInt_natCast]
  push_cast
  rfl

/-- No lookup reads more of a table than the slots up to the mask, and the one behind them to
interpolate. -/
theorem lookups_local {m m' : Memory 64} (phase mask : BitVec 32) :
    (∀ table, SameWithin m m' table ((mask.toNat + 2) * 4) →
      lookupi m' table phase mask = lookupi m table phase mask ∧
      lookupi2 m' table phase mask = lookupi2 m table phase mask) ∧
    (∀ table, 0 ≤ mask.toInt → SameWithin m m' table ((mask.toNat + 1) * 4) →
      lookup m' table phase mask = lookup m table phase mask) ∧
    ∀ table0 table1, SameWithin m m' table0 (mask.toNat + 4) →
      SameWithin m m' table1 (mask.toNat + 4) →
      lookupi1 m' table0 table1 phase mask = lookupi1 m table0 table1 phase mask := by
  have hword := mask.isLt
  have hslot := slotOf_le phase mask
  refine ⟨fun table h ↦ ?_, fun table hmask h ↦ ?_, fun table0 table1 h0 h1 ↦ ?_⟩
  · have hfirst := tableAt_congr (by omega) (show slotOf phase mask < mask.toNat + 2 by omega) h
    have hnext := tableAt_congr (by omega) (show slotOf phase mask + 1 < mask.toNat + 2 by omega) h
    unfold lookupi lookupi2
    rw [hfirst, hnext]
    exact ⟨rfl, rfl⟩
  · obtain ⟨k, hk, heq⟩ := lookup_eq phase hmask
    rw [heq, heq]
    exact tableAt_congr (by omega) (by omega) h
  · have hindex : ((phase >>> 13) &&& mask).toNat ≤ mask.toNat := by
      rw [BitVec.toNat_and]
      exact Nat.and_le_right
    have hload : ∀ {table}, SameWithin m m' table (mask.toNat + 4) →
        loadBits 32 m' (table + BitVec.ofNat 64 ((phase >>> 13) &&& mask).toNat) =
          loadBits 32 m (table + BitVec.ofNat 64 ((phase >>> 13) &&& mask).toNat) := by
      intro table h
      apply loadBits_congr (by decide)
      intro a ha
      rw [within_shift_iff table a (by omega)] at ha
      apply h
      unfold Within
      omega
    unfold lookupi1
    dsimp only
    rw [hload h0, hload h1]

/-! ## 3. Linear interpolation -/

-- The share of a difference, after two roundings.
theorem share_near {f d M : ℚ} (hf0 : 0 ≤ f) (hf1 : f ≤ 1)
    (hd : ∃ z : ℤ, d = z * 2 ^ binary32.minExp) (hdM : |d| ≤ 2 * M) :
    |binary32.rnd (f * binary32.rnd d) - f * d| ≤ 5 * M / 2 ^ 24 + 1 / 2 ^ 150 := by
  have hM : 0 ≤ M := by linarith [abs_nonneg d]
  have hfirst : |binary32.rnd d - d| ≤ 2 * M / 2 ^ 24 :=
    (abs_rnd_sub_le_of_units (by decide) hd).trans (div_le_div_of_nonneg_right hdM (by positivity))
  have hsize : |f * binary32.rnd d| ≤ 3 * M := by
    have htri := abs_sub_abs_le_abs_sub (binary32.rnd d) d
    rw [abs_mul, abs_of_nonneg hf0]
    refine (mul_le_of_le_one_left (abs_nonneg _) hf1).trans ?_
    norm_num at hfirst
    linarith
  have hbottom : (2 : ℚ) ^ (binary32.minExp - 1) = 1 / 2 ^ 150 := by
    rw [show binary32.minExp - 1 = -150 by decide]
    norm_num
  have hsecond : |binary32.rnd (f * binary32.rnd d) - f * binary32.rnd d| ≤
      3 * M / 2 ^ 24 + 1 / 2 ^ 150 := by
    refine (abs_rnd_sub_le _).trans (max_le ?_ ?_)
    · refine (div_le_div_of_nonneg_right hsize (by positivity)).trans ?_
      exact le_add_of_nonneg_right (by positivity)
    · rw [hbottom]
      exact le_add_of_nonneg_left (by positivity)
  have hscaled : |f * binary32.rnd d - f * d| ≤ 2 * M / 2 ^ 24 := by
    rw [← mul_sub, abs_mul, abs_of_nonneg hf0]
    exact (mul_le_of_le_one_left (abs_nonneg _) hf1).trans hfirst
  calc |binary32.rnd (f * binary32.rnd d) - f * d|
      ≤ |binary32.rnd (f * binary32.rnd d) - f * binary32.rnd d| +
        |f * binary32.rnd d - f * d| := abs_sub_le _ _ _
    _ ≤ 5 * M / 2 ^ 24 + 1 / 2 ^ 150 := by linarith

/-- The result lies between the two numbers if the share is far enough from all of it, and it is
near the exact one. -/
theorem lininterp_spec {x a b : CFloat} {f q r : ℚ} (hx : toRat x = some f)
    (ha : toRat a = some q) (hb : toRat b = some r) (hf0 : 0 ≤ f) (hf1 : f ≤ 1 - 1 / 2 ^ 22)
    (hmax : |r - q| < binary32.overflow) :
    ∃ p, toRat (lininterp x a b) = some p ∧ min q r ≤ p ∧ p ≤ max q r ∧
      |p - (q + f * (r - q))| ≤ max |q| |r| / 2 ^ 21 + 1 / 2 ^ 150 := by
  have hq := fits_of_toRat (F := binary32) (by decide) ha
  have hr := fits_of_toRat (F := binary32) (by decide) hb
  have hshare : (f + 1 / 2 ^ (23 + 1)) * (1 + 1 / 2 ^ (23 + 1)) ≤ (1 : ℚ) := by
    norm_num at hf1 ⊢
    linarith
  have hunits := hr.units_sub hq
  have hsub := toRat_sub_rnd (F := binary32) (by decide) hb ha hmax
  have hsubFits := fits_of_toRat (F := binary32) (by decide) hsub
  have hpart : |f * binary32.rnd (r - q)| ≤ |binary32.rnd (r - q)| := by
    rw [abs_mul, abs_of_nonneg hf0]
    exact mul_le_of_le_one_left (abs_nonneg _) (hf1.trans (by norm_num))
  have hmul := toRat_mul_rnd (F := binary32) (by decide) hx hsub (hpart.trans_lt hsubFits.abs_lt)
  obtain ⟨hlow, hhigh⟩ := rnd_mul_rnd_between (F := binary32) (by decide) hf0 hshare hunits
  have hlo : binary32.Fits (min q r) := by
    rcases min_choice q r with h | h
    · rwa [h]
    · rwa [h]
  have hhi : binary32.Fits (max q r) := by
    rcases max_choice q r with h | h
    · rwa [h]
    · rwa [h]
  have hmin : min q r ≤ q + binary32.rnd (f * binary32.rnd (r - q)) := by
    rcases min_choice 0 (r - q) with h | h
    · linarith [min_le_left q r]
    · linarith [min_le_right q r]
  have hmaxle : q + binary32.rnd (f * binary32.rnd (r - q)) ≤ max q r := by
    rcases max_choice 0 (r - q) with h | h
    · linarith [le_max_left q r]
    · linarith [le_max_right q r]
  obtain ⟨hsum, hbetween⟩ := rnd_between hlo hhi hmin hmaxle
  have hadd := toRat_add_rnd (F := binary32) (by decide) ha hmul hsum
  refine ⟨_, hadd, hbetween.1, hbetween.2, ?_⟩
  obtain ⟨M, hM⟩ : ∃ M, M = max |q| |r| := ⟨_, rfl⟩
  have hqM : |q| ≤ M := hM ▸ le_max_left _ _
  have hrM : |r| ≤ M := hM ▸ le_max_right _ _
  have hsumM : |q + binary32.rnd (f * binary32.rnd (r - q))| ≤ M := by
    rw [abs_le] at hqM hrM ⊢
    exact ⟨(le_min hqM.1 hrM.1).trans hmin, hmaxle.trans (max_le hqM.2 hrM.2)⟩
  have hlast := abs_rnd_sub_le_of_units (F := binary32) (by decide)
    (hq.units_sub (fits_of_toRat (F := binary32) (by decide) hmul).neg)
  rw [sub_neg_eq_add] at hlast
  have hnear := share_near hf0 (hf1.trans (by norm_num)) hunits
    (show |r - q| ≤ 2 * M from (abs_sub _ _).trans (by linarith))
  rw [← hM]
  calc |binary32.rnd (q + binary32.rnd (f * binary32.rnd (r - q))) - (q + f * (r - q))|
      ≤ |binary32.rnd (q + binary32.rnd (f * binary32.rnd (r - q))) -
          (q + binary32.rnd (f * binary32.rnd (r - q)))| +
        |q + binary32.rnd (f * binary32.rnd (r - q)) - (q + f * (r - q))| := abs_sub_le _ _ _
    _ ≤ M / 2 ^ 24 + (5 * M / 2 ^ 24 + 1 / 2 ^ 150) := by
        rw [add_sub_add_left_eq_sub]
        exact add_le_add (hlast.trans (div_le_div_of_nonneg_right hsumM (by positivity))) hnear
    _ ≤ M / 2 ^ 21 + 1 / 2 ^ 150 := by
        have hM0 : 0 ≤ M := (abs_nonneg q).trans hqM
        linarith

/-- Between two slots of a table `lookupi` returns a number between theirs, near the one that the
lower half of the phase selects. -/
theorem lookupi_spec (m : Memory 64) (table : Addr) (phase mask : BitVec 32) {q r : ℚ}
    (hslot : toRat (tableAt m table (slotOf phase mask)) = some q)
    (hnext : toRat (tableAt m table (slotOf phase mask + 1)) = some r)
    (hmax : |r - q| < binary32.overflow) :
    ∃ p, toRat (lookupi m table phase mask) = some p ∧ min q r ≤ p ∧ p ≤ max q r ∧
      |p - (q + ((phase.toNat % 2 ^ 16 : ℕ) : ℚ) / 2 ^ 16 * (r - q))| ≤
        max |q| |r| / 2 ^ 21 + 1 / 2 ^ 150 := by
  have hfrac := dev_phaseFrac_eq phase
  obtain ⟨k, hk⟩ : ∃ k, phase.toNat % 2 ^ 16 = k := ⟨_, rfl⟩
  have hlow := Nat.mod_lt phase.toNat (show 0 < 2 ^ 16 by decide)
  rw [hk] at hfrac hlow ⊢
  have hle : (k : ℚ) ≤ 65535 := by exact_mod_cast Nat.le_of_lt_succ hlow
  apply lininterp_spec hfrac hslot hnext (by positivity) _ hmax
  rw [div_le_iff₀ (by positivity)]
  linarith

-- A table at 4096 of four slots, a quarter of the way from the second, 1, to the third, 3.
theorem lookupi_spec_quarter :
    ∃ p, toRat (lookupi (storeBytes (fun _ ↦ 0) 4100 (wordBytes [0x3F800000#32, 0x40400000#32]))
      4096 0x14000 3) = some p ∧ min 1 3 ≤ p ∧ p ≤ max 1 3 ∧
        |p - (1 + ((0x4000 : ℕ) : ℚ) / 2 ^ 16 * (3 - 1))| ≤ max |1| |3| / 2 ^ 21 + 1 / 2 ^ 150 :=
  lookupi_spec _ 4096 0x14000 3 (by decide +kernel) (by decide +kernel) (by decide +kernel)

/-! ## 4. Cubic interpolation -/

/-- The cubic through the two middle samples, whose slopes there are those of the chords between
their neighbours. -/
structure Hermite (P : Polynomial ℚ) (y0 y1 y2 y3 : ℚ) : Prop where
  degree : P.natDegree < 4
  left : P.eval 0 = y1
  right : P.eval 1 = y2
  leftSlope : P.derivative.eval 0 = (y2 - y0) / 2
  rightSlope : P.derivative.eval 1 = (y3 - y1) / 2

theorem Hermite.eval_eq {P : Polynomial ℚ} {y0 y1 y2 y3 : ℚ} (h : Hermite P y0 y1 y2 y3) (x : ℚ) :
    P.eval x = (((1 / 2 * (y3 - y0) + 3 / 2 * (y1 - y2)) * x +
      (y0 - 5 / 2 * y1 + 2 * y2 - 1 / 2 * y3)) * x + 1 / 2 * (y2 - y0)) * x + y1 := by
  have hvalue : ∀ x, P.eval x = P.coeff 0 + P.coeff 1 * x + P.coeff 2 * x ^ 2 +
      P.coeff 3 * x ^ 3 := by
    intro x
    rw [Polynomial.eval_eq_sum_range' h.degree]
    simp [Finset.sum_range_succ]
  have hslope : ∀ x, P.derivative.eval x = P.coeff 1 + P.coeff 2 * 2 * x +
      P.coeff 3 * 3 * x ^ 2 := by
    intro x
    have hdegree : P.derivative.natDegree < 3 := by
      have := Polynomial.natDegree_derivative_le P
      have := h.degree
      omega
    rw [Polynomial.eval_eq_sum_range' hdegree]
    simp [Finset.sum_range_succ, Polynomial.coeff_derivative]
    ring
  have hleft := h.left
  have hright := h.right
  have hleftSlope := h.leftSlope
  have hrightSlope := h.rightSlope
  rw [hvalue] at hleft hright
  rw [hslope] at hleftSlope hrightSlope
  norm_num at hleft hright hleftSlope hrightSlope
  have h2 : P.coeff 2 = y0 - 5 / 2 * y1 + 2 * y2 - 1 / 2 * y3 := by linarith
  have h3 : P.coeff 3 = 1 / 2 * (y3 - y0) + 3 / 2 * (y1 - y2) := by linarith
  rw [hvalue, hleft, hleftSlope, h2, h3]
  ring

section Cubic

variable {x y0 y1 y2 y3 : CFloat} {t q0 q1 q2 q3 M : ℚ}

-- A chord of two samples, weighted.
theorem chord_near (h : binary32.Moderate M) {k y z : CFloat} {a q r : ℚ}
    (hk : toRat (F := binary32) k = some a) (ha : |a| ≤ 3 / 2)
    (hy : toRat (F := binary32) y = some q) (hz : toRat (F := binary32) z = some r)
    (hq : |q| ≤ M) (hr : |r| ≤ M) :
    Near (F := binary32) (binary32.mul k (binary32.sub y z)) (a * (q - r)) (9 * (M / 2 ^ 24)) := by
  have hsize : |q - r| ≤ 2 * M := (abs_sub q r).trans (by linarith)
  have hsub := h.sub (by decide) (f := 2) (near_exact hy M) (near_exact hz M) hsize (e := 2)
    (by norm_num) (by norm_num) (by norm_num)
  exact h.mul (by decide) hk ha hsub hsize (e := 3) (by norm_num) (by norm_num) (by norm_num)

-- The coefficient `c2`.
theorem quadratic_near (h : binary32.Moderate M) (h0 : toRat (F := binary32) y0 = some q0)
    (h1 : toRat (F := binary32) y1 = some q1) (h2 : toRat (F := binary32) y2 = some q2)
    (h3 : toRat (F := binary32) y3 = some q3) (hq0 : |q0| ≤ 1 * M) (hq1 : |q1| ≤ 1 * M)
    (hq2 : |q2| ≤ 1 * M) (hq3 : |q3| ≤ 1 * M) :
    Near (F := binary32) (binary32.sub (binary32.add (binary32.sub y0
      (binary32.mul (binary32.ofRat (5 / 2)) y1)) (binary32.mul (binary32.ofRat 2) y2))
      (binary32.mul (binary32.ofRat (1 / 2)) y3))
      (q0 - 5 / 2 * q1 + 2 * q2 - 1 / 2 * q3) (26 * (M / 2 ^ 24)) := by
  have hhalf : toRat (binary32.ofRat (1 / 2)) = some (1 / 2) := by decide +kernel
  have hfive : toRat (binary32.ofRat (5 / 2)) = some (5 / 2) := by decide +kernel
  have htwo : toRat (binary32.ofRat 2) = some 2 := by decide +kernel
  have hm1 := h.mul (by decide) (f := 4) hfive (k := 5 / 2) (by norm_num) (near_exact h1 M) hq1
    (e := 1) (by norm_num) (by norm_num) (by norm_num)
  have hm2 := h.mul (by decide) (f := 3) htwo (k := 2) (by norm_num) (near_exact h2 M) hq2 (e := 1)
    (by norm_num) (by norm_num) (by norm_num)
  have hm3 := h.mul (by decide) (f := 2) hhalf (k := 1 / 2) (by norm_num) (near_exact h3 M) hq3
    (e := 1) (by norm_num) (by norm_num) (by norm_num)
  rw [abs_le] at hq0 hq1 hq2 hq3
  have ha1 := h.sub (by decide) (f := 8) (near_exact h0 M) hm1 (c := 7 / 2)
    (abs_le.mpr ⟨by linarith, by linarith⟩) (e := 4) (by norm_num) (by norm_num) (by norm_num)
  have ha2 := h.add (by decide) (f := 17) ha1 hm2 (c := 11 / 2)
    (abs_le.mpr ⟨by linarith, by linarith⟩) (e := 6) (by norm_num) (by norm_num) (by norm_num)
  exact h.sub (by decide) ha2 hm3 (c := 6) (abs_le.mpr ⟨by linarith, by linarith⟩) (e := 7)
    (by norm_num) (by norm_num) (by norm_num)

-- Horner's rule, from coefficients that are near.
theorem horner_near (h : binary32.Moderate M) {c1 c2 c3 : CFloat} {p1 p2 p3 : ℚ}
    (hx : toRat (F := binary32) x = some t) (ht : |t| ≤ 1)
    (h0 : toRat (F := binary32) y1 = some q1) (h1 : Near (F := binary32) c1 p1 (9 * (M / 2 ^ 24)))
    (h2 : Near (F := binary32) c2 p2 (26 * (M / 2 ^ 24)))
    (h3 : Near (F := binary32) c3 p3 (23 * (M / 2 ^ 24))) (hq1 : |q1| ≤ 1 * M)
    (hp1 : |p1| ≤ 1 * M) (hp2 : |p2| ≤ 6 * M) (hp3 : |p3| ≤ 4 * M) :
    Near (F := binary32) (binary32.add (binary32.mul (binary32.add (binary32.mul (binary32.add
      (binary32.mul c3 x) c2) x) c1) x) y1) (((p3 * t + p2) * t + p1) * t + q1)
      (125 * (M / 2 ^ 24)) := by
  have hstep : ∀ {q r b c : ℚ}, |q| ≤ b * M → |r| ≤ c * M → |q * t + r| ≤ (b + c) * M := by
    intro q r b c hq hr
    have hqt : |q * t| ≤ b * M := by
      rw [abs_mul]
      exact (mul_le_of_le_one_right (abs_nonneg q) ht).trans hq
    rw [add_mul]
    exact (abs_add_le _ _).trans (add_le_add hqt hr)
  have hz2 := hstep hp3 hp2
  have hz1 := hstep hz2 hp1
  have hm3 := h.mulRight (by decide) (f := 29) h3 hp3 hx ht (e := 5) (by norm_num) (by norm_num)
    (by norm_num)
  have ha2 := h.add (by decide) (f := 66) hm3 h2 hz2 (e := 11) (by norm_num) (by norm_num)
    (by norm_num)
  have hm2 := h.mulRight (by decide) (f := 78) ha2 hz2 hx ht (e := 11) (by norm_num) (by norm_num)
    (by norm_num)
  have ha1 := h.add (by decide) (f := 99) hm2 h1 hz1 (e := 12) (by norm_num) (by norm_num)
    (by norm_num)
  have hm1 := h.mulRight (by decide) (f := 112) ha1 hz1 hx ht (e := 12) (by norm_num) (by norm_num)
    (by norm_num)
  exact h.add (by decide) hm1 (near_exact h0 M) (hstep hz1 hq1) (e := 13)
    (by norm_num) (by norm_num) (by norm_num)

/-- For samples of a moderate size `cubicinterp` is within a 2^17th of it from the cubic. -/
theorem cubicinterp_near (hx : toRat (F := binary32) x = some t)
    (h0 : toRat (F := binary32) y0 = some q0) (h1 : toRat (F := binary32) y1 = some q1)
    (h2 : toRat (F := binary32) y2 = some q2) (h3 : toRat (F := binary32) y3 = some q3)
    (ht0 : 0 ≤ t) (ht1 : t ≤ 1) (hM : binary32.Moderate M) (hq0 : |q0| ≤ M) (hq1 : |q1| ≤ M)
    (hq2 : |q2| ≤ M) (hq3 : |q3| ≤ M) {P : Polynomial ℚ} (hP : Hermite P q0 q1 q2 q3) :
    ∃ p, toRat (F := binary32) (cubicinterp x y0 y1 y2 y3) = some p ∧
      |p - P.eval t| ≤ M / 2 ^ 17 := by
  have hhalf : toRat (binary32.ofRat (1 / 2)) = some (1 / 2) := by decide +kernel
  have hthree : toRat (binary32.ofRat (3 / 2)) = some (3 / 2) := by decide +kernel
  have hc1 := chord_near hM hhalf (by norm_num) h2 h0 hq2 hq0
  have hd1 := chord_near hM hhalf (by norm_num) h3 h0 hq3 hq0
  have hd2 := chord_near hM hthree (by norm_num) h1 h2 hq1 hq2
  rw [← one_mul M] at hq0 hq1 hq2 hq3
  have hc2 := quadratic_near hM h0 h1 h2 h3 hq0 hq1 hq2 hq3
  have hz1 := hq1
  rw [abs_le] at hq0 hq1 hq2 hq3
  have hz3 : |1 / 2 * (q3 - q0) + 3 / 2 * (q1 - q2)| ≤ 4 * M :=
    abs_le.mpr ⟨by linarith, by linarith⟩
  have hc3 := hM.add (by decide) (f := 23) hd1 hd2 hz3 (e := 5) (by norm_num) (by norm_num)
    (by norm_num)
  obtain ⟨p, hp, hnear⟩ := horner_near hM hx (abs_le.mpr ⟨by linarith, ht1⟩) h1 hc1 hc2 hc3 hz1
    (abs_le.mpr ⟨by linarith, by linarith⟩) (abs_le.mpr ⟨by linarith, by linarith⟩) hz3
  refine ⟨p, hp, ?_⟩
  rw [hP.eval_eq]
  refine hnear.trans ?_
  have hM0 := hM.nonneg
  linarith

end Cubic

-- Half way between the second and the third of four samples on a line.
theorem cubicinterp_near_line :
    ∃ p, toRat (cubicinterp 0x3F000000#32 0#32 0x3F800000#32 0x40000000#32 0x40400000#32) =
      some p ∧ |p - (Polynomial.X + 1 : Polynomial ℚ).eval (1 / 2)| ≤ 3 / 2 ^ 17 := by
  have hline : Hermite (Polynomial.X + 1) 0 1 2 3 := by
    refine ⟨?_, by simp, by norm_num, by norm_num, by norm_num⟩
    rw [← Polynomial.C_1, Polynomial.natDegree_X_add_C]
    decide
  have hzero : toRat (F := binary32) 0#32 = some 0 := by decide +kernel
  have hone : toRat (F := binary32) 0x3F800000#32 = some 1 := by decide +kernel
  have htwo : toRat (F := binary32) 0x40000000#32 = some 2 := by decide +kernel
  have hthree : toRat (F := binary32) 0x40400000#32 = some 3 := by decide +kernel
  exact cubicinterp_near (by decide +kernel) hzero hone htwo hthree (by norm_num) (by norm_num)
    ⟨by decide +kernel, by decide +kernel⟩ (by norm_num) (by norm_num) (by norm_num) (by norm_num)
    hline

end Scnim.Dev
