import Mathlib.Data.BitVec
import Mathlib.Data.Nat.Bitwise
import Mathlib.Dynamics.PeriodicPts.Lemmas
import Mathlib.Tactic.Ring

/-!
# Linear maps on words

Words with exclusive or are a vector space over the two bits.  A polynomial, whose coefficients are
the bits of a number, stands for a combination of the powers of a linear map; when the map is a root
of a polynomial of degree `d`, all its powers come from numbers of `d` bits, and so does its period.
-/

namespace Machine

variable {w : ℕ}

/-! ## 1. Linear maps -/

def XorLinear (f : BitVec w → BitVec w) : Prop := ∀ x y, f (x ^^^ y) = f x ^^^ f y

namespace XorLinear

variable {f g : BitVec w → BitVec w}

theorem map_zero (hf : XorLinear f) : f 0#w = 0#w := by
  have h := hf 0#w 0#w
  rwa [BitVec.xor_self, BitVec.xor_self] at h

theorem comp (hf : XorLinear f) (hg : XorLinear g) : XorLinear (f ∘ g) := by
  intro x y
  simp only [Function.comp_apply]
  rw [hg, hf]

theorem xor (hf : XorLinear f) (hg : XorLinear g) : XorLinear fun x ↦ f x ^^^ g x := by
  intro x y
  simp only [hf x y, hg x y]
  ac_rfl

theorem shiftLeft (n : ℕ) : XorLinear fun x : BitVec w ↦ x <<< n :=
  fun x y ↦ BitVec.shiftLeft_xor_distrib x y n

theorem ushiftRight (n : ℕ) : XorLinear fun x : BitVec w ↦ x >>> n :=
  fun x y ↦ BitVec.ushiftRight_xor_distrib x y n

theorem and_right (m : BitVec w) : XorLinear fun x : BitVec w ↦ x &&& m := by
  intro x y
  ext i
  simp only [BitVec.getElem_and, BitVec.getElem_xor]
  cases m[i] <;> simp

theorem iterate (hf : XorLinear f) (n : ℕ) : XorLinear f^[n] := by
  induction n with
  | zero => exact fun _ _ ↦ rfl
  | succ n ih =>
      rw [Function.iterate_succ']
      exact hf.comp ih

theorem injective (hf : XorLinear f) (hzero : ∀ x, f x = 0#w → x = 0#w) :
    Function.Injective f := by
  intro x y hxy
  apply BitVec.xor_eq_zero_iff.mp
  apply hzero
  rw [hf, hxy, BitVec.xor_self]

-- The difference between a stream and the same stream later.
theorem iterate_shift (hf : XorLinear f) (n p : ℕ) (x : BitVec w) :
    f^[n] (f (f^[p] x ^^^ x)) = f^[n + p] (f x) ^^^ f^[n] (f x) := by
  rw [hf, hf.iterate n, ← Function.iterate_succ_apply' f p x, Function.iterate_succ_apply,
    ← Function.iterate_add_apply]

-- A linear map that kills the single bits kills every word; by induction on the highest bit.
theorem eq_zero (hf : XorLinear f) (hbits : ∀ i < w, f (BitVec.twoPow w i) = 0#w) (x : BitVec w) :
    f x = 0#w := by
  have hlow : ∀ n, n ≤ w → ∀ x : BitVec w, (∀ i, n ≤ i → x.getLsbD i = false) → f x = 0#w := by
    intro n
    induction n with
    | zero =>
        intro _ x hx
        rw [show x = 0#w from BitVec.eq_of_getLsbD_eq fun i _ ↦ by
          rw [hx i (Nat.zero_le i), BitVec.getLsbD_zero]]
        exact hf.map_zero
    | succ n ih =>
        intro hn x hx
        by_cases hbit : x.getLsbD n = true
        · have hsplit : x = (x ^^^ BitVec.twoPow w n) ^^^ BitVec.twoPow w n := by
            rw [BitVec.xor_assoc, BitVec.xor_self, BitVec.xor_zero]
          rw [hsplit, hf, hbits n (by omega), BitVec.xor_zero]
          apply ih (by omega)
          intro i hi
          rw [BitVec.getLsbD_xor, BitVec.getLsbD_twoPow]
          by_cases hin : n = i
          · subst hin
            simp [hbit, show n < w by omega]
          · rw [hx i (by omega)]
            simp [hin]
        · apply ih (by omega)
          intro i hi
          by_cases hin : n = i
          · subst hin
            simpa using hbit
          · exact hx i (by omega)
  exact hlow w le_rfl x fun i hi ↦ BitVec.getLsbD_of_ge x i hi

end XorLinear

theorem ushiftRight_eq_zero_iff {n : ℕ} (x : BitVec w) : x >>> n = 0#w ↔ x.toNat < 2 ^ n := by
  rw [← BitVec.toNat_inj, BitVec.toNat_ushiftRight, Nat.shiftRight_eq_div_pow, BitVec.toNat_ofNat,
    Nat.zero_mod, Nat.div_eq_zero_iff_lt (Nat.two_pow_pos n)]

-- A mask of all but the lowest bits keeps what a shift keeps.
theorem and_not_mask_eq_zero_iff {n : ℕ} (hn : n < w) (x : BitVec w) :
    x &&& ~~~(BitVec.ofNat w (2 ^ n - 1)) = 0#w ↔ x >>> n = 0#w := by
  have hmask : (BitVec.ofNat w (2 ^ n - 1)).toNat = 2 ^ n - 1 := by
    have hlt := Nat.pow_lt_pow_right (show 1 < 2 by decide) hn
    have hpos := Nat.two_pow_pos n
    rw [BitVec.toNat_ofNat, Nat.mod_eq_of_lt (by omega)]
  have hlow : (x &&& BitVec.ofNat w (2 ^ n - 1)).toNat = x.toNat % 2 ^ n := by
    rw [BitVec.toNat_and, hmask, Nat.and_two_pow_sub_one_eq_mod]
  have hsplit : x = (x &&& ~~~(BitVec.ofNat w (2 ^ n - 1))) ^^^
      (x &&& BitVec.ofNat w (2 ^ n - 1)) := by
    ext i
    simp only [BitVec.getElem_xor, BitVec.getElem_and, BitVec.getElem_not]
    cases (BitVec.ofNat w (2 ^ n - 1))[i] <;> simp
  rw [ushiftRight_eq_zero_iff]
  constructor
  · intro hzero
    rw [hzero, BitVec.zero_xor] at hsplit
    rw [hsplit, hlow]
    exact Nat.mod_lt _ (Nat.two_pow_pos n)
  · intro hlt
    have hall : x &&& BitVec.ofNat w (2 ^ n - 1) = x := by
      apply BitVec.eq_of_toNat_eq
      rw [hlow, Nat.mod_eq_of_lt hlt]
    rw [hall] at hsplit
    have hself := BitVec.xor_eq_zero_iff.mpr hsplit
    rwa [BitVec.xor_comm, BitVec.xor_assoc, BitVec.xor_self, BitVec.xor_zero] at hself

/-! ## 2. Polynomials in a linear map -/

/-- The combination of the first `n` powers of the map that the bits of the number select. -/
def polyApply (f : BitVec w → BitVec w) : ℕ → ℕ → BitVec w → BitVec w
  | 0, _, _ => 0#w
  | n + 1, p, x => (if p % 2 = 1 then x else 0#w) ^^^ polyApply f n (p / 2) (f x)

section Apply

variable {f : BitVec w → BitVec w}

theorem polyApply_zero (f : BitVec w → BitVec w) (n : ℕ) (x : BitVec w) :
    polyApply f n 0 x = 0#w := by
  induction n generalizing x with
  | zero => rfl
  | succ n ih =>
      rw [polyApply, Nat.zero_div, ih]
      simp

theorem polyApply_xor (f : BitVec w → BitVec w) (n p q : ℕ) (x : BitVec w) :
    polyApply f n (p ^^^ q) x = polyApply f n p x ^^^ polyApply f n q x := by
  induction n generalizing p q x with
  | zero => simp [polyApply]
  | succ n ih =>
      have hselect : (if (p ^^^ q) % 2 = 1 then x else 0#w) =
          (if p % 2 = 1 then x else 0#w) ^^^ (if q % 2 = 1 then x else 0#w) := by
        simp only [Nat.xor_mod_two_eq_one]
        by_cases hp : p % 2 = 1 <;> by_cases hq : q % 2 = 1 <;> simp [hp, hq]
      rw [polyApply, polyApply, polyApply, Nat.xor_div_two, ih, hselect]
      ac_rfl

theorem polyApply_map (hf : XorLinear f) (n p : ℕ) (x : BitVec w) :
    polyApply f n p (f x) = f (polyApply f n p x) := by
  induction n generalizing p x with
  | zero => exact hf.map_zero.symm
  | succ n ih =>
      rw [polyApply, polyApply, hf, ih]
      split
      · rfl
      · rw [hf.map_zero]

theorem polyApply_linear (hf : XorLinear f) (n p : ℕ) : XorLinear (polyApply f n p) := by
  induction n generalizing p with
  | zero => exact fun _ _ ↦ by simp [polyApply]
  | succ n ih =>
      intro x y
      simp only [polyApply]
      rw [hf, ih]
      split
      · ac_rfl
      · simp

theorem polyApply_succ {n p : ℕ} (hp : p < 2 ^ n) (x : BitVec w) :
    polyApply f (n + 1) p x = polyApply f n p x := by
  induction n generalizing p x with
  | zero =>
      rw [show p = 0 by omega, polyApply_zero, polyApply_zero]
  | succ n ih =>
      rw [polyApply, ih (by rw [pow_succ] at hp; omega)]
      rfl

theorem polyApply_double (f : BitVec w → BitVec w) (n p : ℕ) (x : BitVec w) :
    polyApply f (n + 1) (2 * p) x = polyApply f n p (f x) := by
  rw [polyApply, if_neg (by omega), BitVec.zero_xor, Nat.mul_div_cancel_left p Nat.two_pos]

theorem polyApply_one {n : ℕ} (hn : 0 < n) (x : BitVec w) : polyApply f n 1 x = x := by
  obtain ⟨n, rfl⟩ := Nat.exists_eq_succ_of_ne_zero hn.ne'
  rw [Nat.succ_eq_add_one, polyApply, if_pos rfl, polyApply_zero, BitVec.xor_zero]

end Apply

/-! ## 3. Arithmetic modulo a polynomial -/

-- Twice a polynomial of less than `d` bits, modulo `q` of `d + 1` bits.
def polyDouble (q d p : ℕ) : ℕ := if 2 ^ d ≤ 2 * p then 2 * p ^^^ q else 2 * p

-- The product of the lowest `n` bits of `p` with `r`.
def polyMul (q d : ℕ) : ℕ → ℕ → ℕ → ℕ
  | 0, _, _ => 0
  | n + 1, p, r => (if p % 2 = 1 then r else 0) ^^^ polyDouble q d (polyMul q d n (p / 2) r)

-- The power `m` of the variable, for `m` of `n` bits.
def polyPow (q d : ℕ) : ℕ → ℕ → ℕ
  | 0, _ => 1
  | n + 1, m =>
      let root := polyPow q d n (m / 2)
      let square := polyMul q d d root root
      if m % 2 = 1 then polyDouble q d square else square

/-- The map is a root of the polynomial, which has the degree `d`. -/
structure IsRoot (f : BitVec w → BitVec w) (q d : ℕ) : Prop where
  linear : XorLinear f
  lower : 2 ^ d ≤ q
  upper : q < 2 ^ (d + 1)
  root : ∀ x, polyApply f (d + 1) q x = 0#w

namespace IsRoot

variable {f : BitVec w → BitVec w} {q d : ℕ}

-- On the single bits it can be computed.
theorem of_bits (hf : XorLinear f) (hlower : 2 ^ d ≤ q) (hupper : q < 2 ^ (d + 1))
    (hbits : ∀ i < w, polyApply f (d + 1) q (BitVec.twoPow w i) = 0#w) : IsRoot f q d :=
  ⟨hf, hlower, hupper, (polyApply_linear hf _ _).eq_zero hbits⟩

-- Below the leading bit nothing of the sum of two polynomials of the same degree is left.
theorem xor_lt {n a b : ℕ} (ha : 2 ^ n ≤ a) (ha' : a < 2 ^ (n + 1)) (hb : 2 ^ n ≤ b)
    (hb' : b < 2 ^ (n + 1)) : a ^^^ b < 2 ^ n := by
  have hone : ∀ {c}, 2 ^ n ≤ c → c < 2 ^ (n + 1) → c / 2 ^ n = 1 := by
    intro c hc hc'
    rw [pow_succ] at hc'
    exact Nat.div_eq_of_lt_le (by omega) (by omega)
  apply Nat.lt_of_div_eq_zero (Nat.two_pow_pos n)
  rw [Nat.xor_div_two_pow, hone ha ha', hone hb hb']
  rfl

theorem double (h : IsRoot f q d) {p : ℕ} (hp : p < 2 ^ d) :
    polyDouble q d p < 2 ^ d ∧
      ∀ x, polyApply f d (polyDouble q d p) x = polyApply f d p (f x) := by
  have htwice : 2 * p < 2 ^ (d + 1) := by rw [pow_succ]; omega
  unfold polyDouble
  split
  · next hle =>
      have hlt := xor_lt hle htwice h.lower h.upper
      refine ⟨hlt, fun x ↦ ?_⟩
      rw [← polyApply_succ hlt, polyApply_xor, h.root, BitVec.xor_zero, polyApply_double]
  · next hlt =>
      refine ⟨by omega, fun x ↦ ?_⟩
      rw [← polyApply_succ (by omega), polyApply_double]

theorem mul (h : IsRoot f q d) {n p r : ℕ} (hr : r < 2 ^ d) :
    polyMul q d n p r < 2 ^ d ∧
      ∀ x, polyApply f d (polyMul q d n p r) x = polyApply f n p (polyApply f d r x) := by
  induction n generalizing p with
  | zero =>
      refine ⟨Nat.two_pow_pos d, fun x ↦ ?_⟩
      rw [polyMul, polyApply_zero]
      rfl
  | succ n ih =>
      obtain ⟨hlt, happly⟩ := ih (p := p / 2)
      obtain ⟨hlt', happly'⟩ := h.double hlt
      constructor
      · apply Nat.xor_lt_two_pow _ hlt'
        split
        · exact hr
        · exact Nat.two_pow_pos d
      · intro x
        rw [polyMul, polyApply_xor, happly', happly, polyApply_map h.linear, polyApply]
        split
        · rfl
        · rw [polyApply_zero]

theorem pow (h : IsRoot f q d) (hd : 0 < d) {n m : ℕ} (hm : m < 2 ^ n) :
    polyPow q d n m < 2 ^ d ∧ ∀ x, polyApply f d (polyPow q d n m) x = f^[m] x := by
  induction n generalizing m with
  | zero =>
      rw [show m = 0 by omega, polyPow]
      exact ⟨Nat.one_lt_two_pow hd.ne', polyApply_one hd⟩
  | succ n ih =>
      obtain ⟨hlt, happly⟩ := ih (m := m / 2) (by rw [pow_succ] at hm; omega)
      obtain ⟨hlt', happly'⟩ := h.mul (n := d) (p := polyPow q d n (m / 2)) hlt
      have hsquare : ∀ x, polyApply f d (polyMul q d d (polyPow q d n (m / 2))
          (polyPow q d n (m / 2))) x = f^[m / 2 + m / 2] x := by
        intro x
        rw [happly', happly, happly, Function.iterate_add_apply]
      simp only [polyPow]
      split
      · obtain ⟨hlt'', happly''⟩ := h.double hlt'
        refine ⟨hlt'', fun x ↦ ?_⟩
        rw [happly'', hsquare, ← Function.iterate_succ_apply]
        congr 1
        omega
      · refine ⟨hlt', fun x ↦ ?_⟩
        rw [hsquare]
        congr 1
        omega

-- With a constant coefficient, only zero can be mapped to zero.
theorem eq_zero (h : IsRoot f q d) (hodd : q % 2 = 1) {x : BitVec w} (hx : f x = 0#w) :
    x = 0#w := by
  have hroot := h.root x
  rw [polyApply, if_pos hodd, hx, (polyApply_linear h.linear d (q / 2)).map_zero,
    BitVec.xor_zero] at hroot
  exact hroot

-- A map that ignores the lowest bits, and together with them is a root of a polynomial with a
-- constant coefficient, maps only what these bits make up to zero.
theorem eq_zero_iff (hf : XorLinear f) {n : ℕ} (hn : n < w)
    (hmask : ∀ x, f (x &&& BitVec.ofNat w (2 ^ n - 1)) = 0#w)
    (h : IsRoot (fun x ↦ f x ^^^ (x &&& BitVec.ofNat w (2 ^ n - 1))) q d) (hodd : q % 2 = 1)
    (x : BitVec w) : f x = 0#w ↔ x >>> n = 0#w := by
  obtain ⟨m, hm⟩ : ∃ m, m = BitVec.ofNat w (2 ^ n - 1) := ⟨_, rfl⟩
  rw [← and_not_mask_eq_zero_iff hn, ← hm]
  rw [← hm] at hmask h
  have hsplit : x = (x &&& ~~~m) ^^^ (x &&& m) := by
    ext i
    simp only [BitVec.getElem_xor, BitVec.getElem_and, BitVec.getElem_not]
    cases m[i] <;> simp
  have hdisjoint : x &&& ~~~m &&& m = 0#w := by
    ext i
    simp only [BitVec.getElem_and, BitVec.getElem_not, BitVec.getElem_zero]
    cases m[i] <;> simp
  have hkept : f x = f (x &&& ~~~m) := by
    conv_lhs => rw [hsplit]
    rw [hf, hmask, BitVec.xor_zero]
  rw [hkept]
  constructor
  · intro hzero
    apply h.eq_zero hodd
    rw [hzero, hdisjoint, BitVec.xor_zero]
  · intro hzero
    rw [hzero, hf.map_zero]

end IsRoot

/-! ## 4. Periods -/

/-- What shows that every word the map reaches comes back after `period` steps and not before: the
power `period + 1` is the map itself, and for every prime divisor of the period, the power that
would be too short differs from the identity by a polynomial with an inverse. -/
structure FullPeriod (f : BitVec w → BitVec w) (q d n period : ℕ) : Prop where
  isRoot : IsRoot f q d
  degree : 1 < d
  bits : period + 1 < 2 ^ n
  nontrivial : 1 < period
  returns : polyPow q d n (period + 1) = 2
  inverse : ∀ r, r.Prime → r ∣ period → ∃ p,
    polyDouble q d (polyMul q d d p (polyPow q d n (period / r) ^^^ 1)) = 2

namespace FullPeriod

variable {f : BitVec w → BitVec w} {q d n period : ℕ}

theorem polyApply_two (h : FullPeriod f q d n period) (x : BitVec w) :
    polyApply f d 2 x = f x := by
  obtain ⟨d', rfl⟩ : ∃ d', d = d' + 1 := ⟨d - 1, by have := h.degree; omega⟩
  rw [show 2 = 2 * 1 by rfl, polyApply_double, polyApply_one (by have := h.degree; omega)]

theorem isPeriodicPt (h : FullPeriod f q d n period) (x : BitVec w) :
    Function.IsPeriodicPt f period (f x) := by
  have hpow := (h.isRoot.pow (Nat.zero_lt_of_lt h.degree) h.bits).2 x
  rw [h.returns, h.polyApply_two, Function.iterate_succ_apply] at hpow
  exact hpow.symm

-- A word that comes back too early is zero.
theorem eq_zero (h : FullPeriod f q d n period) {r : ℕ} (hr : r.Prime) (hdvd : r ∣ period)
    {x : BitVec w} (hx : Function.IsPeriodicPt f (period / r) (f x)) : f x = 0#w := by
  obtain ⟨p, hp⟩ := h.inverse r hr hdvd
  have hbits : period / r < 2 ^ n :=
    (Nat.div_le_self _ _).trans_lt ((Nat.lt_succ_self _).trans h.bits)
  have hd := Nat.zero_lt_of_lt h.degree
  obtain ⟨hlt, hpow⟩ := h.isRoot.pow hd hbits
  have hdiff : polyApply f d (polyPow q d n (period / r) ^^^ 1) (f x) = 0#w := by
    rw [polyApply_xor, hpow, polyApply_one hd, hx, BitVec.xor_self]
  obtain ⟨hlt', hmul⟩ := h.isRoot.mul (n := d) (p := p)
    (Nat.xor_lt_two_pow hlt (Nat.one_lt_two_pow hd.ne'))
  calc f x = polyApply f d 2 x := (h.polyApply_two x).symm
    _ = polyApply f d (polyMul q d d p (polyPow q d n (period / r) ^^^ 1)) (f x) := by
        rw [← hp, (h.isRoot.double hlt').2]
    _ = polyApply f d p 0#w := by rw [hmul, hdiff]
    _ = 0#w := (polyApply_linear h.isRoot.linear d p).map_zero

/-- Every word that the map reaches, except zero, has the full period. -/
theorem minimalPeriod_eq (h : FullPeriod f q d n period) {x : BitVec w} (hx : f x ≠ 0#w) :
    Function.minimalPeriod f (f x) = period := by
  obtain ⟨a, ha⟩ := (h.isPeriodicPt x).minimalPeriod_dvd
  have hone : a = 1 := by
    by_contra hne
    have hprime := Nat.minFac_prime hne
    obtain ⟨b, hb⟩ := a.minFac_dvd
    have hperiod : period = a.minFac * (Function.minimalPeriod f (f x) * b) := by
      rw [ha]
      nth_rewrite 1 [hb]
      ring
    refine hx (h.eq_zero hprime ⟨_, hperiod⟩ ?_)
    rw [hperiod, Nat.mul_div_cancel_left _ hprime.pos]
    exact (Function.isPeriodicPt_minimalPeriod f (f x)).mul_const b
  rw [ha, hone, mul_one]

-- No word but zero stays where it is.
theorem eq_zero_of_fixed (h : FullPeriod f q d n period) {x : BitVec w} (hx : f x = x) :
    x = 0#w := by
  have hprime := Nat.minFac_prime h.nontrivial.ne'
  rw [← hx]
  apply h.eq_zero hprime period.minFac_dvd
  rw [hx]
  exact (show Function.IsFixedPt f x from hx).isPeriodicPt _

theorem iterate_ne_zero (h : FullPeriod f q d n period) {x : BitVec w} (hx : f x ≠ 0#w) :
    f (f x) ≠ 0#w := by
  intro hzero
  have hreturn : f^[period] (f x) = f x := h.isPeriodicPt x
  obtain ⟨p, hp⟩ : ∃ p, period = p + 1 := ⟨period - 1, by have := h.nontrivial; omega⟩
  rw [hp, Function.iterate_succ_apply, hzero, (h.isRoot.linear.iterate p).map_zero] at hreturn
  exact hx hreturn.symm

end FullPeriod

/-! ## 5. Sums of streams -/

section Sums

variable {f₁ f₂ f₃ : BitVec w → BitVec w} {q₁ d₁ n₁ p₁ q₂ d₂ n₂ p₂ q₃ d₃ n₃ p₃ : ℕ}

-- A stream that is the sum of two others has their period besides its own.
theorem sum_first_eq_zero (h₁ : FullPeriod f₁ q₁ d₁ n₁ p₁) (h₂ : FullPeriod f₂ q₂ d₂ n₂ p₂)
    (h₃ : FullPeriod f₃ q₃ d₃ n₃ p₃) (h₁₂ : p₁.Coprime p₂) (h₁₃ : p₁.Coprime p₃)
    (x₁ x₂ x₃ : BitVec w)
    (hsum : ∀ n, f₁^[n] (f₁ x₁) = f₂^[n] (f₂ x₂) ^^^ f₃^[n] (f₃ x₃)) : f₁ x₁ = 0#w := by
  have hother : Function.IsPeriodicPt f₁ (p₂ * p₃) (f₁ x₁) := by
    have hnow := hsum 0
    have hlater := hsum (p₂ * p₃)
    rw [(h₂.isPeriodicPt x₂).mul_const p₃, (h₃.isPeriodicPt x₃).const_mul p₂] at hlater
    exact hlater.trans hnow.symm
  have hone := (h₁.isPeriodicPt x₁).gcd hother
  rw [Nat.Coprime.gcd_eq_one (Nat.Coprime.mul_right h₁₂ h₁₃)] at hone
  exact h₁.eq_zero_of_fixed hone

/-- Streams with coprime periods only cancel out where each of them is zero. -/
theorem sum_eq_zero (h₁ : FullPeriod f₁ q₁ d₁ n₁ p₁) (h₂ : FullPeriod f₂ q₂ d₂ n₂ p₂)
    (h₃ : FullPeriod f₃ q₃ d₃ n₃ p₃) (h₁₂ : p₁.Coprime p₂) (h₁₃ : p₁.Coprime p₃)
    (h₂₃ : p₂.Coprime p₃) {x₁ x₂ x₃ : BitVec w}
    (hsum : ∀ n, f₁^[n] (f₁ x₁) ^^^ f₂^[n] (f₂ x₂) ^^^ f₃^[n] (f₃ x₃) = 0#w) :
    f₁ x₁ = 0#w ∧ f₂ x₂ = 0#w ∧ f₃ x₃ = 0#w := by
  refine ⟨sum_first_eq_zero h₁ h₂ h₃ h₁₂ h₁₃ x₁ x₂ x₃ fun n ↦ ?_,
    sum_first_eq_zero h₂ h₁ h₃ h₁₂.symm h₂₃ x₂ x₁ x₃ fun n ↦ ?_,
    sum_first_eq_zero h₃ h₁ h₂ h₁₃.symm h₂₃.symm x₃ x₁ x₂ fun n ↦ ?_⟩
  · exact BitVec.xor_eq_zero_iff.mp (by rw [← hsum n]; ac_rfl)
  · exact BitVec.xor_eq_zero_iff.mp (by rw [← hsum n]; ac_rfl)
  · exact BitVec.xor_eq_zero_iff.mp (by rw [← hsum n]; ac_rfl)

end Sums

/-! ## 6. How long a stream can be zero -/

/-- The combination of a stream and its first `n - 1` shifts that the bits of the number select. -/
def shiftApply (s : ℕ → BitVec w) : ℕ → ℕ → ℕ → BitVec w
  | 0, _, _ => 0#w
  | n + 1, p, k => (if p % 2 = 1 then s k else 0#w) ^^^ shiftApply s n (p / 2) (k + 1)

section Shifts

variable {f : BitVec w → BitVec w} {s t : ℕ → BitVec w} {q d : ℕ}

theorem shiftApply_zero {n : ℕ} (p k : ℕ) (hs : ∀ j < k + n, s j = 0#w) :
    shiftApply s n p k = 0#w := by
  induction n generalizing p k with
  | zero => rfl
  | succ n ih =>
      rw [shiftApply, ih _ _ fun j hj ↦ hs j (by omega), hs k (by omega)]
      simp

theorem shiftApply_xor (s t : ℕ → BitVec w) (n p k : ℕ) :
    shiftApply (fun k ↦ s k ^^^ t k) n p k = shiftApply s n p k ^^^ shiftApply t n p k := by
  induction n generalizing p k with
  | zero => simp [shiftApply]
  | succ n ih =>
      rw [shiftApply, shiftApply, shiftApply, ih]
      split
      · ac_rfl
      · simp

theorem shiftApply_iterate (hf : XorLinear f) (x : BitVec w) (n p k : ℕ) :
    shiftApply (fun k ↦ f^[k] x) n p k = f^[k] (polyApply f n p x) := by
  induction n generalizing p k with
  | zero => exact (hf.iterate k).map_zero.symm
  | succ n ih =>
      rw [shiftApply, polyApply, ih, hf.iterate k, Function.iterate_succ_apply, polyApply_map hf]
      split
      · rfl
      · rw [(hf.iterate k).map_zero]

-- Behind zeros only the leading bit counts.
theorem shiftApply_lead (hlow : 2 ^ d ≤ q) (hhigh : q < 2 ^ (d + 1)) {k : ℕ}
    (hs : ∀ j < k + d, s j = 0#w) : shiftApply s (d + 1) q k = s (k + d) := by
  induction d generalizing q k with
  | zero =>
      rw [show q = 1 by omega]
      simp [shiftApply]
  | succ d ih =>
      rw [pow_succ] at hlow hhigh
      rw [shiftApply, hs k (by omega), ih (by omega) (by omega) fun j hj ↦ hs j (by omega),
        Nat.add_right_comm, Nat.add_assoc]
      simp

theorem eq_zero_of_shiftApply (hlow : 2 ^ d ≤ q) (hhigh : q < 2 ^ (d + 1))
    (happly : ∀ k, shiftApply s (d + 1) q k = 0#w) (hs : ∀ k < d, s k = 0#w) (k : ℕ) :
    s k = 0#w := by
  induction k using Nat.strong_induction_on with
  | h k ih =>
      rcases lt_or_ge k d with hlt | hge
      · exact hs k hlt
      · obtain ⟨j, rfl⟩ := Nat.exists_eq_add_of_le' hge
        rw [← shiftApply_lead hlow hhigh ih, happly]

/-- A stream that is zero as long as all the degrees of its parts together is zero for ever, if the
same holds of what the polynomial of one part leaves of the others. -/
theorem IsRoot.eq_zero_of_first (h : IsRoot f q d) {m : ℕ}
    (ht : (∀ k < m, shiftApply t (d + 1) q k = 0#w) → ∀ k, shiftApply t (d + 1) q k = 0#w)
    {x : BitVec w} (hsum : ∀ k < m + d, t k ^^^ f^[k] x = 0#w) (k : ℕ) : t k ^^^ f^[k] x = 0#w := by
  have hleft : ∀ k, shiftApply (fun k ↦ t k ^^^ f^[k] x) (d + 1) q k =
      shiftApply t (d + 1) q k := by
    intro k
    rw [shiftApply_xor, shiftApply_iterate h.linear, h.root, (h.linear.iterate k).map_zero,
      BitVec.xor_zero]
  apply eq_zero_of_shiftApply (s := fun k ↦ t k ^^^ f^[k] x) h.lower h.upper
  · intro k
    rw [hleft]
    apply ht
    intro k hk
    rw [← hleft]
    exact shiftApply_zero q k fun j hj ↦ hsum j (by omega)
  · exact fun k hk ↦ hsum k (by omega)

end Shifts

theorem IsRoot.sum_eq_zero_of_first {f₁ f₂ f₃ : BitVec w → BitVec w} {q₁ d₁ q₂ d₂ q₃ d₃ : ℕ}
    (h₁ : IsRoot f₁ q₁ d₁) (h₂ : IsRoot f₂ q₂ d₂) (h₃ : IsRoot f₃ q₃ d₃) {x₁ x₂ x₃ : BitVec w}
    (hsum : ∀ k < d₁ + d₂ + d₃, f₁^[k] x₁ ^^^ f₂^[k] x₂ ^^^ f₃^[k] x₃ = 0#w) (k : ℕ) :
    f₁^[k] x₁ ^^^ f₂^[k] x₂ ^^^ f₃^[k] x₃ = 0#w := by
  have hone : ∀ x : BitVec w, (∀ k < d₁, f₁^[k] x = 0#w) → ∀ k, f₁^[k] x = 0#w := by
    intro x hx k
    have hzero := h₁.eq_zero_of_first (t := fun _ ↦ 0#w) (m := 0)
      (fun _ k ↦ shiftApply_zero q₁ k fun _ _ ↦ rfl)
      (fun k hk ↦ by rw [BitVec.zero_xor, hx k (by omega)]) k
    rwa [BitVec.zero_xor] at hzero
  have htwo : ∀ x y : BitVec w, (∀ k < d₁ + d₂, f₁^[k] x ^^^ f₂^[k] y = 0#w) →
      ∀ k, f₁^[k] x ^^^ f₂^[k] y = 0#w := by
    intro x y hxy
    apply h₂.eq_zero_of_first (t := fun k ↦ f₁^[k] x) (m := d₁) _ hxy
    simp only [shiftApply_iterate h₁.linear]
    exact hone _
  apply h₃.eq_zero_of_first (t := fun k ↦ f₁^[k] x₁ ^^^ f₂^[k] x₂) (m := d₁ + d₂) _ hsum
  simp only [shiftApply_xor, shiftApply_iterate h₁.linear, shiftApply_iterate h₂.linear]
  exact htwo _ _

end Machine
