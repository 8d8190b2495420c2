import Mathlib.NumberTheory.LucasLehmer
import Mathlib.Tactic.NormNum.Prime
import Scnim.Hash

/-!
# The random number generator

`RGen` of `dev/SC_RGen.h`: the generator "taus88" of three linear components.
-/

open Machine

namespace Scnim

/-! ## 1. The generator -/

structure RGen where
  s1 : BitVec 32
  s2 : BitVec 32
  s3 : BitVec 32
  deriving DecidableEq

-- The new value of a component, from what its line of `trand` keeps and how far it shifts.
def component (keep : BitVec 32) (up left right : ℕ) (s : BitVec 32) : BitVec 32 :=
  ((s &&& keep) <<< up) ^^^ (((s <<< left) ^^^ s) >>> right)

def component1 : BitVec 32 → BitVec 32 := component (-2#32) 12 13 19

def component2 : BitVec 32 → BitVec 32 := component (-8#32) 4 2 25

def component3 : BitVec 32 → BitVec 32 := component (-16#32) 17 3 11

namespace RGen

def init (seed : BitVec 32) : RGen :=
  -- humans tend to use small seeds - mess up the bits
  let seed := hash seed
  let s1 := 1243598713#32 ^^^ seed
  let s2 := 3093459404#32 ^^^ seed
  let s3 := 1821928721#32 ^^^ seed
  { s1 := if s1 < 2#32 then 1243598713#32 else s1
    s2 := if s2 < 8#32 then 3093459404#32 else s2
    s3 := if s3 < 16#32 then 1821928721#32 else s3 }

def trand (g : RGen) : BitVec 32 × RGen :=
  let s1 := component1 g.s1
  let s2 := component2 g.s2
  let s3 := component3 g.s3
  (s1 ^^^ s2 ^^^ s3, ⟨s1, s2, s3⟩)

-- What call `n` of `trand` returns.
def draw (g : RGen) (n : ℕ) : BitVec 32 := (trand ((fun g ↦ g.trand.2)^[n] g)).1

end RGen

/-! ## 2. The components -/

theorem component_linear (keep : BitVec 32) (up left right : ℕ) :
    XorLinear (component keep up left right) :=
  ((XorLinear.shiftLeft up).comp (XorLinear.and_right keep)).xor
    ((XorLinear.ushiftRight right).comp ((XorLinear.shiftLeft left).xor fun _ _ ↦ rfl))

theorem isRoot1 : IsRoot component1 0x104104002 32 := by
  apply IsRoot.of_bits (component_linear _ _ _ _) (by decide) (by decide)
  decide +kernel

theorem isRoot2 : IsRoot component2 0x4000000A 30 := by
  apply IsRoot.of_bits (component_linear _ _ _ _) (by decide) (by decide)
  decide +kernel

theorem isRoot3 : IsRoot component3 0x2015089A 29 := by
  apply IsRoot.of_bits (component_linear _ _ _ _) (by decide) (by decide)
  decide +kernel

theorem fullPeriod1 : FullPeriod component1 0x104104002 32 32 (2 ^ 31 - 1) := by
  refine ⟨isRoot1, by decide, by decide, by decide, by decide +kernel, fun r hr hdvd ↦ ?_⟩
  have hprime : Nat.Prime (2 ^ 31 - 1) :=
    lucas_lehmer_sufficiency 31 (by norm_num) (by norm_num)
  rw [(Nat.prime_dvd_prime_iff_eq hr hprime).mp hdvd]
  exact ⟨0x7E07E000, by decide +kernel⟩

theorem fullPeriod2 : FullPeriod component2 0x4000000A 30 30 (2 ^ 29 - 1) := by
  refine ⟨isRoot2, by decide, by decide, by decide, by decide +kernel, fun r hr hdvd ↦ ?_⟩
  rw [show 2 ^ 29 - 1 = 233 * 1103 * 2089 by rfl, hr.dvd_mul, hr.dvd_mul,
    Nat.prime_dvd_prime_iff_eq hr (by norm_num), Nat.prime_dvd_prime_iff_eq hr (by norm_num),
    Nat.prime_dvd_prime_iff_eq hr (by norm_num)] at hdvd
  rcases hdvd with (rfl | rfl) | rfl
  · exact ⟨0x9E9C97A, by decide +kernel⟩
  · exact ⟨0xB0DB416, by decide +kernel⟩
  · exact ⟨0x12EA5AAB, by decide +kernel⟩

theorem fullPeriod3 : FullPeriod component3 0x2015089A 29 29 (2 ^ 28 - 1) := by
  refine ⟨isRoot3, by decide, by decide, by decide, by decide +kernel, fun r hr hdvd ↦ ?_⟩
  rw [show 2 ^ 28 - 1 = 3 * 5 * 29 * 43 * 113 * 127 by rfl, hr.dvd_mul, hr.dvd_mul, hr.dvd_mul,
    hr.dvd_mul, hr.dvd_mul, Nat.prime_dvd_prime_iff_eq hr (by norm_num),
    Nat.prime_dvd_prime_iff_eq hr (by norm_num), Nat.prime_dvd_prime_iff_eq hr (by norm_num),
    Nat.prime_dvd_prime_iff_eq hr (by norm_num), Nat.prime_dvd_prime_iff_eq hr (by norm_num),
    Nat.prime_dvd_prime_iff_eq hr (by norm_num)] at hdvd
  rcases hdvd with ((((rfl | rfl) | rfl) | rfl) | rfl) | rfl
  · exact ⟨0xBE2777D, by decide +kernel⟩
  · exact ⟨0xA873353, by decide +kernel⟩
  · exact ⟨0x1C74F72, by decide +kernel⟩
  · exact ⟨0x6E86023, by decide +kernel⟩
  · exact ⟨0x80C9937, by decide +kernel⟩
  · exact ⟨0xF385127, by decide +kernel⟩

/-! ## 3. What a component forgets -/

theorem mask_linear {f : BitVec 32 → BitVec 32} (hf : XorLinear f) (m : BitVec 32) :
    XorLinear fun x ↦ f (x &&& m) := hf.comp (XorLinear.and_right m)

theorem component1_eq_zero_iff (s : BitVec 32) : component1 s = 0#32 ↔ s >>> 1 = 0#32 := by
  have hlinear := isRoot1.linear
  apply IsRoot.eq_zero_iff (q := 0x186186003) (d := 32) hlinear (show 1 < 32 by decide)
  · exact (mask_linear hlinear _).eq_zero (by decide +kernel)
  · apply IsRoot.of_bits (hlinear.xor (XorLinear.and_right _)) (by decide) (by decide)
    decide +kernel
  · decide

theorem component2_eq_zero_iff (s : BitVec 32) : component2 s = 0#32 ↔ s >>> 3 = 0#32 := by
  have hlinear := isRoot2.linear
  apply IsRoot.eq_zero_iff (q := 0x6000000F) (d := 30) hlinear (show 3 < 32 by decide)
  · exact (mask_linear hlinear _).eq_zero (by decide +kernel)
  · apply IsRoot.of_bits (hlinear.xor (XorLinear.and_right _)) (by decide) (by decide)
    decide +kernel
  · decide

theorem component3_eq_zero_iff (s : BitVec 32) : component3 s = 0#32 ↔ s >>> 4 = 0#32 := by
  have hlinear := isRoot3.linear
  apply IsRoot.eq_zero_iff (q := 0x301F8CD7) (d := 29) hlinear (show 4 < 32 by decide)
  · exact (mask_linear hlinear _).eq_zero (by decide +kernel)
  · apply IsRoot.of_bits (hlinear.xor (XorLinear.and_right _)) (by decide) (by decide)
    decide +kernel
  · decide

namespace RGen

/-! ## 4. Streams -/

-- "the requirements" of init
def Seeded (g : RGen) : Prop := 2#32 ≤ g.s1 ∧ 8#32 ≤ g.s2 ∧ 16#32 ≤ g.s3

instance (g : RGen) : Decidable g.Seeded := inferInstanceAs (Decidable (_ ∧ _))

theorem seeded_iff (g : RGen) : g.Seeded ↔
    component1 g.s1 ≠ 0#32 ∧ component2 g.s2 ≠ 0#32 ∧ component3 g.s3 ≠ 0#32 := by
  unfold Seeded
  rw [ne_eq, ne_eq, ne_eq, component1_eq_zero_iff, component2_eq_zero_iff, component3_eq_zero_iff,
    ushiftRight_eq_zero_iff, ushiftRight_eq_zero_iff, ushiftRight_eq_zero_iff, Nat.not_lt,
    Nat.not_lt, Nat.not_lt]
  rfl

theorem le_ite_of_le {bound constant s : BitVec 32} (h : bound ≤ constant) :
    bound ≤ if s < bound then constant else s := by
  split
  · exact h
  · next hs => exact BitVec.not_lt.mp hs

theorem seeded_init (seed : BitVec 32) : (init seed).Seeded :=
  ⟨le_ite_of_le (by decide), le_ite_of_le (by decide), le_ite_of_le (by decide)⟩

theorem Seeded.trand {g : RGen} (h : g.Seeded) : g.trand.2.Seeded := by
  obtain ⟨h1, h2, h3⟩ := g.seeded_iff.mp h
  exact g.trand.2.seeded_iff.mpr ⟨fullPeriod1.iterate_ne_zero h1, fullPeriod2.iterate_ne_zero h2,
    fullPeriod3.iterate_ne_zero h3⟩

/-- The requirements that `init` takes care of hold after any number of calls. -/
theorem seeded_always (seed : BitVec 32) (n : ℕ) :
    ((fun g ↦ g.trand.2)^[n] (init seed)).Seeded := by
  induction n with
  | zero => exact seeded_init seed
  | succ n ih =>
      rw [Function.iterate_succ_apply']
      exact ih.trand

theorem draw_eq (g : RGen) (n : ℕ) : g.draw n = component1^[n] (component1 g.s1) ^^^
    component2^[n] (component2 g.s2) ^^^ component3^[n] (component3 g.s3) := by
  have hstate : (fun g : RGen ↦ g.trand.2)^[n] g =
      ⟨component1^[n] g.s1, component2^[n] g.s2, component3^[n] g.s3⟩ := by
    induction n with
    | zero => rfl
    | succ n ih =>
        simp only [Function.iterate_succ_apply', ih]
        rfl
  unfold draw
  rw [hstate, ← Function.iterate_succ_apply, ← Function.iterate_succ_apply,
    ← Function.iterate_succ_apply, Function.iterate_succ_apply', Function.iterate_succ_apply',
    Function.iterate_succ_apply']
  rfl

-- A stream of differences is zero only where the components agree.
theorem components_eq_zero {s1 s2 s3 : BitVec 32} (h : ∀ n, component1^[n] (component1 s1) ^^^
    component2^[n] (component2 s2) ^^^ component3^[n] (component3 s3) = 0#32) :
    component1 s1 = 0#32 ∧ component2 s2 = 0#32 ∧ component3 s3 = 0#32 :=
  sum_eq_zero fullPeriod1 fullPeriod2 fullPeriod3 (by norm_num) (by norm_num) (by norm_num) h

/-- Two generators return the same numbers for ever exactly if they agree above the lowest one,
three and four bits of their components. -/
theorem draw_eq_iff (g g' : RGen) : (∀ n, g.draw n = g'.draw n) ↔
    g.s1 >>> 1 = g'.s1 >>> 1 ∧ g.s2 >>> 3 = g'.s2 >>> 3 ∧ g.s3 >>> 4 = g'.s3 >>> 4 := by
  have hshift : ∀ (x y : BitVec 32) (n : ℕ), x >>> n = y >>> n ↔ (x ^^^ y) >>> n = 0#32 := by
    intro x y n
    rw [BitVec.ushiftRight_xor_distrib, BitVec.xor_eq_zero_iff]
  rw [hshift, hshift, hshift, ← component1_eq_zero_iff, ← component2_eq_zero_iff,
    ← component3_eq_zero_iff]
  constructor
  · intro h
    apply components_eq_zero
    intro n
    have hn := h n
    rw [draw_eq, draw_eq] at hn
    rw [isRoot1.linear, isRoot2.linear, isRoot3.linear, isRoot1.linear.iterate n,
      isRoot2.linear.iterate n, isRoot3.linear.iterate n]
    rw [← BitVec.xor_eq_zero_iff] at hn
    rw [← hn]
    ac_rfl
  · rintro ⟨h1, h2, h3⟩ n
    rw [isRoot1.linear, BitVec.xor_eq_zero_iff] at h1
    rw [isRoot2.linear, BitVec.xor_eq_zero_iff] at h2
    rw [isRoot3.linear, BitVec.xor_eq_zero_iff] at h3
    rw [draw_eq, draw_eq, h1, h2, h3]

/-! ## 5. Seeds -/

-- A component of a seeded state, from the constant and the bound of its line.
def start (constant bound seed : BitVec 32) : BitVec 32 :=
  if constant ^^^ seed < bound then constant else constant ^^^ seed

theorem start_shift {n : ℕ} {bound : BitVec 32} (hbound : bound.toNat = 2 ^ n)
    (constant seed : BitVec 32) : start constant bound seed >>> n =
      if constant >>> n = seed >>> n then constant >>> n else constant >>> n ^^^ seed >>> n := by
  have hsmall : constant ^^^ seed < bound ↔ constant >>> n = seed >>> n := by
    rw [BitVec.lt_def, hbound, ← ushiftRight_eq_zero_iff, BitVec.ushiftRight_xor_distrib,
      BitVec.xor_eq_zero_iff]
  unfold start
  by_cases h : constant >>> n = seed >>> n
  · rw [if_pos (hsmall.mpr h), if_pos h]
  · rw [if_neg (mt hsmall.mp h), if_neg h, BitVec.ushiftRight_xor_distrib]

-- Two seeds that give the same component, above its lowest bits.
theorem start_cases {k a b : BitVec 32}
    (h : (if k = a then k else k ^^^ a) = if k = b then k else k ^^^ b) :
    a = b ∨ (a = 0#32 ∧ b = k) ∨ (a = k ∧ b = 0#32) := by
  have hsame : ∀ {x : BitVec 32}, k ^^^ x = k → x = 0#32 := by
    intro x hx
    apply BitVec.xor_right_inj k |>.mp
    rw [hx, BitVec.xor_zero]
  by_cases ha : k = a
  · by_cases hb : k = b
    · exact .inl (ha.symm.trans hb)
    · rw [if_pos ha, if_neg hb] at h
      exact .inr (.inr ⟨ha.symm, hsame h.symm⟩)
  · by_cases hb : k = b
    · rw [if_neg ha, if_pos hb] at h
      exact .inr (.inl ⟨hsame h, hb.symm⟩)
    · rw [if_neg ha, if_neg hb] at h
      exact .inl (BitVec.xor_right_inj k |>.mp h)

/-- Two seeds give the same numbers exactly if their hashes differ at most in the lowest bit. -/
theorem init_draw_eq_iff (seed seed' : BitVec 32) :
    (∀ n, (init seed).draw n = (init seed').draw n) ↔ hash seed >>> 1 = hash seed' >>> 1 := by
  have hagree : ∀ n, 1 ≤ n → hash seed >>> 1 = hash seed' >>> 1 →
      hash seed >>> n = hash seed' >>> n := by
    intro n hn h
    obtain ⟨m, rfl⟩ := Nat.exists_eq_add_of_le hn
    rw [BitVec.shiftRight_add, BitVec.shiftRight_add, h]
  have hinit : ∀ seed, init seed = ⟨start 1243598713#32 2#32 (hash seed),
      start 3093459404#32 8#32 (hash seed), start 1821928721#32 16#32 (hash seed)⟩ :=
    fun _ ↦ rfl
  rw [draw_eq_iff, hinit, hinit]
  dsimp only
  rw [start_shift (n := 1) rfl, start_shift (n := 1) rfl, start_shift (n := 3) rfl,
    start_shift (n := 3) rfl, start_shift (n := 4) rfl, start_shift (n := 4) rfl]
  constructor
  · rintro ⟨h1, h2, -⟩
    have hthree : ∀ x : BitVec 32, x >>> 3 = (x >>> 1) >>> 2 := fun x ↦ BitVec.shiftRight_add x 1 2
    rw [hthree (hash seed), hthree (hash seed')] at h2
    -- a hash that was replaced agrees with no other one in the second component
    rcases start_cases h1 with heq | ⟨hzero, hconst⟩ | ⟨hconst, hzero⟩
    · exact heq
    · rw [hzero, hconst] at h2
      exact absurd h2 (by decide)
    · rw [hzero, hconst] at h2
      exact absurd h2 (by decide)
  · intro h
    rw [h, hagree 3 (by decide) h, hagree 4 (by decide) h]
    exact ⟨rfl, rfl, rfl⟩

/-! ## 6. The period -/

/-- The numbers a seeded generator returns repeat after (2^31 - 1) (2^29 - 1) (2^28 - 1) calls, and
not before. -/
theorem draw_period {g : RGen} (h : g.Seeded) (p : ℕ) : (∀ n, g.draw (n + p) = g.draw n) ↔
    (2 ^ 31 - 1) * ((2 ^ 29 - 1) * (2 ^ 28 - 1)) ∣ p := by
  obtain ⟨h1, h2, h3⟩ := g.seeded_iff.mp h
  have hperiods : Function.IsPeriodicPt component1 p (component1 g.s1) ∧
      Function.IsPeriodicPt component2 p (component2 g.s2) ∧
      Function.IsPeriodicPt component3 p (component3 g.s3) ↔
        (2 ^ 31 - 1) * ((2 ^ 29 - 1) * (2 ^ 28 - 1)) ∣ p := by
    rw [Function.isPeriodicPt_iff_minimalPeriod_dvd, Function.isPeriodicPt_iff_minimalPeriod_dvd,
      Function.isPeriodicPt_iff_minimalPeriod_dvd, fullPeriod1.minimalPeriod_eq h1,
      fullPeriod2.minimalPeriod_eq h2, fullPeriod3.minimalPeriod_eq h3]
    constructor
    · rintro ⟨hd1, hd2, hd3⟩
      exact Nat.Coprime.mul_dvd_of_dvd_of_dvd (by norm_num) hd1
        (Nat.Coprime.mul_dvd_of_dvd_of_dvd (by norm_num) hd2 hd3)
    · intro hd
      exact ⟨(Nat.dvd_mul_right _ _).trans hd,
        ((Nat.dvd_mul_right _ _).trans (Nat.dvd_mul_left _ _)).trans hd,
        ((Nat.dvd_mul_left _ _).trans (Nat.dvd_mul_left _ _)).trans hd⟩
  rw [← hperiods]
  constructor
  · intro hdraw
    have hzero : component1 (component1^[p] g.s1 ^^^ g.s1) = 0#32 ∧
        component2 (component2^[p] g.s2 ^^^ g.s2) = 0#32 ∧
        component3 (component3^[p] g.s3 ^^^ g.s3) = 0#32 := by
      apply components_eq_zero
      intro n
      have hn := hdraw n
      rw [draw_eq, draw_eq, ← BitVec.xor_eq_zero_iff] at hn
      rw [isRoot1.linear.iterate_shift, isRoot2.linear.iterate_shift,
        isRoot3.linear.iterate_shift, ← hn]
      ac_rfl
    have hreturn : ∀ {f : BitVec 32 → BitVec 32} {s : BitVec 32}, XorLinear f →
        f (f^[p] s ^^^ s) = 0#32 → Function.IsPeriodicPt f p (f s) := by
      intro f s hf hs
      rw [hf, BitVec.xor_eq_zero_iff, ← Function.iterate_succ_apply' f p s,
        Function.iterate_succ_apply] at hs
      exact hs
    exact ⟨hreturn isRoot1.linear hzero.1, hreturn isRoot2.linear hzero.2.1,
      hreturn isRoot3.linear hzero.2.2⟩
  · rintro ⟨hp1, hp2, hp3⟩ n
    rw [draw_eq, draw_eq, Function.iterate_add_apply, Function.iterate_add_apply,
      Function.iterate_add_apply, hp1, hp2, hp3]

theorem draw_period_seedZero :
    (∀ n, (init 0#32).draw (n + (2 ^ 31 - 1) * ((2 ^ 29 - 1) * (2 ^ 28 - 1))) =
      (init 0#32).draw n) ∧ ¬ ∀ n, (init 0#32).draw (n + 2 ^ 87) = (init 0#32).draw n := by
  constructor
  · exact (draw_period (by decide) _).mpr dvd_rfl
  · rw [draw_period (by decide)]
    norm_num

end RGen

end Scnim
