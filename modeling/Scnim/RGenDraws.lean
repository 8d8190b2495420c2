import Scnim.Machine.FloatRound
import Scnim.RGen
import Scnim.SndBuf

/-!
# Random numbers

The numbers that `RGen` of `dev/SC_RGen.h` makes of its draws.
-/

open Machine
open Machine.FloatFormat

namespace Scnim

/-! ## 1. The functions -/

-- `u.i = base | (trand() >> 9)`
def fractionBits (base draw : BitVec 32) : CFloat := base ||| (draw >>> 9)

inductive ByteOrder
  | big
  | little
  deriving DecidableEq

-- `union { struct { uint32 first, second; } i; double f; }`
def ByteOrder.double (order : ByteOrder) (first second : BitVec 32) : CDouble :=
  match order with
  | .big => first ++ second
  | .little => second ++ first

-- an `int32` that C computed; none where it overflows
def int32 (z : ℤ) : Option (BitVec 32) :=
  if -2 ^ 31 ≤ z ∧ z < 2 ^ 31 then some (BitVec.ofInt 32 z) else none

-- `(int32)floor(x)`
def int32Floor (x : CDouble) : Option (BitVec 32) := (toRat x).bind fun q ↦ int32 ⌊q⌋

def int32Double (x : BitVec 32) : CDouble := binary64.ofRat x.toInt

-- `sc_min` of two floating-point numbers
def scMin {F : FloatFormat} (a b : BitVec F.width) : BitVec F.width := if Less a b then a else b

-- `drand(s1, s2, s3)`: the words stand in one order on every machine.
def drand (order : ByteOrder) (g : RGen) : CDouble × RGen :=
  let (u, g) := g.trand
  (binary64.sub (order.double 0x41300000#32 u) (binary64.ofRat 1048576), g)

namespace RGen

def drand (g : RGen) (order : ByteOrder) : CDouble × RGen :=
  let (u, g) := g.trand
  let f := match order with
    | .big => order.double 0x41300000#32 u
    | .little => order.double u 0x41300000#32
  (binary64.sub f (binary64.ofRat 1048576), g)

def frand (g : RGen) : CFloat × RGen :=
  let (u, g) := g.trand
  (binary32.sub (fractionBits 0x3F800000#32 u) (binary32.ofRat 1), g)

def frand0 (g : RGen) : CFloat × RGen :=
  let (u, g) := g.trand
  (fractionBits 0x3F800000#32 u, g)

def frand2 (g : RGen) : CFloat × RGen :=
  let (u, g) := g.trand
  (binary32.sub (fractionBits 0x40000000#32 u) (binary32.ofRat 3), g)

def frand8 (g : RGen) : CFloat × RGen :=
  let (u, g) := g.trand
  (binary32.sub (fractionBits 0x3E800000#32 u) (binary32.ofRat (3 / 8)), g)

def fcoin (g : RGen) : CFloat × RGen :=
  let (u, g) := g.trand
  (0x3F800000#32 ||| (0x80000000#32 &&& u), g)

def flinrand (g : RGen) : CFloat × RGen :=
  let (a, g) := g.frand
  let (b, g) := g.frand
  (scMin (F := binary32) a b, g)

def fbilinrand (g : RGen) : CFloat × RGen :=
  let (a, g) := g.frand
  let (b, g) := g.frand
  (binary32.sub a b, g)

-- The sum is a float, the constants are doubles.
def fsum3rand (g : RGen) : CFloat × RGen :=
  let (a, g) := g.frand
  let (b, g) := g.frand
  let (c, g) := g.frand
  let sum := binary32.convert binary64 (binary32.add (binary32.add a b) c)
  (binary64.convert binary32 (binary64.mul (binary64.sub sum (binary64.ofRat (3 / 2)))
    (binary64.ofRat (666666667 / 1000000000))), g)

def irand (g : RGen) (order : ByteOrder) (scale : BitVec 32) : Option (BitVec 32 × RGen) := do
  let (d, g) := g.drand order
  let r ← int32Floor (binary64.mul (int32Double scale) d)
  return (r, g)

def irand2 (g : RGen) (order : ByteOrder) (scale : BitVec 32) : Option (BitVec 32 × RGen) := do
  let (d, g) := g.drand order
  let steps := binary64.add (binary64.mul (binary64.ofRat 2) (int32Double scale))
    (binary64.ofRat 1)
  let r ← int32Floor (binary64.sub (binary64.mul steps d) (int32Double scale))
  return (r, g)

def ilinrand (g : RGen) (order : ByteOrder) (scale : BitVec 32) : Option (BitVec 32 × RGen) := do
  let (a, g) ← g.irand order scale
  let (b, g) ← g.irand order scale
  return (if a.slt b then a else b, g)

def ibilinrand (g : RGen) (order : ByteOrder) (scale : BitVec 32) : Option (BitVec 32 × RGen) := do
  let (a, g) ← g.irand order scale
  let (b, g) ← g.irand order scale
  let r ← int32 (a.toInt - b.toInt)
  return (r, g)

def linrand (g : RGen) (order : ByteOrder) (scale : CDouble) : CDouble × RGen :=
  let (a, g) := g.drand order
  let (b, g) := g.drand order
  (binary64.mul (scMin (F := binary64) a b) scale, g)

def bilinrand (g : RGen) (order : ByteOrder) (scale : CDouble) : CDouble × RGen :=
  let (a, g) := g.drand order
  let (b, g) := g.drand order
  (binary64.mul (binary64.sub a b) scale, g)

-- `while ((z = drand()) == 0.0) {}`, for a number of turns
def exprandDraw (order : ByteOrder) : ℕ → RGen → Option (CDouble × RGen)
  | 0, _ => none
  | turns + 1, g =>
      let (z, g) := g.drand order
      if toRat z = some 0 then exprandDraw order turns g else some (z, g)

def exprand (log : CDouble → CDouble) (g : RGen) (order : ByteOrder) (turns : ℕ)
    (scale : CDouble) : Option (CDouble × RGen) :=
  (exprandDraw order turns g).map fun (z, g) ↦ (binary64.mul (binary64.neg (log z)) scale, g)

end RGen

/-! ## 2. Exact draws -/

theorem fractionBits_toNat {e : ℕ} {base : BitVec 32} (hbase : base.toNat = e <<< 23)
    (draw : BitVec 32) : (fractionBits base draw).toNat = e * 2 ^ 23 + draw.toNat / 512 := by
  have hlow : (draw >>> 9).toNat = draw.toNat / 512 := by
    rw [BitVec.toNat_ushiftRight, Nat.shiftRight_eq_div_pow]
  have hlt : draw.toNat / 512 < 2 ^ 23 := by
    have := draw.isLt
    omega
  unfold fractionBits
  rw [BitVec.toNat_or, hlow, hbase, ← Nat.shiftLeft_add_eq_or_of_lt hlt, Nat.shiftLeft_eq]

/-- The lower 23 bits of the float are the upper 23 of the draw. -/
theorem fractionBits_eq {e : ℕ} {base : BitVec 32} (hbase : base.toNat = (e + 1) <<< 23)
    (he : e < 254) (draw : BitVec 32) : toRat (fractionBits base draw) =
      some (((2 ^ 23 + draw.toNat / 512 : ℕ) : ℚ) * 2 ^ ((e : ℤ) - 149)) := by
  have hlt := draw.isLt
  have hbits : (fractionBits base draw).toNat =
      0 * 2 ^ (8 + 23) + (e * 2 ^ 23 + (2 ^ 23 + draw.toNat / 512)) := by
    rw [fractionBits_toNat hbase]
    omega
  rw [toRat_of_toNat binary32 hbits (Nat.zero_le 1)
    (show 2 ^ 23 + draw.toNat / 512 < 2 ^ (23 + 1) by omega) (.inr (Nat.le_add_right _ _))
    (show e + 3 ≤ 2 ^ 8 by omega), if_neg (by decide), show binary32.minExp = -149 by decide,
    neg_add_eq_sub]

theorem sub_fits {F : FloatFormat} (hF : 2 ≤ F.exp) {x y : BitVec F.width} {q r : ℚ}
    (hx : toRat x = some q) (hy : toRat y = some r) (hfits : F.Fits (q - r)) :
    toRat (F.sub x y) = some (q - r) := by
  rw [toRat_sub_rnd hF hx hy hfits.abs_lt, rnd_of_fits hfits]

theorem ByteOrder.double_toNat (hi lo : BitVec 32) :
    (hi ++ lo : CDouble).toNat = hi.toNat * 2 ^ 32 + lo.toNat := by
  rw [BitVec.toNat_append, ← Nat.shiftLeft_add_eq_or_of_lt lo.isLt, Nat.shiftLeft_eq]

namespace RGen

theorem drand_eq (g : RGen) (order : ByteOrder) :
    toRat (g.drand order).1 = some ((g.trand.1.toNat : ℚ) / 2 ^ 32) := by
  have hlt := g.trand.1.isLt
  have hbits : (0x41300000#32 ++ g.trand.1 : CDouble).toNat =
      0 * 2 ^ (11 + 52) + (1042 * 2 ^ 52 + (2 ^ 52 + g.trand.1.toNat)) := by
    rw [ByteOrder.double_toNat, show (0x41300000#32).toNat = 1043 * 2 ^ 20 by decide]
    omega
  have hword := toRat_of_toNat binary64 hbits (Nat.zero_le 1)
    (show 2 ^ 52 + g.trand.1.toNat < 2 ^ (52 + 1) by omega) (.inr (Nat.le_add_right _ _))
    (by decide)
  rw [if_neg (by decide), show binary64.minExp + (1042 : ℕ) = -32 by decide] at hword
  have hone : toRat (binary64.ofRat 1048576) = some 1048576 := by decide +kernel
  have hdiff : ((2 ^ 52 + g.trand.1.toNat : ℕ) : ℚ) * 2 ^ (-32 : ℤ) - 1048576 =
      (g.trand.1.toNat : ℤ) * 2 ^ (-32 : ℤ) := by
    push_cast
    norm_num
    ring
  have hfits : binary64.Fits ((g.trand.1.toNat : ℤ) * 2 ^ (-32 : ℤ)) :=
    fits_intCast_mul _ _ _ (hlt.trans (by decide)) (by decide) (by decide)
  have hdouble : (g.drand order).1 =
      binary64.sub (0x41300000#32 ++ g.trand.1) (binary64.ofRat 1048576) := by
    cases order <;> rfl
  rw [hdouble, sub_fits (by decide) hword hone (by rwa [hdiff]), hdiff]
  push_cast
  norm_num
  ring

-- What the float functions have in common: the base's binade, less a constant.
theorem fraction_sub_eq {e : ℕ} {base : BitVec 32} (hbase : base.toNat = (e + 1) <<< 23)
    (he : e < 254) {y : CFloat} {c : ℤ} (hc : toRat y = some ((c : ℚ) * 2 ^ ((e : ℤ) - 149)))
    (hlow : 0 ≤ c) (hhigh : c ≤ 2 ^ 24) (draw : BitVec 32) :
    toRat (binary32.sub (fractionBits base draw) y) =
      some ((2 ^ 23 + ((draw.toNat / 512 : ℕ) : ℚ) - c) * 2 ^ ((e : ℤ) - 149)) := by
  have hlt := draw.isLt
  have hx := fractionBits_eq hbase he draw
  obtain ⟨m, hm⟩ : ∃ m, draw.toNat / 512 = m := ⟨_, rfl⟩
  rw [hm] at hx ⊢
  have hdiff : ((2 ^ 23 + m : ℕ) : ℚ) * 2 ^ ((e : ℤ) - 149) - c * 2 ^ ((e : ℤ) - 149) =
      ((2 ^ 23 + m - c : ℤ) : ℚ) * 2 ^ ((e : ℤ) - 149) := by
    rw [← sub_mul]
    push_cast
    ring
  have hfits : binary32.Fits (((2 ^ 23 + m - c : ℤ) : ℚ) * 2 ^ ((e : ℤ) - 149)) := by
    have hmin : binary32.minExp = -149 := by decide
    apply fits_intCast_mul
    · show (2 ^ 23 + (m : ℤ) - c).natAbs < 2 ^ 24
      omega
    · omega
    · rw [hmin]
      norm_num
      omega
  rw [sub_fits (by decide) hx hc (by rwa [hdiff]), hdiff]
  push_cast
  rfl

theorem frand_eq (g : RGen) :
    toRat g.frand.1 = some (((g.trand.1.toNat / 512 : ℕ) : ℚ) / 2 ^ 23) := by
  have hone : toRat (binary32.ofRat 1) =
      some (((2 ^ 23 : ℤ) : ℚ) * 2 ^ (((126 : ℕ) : ℤ) - 149)) := by decide +kernel
  have hsub := fraction_sub_eq (show (0x3F800000#32).toNat = (126 + 1) <<< 23 by rfl)
    (by decide) hone (by decide) (by decide) g.trand.1
  rw [show g.frand.1 = binary32.sub (fractionBits 0x3F800000#32 g.trand.1) (binary32.ofRat 1)
    from rfl, hsub]
  push_cast
  norm_num
  ring

theorem frand0_eq (g : RGen) :
    toRat g.frand0.1 = some (1 + ((g.trand.1.toNat / 512 : ℕ) : ℚ) / 2 ^ 23) := by
  have hbits := fractionBits_eq (show (0x3F800000#32).toNat = (126 + 1) <<< 23 by rfl) (by decide)
    g.trand.1
  rw [show g.frand0.1 = fractionBits 0x3F800000#32 g.trand.1 from rfl, hbits]
  push_cast
  norm_num
  ring

theorem frand2_eq (g : RGen) :
    toRat g.frand2.1 = some (((g.trand.1.toNat / 512 : ℕ) : ℚ) / 2 ^ 22 - 1) := by
  have hthree : toRat (binary32.ofRat 3) =
      some (((3 * 2 ^ 22 : ℤ) : ℚ) * 2 ^ (((127 : ℕ) : ℤ) - 149)) := by decide +kernel
  have hsub := fraction_sub_eq (show (0x40000000#32).toNat = (127 + 1) <<< 23 by rfl)
    (by decide) hthree (by decide) (by decide) g.trand.1
  rw [show g.frand2.1 = binary32.sub (fractionBits 0x40000000#32 g.trand.1) (binary32.ofRat 3)
    from rfl, hsub]
  push_cast
  norm_num
  ring

theorem frand8_eq (g : RGen) :
    toRat g.frand8.1 = some (((g.trand.1.toNat / 512 : ℕ) : ℚ) / 2 ^ 25 - 1 / 8) := by
  have hoffset : toRat (binary32.ofRat (3 / 8)) =
      some (((3 * 2 ^ 22 : ℤ) : ℚ) * 2 ^ (((124 : ℕ) : ℤ) - 149)) := by decide +kernel
  have hsub := fraction_sub_eq (show (0x3E800000#32).toNat = (124 + 1) <<< 23 by rfl)
    (by decide) hoffset (by decide) (by decide) g.trand.1
  rw [show g.frand8.1 = binary32.sub (fractionBits 0x3E800000#32 g.trand.1)
    (binary32.ofRat (3 / 8)) from rfl, hsub]
  push_cast
  norm_num
  ring

theorem fcoin_eq (g : RGen) : toRat g.fcoin.1 = some (if g.trand.1.msb then -1 else 1) := by
  have hsign : 0x80000000#32 &&& g.trand.1 = if g.trand.1.msb then 0x80000000#32 else 0#32 := by
    rw [BitVec.msb_eq_getLsbD_last]
    exact BitVec.twoPow_and g.trand.1 31
  rw [show g.fcoin.1 = 0x3F800000#32 ||| (0x80000000#32 &&& g.trand.1) from rfl, hsign]
  cases g.trand.1.msb
  · decide +kernel
  · decide +kernel

/-- Every function for one number returns exactly a fraction of its draw, and the flip of a coin is
the draw's highest bit. -/
theorem draws_exact (g : RGen) (order : ByteOrder) :
    toRat (g.drand order).1 = some ((g.trand.1.toNat : ℚ) / 2 ^ 32) ∧
    toRat g.frand.1 = some (((g.trand.1.toNat / 512 : ℕ) : ℚ) / 2 ^ 23) ∧
    toRat g.frand0.1 = some (1 + ((g.trand.1.toNat / 512 : ℕ) : ℚ) / 2 ^ 23) ∧
    toRat g.frand2.1 = some (((g.trand.1.toNat / 512 : ℕ) : ℚ) / 2 ^ 22 - 1) ∧
    toRat g.frand8.1 = some (((g.trand.1.toNat / 512 : ℕ) : ℚ) / 2 ^ 25 - 1 / 8) ∧
    toRat g.fcoin.1 = some (if g.trand.1.msb then -1 else 1) :=
  ⟨drand_eq g order, frand_eq g, frand0_eq g, frand2_eq g, frand8_eq g, fcoin_eq g⟩

end RGen

/-! ## 3. Integers -/

theorem int32_eq {z : ℤ} (hlow : -2 ^ 31 ≤ z) (hhigh : z < 2 ^ 31) :
    ∃ r, int32 z = some r ∧ r.toInt = z := by
  refine ⟨_, if_pos ⟨hlow, hhigh⟩, ?_⟩
  rw [BitVec.toInt_ofInt_eq_self (by decide) (by simpa using hlow) (by simpa using hhigh)]

-- A double between two integers that an `int32` can hold, the upper one excluded.
theorem int32Floor_spec {x : CDouble} {p : ℚ} (hx : toRat x = some p) {a b : ℤ} (ha : (a : ℚ) ≤ p)
    (hb : p < b) (hlow : -2 ^ 31 ≤ a) (hhigh : b ≤ 2 ^ 31) :
    ∃ r, int32Floor x = some r ∧ a ≤ r.toInt ∧ r.toInt < b := by
  have hfloor : a ≤ ⌊p⌋ := Int.le_floor.mpr ha
  have hbelow : ⌊p⌋ < b := Int.floor_lt.mpr hb
  obtain ⟨r, hr, hval⟩ := int32_eq (hlow.trans hfloor) (hbelow.trans_le hhigh)
  refine ⟨r, ?_, by rwa [hval], by rwa [hval]⟩
  unfold int32Floor
  rw [hx, Option.bind_some, hr]

theorem fits_int32 {z : ℤ} (h : z.natAbs < 2 ^ 53) : binary64.Fits z := by
  have hfits := fits_intCast_mul binary64 z 0 h (by decide) (by decide)
  rwa [zpow_zero, mul_one] at hfits

theorem int32Double_eq (x : BitVec 32) : toRat (int32Double x) = some (x.toInt : ℚ) := by
  have hlow := BitVec.two_mul_toInt_lt (x := x)
  have hhigh := BitVec.le_two_mul_toInt (x := x)
  have hfits : binary64.Fits (x.toInt : ℚ) := fits_int32 (by omega)
  unfold int32Double
  rw [toRat_ofRat_rnd binary64 hfits.abs_lt (by decide), rnd_of_fits hfits]

theorem toInt_lt (x : BitVec 32) : x.toInt < 2 ^ 31 := by
  have := BitVec.two_mul_toInt_lt (x := x)
  omega

-- What rounding a double can add to a number below `s`.
theorem rnd_close {q s : ℚ} (hs : 1 ≤ s) (hq : |q| ≤ s) : |binary64.rnd q - q| < s / 2 ^ 33 := by
  apply abs_rnd_sub_lt
  · rw [div_lt_div_iff₀ (by positivity) (by positivity)]
    show |q| * 2 ^ 33 < s * 2 ^ 53
    linarith
  · calc (2 : ℚ) ^ (binary64.minExp - 1) ≤ 2 ^ (-34 : ℤ) :=
          zpow_le_zpow_right₀ (by norm_num) (by decide)
      _ < 1 / 2 ^ 33 := by norm_num
      _ ≤ s / 2 ^ 33 := div_le_div_of_nonneg_right hs (by positivity)

namespace RGen

theorem draw_lt_one (g : RGen) : (g.trand.1.toNat : ℚ) / 2 ^ 32 ≤ 1 - 1 / 2 ^ 32 := by
  have hlt : (g.trand.1.toNat : ℚ) ≤ 2 ^ 32 - 1 := by
    have hnat : ((g.trand.1.toNat + 1 : ℕ) : ℚ) ≤ (2 ^ 32 : ℕ) := by
      exact_mod_cast g.trand.1.isLt
    push_cast at hnat
    linarith
  rw [div_le_iff₀ (by norm_num)]
  norm_num at hlt ⊢
  exact hlt

-- A draw of a number of steps, rounded, stays below that number by more than rounding adds.
theorem toRat_scaled (g : RGen) (order : ByteOrder) {x : CDouble} {s : ℤ}
    (hx : toRat x = some (s : ℚ)) (hpos : 0 < s) (hs : s ≤ 2 ^ 32) :
    ∃ p : ℚ, toRat (binary64.mul x (g.drand order).1) = some p ∧ 0 ≤ p ∧
      p < s - (s : ℚ) / 2 ^ 33 ∧ p = binary64.rnd (s * (g.trand.1.toNat / 2 ^ 32)) := by
  have hs1 : (1 : ℚ) ≤ s := by exact_mod_cast hpos
  have hd0 : (0 : ℚ) ≤ (g.trand.1.toNat : ℚ) / 2 ^ 32 := by positivity
  have hd1 := g.draw_lt_one
  have hprod0 : (0 : ℚ) ≤ s * (g.trand.1.toNat / 2 ^ 32) := mul_nonneg (by linarith) hd0
  have hprod : (s : ℚ) * (g.trand.1.toNat / 2 ^ 32) ≤ s - (s : ℚ) / 2 ^ 32 := by
    have hle := mul_le_mul_of_nonneg_left hd1 (show (0 : ℚ) ≤ s by linarith)
    linarith
  have hmax : |(s : ℚ) * (g.trand.1.toNat / 2 ^ 32)| < binary64.overflow := by
    have hfits : binary64.Fits s := fits_int32 (by omega)
    refine lt_of_le_of_lt ?_ hfits.abs_lt
    rw [abs_of_nonneg hprod0, abs_of_pos (by linarith)]
    linarith [show (0 : ℚ) ≤ (s : ℚ) / 2 ^ 32 by positivity]
  refine ⟨_, toRat_mul_rnd (by decide) hx (drand_eq g order) hmax, rnd_nonneg hprod0, ?_, rfl⟩
  have hle : |(s : ℚ) * (g.trand.1.toNat / 2 ^ 32)| ≤ (s : ℚ) := by
    rw [abs_of_nonneg hprod0]
    linarith [show (0 : ℚ) ≤ (s : ℚ) / 2 ^ 32 by positivity]
  have hclose := (abs_lt.mp (rnd_close hs1 hle)).2
  linarith

theorem irand_eq (g : RGen) (order : ByteOrder) (scale : BitVec 32) : g.irand order scale =
    (int32Floor (binary64.mul (int32Double scale) (g.drand order).1)).bind
      fun r ↦ some (r, g.trand.2) := rfl

theorem irand_mem (g : RGen) (order : ByteOrder) {scale : BitVec 32} (h : 0 < scale.toInt) :
    ∃ r, g.irand order scale = some (r, g.trand.2) ∧ 0 ≤ r.toInt ∧ r.toInt < scale.toInt := by
  have hlt := toInt_lt scale
  obtain ⟨p, hp, hp0, hp1, -⟩ := g.toRat_scaled order (int32Double_eq scale) h (by omega)
  have hs : (0 : ℚ) < scale.toInt := by exact_mod_cast h
  obtain ⟨r, hr, hr0, hr1⟩ := int32Floor_spec hp (a := 0) (b := scale.toInt) (by exact_mod_cast hp0)
    (by linarith [show (0 : ℚ) < scale.toInt / 2 ^ 33 by positivity]) (by decide) hlt.le
  exact ⟨r, by rw [irand_eq, hr]; rfl, hr0, hr1⟩

theorem irand2_eq (g : RGen) (order : ByteOrder) (scale : BitVec 32) :
    g.irand2 order scale = (int32Floor (binary64.sub (binary64.mul (binary64.add
      (binary64.mul (binary64.ofRat 2) (int32Double scale)) (binary64.ofRat 1)) (g.drand order).1)
      (int32Double scale))).bind fun r ↦ some (r, g.trand.2) := rfl

theorem irand2_mem (g : RGen) (order : ByteOrder) {scale : BitVec 32} (h : 0 ≤ scale.toInt) :
    ∃ r, g.irand2 order scale = some (r, g.trand.2) ∧
      -scale.toInt ≤ r.toInt ∧ r.toInt ≤ scale.toInt := by
  have hlt := toInt_lt scale
  have hscale := int32Double_eq scale
  obtain ⟨s, hs⟩ : ∃ s, scale.toInt = s := ⟨_, rfl⟩
  rw [hs] at h hlt hscale ⊢
  have htwo : toRat (binary64.ofRat 2) = some 2 := by decide +kernel
  have hone : toRat (binary64.ofRat 1) = some 1 := by decide +kernel
  have hdouble : binary64.Fits ((2 * s : ℤ) : ℚ) := fits_int32 (by omega)
  have hnext : binary64.Fits ((2 * s + 1 : ℤ) : ℚ) := fits_int32 (by omega)
  have hneg : binary64.Fits ((-s : ℤ) : ℚ) := fits_int32 (by omega)
  push_cast at hdouble hneg
  have hmul := toRat_mul_rnd (by decide) htwo hscale hdouble.abs_lt
  rw [rnd_of_fits hdouble] at hmul
  have hsteps : (2 : ℚ) * s + 1 = ((2 * s + 1 : ℤ) : ℚ) := by push_cast; rfl
  have hadd := toRat_add_rnd (by decide) hmul hone (by rw [hsteps]; exact hnext.abs_lt)
  rw [hsteps, rnd_of_fits hnext] at hadd
  obtain ⟨p, hp, hp0, hp1, -⟩ := g.toRat_scaled order hadd (by omega) (by omega)
  push_cast at hp1
  have hs0 : (0 : ℚ) ≤ s := by exact_mod_cast h
  have hrange : |p - s| ≤ 2 * s + 1 := by
    rw [abs_le]
    have hcut : (0 : ℚ) ≤ (2 * s + 1) / 2 ^ 33 := by positivity
    constructor <;> linarith
  have hsub := toRat_sub_rnd (by decide) hp hscale
    (hrange.trans_lt ((le_abs_self _).trans_lt (by rw [hsteps]; exact hnext.abs_lt)))
  have hclose := (abs_lt.mp (rnd_close (by linarith) hrange)).2
  obtain ⟨r, hr, hr0, hr1⟩ := int32Floor_spec hsub (a := -s) (b := s + 1)
    (by push_cast; exact le_rnd hneg (by linarith)) (by push_cast; linarith) (by omega) (by omega)
  exact ⟨r, by rw [irand2_eq, hr]; rfl, hr0, by omega⟩

/-- The other integers stay within their ranges, with no overflow. -/
theorem integers_mem (g : RGen) (order : ByteOrder) {scale : BitVec 32} (h : 0 < scale.toInt) :
    (∃ r, g.irand2 order scale = some (r, g.trand.2) ∧
      -scale.toInt ≤ r.toInt ∧ r.toInt ≤ scale.toInt) ∧
    (∃ r, g.ilinrand order scale = some (r, g.trand.2.trand.2) ∧
      0 ≤ r.toInt ∧ r.toInt < scale.toInt) ∧
    ∃ r, g.ibilinrand order scale = some (r, g.trand.2.trand.2) ∧
      -scale.toInt < r.toInt ∧ r.toInt < scale.toInt := by
  have hlt := toInt_lt scale
  obtain ⟨a, ha, ha0, ha1⟩ := g.irand_mem order h
  obtain ⟨b, hb, hb0, hb1⟩ := g.trand.2.irand_mem order h
  refine ⟨g.irand2_mem order h.le, ⟨if a.slt b then a else b, ?_, ?_⟩, ?_⟩
  · unfold ilinrand
    rw [ha, Option.bind_eq_bind, Option.bind_some]
    dsimp only
    rw [hb, Option.bind_some]
    rfl
  · split
    · exact ⟨ha0, ha1⟩
    · exact ⟨hb0, hb1⟩
  · obtain ⟨r, hr, hval⟩ := int32_eq (z := a.toInt - b.toInt) (by omega) (by omega)
    refine ⟨r, ?_, by omega, by omega⟩
    unfold ibilinrand
    rw [ha, Option.bind_eq_bind, Option.bind_some]
    dsimp only
    rw [hb, Option.bind_some]
    dsimp only
    rw [hr]
    rfl

theorem integers_mem_three : ∃ r, (init 0#32).irand2 .little 3#32 = some (r, (init 0#32).trand.2) ∧
    -3 ≤ r.toInt ∧ r.toInt ≤ 3 := (integers_mem (init 0#32) .little (by decide)).1

end RGen

/-! ## 4. Reals -/

theorem toRat_scMin {F : FloatFormat} {a b : BitVec F.width} {q r : ℚ} (ha : toRat a = some q)
    (hb : toRat b = some r) : toRat (scMin a b) = some (min q r) := by
  unfold scMin
  by_cases h : q < r
  · rw [if_pos ((less_iff ha hb).mpr h), ha, min_eq_left h.le]
  · rw [if_neg (mt (less_iff ha hb).mp h), hb, min_eq_right (not_lt.mp h)]

-- A share of a double, rounded, is on its side of zero and no larger.
theorem toRat_share {x y : CDouble} {d q : ℚ} (hx : toRat x = some d) (hy : toRat y = some q)
    (hd : |d| ≤ 1) : ∃ r, toRat (binary64.mul x y) = some r ∧ |r| ≤ |q| ∧ (0 ≤ d → 0 ≤ r * q) := by
  have hfits := (fits_of_toRat (by decide) hy).abs
  have hle : |d * q| ≤ |q| := by
    rw [abs_mul]
    exact mul_le_of_le_one_left (abs_nonneg q) hd
  have hmax : |d * q| < binary64.overflow := by
    have hlt := hfits.abs_lt
    rw [abs_abs] at hlt
    exact hle.trans_lt hlt
  refine ⟨_, toRat_mul_rnd (by decide) hx hy hmax, abs_rnd_le hfits hle, fun hnonneg ↦ ?_⟩
  rcases le_total 0 q with hq | hq
  · exact mul_nonneg (rnd_nonneg (mul_nonneg hnonneg hq)) hq
  · exact mul_nonneg_of_nonpos_of_nonpos (rnd_nonpos (mul_nonpos_of_nonneg_of_nonpos hnonneg hq)) hq

namespace RGen

theorem frand_mem (g : RGen) : ∃ m : ℕ, m < 2 ^ 23 ∧ toRat g.frand.1 = some ((m : ℚ) / 2 ^ 23) := by
  have hlt := g.trand.1.isLt
  exact ⟨g.trand.1.toNat / 512, by omega, frand_eq g⟩

theorem flinrand_mem (g : RGen) : ∃ r, toRat g.flinrand.1 = some r ∧ 0 ≤ r ∧ r < 1 := by
  obtain ⟨m, hm, ha⟩ := g.frand_mem
  obtain ⟨n, -, hb⟩ := g.frand.2.frand_mem
  have hm1 : (m : ℚ) < 2 ^ 23 := by exact_mod_cast hm
  refine ⟨_, toRat_scMin (F := binary32) ha hb, le_min (by positivity) (by positivity), ?_⟩
  exact (min_le_left _ _).trans_lt ((div_lt_one (by positivity)).mpr hm1)

theorem fbilinrand_mem (g : RGen) : ∃ r, toRat g.fbilinrand.1 = some r ∧ -1 < r ∧ r < 1 := by
  obtain ⟨m, hm, ha⟩ := g.frand_mem
  obtain ⟨n, hn, hb⟩ := g.frand.2.frand_mem
  have hm1 : (m : ℚ) < 2 ^ 23 := by exact_mod_cast hm
  have hn1 : (n : ℚ) < 2 ^ 23 := by exact_mod_cast hn
  have hm0 : (0 : ℚ) ≤ m := Nat.cast_nonneg m
  have hn0 : (0 : ℚ) ≤ n := Nat.cast_nonneg n
  have hdiff : (m : ℚ) / 2 ^ 23 - n / 2 ^ 23 = ((m - n : ℤ) : ℚ) * 2 ^ (-23 : ℤ) := by
    push_cast
    norm_num
    ring
  have hfits : binary32.Fits ((m : ℚ) / 2 ^ 23 - n / 2 ^ 23) := by
    rw [hdiff]
    exact fits_intCast_mul _ _ _ (show ((m : ℤ) - n).natAbs < 2 ^ 24 by omega) (by decide)
      (by decide)
  refine ⟨_, sub_fits (by decide) ha hb hfits, ?_, ?_⟩
  · rw [← sub_div, lt_div_iff₀ (by positivity)]
    linarith
  · rw [← sub_div, div_lt_one (by positivity)]
    linarith

-- The decimal constant is above two thirds, by less than the last step to a float can see.
theorem fsum3rand_mem (g : RGen) : ∃ r, toRat g.fsum3rand.1 = some r ∧ -1 ≤ r ∧ r ≤ 1 := by
  obtain ⟨m, hm, ha⟩ := g.frand_mem
  obtain ⟨n, hn, hb⟩ := g.frand.2.frand_mem
  obtain ⟨k, hk, hc⟩ := g.frand.2.frand.2.frand_mem
  have hunit : ∀ {m : ℕ}, m < 2 ^ 23 → 0 ≤ (m : ℚ) / 2 ^ 23 ∧ (m : ℚ) / 2 ^ 23 ≤ 1 := by
    intro m hm
    have hm1 : (m : ℚ) < 2 ^ 23 := by exact_mod_cast hm
    exact ⟨by positivity, (div_le_one (by positivity)).mpr hm1.le⟩
  obtain ⟨ha0, ha1⟩ := hunit hm
  obtain ⟨hb0, hb1⟩ := hunit hn
  obtain ⟨hc0, hc1⟩ := hunit hk
  have hzero : binary32.Fits 0 := ⟨0, 0, by norm_num, by decide, by decide, by decide⟩
  have htwo : binary32.Fits 2 := ⟨2, 0, by norm_num, by decide, by decide, by decide⟩
  have hthree : binary32.Fits 3 := ⟨3, 0, by norm_num, by decide, by decide, by decide⟩
  have hzeroDouble : binary64.Fits 0 := ⟨0, 0, by norm_num, by decide, by decide, by decide⟩
  have hthreeDouble : binary64.Fits 3 := ⟨3, 0, by norm_num, by decide, by decide, by decide⟩
  have hhalves : binary64.Fits (3 / 2) := ⟨3, -1, by norm_num, by decide, by decide, by decide⟩
  have habove : binary64.Fits (1 + 1 / 2 ^ 30) :=
    ⟨2 ^ 30 + 1, -30, by norm_num, by decide, by decide, by decide⟩
  have hoffset : toRat (binary64.ofRat (3 / 2)) = some (3 / 2) := by decide +kernel
  have hfactor : toRat (binary64.ofRat (666666667 / 1000000000)) =
      some (6004799506163061 / 2 ^ 53) := by decide +kernel
  -- each operation keeps to the bounds of the one before it
  obtain ⟨p2, hp2, hlow2, hhigh2⟩ := toRat_add_between (by decide) ha hb hzero htwo
    (add_nonneg ha0 hb0) (by linarith)
  obtain ⟨p3, hp3, hlow3, hhigh3⟩ := toRat_add_between (by decide) hp2 hc hzero hthree
    (add_nonneg hlow2 hc0) (by linarith)
  obtain ⟨d, hd, hlowd, hhighd⟩ := toRat_convert_between (G := binary64) (by decide) hp3
    hzeroDouble hthreeDouble hlow3 hhigh3
  obtain ⟨e, he, hlowe, hhighe⟩ := toRat_sub_between (by decide) hd hoffset hhalves.neg hhalves
    (by linarith) (by linarith)
  obtain ⟨f, hf, hlowf, hhighf⟩ := toRat_mul_between (by decide) he hfactor habove.neg habove
    (by norm_num; linarith) (by norm_num; linarith)
  have hround : binary32.rnd (1 + 1 / 2 ^ 30) = 1 := by decide +kernel
  have hbelow : |(1 : ℚ) + 1 / 2 ^ 30| < binary32.overflow := by decide +kernel
  have hmax : |f| < binary32.overflow := (abs_le.mpr ⟨hlowf, hhighf⟩).trans_lt
    ((le_abs_self _).trans_lt hbelow)
  refine ⟨_, toRat_convert_rnd (G := binary32) (by decide) hf hmax, ?_, ?_⟩
  · have hle := rnd_mono (by decide) (by rwa [abs_neg]) hmax hlowf
    rwa [rnd_neg, hround] at hle
  · have hle := rnd_mono (by decide) hmax hbelow hhighf
    rwa [hround] at hle

theorem linrand_mem (g : RGen) (order : ByteOrder) {scale : CDouble} {q : ℚ}
    (hscale : toRat scale = some q) :
    ∃ r, toRat (g.linrand order scale).1 = some r ∧ |r| ≤ |q| ∧ 0 ≤ r * q := by
  have ha := drand_eq g order
  have hb := drand_eq g.trand.2 order
  have hmin := toRat_scMin (F := binary64) ha hb
  have hnonneg : (0 : ℚ) ≤
      min ((g.trand.1.toNat : ℚ) / 2 ^ 32) ((g.trand.2.trand.1.toNat : ℚ) / 2 ^ 32) :=
    le_min (by positivity) (by positivity)
  have hone :
      |min ((g.trand.1.toNat : ℚ) / 2 ^ 32) ((g.trand.2.trand.1.toNat : ℚ) / 2 ^ 32)| ≤ 1 := by
    rw [abs_of_nonneg hnonneg]
    exact (min_le_left _ _).trans (g.draw_lt_one.trans (by norm_num))
  obtain ⟨r, hr, hle, hsign⟩ := toRat_share hmin hscale hone
  exact ⟨r, hr, hle, hsign hnonneg⟩

theorem bilinrand_mem (g : RGen) (order : ByteOrder) {scale : CDouble} {q : ℚ}
    (hscale : toRat scale = some q) :
    ∃ r, toRat (g.bilinrand order scale).1 = some r ∧ |r| ≤ |q| := by
  have ha := drand_eq g order
  have hb := drand_eq g.trand.2 order
  have ha1 := g.draw_lt_one
  have hb1 := g.trand.2.draw_lt_one
  have hone : binary64.Fits 1 := ⟨1, 0, by norm_num, by decide, by decide, by decide⟩
  have ha0 : (0 : ℚ) ≤ (g.trand.1.toNat : ℚ) / 2 ^ 32 := by positivity
  have hb0 : (0 : ℚ) ≤ (g.trand.2.trand.1.toNat : ℚ) / 2 ^ 32 := by positivity
  obtain ⟨d, hd, hlow, hhigh⟩ := toRat_sub_between (by decide) ha hb hone.neg hone
    (by linarith) (by linarith)
  obtain ⟨r, hr, hle, -⟩ := toRat_share hd hscale (abs_le.mpr ⟨hlow, hhigh⟩)
  exact ⟨r, hr, hle⟩

/-- The functions that combine several draws keep to their ranges, whatever is rounded on the
way. -/
theorem reals_mem (g : RGen) (order : ByteOrder) {scale : CDouble} {q : ℚ}
    (hscale : toRat scale = some q) :
    (∃ r, toRat g.flinrand.1 = some r ∧ 0 ≤ r ∧ r < 1) ∧
    (∃ r, toRat g.fbilinrand.1 = some r ∧ -1 < r ∧ r < 1) ∧
    (∃ r, toRat g.fsum3rand.1 = some r ∧ -1 ≤ r ∧ r ≤ 1) ∧
    (∃ r, toRat (g.linrand order scale).1 = some r ∧ |r| ≤ |q| ∧ 0 ≤ r * q) ∧
    ∃ r, toRat (g.bilinrand order scale).1 = some r ∧ |r| ≤ |q| :=
  ⟨g.flinrand_mem, g.fbilinrand_mem, g.fsum3rand_mem, g.linrand_mem order hscale,
    g.bilinrand_mem order hscale⟩

theorem reals_mem_one : ∃ r, toRat ((init 0#32).bilinrand .little (binary64.ofRat 1)).1 = some r ∧
    |r| ≤ |1| :=
  (reals_mem (init 0#32) .little (show toRat (binary64.ofRat 1) = some 1 by decide +kernel)).2.2.2.2

/-! ## 5. The loop of `exprand` -/

theorem drand_eq_zero_iff (g : RGen) (order : ByteOrder) :
    toRat (g.drand order).1 = some 0 ↔ g.trand.1 = 0#32 := by
  rw [drand_eq, Option.some.injEq, div_eq_zero_iff, or_iff_left (by norm_num), Nat.cast_eq_zero]
  exact ⟨fun h ↦ BitVec.eq_of_toNat_eq h, fun h ↦ by rw [h]; rfl⟩

theorem exprandDraw_isSome_iff (order : ByteOrder) (turns : ℕ) (g : RGen) :
    (exprandDraw order turns g).isSome ↔ ∃ n < turns, g.draw n ≠ 0#32 := by
  induction turns generalizing g with
  | zero => simp [exprandDraw]
  | succ turns ih =>
      have hsucc : ∀ n, g.draw (n + 1) = g.trand.2.draw n := by
        intro n
        unfold draw
        rw [Function.iterate_succ_apply]
      rw [exprandDraw]
      dsimp only
      by_cases hz : toRat (g.drand order).1 = some 0
      · have hzero : g.draw 0 = 0#32 := (drand_eq_zero_iff g order).mp hz
        rw [if_pos hz, show (g.drand order).2 = g.trand.2 from rfl, ih]
        constructor
        · rintro ⟨n, hn, hdraw⟩
          exact ⟨n + 1, by omega, by rwa [hsucc]⟩
        · rintro ⟨n, hn, hdraw⟩
          cases n with
          | zero => exact absurd hzero hdraw
          | succ n => exact ⟨n, by omega, by rwa [hsucc] at hdraw⟩
      · rw [if_neg hz]
        exact ⟨fun _ ↦ ⟨0, by omega, mt (drand_eq_zero_iff g order).mpr hz⟩, fun _ ↦ rfl⟩

-- The states below all the bounds of `init`.
def Silent (g : RGen) : Prop := g.s1 < 2#32 ∧ g.s2 < 8#32 ∧ g.s3 < 16#32

instance (g : RGen) : Decidable g.Silent := inferInstanceAs (Decidable (_ ∧ _))

theorem silent_iff (g : RGen) : g.Silent ↔
    component1 g.s1 = 0#32 ∧ component2 g.s2 = 0#32 ∧ component3 g.s3 = 0#32 := by
  unfold Silent
  rw [component1_eq_zero_iff, component2_eq_zero_iff, component3_eq_zero_iff,
    ushiftRight_eq_zero_iff, ushiftRight_eq_zero_iff, ushiftRight_eq_zero_iff]
  rfl

theorem Silent.draw {g : RGen} (h : g.Silent) (n : ℕ) : g.draw n = 0#32 := by
  obtain ⟨h1, h2, h3⟩ := g.silent_iff.mp h
  rw [draw_eq, h1, h2, h3, (isRoot1.linear.iterate n).map_zero,
    (isRoot2.linear.iterate n).map_zero, (isRoot3.linear.iterate n).map_zero]
  rfl

-- Of 91 draws, the degrees of the three polynomials together, one is not zero.
theorem exists_draw_ne_zero {g : RGen} (h : ¬ g.Silent) : ∃ n < 91, g.draw n ≠ 0#32 := by
  by_contra hnone
  have hfirst : ∀ n < 32 + 30 + 29, component1^[n] (component1 g.s1) ^^^
      component2^[n] (component2 g.s2) ^^^ component3^[n] (component3 g.s3) = 0#32 := by
    intro n hn
    rw [← draw_eq]
    by_contra hdraw
    exact hnone ⟨n, hn, hdraw⟩
  exact h (g.silent_iff.mpr
    (components_eq_zero (IsRoot.sum_eq_zero_of_first isRoot1 isRoot2 isRoot3 hfirst)))

theorem exprandDraw_mem {order : ByteOrder} {turns : ℕ} {g g' : RGen} {z : CDouble}
    (h : exprandDraw order turns g = some (z, g')) : ∃ q, toRat z = some q ∧ 0 < q ∧ q < 1 := by
  induction turns generalizing g with
  | zero => cases h
  | succ turns ih =>
      rw [exprandDraw] at h
      dsimp only at h
      split at h
      · exact ih h
      · next hz =>
          obtain ⟨rfl, -⟩ := Prod.mk.inj (Option.some.inj h)
          have hdraw := drand_eq g order
          refine ⟨_, hdraw, lt_of_le_of_ne (by positivity) fun hzero ↦ ?_,
            g.draw_lt_one.trans_lt (by norm_num)⟩
          rw [← hzero] at hdraw
          exact hz hdraw

/-- The loop of `exprand` ends within 91 turns, with a number the logarithm of which is negative;
only in the states below all the bounds of `init` it never ends. -/
theorem exprand_returns (log : CDouble → CDouble) (g : RGen) (order : ByteOrder)
    (scale : CDouble) :
    ((g.exprand log order 91 scale).isSome ↔ ¬ g.Silent) ∧
    (g.Silent → ∀ turns, g.exprand log order turns scale = none) ∧
    ∀ turns r, g.exprand log order turns scale = some r → ∃ z q, toRat z = some q ∧ 0 < q ∧ q < 1 ∧
      r.1 = binary64.mul (binary64.neg (log z)) scale := by
  unfold exprand
  have hnever : g.Silent → ∀ turns, exprandDraw order turns g = none := by
    intro hsilent turns
    rw [← Option.not_isSome_iff_eq_none, exprandDraw_isSome_iff]
    rintro ⟨n, -, hdraw⟩
    exact hdraw (hsilent.draw n)
  refine ⟨?_, fun hsilent turns ↦ ?_, fun turns r hr ↦ ?_⟩
  · rw [Option.isSome_map]
    constructor
    · intro hsome hsilent
      rw [hnever hsilent] at hsome
      cases hsome
    · exact fun h ↦ (exprandDraw_isSome_iff order 91 g).mpr (exists_draw_ne_zero h)
  · rw [hnever hsilent, Option.map_none]
  · obtain ⟨⟨z, g'⟩, hz, rfl⟩ := Option.map_eq_some_iff.mp hr
    obtain ⟨q, hq, hpos, hlt⟩ := exprandDraw_mem hz
    exact ⟨z, q, hq, hpos, hlt, rfl⟩

end RGen

/-! ## 6. The words of the other `drand` -/

-- What is left of a double in [0, 1) after the subtraction has the upper word 0x41300000.
theorem upper_word_of_mem {x : CDouble} {q : ℚ}
    (hq : toRat (binary64.sub x (binary64.ofRat 1048576)) = some q) (hlow : 0 ≤ q) (hhigh : q < 1) :
    x.toNat / 2 ^ 32 = 0x41300000 := by
  have hbase : toRat (binary64.ofRat 1048576) = some 1048576 := by decide +kernel
  cases hx : toRat x with
  | none =>
      rw [toRat_sub_none (by decide +kernel) hx hbase] at hq
      cases hq
  | some v =>
      have hv := fits_of_toRat (by decide) hx
      have hbaseFits : binary64.Fits 1048576 := fits_of_toRat (by decide) hbase
      have hone : binary64.Fits 1 := ⟨1, 0, by norm_num, by decide, by decide, by decide⟩
      have hmax : |v - 1048576| < binary64.overflow := by
        refine (abs_sub v 1048576).trans_lt (hv.abs_add_lt ?_)
        decide +kernel
      have hround := toRat_sub_rnd (by decide) hx hbase hmax
      rw [hq, Option.some.injEq] at hround
      have hv0 : 1048576 ≤ v := by
        by_contra hless
        have hneg : v - 1048576 < 0 := by linarith
        have hzero : binary64.rnd (v - 1048576) = 0 :=
          le_antisymm (rnd_nonpos hneg.le) (by rwa [← hround])
        exact rnd_ne_zero (by decide) (hv.units_sub hbaseFits) hneg.ne hzero
      have hv1 : v < 1048577 := by
        by_contra hmore
        have hle := le_rnd hone (show 1 ≤ v - 1048576 by linarith)
        linarith
      have hpos : ¬ negative x := by
        intro hneg
        linarith [(toRat_sign hx).1 hneg]
      have hvalue := eq_magnitude hx hpos
      have hlower : magnitude (F := binary64) 0x4130000000000000#64 = 1048576 := by decide +kernel
      have hupper : magnitude (F := binary64) 0x4130000100000000#64 = 1048577 := by decide +kernel
      have hge : 0x4130000000000000 ≤ x.toNat := by
        by_contra hlt
        have hmag := magnitude_lt (F := binary64) (y := 0x4130000000000000#64) hpos (by decide)
          (not_le.mp hlt)
        linarith
      have hlt : x.toNat < 0x4130000100000000 := by
        by_contra hnot
        rcases Nat.lt_or_eq_of_le (not_lt.mp hnot) with hgt | heq
        · have hmag := magnitude_lt (F := binary64) (x := 0x4130000100000000#64) (by decide)
            hpos hgt
          linarith
        · rw [show x = (0x4130000100000000#64 : CDouble) from BitVec.eq_of_toNat_eq heq.symm,
            hupper] at hvalue
          linarith
      omega

/-- The function `drand` of three words stays in [0, 1) on every machine with the words in the
other order; where the lower word comes first, only one draw does. -/
theorem drand_mem_iff (order : ByteOrder) (g : RGen) :
    (∃ q, toRat (drand order g).1 = some q ∧ 0 ≤ q ∧ q < 1) ↔
      order = .big ∨ g.trand.1 = 0x41300000#32 := by
  have hmember : ∀ {d : CDouble}, d = (g.drand order).1 →
      ∃ q, toRat d = some q ∧ 0 ≤ q ∧ q < 1 := by
    rintro d rfl
    exact ⟨_, g.drand_eq order, by positivity, g.draw_lt_one.trans_lt (by norm_num)⟩
  cases order with
  | big => exact ⟨fun _ ↦ .inl rfl, fun _ ↦ hmember rfl⟩
  | little =>
      constructor
      · rintro ⟨q, hq, hlow, hhigh⟩
        right
        have hword := upper_word_of_mem (x := g.trand.1 ++ 0x41300000#32) hq hlow hhigh
        rw [ByteOrder.double_toNat] at hword
        apply BitVec.eq_of_toNat_eq
        rw [show (0x41300000#32).toNat = 0x41300000 by decide] at hword ⊢
        omega
      · rintro (h | h)
        · cases h
        · apply hmember
          show binary64.sub (g.trand.1 ++ 0x41300000#32) _ =
            binary64.sub (0x41300000#32 ++ g.trand.1) _
          rw [h]

end Scnim
