import Scnim.Machine.Clip
import Scnim.Machine.Float

/-!
# Mixed-type clipping

`sc_clip` of `scnim/BoundsMacros.nim`, for every numeric type of the value and of the two bounds.
-/

open Machine

namespace Scnim

inductive NumType
  | uint (w : ℕ)
  | sint (w : ℕ)
  | float (F : FloatFormat)
  deriving DecidableEq

namespace NumType

def width : NumType → ℕ
  | .uint w => w
  | .sint w => w
  | .float F => F.width

def isFloat : NumType → Bool
  | .uint _ => false
  | .sint _ => false
  | .float _ => true

def isSigned : NumType → Bool
  | .uint _ => false
  | .sint _ => true
  | .float _ => true

-- an integer among the numbers
def ofInt (z : ℤ) : ExtRat := ((z : ℚ) : WithTop ℚ)

-- The number a value of the type stands for; none for a NaN.
def value : (t : NumType) → BitVec t.width → Option ExtRat
  | .uint _, x => some (ofInt x.toNat)
  | .sint _, x => some (ofInt x.toInt)
  | .float _, x => FloatFormat.value x

/-- `cast[t](x)`: between integers a conversion in C; where a float is involved, a union of the two
types, in which the bytes beyond the source's hold what was there. -/
def cast (stale : ℕ) (s t : NumType) (x : BitVec s.width) : BitVec t.width :=
  if s.isFloat ∨ t.isFloat then BitVec.ofNat t.width (x.toNat + 2 ^ s.width * stale)
  else if s.isSigned then x.signExtend t.width
  else x.setWidth t.width

end NumType

-- `max(min(x, cast[T](hi)), cast[T](lo))`
def scClip (staleLo staleHi : ℕ) (T U V : NumType) (x : BitVec T.width) (lo : BitVec U.width)
    (hi : BitVec V.width) : BitVec T.width :=
  larger T.value (smaller T.value x (NumType.cast staleHi V T hi)) (NumType.cast staleLo U T lo)

/-! ## 1. Casts that keep a number -/

namespace NumType

theorem ofInt_inj {y z : ℤ} (h : ofInt y = ofInt z) : y = z := by
  have hq : (y : ℚ) = z := WithTop.coe_injective (WithBot.coe_injective h)
  exact_mod_cast hq

theorem eq_ofInt {t : NumType} (ht : t.isFloat = false) {x : BitVec t.width} {a : ExtRat}
    (hx : t.value x = some a) : ∃ z, a = ofInt z ∧ x = BitVec.ofInt t.width z := by
  cases t with
  | uint w =>
      refine ⟨x.toNat, (Option.some.inj hx).symm, ?_⟩
      rw [BitVec.ofInt_natCast]
      exact (BitVec.ofNat_toNat _ x).trans (BitVec.setWidth_eq x) |>.symm
  | sint w =>
      refine ⟨x.toInt, (Option.some.inj hx).symm, ?_⟩
      exact (BitVec.ofInt_toInt).symm
  | float F => cases ht

theorem cast_eq_ofInt {s t : NumType} (hs : s.isFloat = false) (ht : t.isFloat = false)
    {x : BitVec s.width} {z : ℤ} (hx : s.value x = some (ofInt z)) (stale : ℕ) :
    cast stale s t x = BitVec.ofInt t.width z := by
  unfold cast
  rw [if_neg (by simp [hs, ht])]
  cases s with
  | uint w =>
      rw [← ofInt_inj (Option.some.inj hx), BitVec.ofInt_natCast]
      exact (BitVec.ofNat_toNat _ x).symm
  | sint w =>
      rw [← ofInt_inj (Option.some.inj hx)]
      rfl
  | float F => cases hs

theorem cast_integer {s t : NumType} (hs : s.isFloat = false) (ht : t.isFloat = false)
    {x : BitVec s.width} {a : ExtRat} (hx : s.value x = some a) (ha : ∃ y, t.value y = some a)
    (stale : ℕ) : t.value (cast stale s t x) = some a := by
  obtain ⟨y, hy⟩ := ha
  obtain ⟨z, rfl, hyz⟩ := eq_ofInt ht hy
  rw [cast_eq_ofInt hs ht hx, ← hyz, hy]

theorem cast_self (stale : ℕ) (t : NumType) (x : BitVec t.width) : cast stale t t x = x := by
  unfold cast
  split
  · apply BitVec.eq_of_toNat_eq
    rw [BitVec.toNat_ofNat, Nat.add_mul_mod_self_left, Nat.mod_eq_of_lt x.isLt]
  · split
    · exact BitVec.signExtend_eq x
    · exact BitVec.setWidth_eq x

-- The types between which every cast keeps the number, where it can.
def Alike (s t : NumType) : Prop := s = t ∨ (s.isFloat = false ∧ t.isFloat = false)

theorem cast_alike {s t : NumType} (h : s.Alike t) {x : BitVec s.width} {a : ExtRat}
    (hx : s.value x = some a) (ha : ∃ y, t.value y = some a) (stale : ℕ) :
    t.value (cast stale s t x) = some a := by
  rcases h with rfl | ⟨hs, ht⟩
  · rw [cast_self, hx]
  · exact cast_integer hs ht hx ha stale

end NumType

/-! ## 2. Clipping -/

/-- For bounds that the value type can represent, `sc_clip` clips exactly if the casts of both
bounds still do as bounds what their numbers would do.  Casts between integer types, and to the
type itself, always do. -/
theorem scClip_iff (staleLo staleHi : ℕ) (T U V : NumType) (lo : BitVec U.width)
    (hi : BitVec V.width) {l h : ExtRat} (hlo : U.value lo = some l) (hhi : V.value hi = some h)
    (hlh : l ≤ h) (hl : ∃ x, T.value x = some l) (hh : ∃ x, T.value x = some h) :
    (Clips T.value (fun x ↦ scClip staleLo staleHi T U V x lo hi) l h ↔
      LowerKept T.value l (NumType.cast staleLo U T lo) ∧
      UpperKept T.value l h (NumType.cast staleHi V T hi)) ∧
    (U.Alike T → V.Alike T →
      Clips T.value (fun x ↦ scClip staleLo staleHi T U V x lo hi) l h) := by
  have hiff : Clips T.value (fun x ↦ scClip staleLo staleHi T U V x lo hi) l h ↔
      LowerKept T.value l (NumType.cast staleLo U T lo) ∧
      UpperKept T.value l h (NumType.cast staleHi V T hi) := clips_iff T.value hlh hl hh
  refine ⟨hiff, fun hU hV ↦ hiff.mpr ⟨.inl ?_, .inl ?_⟩⟩
  · exact NumType.cast_alike hU hlo hl staleLo
  · exact NumType.cast_alike hV hhi hh staleHi

-- A `float32` between the integer 0 and a `float32`: the casts keep both numbers.  From the integer
-- 1 on, the lower bound's cast is 2^-149.  An `int16` between a `uint8` and an `int32`.
theorem scClip_mixedBounds :
    Clips (NumType.float FloatFormat.binary32).value
      (fun x ↦ scClip 0 0 (.float FloatFormat.binary32) (.sint 32) (.float FloatFormat.binary32) x
        0#32 0x40000000#32) (NumType.ofInt 0) (NumType.ofInt 2) ∧
    ¬ Clips (NumType.float FloatFormat.binary32).value
      (fun x ↦ scClip 0 0 (.float FloatFormat.binary32) (.sint 32) (.float FloatFormat.binary32) x
        1#32 0x40000000#32) (NumType.ofInt 1) (NumType.ofInt 2) ∧
    Clips (NumType.sint 16).value
      (fun x ↦ scClip 0 0 (.sint 16) (.uint 8) (.sint 32) x 3#8 100#32)
      (NumType.ofInt 3) (NumType.ofInt 100) := by
  have htwo : (NumType.float FloatFormat.binary32).value 0x40000000#32 =
      some (NumType.ofInt 2) := by decide +kernel
  refine ⟨?_, fun hclips ↦ ?_, ?_⟩
  · exact (scClip_iff 0 0 (.float FloatFormat.binary32) (.sint 32) (.float FloatFormat.binary32)
      0#32 0x40000000#32 (by decide +kernel) htwo (by decide +kernel) ⟨0#32, by decide +kernel⟩
      ⟨_, htwo⟩).1.mpr ⟨.inl (by decide +kernel), .inl (by decide +kernel)⟩
  · have hkept := (scClip_iff 0 0 (.float FloatFormat.binary32) (.sint 32)
      (.float FloatFormat.binary32) 1#32 0x40000000#32 (by decide +kernel) htwo (by decide +kernel)
      ⟨0x3F800000#32, by decide +kernel⟩ ⟨_, htwo⟩).1.mp hclips
    rcases hkept.1 with hsame | ⟨hnan, -⟩
    · exact absurd hsame (by decide +kernel)
    · exact absurd hnan (by decide +kernel)
  · exact (scClip_iff 0 0 (.sint 16) (.uint 8) (.sint 32) 3#8 100#32 rfl (by decide +kernel)
      (by decide +kernel) ⟨3#16, by decide +kernel⟩ ⟨100#16, by decide +kernel⟩).2
      (.inr ⟨rfl, rfl⟩) (.inr ⟨rfl, rfl⟩)

/-- 0.5 clipped to the integers 0 and 1 is the smallest positive float. -/
theorem scClip_misses :
    (scClip 0 0 (.float FloatFormat.binary32) (.sint 32) (.sint 32)
      0x3F000000#32 0#32 1#32).toNat = 1 ∧
    ¬ ∀ (staleLo staleHi : ℕ) (T U V : NumType) (lo : BitVec U.width) (hi : BitVec V.width)
      (l h : ExtRat), U.value lo = some l → V.value hi = some h → l ≤ h →
      (∃ x, T.value x = some l) → (∃ x, T.value x = some h) →
      Clips T.value (fun x ↦ scClip staleLo staleHi T U V x lo hi) l h := by
  refine ⟨by decide +kernel, fun hall ↦ ?_⟩
  have hclips := hall 0 0 (.float FloatFormat.binary32) (.sint 32) (.sint 32) 0#32 1#32
    (NumType.ofInt 0) (NumType.ofInt 1) (by decide +kernel) (by decide +kernel)
    (by decide +kernel) ⟨0#32, by decide +kernel⟩ ⟨0x3F800000#32, by decide +kernel⟩
  have hhalf := hclips.eq 0x3F000000#32 (((1 / 2 : ℚ) : WithTop ℚ) : ExtRat) (by decide +kernel)
  exact absurd hhalf (by decide +kernel)

end Scnim
