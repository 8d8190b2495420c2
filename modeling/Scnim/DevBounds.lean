import Scnim.BoundsMacros
import Scnim.Machine.FloatRound

/-!
# Clipping in C++

`sc_clip` of `dev/SC_BoundsMacros.h`: the bounds are converted to the type of the value, where the
Nim version takes over their bits.
-/

open Machine

namespace Scnim.Dev

/-! ## 1. The function -/

-- The integer that a value of an integer type is.
def intValue : (t : NumType) → BitVec t.width → ℤ
  | .uint _, x => x.toNat
  | .sint _, x => x.toInt
  | .float _, _ => 0

-- The integers of a type.
def InRange : NumType → ℤ → Prop
  | .uint w, z => 0 ≤ z ∧ z < 2 ^ w
  | .sint w, z => -2 ^ w ≤ 2 * z ∧ 2 * z < 2 ^ w
  | .float _, _ => False

instance (t : NumType) (z : ℤ) : Decidable (InRange t z) := by
  cases t <;> unfold InRange <;> infer_instance

/-- `(T)x` in C++; `none` where a float has no such integer. -/
def convert (s : NumType) : (t : NumType) → BitVec s.width → Option (BitVec t.width) :=
  match s with
  | .float F => fun t x ↦
      match t with
      | .float G => some (F.convert G x)
      | t => (F.toRat x).bind fun q ↦
          let z := if 0 ≤ q then ⌊q⌋ else ⌈q⌉
          if InRange t z then some (BitVec.ofInt t.width z) else none
  | s => fun t x ↦
      match t with
      | .float G => some (G.ofRat (intValue s x))
      | t => some (BitVec.ofInt t.width (intValue s x))

-- `std::min(a, b)` and `std::max(a, b)`
def stdMin (T : NumType) (a b : BitVec T.width) : BitVec T.width :=
  if LtValue T.value b a then b else a

def stdMax (T : NumType) (a b : BitVec T.width) : BitVec T.width :=
  if LtValue T.value a b then b else a

def scClip (T U V : NumType) (x : BitVec T.width) (lo : BitVec U.width) (hi : BitVec V.width) :
    Option (BitVec T.width) := do
  let top ← convert V T hi
  let bottom ← convert U T lo
  return stdMax T (stdMin T x top) bottom

/-! ## 2. Conversions that keep a number -/

-- Formats with room for infinities.
def Standard : NumType → Prop
  | .float F => 2 ≤ F.exp
  | _ => True

theorem inRange_of_value {t : NumType} (ht : t.isFloat = false) {y : BitVec t.width} {z : ℤ}
    (hy : t.value y = some (NumType.ofInt z)) : InRange t z := by
  cases t with
  | uint w =>
      have hz : ((BitVec.toNat (w := w) y : ℕ) : ℤ) = z := NumType.ofInt_inj (Option.some.inj hy)
      have hlt : ((BitVec.toNat (w := w) y : ℕ) : ℤ) < (2 ^ w : ℕ) := by
        exact_mod_cast BitVec.isLt (w := w) y
      push_cast at hlt
      exact ⟨by omega, by omega⟩
  | sint w =>
      have hz : BitVec.toInt (n := w) y = z := NumType.ofInt_inj (Option.some.inj hy)
      have hlow := BitVec.le_two_mul_toInt (w := w) (x := y)
      have hhigh := BitVec.two_mul_toInt_lt (w := w) (x := y)
      rw [hz] at hlow hhigh
      exact ⟨hlow, hhigh⟩
  | float F => cases ht

theorem value_ofInt {t : NumType} (ht : t.isFloat = false) {y : BitVec t.width} {z : ℤ}
    (hy : t.value y = some (NumType.ofInt z)) :
    t.value (BitVec.ofInt t.width z) = some (NumType.ofInt z) := by
  obtain ⟨z', hz', hyz⟩ := NumType.eq_ofInt ht hy
  rw [NumType.ofInt_inj hz', ← hyz, hy, hz']

theorem value_intValue {t : NumType} (ht : t.isFloat = false) (x : BitVec t.width) :
    t.value x = some (NumType.ofInt (intValue t x)) := by
  cases t with
  | uint w => rfl
  | sint w => rfl
  | float F => cases ht

theorem value_convert {F G : FloatFormat} (hG : 2 ≤ G.exp) {x : BitVec F.width}
    {y : BitVec G.width} {a : ExtRat} (hx : FloatFormat.value x = some a)
    (hy : FloatFormat.value y = some a) : FloatFormat.value (F.convert G x) = some a := by
  cases hrat : FloatFormat.toRat x with
  | some q =>
      have ha := hx
      rw [FloatFormat.value_of_toRat hrat, Option.some.injEq] at ha
      subst ha
      have hfits := FloatFormat.fits_of_toRat hG (FloatFormat.toRat_of_value hy)
      have hconvert := FloatFormat.toRat_convert_rnd hG hrat hfits.abs_lt
      rw [FloatFormat.rnd_of_fits hfits] at hconvert
      exact FloatFormat.value_of_toRat hconvert
  | none =>
      have hvalue := hx
      unfold FloatFormat.value at hvalue
      rw [hrat] at hvalue
      dsimp only at hvalue
      unfold FloatFormat.convert
      rw [hx, hrat]
      dsimp only
      split at hvalue
      · rw [← hvalue]
        split
        · exact FloatFormat.value_neg_of_top (FloatFormat.value_inf G)
        · exact FloatFormat.value_inf G
      · cases hvalue

theorem value_ofRat {s : NumType} (hs : s.isFloat = false) {G : FloatFormat} (hG : 2 ≤ G.exp)
    {x : BitVec s.width} {y : BitVec G.width} {a : ExtRat} (hx : s.value x = some a)
    (hy : FloatFormat.value y = some a) :
    FloatFormat.value (G.ofRat (intValue s x)) = some a := by
  rw [value_intValue hs x, Option.some.injEq] at hx
  subst hx
  have hfits := FloatFormat.fits_of_toRat hG (FloatFormat.toRat_of_value hy)
  have hexact := FloatFormat.toRat_ofRat_rnd G hfits.abs_lt hG
  rw [FloatFormat.rnd_of_fits hfits] at hexact
  exact FloatFormat.value_of_toRat hexact

theorem value_integers {s t : NumType} (hs : s.isFloat = false) (ht : t.isFloat = false)
    {x : BitVec s.width} {y : BitVec t.width} {a : ExtRat} (hx : s.value x = some a)
    (hy : t.value y = some a) : t.value (BitVec.ofInt t.width (intValue s x)) = some a := by
  rw [value_intValue hs x, Option.some.injEq] at hx
  subst hx
  exact value_ofInt ht hy

-- A float that is an integer is that integer.
theorem value_truncated {F : FloatFormat} {t : NumType} (ht : t.isFloat = false)
    {x : BitVec F.width} {y : BitVec t.width} {a : ExtRat} (hx : FloatFormat.value x = some a)
    (hy : t.value y = some a) : ∃ x', ((F.toRat x).bind fun q ↦
        let z := if 0 ≤ q then ⌊q⌋ else ⌈q⌉
        if InRange t z then some (BitVec.ofInt t.width z) else none) = some x' ∧
      t.value x' = some a := by
  obtain ⟨z, rfl, -⟩ := NumType.eq_ofInt ht hy
  have hz : (if 0 ≤ (z : ℚ) then ⌊(z : ℚ)⌋ else ⌈(z : ℚ)⌉) = z := by
    rw [Int.floor_intCast, Int.ceil_intCast, ite_self]
  refine ⟨_, ?_, value_ofInt ht hy⟩
  rw [FloatFormat.toRat_of_value hx, Option.bind_some]
  dsimp only
  rw [hz, if_pos (inRange_of_value ht hy)]

-- A number that the other type has as well is converted to it.
theorem convert_value {s t : NumType} (ht : Standard t) {x : BitVec s.width}
    {a : ExtRat} (hx : s.value x = some a) (ha : ∃ y, t.value y = some a) :
    ∃ x', convert s t x = some x' ∧ t.value x' = some a := by
  obtain ⟨y, hy⟩ := ha
  cases s with
  | float F =>
      cases t with
      | float G => exact ⟨_, rfl, value_convert ht hx hy⟩
      | uint w => exact value_truncated rfl hx hy
      | sint w => exact value_truncated rfl hx hy
  | uint w =>
      cases t with
      | float G => exact ⟨_, rfl, value_ofRat rfl ht hx hy⟩
      | uint v => exact ⟨_, rfl, value_integers rfl rfl hx hy⟩
      | sint v => exact ⟨_, rfl, value_integers rfl rfl hx hy⟩
  | sint w =>
      cases t with
      | float G => exact ⟨_, rfl, value_ofRat rfl ht hx hy⟩
      | uint v => exact ⟨_, rfl, value_integers rfl rfl hx hy⟩
      | sint v => exact ⟨_, rfl, value_integers rfl rfl hx hy⟩

/-! ## 3. Clipping -/

section Bounds

variable {T : NumType} {x y : BitVec T.width} {a b : ExtRat}

theorem value_stdMin (hx : T.value x = some a) (hy : T.value y = some b) :
    T.value (stdMin T x y) = some (min a b) := by
  unfold stdMin LtValue
  simp only [hx, hy]
  by_cases hlt : b < a
  · rw [if_pos hlt, hy, min_eq_right hlt.le]
  · rw [if_neg hlt, hx, min_eq_left (not_lt.mp hlt)]

theorem value_stdMax (hx : T.value x = some a) (hy : T.value y = some b) :
    T.value (stdMax T x y) = some (max a b) := by
  unfold stdMax LtValue
  simp only [hx, hy]
  by_cases hlt : a < b
  · rw [if_pos hlt, hy, max_eq_right hlt.le]
  · rw [if_neg hlt, hx, max_eq_left (not_lt.mp hlt)]

-- A comparison with a NaN is false, so the first argument stays.
theorem stdMin_nan (hx : T.value x = none) : stdMin T x y = x :=
  if_neg (not_ltValue_of_none T.value (.inr hx))

theorem stdMax_nan (hx : T.value x = none) : stdMax T x y = x :=
  if_neg (not_ltValue_of_none T.value (.inl hx))

end Bounds

/-- For bounds that the value type can represent, the C++ `sc_clip` clips, whatever types the bounds
themselves have; a NaN comes back as it is. -/
theorem scClip_clips (T U V : NumType) (hT : Standard T) (lo : BitVec U.width)
    (hi : BitVec V.width) {l h : ExtRat} (hlo : U.value lo = some l) (hhi : V.value hi = some h)
    (hlh : l ≤ h) (hl : ∃ x, T.value x = some l) (hh : ∃ x, T.value x = some h) :
    ∃ f, (∀ x, scClip T U V x lo hi = some (f x)) ∧ Clips T.value f l h ∧
      ∀ x, T.value x = none → f x = x := by
  obtain ⟨bottom, hbottom, hbottomValue⟩ := convert_value hT hlo hl
  obtain ⟨top, htop, htopValue⟩ := convert_value hT hhi hh
  refine ⟨fun x ↦ stdMax T (stdMin T x top) bottom, fun x ↦ ?_, ?_, fun x hx ↦ ?_⟩
  · unfold scClip
    rw [htop, hbottom]
    rfl
  · apply clips_of_value T.value hlh
    intro x a hx
    rw [clipTo_eq hlh]
    exact value_stdMax (value_stdMin hx htopValue) hbottomValue
  · show stdMax T (stdMin T x top) bottom = x
    rw [stdMin_nan hx, stdMax_nan hx]

-- a float between an `int` and a double
theorem scClip_clips_unit :
    ∃ f, (∀ x, scClip (.float FloatFormat.binary32) (.sint 32) (.float FloatFormat.binary64) x 0#32
        0x3FF0000000000000#64 = some (f x)) ∧
      Clips (NumType.float FloatFormat.binary32).value f (NumType.ofInt 0) (NumType.ofInt 1) ∧
      ∀ x, (NumType.float FloatFormat.binary32).value x = none → f x = x :=
  scClip_clips (.float FloatFormat.binary32) (.sint 32) (.float FloatFormat.binary64)
    (show 2 ≤ 8 by decide) 0#32 0x3FF0000000000000#64 (by decide +kernel) (by decide +kernel)
    (by decide +kernel) ⟨0#32, by decide +kernel⟩ ⟨0x3F800000#32, by decide +kernel⟩

end Scnim.Dev
