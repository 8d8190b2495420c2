import Scnim.DevBounds
import Scnim.SndBuf

/-!
# The buffer of a unit generator

Which buffer `PV_GET_BUF` and `PV_GET_BUF2` of `dev/FFT_UGens.h` take for the number they are given:
one of the server's, or a local one of the graph for the numbers above those.
-/

open Machine
open Machine.FloatFormat

namespace Scnim.Dev

/-! ## 1. The macros -/

/-- The sizes that the macros look at: of `world->mSndBufs` and of `parent->mLocalSndBufs`. -/
structure BufCounts where
  mNumSndBufs : BitVec 32
  localBufNum : BitVec 32

-- An element of one of the two arrays, by its distance from the array's beginning.
inductive BufRef
  | sndBufs (i : ℤ)
  | localSndBufs (i : ℤ)

def BufRef.Exists (counts : BufCounts) : BufRef → Prop
  | .sndBufs i => 0 ≤ i ∧ i < counts.mNumSndBufs.toNat
  | .localSndBufs i => 0 ≤ i ∧ i < counts.localBufNum.toInt

-- The distance is a `uint32` that becomes an `int`.
def chooseBuf (counts : BufCounts) (ibufnum : BitVec 32) : BufRef :=
  if counts.mNumSndBufs ≤ ibufnum then
    let localBufNum := ibufnum - counts.mNumSndBufs
    if localBufNum.toInt ≤ counts.localBufNum.toInt then .localSndBufs localBufNum.toInt
    else .sndBufs 0
  else .sndBufs ibufnum.toNat

/-- What the macro writes to `ZOUT0(0)`, and the buffer unless it returns; `none` where the number
is no `uint32`. -/
def pvGetBuf (counts : BufCounts) (fbufnum : CFloat) : Option (CFloat × Option BufRef) :=
  if Less (F := binary32) fbufnum 0 then some (binary32.ofRat (-1), none)
  else do
    let ibufnum ← convert (.float binary32) (.uint 32) fbufnum
    return (fbufnum, some (chooseBuf counts ibufnum))

-- `uint32 ibufnum1 = (int)fbufnum1;`
def pvGetBuf2 (counts : BufCounts) (fbufnum1 fbufnum2 : CFloat) :
    Option (CFloat × Option (BufRef × BufRef)) :=
  if Less (F := binary32) fbufnum1 0 ∨ Less (F := binary32) fbufnum2 0 then
    some (binary32.ofRat (-1), none)
  else do
    let ibufnum1 ← convert (.float binary32) (.sint 32) fbufnum1
    let ibufnum2 ← convert (.float binary32) (.sint 32) fbufnum2
    return (fbufnum1, some (chooseBuf counts ibufnum1, chooseBuf counts ibufnum2))

/-! ## 2. Which numbers lead to a buffer -/

-- The numbers that are right to use, and those that are taken for the first buffer.
def Leads (counts : BufCounts) (n : ℤ) : Prop :=
  n < counts.mNumSndBufs.toNat + counts.localBufNum.toInt ∨
  (0 < counts.mNumSndBufs.toNat ∧ counts.mNumSndBufs.toNat + counts.localBufNum.toInt < n ∧
    n < counts.mNumSndBufs.toNat + 2 ^ 31)

theorem chooseBuf_exists_iff (counts : BufCounts) (hlocal : 0 ≤ counts.localBufNum.toInt)
    (ibufnum : BitVec 32) :
    (chooseBuf counts ibufnum).Exists counts ↔ Leads counts ibufnum.toNat := by
  have hcount := counts.mNumSndBufs.isLt
  have hnum := ibufnum.isLt
  have hmax := BitVec.two_mul_toInt_lt (x := counts.localBufNum)
  unfold chooseBuf Leads
  dsimp only
  by_cases hle : counts.mNumSndBufs ≤ ibufnum
  · rw [if_pos hle]
    rw [BitVec.le_def] at hle
    have hdiff : (ibufnum - counts.mNumSndBufs).toNat =
        ibufnum.toNat - counts.mNumSndBufs.toNat := by
      rw [BitVec.toNat_sub]
      omega
    have hint := BitVec.toInt_eq_toNat_cond (ibufnum - counts.mNumSndBufs)
    rw [hdiff] at hint
    by_cases hsmall : (ibufnum - counts.mNumSndBufs).toInt ≤ counts.localBufNum.toInt
    · rw [if_pos hsmall]
      unfold BufRef.Exists
      dsimp only
      split at hint <;> omega
    · rw [if_neg hsmall]
      unfold BufRef.Exists
      dsimp only
      split at hint <;> omega
  · rw [if_neg hle]
    rw [BitVec.le_def] at hle
    unfold BufRef.Exists
    dsimp only
    omega

theorem convert_float (t : NumType) (ht : t.isFloat = false) (x : CFloat) :
    convert (.float binary32) t x = (toRat (F := binary32) x).bind fun q ↦
      let z := if 0 ≤ q then ⌊q⌋ else ⌈q⌉
      if InRange t z then some (BitVec.ofInt t.width z) else none := by
  cases t with
  | uint w => rfl
  | sint w => rfl
  | float F => cases ht

-- What a macro that does not return makes of its number.
theorem index_iff {t : NumType} (ht : t.isFloat = false) {x : CFloat} {v : BitVec t.width} :
    (¬ Less (F := binary32) x 0 ∧ convert (.float binary32) t x = some v) ↔
      ∃ q, toRat (F := binary32) x = some q ∧ 0 ≤ q ∧ InRange t ⌊q⌋ ∧
        v = BitVec.ofInt t.width ⌊q⌋ := by
  rw [convert_float t ht]
  cases hx : toRat (F := binary32) x with
  | none => simp
  | some q =>
      have hless := less_iff hx (toRat_zero (F := binary32) (by decide))
      rw [hless, not_lt, Option.bind_some]
      constructor
      · rintro ⟨hq, hv⟩
        dsimp only at hv
        rw [if_pos hq] at hv
        split at hv
        · next hrange => exact ⟨q, rfl, hq, hrange, (Option.some.inj hv).symm⟩
        · cases hv
      · rintro ⟨r, hr, hq, hrange, rfl⟩
        obtain rfl := Option.some.inj hr
        refine ⟨hq, ?_⟩
        dsimp only
        rw [if_pos hq, if_pos hrange]

theorem chooseBuf_ofInt {counts : BufCounts} (hlocal : 0 ≤ counts.localBufNum.toInt) {z : ℤ}
    (hlow : 0 ≤ z) (hhigh : z < 2 ^ 32) :
    (chooseBuf counts (BitVec.ofInt 32 z)).Exists counts ↔ Leads counts z := by
  rw [chooseBuf_exists_iff counts hlocal, BitVec.toNat_ofInt,
    show (((z % (2 ^ 32 : ℕ)).toNat : ℕ) : ℤ) = z by omega]

theorem pvGetBuf_eq_some_iff {counts : BufCounts} {x : CFloat} {b : BufRef} :
    pvGetBuf counts x = some (x, some b) ↔ ∃ v, (¬ Less (F := binary32) x 0 ∧
      convert (.float binary32) (.uint 32) x = some v) ∧ b = chooseBuf counts v := by
  unfold pvGetBuf
  by_cases hless : Less (F := binary32) x 0
  · rw [if_pos hless]
    refine iff_of_false (fun h ↦ ?_) fun ⟨v, hv, _⟩ ↦ hv.1 hless
    cases congrArg Prod.snd (Option.some.inj h)
  · rw [if_neg hless]
    cases convert (.float binary32) (.uint 32) x with
    | none => exact iff_of_false (fun h ↦ nomatch h) fun ⟨v, hv, _⟩ ↦ nomatch hv.2
    | some v =>
        constructor
        · intro h
          cases h
          exact ⟨v, ⟨hless, rfl⟩, rfl⟩
        · rintro ⟨v', ⟨-, hv⟩, rfl⟩
          cases hv
          rfl

theorem pvGetBuf2_eq_some_iff {counts : BufCounts} {x y : CFloat} {b b' : BufRef} :
    pvGetBuf2 counts x y = some (x, some (b, b')) ↔
      (∃ v, (¬ Less (F := binary32) x 0 ∧
        convert (.float binary32) (.sint 32) x = some v) ∧ b = chooseBuf counts v) ∧
      ∃ v, (¬ Less (F := binary32) y 0 ∧
        convert (.float binary32) (.sint 32) y = some v) ∧ b' = chooseBuf counts v := by
  unfold pvGetBuf2
  by_cases hless : Less (F := binary32) x 0 ∨ Less (F := binary32) y 0
  · rw [if_pos hless]
    refine iff_of_false (fun h ↦ ?_) fun ⟨⟨v, hv, _⟩, v', hv', _⟩ ↦ hless.elim hv.1 hv'.1
    cases congrArg Prod.snd (Option.some.inj h)
  · rw [if_neg hless]
    obtain ⟨hx, hy⟩ := not_or.mp hless
    cases convert (.float binary32) (.sint 32) x with
    | none => exact iff_of_false (fun h ↦ nomatch h) fun ⟨⟨v, hv, _⟩, _⟩ ↦ nomatch hv.2
    | some v =>
        cases convert (.float binary32) (.sint 32) y with
        | none => exact iff_of_false (fun h ↦ nomatch h) fun ⟨_, v', hv', _⟩ ↦ nomatch hv'.2
        | some v' =>
            constructor
            · intro h
              cases h
              exact ⟨⟨v, ⟨hx, rfl⟩, rfl⟩, v', ⟨hy, rfl⟩, rfl⟩
            · rintro ⟨⟨_, ⟨-, hv⟩, rfl⟩, _, ⟨-, hv'⟩, rfl⟩
              cases hv
              cases hv'
              rfl

/-- `PV_GET_BUF` and `PV_GET_BUF2` take buffers that exist exactly for numbers below the count of
all buffers, and for those above it up to where an `int` turns negative, which stand for the first
buffer.  The count itself leads behind the local buffers. -/
theorem pvGetBuf_exists_iff (counts : BufCounts) (hlocal : 0 ≤ counts.localBufNum.toInt) :
    (∀ x : CFloat, (∃ b, pvGetBuf counts x = some (x, some b) ∧ b.Exists counts) ↔
      ∃ q, toRat (F := binary32) x = some q ∧ 0 ≤ q ∧ ⌊q⌋ < 2 ^ 32 ∧ Leads counts ⌊q⌋) ∧
    ∀ x y : CFloat, (∃ b b', pvGetBuf2 counts x y = some (x, some (b, b')) ∧ b.Exists counts ∧
        b'.Exists counts) ↔
      ∃ q r, toRat (F := binary32) x = some q ∧ toRat (F := binary32) y = some r ∧ 0 ≤ q ∧ 0 ≤ r ∧
        ⌊q⌋ < 2 ^ 31 ∧ ⌊r⌋ < 2 ^ 31 ∧ Leads counts ⌊q⌋ ∧ Leads counts ⌊r⌋ := by
  constructor
  · intro x
    constructor
    · rintro ⟨b, hb, hexists⟩
      obtain ⟨v, hv, rfl⟩ := pvGetBuf_eq_some_iff.mp hb
      obtain ⟨q, hx, hq, hrange, rfl⟩ := (index_iff rfl).mp hv
      exact ⟨q, hx, hq, hrange.2, (chooseBuf_ofInt hlocal hrange.1 hrange.2).mp hexists⟩
    · rintro ⟨q, hx, hq, hmax, hleads⟩
      have hfloor := Int.floor_nonneg.mpr hq
      exact ⟨_, pvGetBuf_eq_some_iff.mpr ⟨_, (index_iff rfl).mpr ⟨q, hx, hq, ⟨hfloor, hmax⟩, rfl⟩,
        rfl⟩, (chooseBuf_ofInt hlocal hfloor hmax).mpr hleads⟩
  · intro x y
    constructor
    · rintro ⟨b, b', hb, hexists, hexists'⟩
      obtain ⟨⟨v, hv, rfl⟩, v', hv', rfl⟩ := pvGetBuf2_eq_some_iff.mp hb
      obtain ⟨q, hx, hq, hrange, rfl⟩ := (index_iff rfl).mp hv
      obtain ⟨r, hy, hr, hrange', rfl⟩ := (index_iff rfl).mp hv'
      have hmax : ⌊q⌋ < 2 ^ 31 := by
        have := hrange.2
        omega
      have hmax' : ⌊r⌋ < 2 ^ 31 := by
        have := hrange'.2
        omega
      exact ⟨q, r, hx, hy, hq, hr, hmax, hmax',
        (chooseBuf_ofInt hlocal (Int.floor_nonneg.mpr hq) (by omega)).mp hexists,
        (chooseBuf_ofInt hlocal (Int.floor_nonneg.mpr hr) (by omega)).mp hexists'⟩
    · rintro ⟨q, r, hx, hy, hq, hr, hmax, hmax', hleads, hleads'⟩
      have hfloor := Int.floor_nonneg.mpr hq
      have hfloor' := Int.floor_nonneg.mpr hr
      have hrange : ∀ {z : ℤ}, 0 ≤ z → z < 2 ^ 31 → InRange (.sint 32) z :=
        fun h h' ↦ ⟨by omega, by omega⟩
      exact ⟨_, _, pvGetBuf2_eq_some_iff.mpr
        ⟨⟨_, (index_iff rfl).mpr ⟨q, hx, hq, hrange hfloor hmax, rfl⟩, rfl⟩,
          _, (index_iff rfl).mpr ⟨r, hy, hr, hrange hfloor' hmax', rfl⟩, rfl⟩,
        (chooseBuf_ofInt hlocal hfloor (by omega)).mpr hleads,
        (chooseBuf_ofInt hlocal hfloor' (by omega)).mpr hleads'⟩

-- a server with 1024 buffers and a graph with two
theorem pvGetBuf_exists_iff_two :
    (∀ x : CFloat, (∃ b, pvGetBuf ⟨1024, 2⟩ x = some (x, some b) ∧ b.Exists ⟨1024, 2⟩) ↔
      ∃ q, toRat (F := binary32) x = some q ∧ 0 ≤ q ∧ ⌊q⌋ < 2 ^ 32 ∧ Leads ⟨1024, 2⟩ ⌊q⌋) ∧
    ∀ x y : CFloat, (∃ b b', pvGetBuf2 ⟨1024, 2⟩ x y = some (x, some (b, b')) ∧
        b.Exists ⟨1024, 2⟩ ∧ b'.Exists ⟨1024, 2⟩) ↔
      ∃ q r, toRat (F := binary32) x = some q ∧ toRat (F := binary32) y = some r ∧ 0 ≤ q ∧ 0 ≤ r ∧
        ⌊q⌋ < 2 ^ 31 ∧ ⌊r⌋ < 2 ^ 31 ∧ Leads ⟨1024, 2⟩ ⌊q⌋ ∧ Leads ⟨1024, 2⟩ ⌊r⌋ :=
  pvGetBuf_exists_iff ⟨1024, 2⟩ (by decide)

end Scnim.Dev
