import Scnim.PtrMath
import Scnim.Records

/-!
# Buffer lookup

`World_GetBuf` and `World_GetNRTBuf` of `scnim/World.nim`, on a `World` in memory as the plugin
reads it.
-/

open Machine

namespace Scnim

open FieldName

namespace World

def field (inWorld : Addr) (f : FieldName) : Addr :=
  inWorld + BitVec.ofNat 64 (Nim.world.offset [f])

def numSndBufs (m : Memory 64) (inWorld : Addr) : BitVec 32 :=
  loadBits 32 m (field inWorld mNumSndBufs)

def sndBufs (m : Memory 64) (inWorld : Addr) : Addr := loadBits 64 m (field inWorld mSndBufs)

def sndBufsNonRealTimeMirror (m : Memory 64) (inWorld : Addr) : Addr :=
  loadBits 64 m (field inWorld mSndBufsNonRealTimeMirror)

-- `cast[ptr SndBuf]` of a `uint32` fills the upper half with zeros
def getBuf (m : Memory 64) (inWorld : Addr) (index : BitVec 32) : Addr :=
  let b := numSndBufs m inWorld
  let i := if index > b then 0#32 else index
  (b + i).setWidth 64

-- `cast[uint32]` of a pointer drops its upper half
def getNRTBuf (m : Memory 64) (inWorld : Addr) (index : BitVec 32) : Addr :=
  let b := numSndBufs m inWorld
  let i := if index > b then 0#32 else index
  let c := (sndBufsNonRealTimeMirror m inWorld).setWidth 32
  (c + i).setWidth 64

/-! ## 1. What is looked for -/

def element (base : Addr) (k : ℕ) : Addr := base + BitVec.ofNat 64 (k * Nim.sndBuf.size)

-- The element an index stands for; one outside the array stands for the first.
def slot (count index : BitVec 32) : ℕ := if index < count then index.toNat else 0

structure Arrays (m : Memory 64) (inWorld : Addr) : Prop where
  nonempty : 1 ≤ (numSndBufs m inWorld).toNat
  sndBufs : (sndBufs m inWorld).toNat + (numSndBufs m inWorld).toNat * Nim.sndBuf.size ≤ 2 ^ 64
  mirror : (sndBufsNonRealTimeMirror m inWorld).toNat +
    (numSndBufs m inWorld).toNat * Nim.sndBuf.size ≤ 2 ^ 64

/-- A lookup function that picks the element meant, inside its array, and apart from the elements
of all other indices. -/
structure Finds (get : BitVec 32 → Addr) (base : Addr) (count index : BitVec 32) : Prop where
  eq : get index = element base (slot count index)
  inside : ∀ x, Within (get index) Nim.sndBuf.size x →
    Within base (count.toNat * Nim.sndBuf.size) x
  apart : ∀ other, index < count → other < count → other ≠ index →
    Apart (get index) Nim.sndBuf.size (get other) Nim.sndBuf.size

def BothFind (m : Memory 64) (inWorld : Addr) (index : BitVec 32) : Prop :=
  Finds (getBuf m inWorld) (sndBufs m inWorld) (numSndBufs m inWorld) index ∧
  Finds (getNRTBuf m inWorld) (sndBufsNonRealTimeMirror m inWorld) (numSndBufs m inWorld) index

/-! ## 2. What is found -/

theorem sndBuf_size : Nim.sndBuf.size = 56 := by decide +kernel

theorem slot_lt {count index : BitVec 32} (h : 1 ≤ count.toNat) :
    slot count index < count.toNat := by
  unfold slot
  by_cases hlt : index < count
  · rw [if_pos hlt]
    exact hlt
  · rw [if_neg hlt]
    exact h

theorem element_toNat {base : Addr} {n k : ℕ} (hfit : base.toNat + n * 56 ≤ 2 ^ 64) (hk : k < n) :
    (element base k).toNat = base.toNat + k * 56 := by
  unfold element
  rw [sndBuf_size, BitVec.toNat_add, BitVec.toNat_ofNat]
  omega

-- the sum that both lookups return, in 32 bits
theorem sum_toNat (b index c : BitVec 32) :
    ((c + if index > b then 0#32 else index).setWidth 64).toNat =
      (c.toNat + if b.toNat < index.toNat then 0 else index.toNat) % 2 ^ 32 := by
  have hsmall : (c + if index > b then 0#32 else index).toNat < 2 ^ 64 :=
    (c + if index > b then 0#32 else index).isLt.trans (by decide)
  rw [BitVec.toNat_setWidth, Nat.mod_eq_of_lt hsmall, BitVec.toNat_add, apply_ite BitVec.toNat]
  rfl

theorem getBuf_toNat (m : Memory 64) (inWorld : Addr) (index : BitVec 32) :
    (getBuf m inWorld index).toNat = ((numSndBufs m inWorld).toNat +
      if (numSndBufs m inWorld).toNat < index.toNat then 0 else index.toNat) % 2 ^ 32 :=
  sum_toNat _ _ _

theorem getNRTBuf_toNat (m : Memory 64) (inWorld : Addr) (index : BitVec 32) :
    (getNRTBuf m inWorld index).toNat = ((sndBufsNonRealTimeMirror m inWorld).toNat +
      if (numSndBufs m inWorld).toNat < index.toNat then 0 else index.toNat) % 2 ^ 32 := by
  unfold getNRTBuf
  dsimp only
  rw [sum_toNat, BitVec.toNat_setWidth, Nat.mod_add_mod]

theorem slot_eq (count index : BitVec 32) :
    slot count index = if index.toNat < count.toNat then index.toNat else 0 := rfl

theorem getBuf_eq_iff {m : Memory 64} {inWorld : Addr} (h : Arrays m inWorld) (index : BitVec 32) :
    getBuf m inWorld index =
        element (sndBufs m inWorld) (slot (numSndBufs m inWorld) index) ↔
      (sndBufs m inWorld).toNat + slot (numSndBufs m inWorld) index * 56 =
        ((numSndBufs m inWorld).toNat +
          if (numSndBufs m inWorld).toNat < index.toNat then 0 else index.toNat) % 2 ^ 32 := by
  have hfit := h.sndBufs
  rw [sndBuf_size] at hfit
  rw [← BitVec.toNat_inj, getBuf_toNat, element_toNat hfit (slot_lt h.nonempty)]
  exact eq_comm

theorem add_mod_ne {c i : ℕ} (hpos : 0 < i) (hi : i < 2 ^ 32) : (c + i) % 2 ^ 32 ≠ c := by
  omega

-- The mirror is only found below 2^32, and only where nothing is added to it.
theorem getNRTBuf_eq_iff {m : Memory 64} {inWorld : Addr} (h : Arrays m inWorld)
    (index : BitVec 32) :
    getNRTBuf m inWorld index =
        element (sndBufsNonRealTimeMirror m inWorld) (slot (numSndBufs m inWorld) index) ↔
      (sndBufsNonRealTimeMirror m inWorld).toNat < 2 ^ 32 ∧
        (index = 0#32 ∨ (numSndBufs m inWorld).toNat < index.toNat) := by
  have hfit := h.mirror
  have hpos := h.nonempty
  have hcount := (numSndBufs m inWorld).isLt
  have hindex := index.isLt
  have hzero : index = 0#32 ↔ index.toNat = 0 := by
    rw [← BitVec.toNat_inj]
    rfl
  rw [sndBuf_size] at hfit
  rw [← BitVec.toNat_inj, getNRTBuf_toNat, element_toNat hfit (slot_lt hpos), slot_eq, hzero]
  by_cases hlt : (numSndBufs m inWorld).toNat < index.toNat
  · rw [if_pos hlt, if_neg (by omega), Nat.zero_mul, Nat.add_zero]
    constructor
    · intro hsum
      exact ⟨hsum ▸ Nat.mod_lt _ (by decide), .inr hlt⟩
    · rintro ⟨hsmall, -⟩
      exact Nat.mod_eq_of_lt hsmall
  · rw [if_neg hlt]
    by_cases hin : index.toNat < (numSndBufs m inWorld).toNat
    · rw [if_pos hin]
      constructor
      · intro hsum
        -- the sum does not wrap around, and a scaled index is the index itself only at 0
        have hsmall := Nat.mod_lt ((sndBufsNonRealTimeMirror m inWorld).toNat + index.toNat)
          (show 0 < 2 ^ 32 by decide)
        rw [hsum] at hsmall
        have hle : index.toNat ≤ index.toNat * 56 := Nat.le_mul_of_pos_right _ (by decide)
        rw [Nat.mod_eq_of_lt ((Nat.add_le_add_left hle _).trans_lt hsmall)] at hsum
        omega
      · rintro ⟨hsmall, hzero | hbeyond⟩
        · rw [hzero, Nat.zero_mul, Nat.add_zero]
          exact Nat.mod_eq_of_lt hsmall
        · exact absurd hbeyond hlt
    · rw [if_neg hin, Nat.zero_mul, Nat.add_zero]
      constructor
      · intro hsum
        exact absurd hsum (add_mod_ne (by omega) hindex)
      · rintro ⟨-, hzero | hbeyond⟩
        · omega
        · exact absurd hbeyond hlt

theorem finds_first {get : BitVec 32 → Addr} {base : Addr} {count index : BitVec 32}
    (hget : get index = element base (slot count index)) (hslot : slot count index = 0)
    (hpos : 1 ≤ count.toNat)
    (halone : ∀ other, index < count → other < count → other = index) :
    Finds get base count index := by
  have hfirst : get index = base := by
    rw [hget, hslot]
    unfold element
    rw [Nat.zero_mul]
    exact BitVec.add_zero base
  refine ⟨hget, ?_, ?_⟩
  · intro x hx
    rw [hfirst, sndBuf_size] at hx
    rw [sndBuf_size]
    unfold Within at hx ⊢
    omega
  · intro other hindex hother hne
    exact absurd (halone other hindex hother) hne

theorem not_apart_of_close {a b : Addr} {n : ℕ} (h : gap a b < n) : ¬ Apart a n b n := by
  intro hapart
  apply hapart b h
  unfold Within gap
  rw [sub_self]
  exact lt_of_le_of_lt (Nat.zero_le _) h

theorem gap_of_toNat {a b : Addr} (h : a.toNat ≤ b.toNat) : gap a b = b.toNat - a.toNat := by
  unfold gap
  rw [BitVec.toNat_sub]
  omega

-- Where there are two elements, the one at index 0 overlaps another: the next one, or, should the
-- sum wrap around there, the one two bytes below.
theorem not_finds_zero {m : Memory 64} {inWorld base : Addr}
    (h : 1 < (numSndBufs m inWorld).toNat) :
    ¬ Finds (getBuf m inWorld) base (numSndBufs m inWorld) 0#32 := by
  intro hfinds
  have hcount := (numSndBufs m inWorld).isLt
  have hzero := getBuf_toNat m inWorld 0#32
  have hin : 0#32 < numSndBufs m inWorld := by
    rw [BitVec.lt_def, BitVec.toNat_zero]
    omega
  rw [BitVec.toNat_zero, if_neg (by omega)] at hzero
  have hapart := fun other ↦ hfinds.apart other hin
  rw [sndBuf_size] at hapart
  by_cases hwrap : (numSndBufs m inWorld).toNat + 1 < 2 ^ 32
  · have hone := getBuf_toNat m inWorld 1#32
    rw [show (1#32).toNat = 1 from rfl, if_neg (by omega)] at hone
    apply not_apart_of_close _ (hapart 1#32 (by rw [BitVec.lt_def]; exact h) (by decide))
    rw [gap_of_toNat (by omega)]
    omega
  · have hlast := getBuf_toNat m inWorld (4294967294#32)
    rw [show (4294967294#32).toNat = 4294967294 from rfl, if_neg (by omega)] at hlast
    have hnot := hapart 4294967294#32
      (by rw [BitVec.lt_def, show (4294967294#32).toNat = 4294967294 from rfl]; omega) (by decide)
    apply not_apart_of_close _ hnot.symm
    rw [gap_of_toNat (by omega)]
    omega

/-- Both lookups find their buffers in one case only: the address of the array is its length, the
mirror lies below 2^32, and the index is beyond the length or the only one there is. -/
theorem bothFind_iff {m : Memory 64} {inWorld : Addr} (h : Arrays m inWorld) (index : BitVec 32) :
    BothFind m inWorld index ↔
      (sndBufs m inWorld).toNat = (numSndBufs m inWorld).toNat ∧
      (sndBufsNonRealTimeMirror m inWorld).toNat < 2 ^ 32 ∧
      ((numSndBufs m inWorld).toNat < index.toNat ∨
        (index = 0#32 ∧ (numSndBufs m inWorld).toNat = 1)) := by
  have hpos := h.nonempty
  have hcount := (numSndBufs m inWorld).isLt
  constructor
  · rintro ⟨hbuf, hmirror⟩
    obtain ⟨hsmall, hindex⟩ := (getNRTBuf_eq_iff h index).mp hmirror.eq
    have hbase := (getBuf_eq_iff h index).mp hbuf.eq
    rcases hindex with rfl | hbeyond
    · rw [slot_eq, BitVec.toNat_zero, ite_self, ite_self] at hbase
      refine ⟨by omega, hsmall, .inr ⟨rfl, ?_⟩⟩
      by_contra hmany
      exact not_finds_zero (by omega) hbuf
    · rw [slot_eq, if_neg (by omega), if_pos hbeyond] at hbase
      exact ⟨by omega, hsmall, .inl hbeyond⟩
  · rintro ⟨hbase, hsmall, hindex⟩
    have hnrt := (getNRTBuf_eq_iff h index).mpr
      ⟨hsmall, hindex.elim .inr fun hzero ↦ .inl hzero.1⟩
    have hslot : slot (numSndBufs m inWorld) index = 0 := by
      rcases hindex with hbeyond | ⟨rfl, -⟩
      · rw [slot_eq, if_neg (by omega)]
      · rw [slot_eq, BitVec.toNat_zero, ite_self]
    have hbuf : getBuf m inWorld index =
        element (sndBufs m inWorld) (slot (numSndBufs m inWorld) index) := by
      rw [getBuf_eq_iff h, hslot, hbase]
      rcases hindex with hbeyond | ⟨rfl, -⟩
      · rw [if_pos hbeyond]
        omega
      · rw [BitVec.toNat_zero, if_neg (by omega)]
        omega
    have halone : ∀ other, index < numSndBufs m inWorld → other < numSndBufs m inWorld →
        other = index := by
      intro other hlt hother
      rw [BitVec.lt_def] at hlt hother
      rcases hindex with hbeyond | ⟨rfl, hone⟩
      · omega
      · apply BitVec.eq_of_toNat_eq
        rw [BitVec.toNat_zero]
        omega
    exact ⟨finds_first hbuf hslot hpos halone, finds_first hnrt hslot hpos halone⟩

-- A world at 1048576 with 4096 buffers, which start at address 4096, and their mirrors at 524288.
def manyBuffersMem : Memory 64 :=
  let m := storeBits (fun _ ↦ 0) 1048640 4096#32
  storeBytes m 1048648 (wordBytes [4096#64, 524288#64])

theorem bothFind_manyBuffersMem :
    Arrays manyBuffersMem 1048576 ∧ BothFind manyBuffersMem 1048576 5000 := by
  have harrays : Arrays manyBuffersMem 1048576 :=
    ⟨by decide +kernel, by decide +kernel, by decide +kernel⟩
  exact ⟨harrays, (bothFind_iff harrays 5000).mpr
    ⟨by decide +kernel, by decide +kernel, .inl (by decide +kernel)⟩⟩

-- A world at 4096 with four buffers at 65536 and their mirrors at 131072.
def fourBuffersMem : Memory 64 := fun a ↦
  if a = 4160 then 4 else if a = 4170 then 1 else if a = 4178 then 2 else 0

/-- Buffer 1 is looked for at address 5, its mirror one byte behind that of buffer 0. -/
theorem getBuf_misses : getBuf fourBuffersMem 4096 1 = 5 ∧
    getNRTBuf fourBuffersMem 4096 1 = 131073 ∧
    ¬ ∀ (m : Memory 64) (inWorld : Addr) (index : BitVec 32), Arrays m inWorld →
      BothFind m inWorld index := by
  refine ⟨by decide +kernel, by decide +kernel, fun hall ↦ ?_⟩
  have harrays : Arrays fourBuffersMem 4096 :=
    ⟨by decide +kernel, by decide +kernel, by decide +kernel⟩
  have hfound := (hall fourBuffersMem 4096 1 harrays).1.eq
  exact absurd hfound (by decide +kernel)

end World

end Scnim
