import Mathlib.Data.List.Destutter
import Scnim.Machine.Elements
import Scnim.PolarApprox
import Scnim.PtrMath

/-!
# Spectra

The conversions of a whole buffer of `dev/FFT_UGens.h`: `ToPolarApx` and `ToComplexApx` work in
place, and the buffer remembers which form it has.
-/

open Machine
open Machine.FloatFormat

namespace Scnim.Dev

/-! ## 1. The functions -/

inductive Coord
  | none
  | complex
  | polar
  deriving DecidableEq

/-- What the conversions use of an `SndBuf`. -/
structure SpectralBuf where
  data : Addr
  samples : BitVec 32
  coord : Coord

-- `(buf->samples - 2) >> 1`; a loop up to a negative number does nothing.
def SpectralBuf.numbins (buf : SpectralBuf) : ℕ := ((buf.samples.toInt - 2) >>> (1 : ℕ)).toNat

-- `float dc, nyq;` come before the bins.
def binAt (data : Addr) (i : ℕ) : Addr := elementAt (data + 8) 8 i

def readBin (m : Memory 64) (data : Addr) (i : ℕ) : CFloat × CFloat :=
  (loadBits 32 m (binAt data i), loadBits 32 m (binAt data i + 4))

def writeBin (m : Memory 64) (data : Addr) (i : ℕ) (bin : CFloat × CFloat) : Memory 64 :=
  storeBits (storeBits m (binAt data i) bin.1) (binAt data i + 4) bin.2

def toPolarApxInPlace (lib : Libm) (bin : CFloat × CFloat) : Option (CFloat × CFloat) := do
  let polar ← SCComplex.toPolarApx lib ⟨bin.1, bin.2⟩
  return (polar.mag, polar.phase)

def toComplexApxInPlace (lib : Libm) (bin : CFloat × CFloat) : Option (CFloat × CFloat) := do
  let complx ← SCPolar.toComplexApx lib ⟨bin.1, bin.2⟩
  return (complx.real, complx.imag)

def convertBins (convert : CFloat × CFloat → Option (CFloat × CFloat)) (data : Addr) (n : ℕ)
    (m : Memory 64) : Option (Memory 64) :=
  (List.range n).foldlM (fun m i ↦ (convert (readBin m data i)).map (writeBin m data i)) m

abbrev BufState := Memory 64 × SpectralBuf

def toPolarApx (lib : Libm) : BufState → Option BufState
  | (m, buf) =>
      if buf.coord = .complex then do
        let m ← convertBins (toPolarApxInPlace lib) buf.data buf.numbins m
        return (m, { buf with coord := .polar })
      else some (m, buf)

def toComplexApx (lib : Libm) : BufState → Option BufState
  | (m, buf) =>
      if buf.coord = .polar then do
        let m ← convertBins (toComplexApxInPlace lib) buf.data buf.numbins m
        return (m, { buf with coord := .complex })
      else some (m, buf)

/-- What the unit generators of a graph ask for, one after the other. -/
inductive Call
  | toPolarApx
  | toComplexApx
  deriving DecidableEq

def Call.perform (lib : Libm) : Call → BufState → Option BufState
  | .toPolarApx => Dev.toPolarApx lib
  | .toComplexApx => Dev.toComplexApx lib

def performAll (lib : Libm) (calls : List Call) (s : BufState) : Option BufState :=
  calls.foldlM (fun s call ↦ call.perform lib s) s

/-! ## 2. Bins in memory -/

-- One bin is written at once.
theorem writeBin_eq (m : Memory 64) (data : Addr) (i : ℕ) (bin : CFloat × CFloat) :
    writeBin m data i bin = storeBytes m (binAt data i) (wordBytes [bin.1, bin.2]) := by
  have hbytes : wordBytes [bin.1, bin.2] = leBytes 4 bin.1.toNat ++ leBytes 4 bin.2.toNat := by
    show _ ++ (_ ++ []) = _
    rw [List.append_nil]
    rfl
  rw [hbytes]
  exact storeBytes_append m (binAt data i) _ _ (leBytes_length 4 _) (by
    rw [leBytes_length]
    decide)

section Bins

variable {m m' : Memory 64} {data : Addr} {n i j : ℕ}

theorem readBin_congr (h : ∀ a, Within (binAt data i) 8 a → m' a = m a) :
    readBin m' data i = readBin m data i := by
  have hreal : loadBits 32 m' (binAt data i) = loadBits 32 m (binAt data i) :=
    loadBits_congr (by decide) fun a ha ↦ h a (lt_of_lt_of_le ha (by decide))
  have himag : loadBits 32 m' (binAt data i + 4) = loadBits 32 m (binAt data i + 4) := by
    apply loadBits_congr (by decide)
    intro a ha
    have hinside := (within_shift_iff (k := 4) (binAt data i) a (by decide)).mp ha
    exact h a hinside.2
  exact Prod.ext hreal himag

theorem readBin_writeBin (bin : CFloat × CFloat) :
    readBin (writeBin m data i bin) data i = bin := by
  have hlen : binary32.width / 8 * [bin.1, bin.2].length ≤ 2 ^ 64 := by
    show 4 * 2 ≤ 2 ^ 64
    omega
  have hreal := loadBits_wordBytes m (binAt data i) [bin.1, bin.2] (i := 0) (by simp) hlen
    (by decide)
  have himag := loadBits_wordBytes m (binAt data i) [bin.1, bin.2] (i := 1) (by simp) hlen
    (by decide)
  rw [Nat.mul_zero, BitVec.add_zero] at hreal
  rw [writeBin_eq]
  exact Prod.ext hreal himag

theorem writeBin_outside (bin : CFloat × CFloat) {a : Addr} (ha : ¬ Within (binAt data i) 8 a) :
    writeBin m data i bin a = m a := by
  rw [writeBin_eq]
  apply storeBytes_outside
  rwa [wordBytes_length]

theorem readBin_writeBin_ne (hn : n ≤ 2 ^ 31) (hi : i < n) (hj : j < n) (hij : i ≠ j)
    (bin : CFloat × CFloat) : readBin (writeBin m data j bin) data i = readBin m data i :=
  readBin_congr fun a ha ↦
    writeBin_outside bin (elementAt_apart (data + 8) hi hj hij (by omega) a ha)

end Bins

/-! ## 3. One conversion -/

-- What the loop does to the bins, and to nothing else.
structure Converted (convert : CFloat × CFloat → Option (CFloat × CFloat)) (data : Addr) (n : ℕ)
    (m m' : Memory 64) : Prop where
  bins : ∀ i < n, convert (readBin m data i) = some (readBin m' data i)
  frame : ∀ a, ¬ Within (data + 8) (n * 8) a → m' a = m a

section Loop

variable {convert : CFloat × CFloat → Option (CFloat × CFloat)} {m m' : Memory 64} {data : Addr}
  {n : ℕ}

theorem convertBins_succ : convertBins convert data (n + 1) m =
    (convertBins convert data n m).bind fun m ↦
      (convert (readBin m data n)).map (writeBin m data n) := by
  unfold convertBins
  rw [List.range_succ, List.foldlM_append]
  simp only [List.foldlM_cons, List.foldlM_nil, bind_pure]
  rfl

theorem convertBins_one {bin : CFloat × CFloat} (h : convert (readBin m data 0) = some bin) :
    convertBins convert data 1 m = some (writeBin m data 0 bin) := by
  rw [convertBins_succ, show convertBins convert data 0 m = some m from rfl, Option.bind_some, h,
    Option.map_some]

-- The bin behind those converted so far is still what it was.
theorem Converted.next (h : Converted convert data n m m') (hn : n < 2 ^ 31) :
    readBin m' data n = readBin m data n := by
  apply readBin_congr
  intro a ha
  have hinside := (within_elementAt_iff (data + 8) a (Nat.lt_succ_self n) (by omega)).mp ha
  apply h.frame
  unfold Within
  omega

theorem Converted.succ (h : Converted convert data n m m') (hn : n < 2 ^ 31) {bin : CFloat × CFloat}
    (hbin : convert (readBin m' data n) = some bin) :
    Converted convert data (n + 1) m (writeBin m' data n bin) := by
  rw [h.next hn] at hbin
  refine ⟨fun i hi ↦ ?_, fun a ha ↦ ?_⟩
  · rcases Nat.lt_succ_iff_lt_or_eq.mp hi with hlt | rfl
    · rw [readBin_writeBin_ne (n := n + 1) (by omega) hi (by omega) (by omega)]
      exact h.bins i hlt
    · rw [readBin_writeBin]
      exact hbin
  · have hlast : ¬ Within (binAt data n) 8 a := by
      rw [binAt, within_elementAt_iff (data + 8) a (Nat.lt_succ_self n) (by omega)]
      unfold Within at ha
      omega
    rw [writeBin_outside bin hlast]
    apply h.frame
    unfold Within at ha ⊢
    omega

/-- The loop converts every bin, or stops at one that cannot be converted. -/
theorem convertBins_cases (convert : CFloat × CFloat → Option (CFloat × CFloat)) (m : Memory 64)
    (data : Addr) (hn : n ≤ 2 ^ 31) :
    (∃ m', convertBins convert data n m = some m' ∧ Converted convert data n m m') ∨
    (convertBins convert data n m = none ∧ ∃ i < n, convert (readBin m data i) = none) := by
  induction n with
  | zero => exact .inl ⟨m, rfl, fun i hi ↦ absurd hi (Nat.not_lt_zero i), fun a ha ↦ rfl⟩
  | succ n ih =>
      rw [convertBins_succ]
      rcases ih (by omega) with ⟨m', hm', h⟩ | ⟨hnone, i, hi, hbin⟩
      · rw [hm', Option.bind_some]
        cases hbin : convert (readBin m' data n) with
        | some bin => exact .inl ⟨_, rfl, h.succ (by omega) hbin⟩
        | none =>
            rw [h.next (by omega)] at hbin
            exact .inr ⟨rfl, n, Nat.lt_succ_self n, hbin⟩
      · rw [hnone]
        exact .inr ⟨rfl, i, by omega, hbin⟩

end Loop

theorem numbins_fits (buf : SpectralBuf) : buf.numbins < 2 ^ 30 ∧
    (buf.numbins = 0 ∨ ((8 + buf.numbins * 8 : ℕ) : ℤ) ≤ buf.samples.toInt * 4) := by
  have hhigh := BitVec.two_mul_toInt_lt (x := buf.samples)
  unfold SpectralBuf.numbins
  rw [Int.shiftRight_eq_div_pow]
  omega

/-! ## 4. One call -/

namespace Call

def source : Call → Coord
  | .toPolarApx => .complex
  | .toComplexApx => .polar

def target : Call → Coord
  | .toPolarApx => .polar
  | .toComplexApx => .complex

def inPlace (lib : Libm) : Call → CFloat × CFloat → Option (CFloat × CFloat)
  | .toPolarApx => toPolarApxInPlace lib
  | .toComplexApx => toComplexApxInPlace lib

theorem target_ne_source (call : Call) : call.target ≠ call.source := by
  cases call <;> decide

theorem perform_eq (lib : Libm) (call : Call) (s : BufState) : call.perform lib s =
    if s.2.coord = call.source then
      (convertBins (call.inPlace lib) s.2.data s.2.numbins s.1).map
        fun m ↦ (m, { s.2 with coord := call.target })
    else some s := by
  cases call <;> exact if_congr Iff.rfl (by rw [Option.map_eq_bind]; rfl) rfl

variable {lib : Libm} {call : Call} {s s' : BufState}

/-- A buffer in the call's other form is converted, any other one stays as it is. -/
theorem perform_cases (h : call.perform lib s = some s') :
    (s.2.coord = call.source ∧ s'.2 = { s.2 with coord := call.target } ∧
      Converted (call.inPlace lib) s.2.data s.2.numbins s.1 s'.1) ∨
    (s.2.coord ≠ call.source ∧ s' = s) := by
  rw [perform_eq] at h
  split at h
  · next hsource =>
      have hn : s.2.numbins ≤ 2 ^ 31 := by
        have := (numbins_fits s.2).1
        omega
      rcases convertBins_cases (call.inPlace lib) s.1 s.2.data hn with ⟨m', hm', hconv⟩ | ⟨hm', -⟩
      · rw [hm', Option.map_some, Option.some.injEq] at h
        subst h
        exact .inl ⟨hsource, rfl, hconv⟩
      · rw [hm', Option.map_none] at h
        cases h
  · next hother => exact .inr ⟨hother, (Option.some.inj h).symm⟩

theorem perform_of_source {m m' : Memory 64} {buf : SpectralBuf} (hsource : buf.coord = call.source)
    (h : convertBins (call.inPlace lib) buf.data buf.numbins m = some m') :
    call.perform lib (m, buf) = some (m', { buf with coord := call.target }) := by
  rw [perform_eq]
  exact (if_pos hsource).trans (by rw [h, Option.map_some])

theorem perform_of_ne (h : s.2.coord ≠ call.source) : call.perform lib s = some s := by
  rw [perform_eq, if_neg h]

theorem perform_twice (lib : Libm) (call : Call) (s : BufState) :
    (call.perform lib s).bind (call.perform lib) = call.perform lib s := by
  cases h : call.perform lib s with
  | none => rfl
  | some s' =>
      rw [Option.bind_some]
      apply perform_of_ne
      rcases perform_cases h with ⟨-, hbuf, -⟩ | ⟨hother, rfl⟩
      · rw [hbuf]
        exact call.target_ne_source
      · exact hother

end Call

theorem toPolarApxInPlace_eq_none_iff (lib : Libm) (bin : CFloat × CFloat) :
    toPolarApxInPlace lib bin = none ↔
      IsInfinite (F := binary32) bin.1 ∧ IsInfinite (F := binary32) bin.2 ∨
      IsNan (F := binary32) bin.1 ∧ ¬ IsNan (F := binary32) bin.2 ∧
        toRat (F := binary32) bin.2 ≠ some 0 := by
  rw [← SCComplex.toPolarApx_eq_none_iff lib ⟨bin.1, bin.2⟩]
  unfold toPolarApxInPlace
  cases SCComplex.toPolarApx lib ⟨bin.1, bin.2⟩ with
  | none => exact iff_of_true rfl rfl
  | some polar => exact iff_of_false (Option.some_ne_none _) (Option.some_ne_none _)

/-- A spectrum reads its tables out of bounds, or by an index that has no value, exactly when it is
still complex and one of its bins is twice infinite, or has no real part and an imaginary one. -/
theorem toPolarApx_undefined_iff (lib : Libm) (m : Memory 64) (buf : SpectralBuf) :
    toPolarApx lib (m, buf) = none ↔ buf.coord = .complex ∧ ∃ i < buf.numbins,
      (IsInfinite (F := binary32) (readBin m buf.data i).1 ∧
        IsInfinite (F := binary32) (readBin m buf.data i).2 ∨
      IsNan (F := binary32) (readBin m buf.data i).1 ∧
        ¬ IsNan (F := binary32) (readBin m buf.data i).2 ∧
        toRat (F := binary32) (readBin m buf.data i).2 ≠ some 0) := by
  have hperform : toPolarApx lib (m, buf) = if buf.coord = .complex then
      (convertBins (toPolarApxInPlace lib) buf.data buf.numbins m).map
        fun m ↦ (m, { buf with coord := .polar })
      else some (m, buf) := Call.perform_eq lib .toPolarApx (m, buf)
  simp only [← toPolarApxInPlace_eq_none_iff lib]
  rw [hperform]
  by_cases hcoord : buf.coord = .complex
  · rw [if_pos hcoord, Option.map_eq_none_iff]
    have hn : buf.numbins ≤ 2 ^ 31 := by
      have := (numbins_fits buf).1
      omega
    rcases convertBins_cases (toPolarApxInPlace lib) m buf.data hn with
      ⟨m', hm', hconv⟩ | ⟨hm', hbin⟩
    · refine iff_of_false (fun h ↦ Option.some_ne_none _ (hm'.symm.trans h)) ?_
      rintro ⟨-, i, hi, hnone⟩
      rw [hconv.bins i hi] at hnone
      cases hnone
    · exact iff_of_true hm' ⟨hcoord, hbin⟩
  · rw [if_neg hcoord]
    exact iff_of_false (Option.some_ne_none _) fun h ↦ hcoord h.1

/-! ## 5. Runs -/

theorem performAll_cons (lib : Libm) (call : Call) (calls : List Call) (s : BufState) :
    performAll lib (call :: calls) s = (call.perform lib s).bind (performAll lib calls) := rfl

/-- Of several calls of a kind in a row only the first one counts. -/
theorem performAll_destutter (lib : Libm) (calls : List Call) (s : BufState) :
    performAll lib (calls.destutter (· ≠ ·)) s = performAll lib calls s := by
  cases calls with
  | nil => rfl
  | cons call calls =>
      rw [List.destutter_cons']
      induction calls generalizing call s with
      | nil => rfl
      | cons next calls ih =>
          by_cases hne : call ≠ next
          · rw [List.destutter'_cons_pos calls hne, performAll_cons, performAll_cons]
            congr 1
            funext s
            exact ih s next
          · rw [List.destutter'_cons_neg calls hne, ih]
            rw [ne_eq, not_not] at hne
            subst hne
            have hrest : performAll lib (call :: calls) =
                fun s ↦ (call.perform lib s).bind (performAll lib calls) := rfl
            rw [performAll_cons lib call (call :: calls), hrest, ← Option.bind_assoc,
              Call.perform_twice]

/-- What every run keeps. -/
structure Kept (s s' : BufState) : Prop where
  data : s'.2.data = s.2.data
  samples : s'.2.samples = s.2.samples
  frame : ∀ a, ¬ Within (s.2.data + 8) (s.2.numbins * 8) a → s'.1 a = s.1 a
  unused : s.2.coord = .none → s' = s
  used : s.2.coord ≠ .none → s'.2.coord ≠ .none

theorem Kept.refl (s : BufState) : Kept s s := ⟨rfl, rfl, fun _ _ ↦ rfl, fun _ ↦ rfl, id⟩

theorem Kept.trans {s s' s'' : BufState} (h : Kept s s') (h' : Kept s' s'') : Kept s s'' := by
  have hbins : s'.2.numbins = s.2.numbins := by
    unfold SpectralBuf.numbins
    rw [h.samples]
  refine ⟨h'.data.trans h.data, h'.samples.trans h.samples, fun a ha ↦ ?_, fun hnone ↦ ?_,
    fun hused ↦ h'.used (h.used hused)⟩
  · rw [h'.frame a (by rwa [h.data, hbins]), h.frame a ha]
  · have hs := h.unused hnone
    rw [h'.unused (by rwa [hs]), hs]

theorem kept_perform {lib : Libm} {call : Call} {s s' : BufState}
    (h : call.perform lib s = some s') : Kept s s' := by
  rcases Call.perform_cases h with ⟨hsource, hbuf, hconv⟩ | ⟨-, rfl⟩
  · refine ⟨by rw [hbuf], by rw [hbuf], hconv.frame, fun hnone ↦ ?_, fun _ ↦ ?_⟩
    · rw [hnone] at hsource
      cases call <;> cases hsource
    · rw [hbuf]
      cases call <;> exact Coord.noConfusion
  · exact Kept.refl _

theorem kept_performAll {lib : Libm} {calls : List Call} {s s' : BufState}
    (h : performAll lib calls s = some s') : Kept s s' := by
  induction calls generalizing s with
  | nil =>
      cases h
      exact Kept.refl _
  | cons call calls ih =>
      rw [performAll_cons, Option.bind_eq_some_iff] at h
      obtain ⟨s1, hcall, hrest⟩ := h
      exact (kept_perform hcall).trans (ih hrest)

/-- No run changes the size of the buffer, its first and its last coefficient or a byte outside of
its samples, or anything at all while the buffer has no form. -/
theorem performAll_keeps {lib : Libm} {calls : List Call} {s s' : BufState}
    (h : performAll lib calls s = some s') :
    s'.2.data = s.2.data ∧ s'.2.samples = s.2.samples ∧
    (∀ a, Within s.2.data 8 a → s'.1 a = s.1 a) ∧
    (∀ a, ¬ Within s.2.data (s.2.samples.toInt.toNat * 4) a → s'.1 a = s.1 a) ∧
    (s.2.coord = .none → s' = s) ∧ (s.2.coord ≠ .none → s'.2.coord ≠ .none) := by
  have hkept := kept_performAll h
  obtain ⟨hsmall, hsize⟩ := numbins_fits s.2
  have hbins : ∀ a, Within (s.2.data + 8) (s.2.numbins * 8) a ↔
      8 ≤ gap s.2.data a ∧ gap s.2.data a < 8 + s.2.numbins * 8 :=
    fun a ↦ within_shift_iff (k := 8) s.2.data a (by omega)
  refine ⟨hkept.data, hkept.samples, fun a ha ↦ hkept.frame a ?_, fun a ha ↦ hkept.frame a ?_,
    hkept.unused, hkept.used⟩
  · rw [hbins]
    unfold Within at ha
    omega
  · rw [hbins]
    unfold Within at ha
    rcases hsize with hnone | hsome <;> omega

-- acos(-1), the sines of 0, pi / 2 and pi, cos(0) and atan(0): what bins on the axes need.
def Libm.onAxes : Libm where
  acos _ := 0x400921FB54442D18
  sin x :=
    if x = 0x3FF921FB54442D18 then 0x3FF0000000000000
    else if x = 0x400921FB54442D18 then 0x3CA1A62633145C07
    else 0
  cos _ := 0x3FF0000000000000
  atan _ := 0

-- four samples whose only bin is the imaginary unit
def imaginaryMem : Memory 64 := storeBits (fun _ ↦ 0) 4108 0x3F800000#32

theorem performAll_keeps_imaginary :
    let s : BufState := (imaginaryMem, ⟨4096, 4, .complex⟩)
    let s' : BufState := (writeBin imaginaryMem 4096 0 (0x3F800000, 0x3FC90FDB),
      ⟨4096, 4, .polar⟩)
    s'.2.data = s.2.data ∧ s'.2.samples = s.2.samples ∧
    (∀ a, Within s.2.data 8 a → s'.1 a = s.1 a) ∧
    (∀ a, ¬ Within s.2.data (s.2.samples.toInt.toNat * 4) a → s'.1 a = s.1 a) ∧
    (s.2.coord = .none → s' = s) ∧ (s.2.coord ≠ .none → s'.2.coord ≠ .none) := by
  intro s s'
  have hbin : toPolarApxInPlace Libm.onAxes (readBin imaginaryMem 4096 0) =
      some (0x3F800000, 0x3FC90FDB) := by decide +kernel
  have hone : s.2.numbins = 1 := by decide +kernel
  have hconvert : convertBins (Call.toPolarApx.inPlace Libm.onAxes) s.2.data s.2.numbins
      imaginaryMem = some (writeBin imaginaryMem 4096 0 (0x3F800000, 0x3FC90FDB)) := by
    rw [hone]
    exact convertBins_one hbin
  have hperform := Call.perform_of_source (show s.2.coord = Call.toPolarApx.source from rfl)
    hconvert
  refine performAll_keeps (show performAll Libm.onAxes [.toPolarApx] s = some s' from ?_)
  rw [performAll_cons]
  exact (congrArg (Option.bind · _) hperform).trans rfl

/-! ## 6. There and back again -/

-- The bin stands for a point of the plane.
def IsPoint (bin : CFloat × CFloat) (z : ℂ) : Prop :=
  ∃ a b : ℚ, toRat (F := binary32) bin.1 = some a ∧ toRat (F := binary32) bin.2 = some b ∧
    z = ⟨a, b⟩

theorem bin_roundTrip {lib : Libm} (hlib : lib.Accurate) {bin : CFloat × CFloat} {z : ℂ}
    (hz : IsPoint bin z) (hmax : ‖z‖ ≤ 2 ^ 126) :
    ∃ polar bin' z', toPolarApxInPlace lib bin = some polar ∧
      toComplexApxInPlace lib polar = some bin' ∧ IsPoint bin' z' ∧
      ‖z' - z‖ ≤ (‖z‖ + 1 / 2 ^ 139) / 512 := by
  obtain ⟨a, b, ha, hb, rfl⟩ := hz
  have hre : |(a : ℝ)| ≤ 2 ^ 126 := (Complex.abs_re_le_norm ⟨a, b⟩).trans hmax
  have him : |(b : ℝ)| ≤ 2 ^ 126 := (Complex.abs_im_le_norm ⟨a, b⟩).trans hmax
  obtain ⟨p, z', x, y, hp, hz', hx, hy, hnear⟩ := roundTrip_near hlib (z := ⟨bin.1, bin.2⟩) ha hb
    (by exact_mod_cast hre) (by exact_mod_cast him)
  refine ⟨(p.mag, p.phase), (z'.real, z'.imag), ⟨x, y⟩, ?_, ?_, ⟨x, y, hx, hy, rfl⟩, hnear⟩
  · unfold toPolarApxInPlace
    rw [hp]
    rfl
  · unfold toComplexApxInPlace
    rw [hz']
    rfl

theorem performAll_append (lib : Libm) (calls calls' : List Call) (s : BufState) :
    performAll lib (calls ++ calls') s = (performAll lib calls s).bind (performAll lib calls') :=
  List.foldlM_append

-- The calls of `k` round trips.
def roundTrips (k : ℕ) : List Call :=
  (List.replicate k [Call.toPolarApx, Call.toComplexApx]).flatten

theorem roundTrips_succ (k : ℕ) :
    roundTrips (k + 1) = roundTrips k ++ [.toPolarApx, .toComplexApx] := by
  unfold roundTrips
  rw [List.replicate_succ', List.flatten_append, List.flatten_singleton]

section RoundTrips

variable {lib : Libm} (hlib : lib.Accurate) {m : Memory 64} {buf : SpectralBuf} {z : ℕ → ℂ}
  (hcoord : buf.coord = .complex)
  (hz : ∀ i < buf.numbins, IsPoint (readBin m buf.data i) (z i))

include hlib hcoord hz

theorem roundTrip_once (hmax : ∀ i < buf.numbins, ‖z i‖ ≤ 2 ^ 126) :
    ∃ m', performAll lib [.toPolarApx, .toComplexApx] (m, buf) = some (m', buf) ∧
      ∀ i < buf.numbins, ∃ z', IsPoint (readBin m' buf.data i) z' ∧
        ‖z' - z i‖ ≤ (‖z i‖ + 1 / 2 ^ 139) / 512 := by
  have hn : buf.numbins ≤ 2 ^ 31 := by
    have := (numbins_fits buf).1
    omega
  have hbin := fun i hi ↦ bin_roundTrip hlib (hz i hi) (hmax i hi)
  rcases convertBins_cases (toPolarApxInPlace lib) m buf.data hn with
    ⟨m1, hm1, hpolar⟩ | ⟨-, i, hi, hnone⟩
  · rcases convertBins_cases (toComplexApxInPlace lib) m1 buf.data hn with
      ⟨m2, hm2, hcomplex⟩ | ⟨-, i, hi, hnone⟩
    · refine ⟨m2, ?_, fun i hi ↦ ?_⟩
      · have hfirst := Call.perform_of_source
          (show buf.coord = Call.toPolarApx.source from hcoord) hm1
        have hsecond := Call.perform_of_source (m := m1)
          (show SpectralBuf.coord { buf with coord := Call.toPolarApx.target } =
            Call.toComplexApx.source from rfl) hm2
        rw [performAll_cons, hfirst, Option.bind_some, performAll_cons, hsecond, Option.bind_some]
        show some (m2, { buf with coord := Coord.complex }) = some (m2, buf)
        rw [← hcoord]
      · obtain ⟨polar, bin', z', hto, hback, hpoint, hnear⟩ := hbin i hi
        have heq := hpolar.bins i hi
        rw [hto, Option.some.injEq] at heq
        have heq' := hcomplex.bins i hi
        rw [← heq, hback, Option.some.injEq] at heq'
        rw [← heq']
        exact ⟨z', hpoint, hnear⟩
    · obtain ⟨polar, bin', z', hto, hback, -⟩ := hbin i hi
      have heq := hpolar.bins i hi
      rw [hto, Option.some.injEq] at heq
      rw [← heq, hback] at hnone
      cases hnone
  · obtain ⟨polar, bin', z', hto, -⟩ := hbin i hi
    rw [hto] at hnone
    cases hnone

/-- A spectrum that goes to its polar form and back `k` times is well defined all the way, and its
bins drift by less than a 512th a time. -/
theorem roundTrips_near {k : ℕ}
    (hmax : ∀ i < buf.numbins, (513 / 512) ^ k * (‖z i‖ + 1) ≤ 2 ^ 126) :
    ∃ m', performAll lib (roundTrips k) (m, buf) = some (m', buf) ∧
      ∀ i < buf.numbins, ∃ z', IsPoint (readBin m' buf.data i) z' ∧
        ‖z' - z i‖ ≤ ((513 / 512) ^ k - 1) * (‖z i‖ + 1 / 2 ^ 139) := by
  induction k with
  | zero =>
      refine ⟨m, rfl, fun i hi ↦ ⟨z i, hz i hi, ?_⟩⟩
      rw [sub_self, norm_zero, pow_zero, sub_self, zero_mul]
  | succ k ih =>
      have hgrowth : (1 : ℝ) ≤ (513 / 512) ^ k := one_le_pow₀ (by norm_num)
      have hmaxk : ∀ i < buf.numbins, (513 / 512) ^ k * (‖z i‖ + 1) ≤ 2 ^ 126 := by
        intro i hi
        refine le_trans ?_ (hmax i hi)
        apply mul_le_mul_of_nonneg_right _ (by positivity)
        rw [pow_succ]
        linarith
      obtain ⟨m1, hm1, hbins⟩ := ih hmaxk
      choose! z1 hpoint hnear using hbins
      have hlength : ∀ i < buf.numbins,
          ‖z1 i‖ + 1 / 2 ^ 139 ≤ (513 / 512) ^ k * (‖z i‖ + 1 / 2 ^ 139) := by
        intro i hi
        have hsize := norm_le_norm_add_norm_sub' (z1 i) (z i)
        linarith [hnear i hi]
      obtain ⟨m2, hm2, hnext⟩ := roundTrip_once hlib hcoord hpoint fun i hi ↦ by
        have hstep := hlength i hi
        have hunit : (513 / 512) ^ k * (‖z i‖ + 1 / 2 ^ 139) ≤ (513 / 512) ^ k * (‖z i‖ + 1) :=
          mul_le_mul_of_nonneg_left (by linarith) (by linarith)
        linarith [hmaxk i hi]
      refine ⟨m2, ?_, fun i hi ↦ ?_⟩
      · rw [roundTrips_succ, performAll_append, hm1, Option.bind_some, hm2]
      · obtain ⟨z2, hpoint2, hmove⟩ := hnext i hi
        refine ⟨z2, hpoint2, (norm_sub_le_norm_sub_add_norm_sub _ (z1 i) _).trans ?_⟩
        rw [pow_succ]
        linarith [hnear i hi, hlength i hi]

end RoundTrips

-- a buffer of four samples whose only bin is one
theorem roundTrips_near_one :
    let m : Memory 64 := storeBits (fun _ ↦ 0) 4104 0x3F800000#32
    let buf : SpectralBuf := ⟨4096, 4, .complex⟩
    ∃ m', performAll Libm.rounded (roundTrips 3) (m, buf) = some (m', buf) ∧
      ∀ i < buf.numbins, ∃ z', IsPoint (readBin m' buf.data i) z' ∧
        ‖z' - 1‖ ≤ ((513 / 512) ^ 3 - 1) * (‖(1 : ℂ)‖ + 1 / 2 ^ 139) := by
  intro m buf
  refine roundTrips_near Libm.rounded_accurate (z := fun _ ↦ 1) rfl (fun i hi ↦ ?_) fun i hi ↦ ?_
  · obtain rfl : i = 0 := by
      have hone : buf.numbins = 1 := by decide +kernel
      omega
    refine ⟨1, 0, by decide +kernel, by decide +kernel, ?_⟩
    apply Complex.ext <;> simp
  · rw [norm_one]
    norm_num

end Scnim.Dev
