import Mathlib.Data.Fin.VecNotation
import Mathlib.Tactic.FinCases
import Scnim.ArrayView
import Scnim.ExampleUGens

/-!
# Signal buffers of a unit

The templates `IN`, `OUT`, `IN0` and `OUT0` of `scnim/Unit.nim`.  A unit's record leads to a table
of pointers and each pointer to a buffer of samples, both through the pointer templates.
-/

open Machine

namespace Scnim

open FieldName

/-! ## 1. The templates -/

-- the entry of the table that the field points to
def signalBuffer (table : FieldName) (m : Memory 64) (unit : Addr) (index : ℤ) : Option Addr := do
  let entry ← Ptr.index 8 m (loadBits 64 m (unitField unit table)) index
  return BitVec.ofNat 64 (leNat entry)

-- the first sample of the buffer
def signalSample (table : FieldName) (m : Memory 64) (unit : Addr) (index : ℤ) :
    Option (List Byte) := do
  let p ← signalBuffer table m unit index
  Ptr.index 4 m p 0

-- `(unit.mInBuf[index])`
def IN (m : Memory 64) (unit : Addr) (index : ℤ) : Option Addr := signalBuffer mInBuf m unit index

-- `(unit.mOutBuf[index])`
def OUT (m : Memory 64) (unit : Addr) (index : ℤ) : Option Addr := signalBuffer mOutBuf m unit index

-- `(IN(index)[0])`
def IN0 (m : Memory 64) (unit : Addr) (index : ℤ) : Option (List Byte) :=
  signalSample mInBuf m unit index

-- `(OUT(index)[0])`
def OUT0 (m : Memory 64) (unit : Addr) (index : ℤ) : Option (List Byte) :=
  signalSample mOutBuf m unit index

-- `OUT0(index) = val`
def OUT0Assign (m : Memory 64) (unit : Addr) (index : ℤ) (val : List Byte) :
    Option (Memory 64) := do
  let p ← OUT m unit index
  Ptr.indexAssign 4 m p 0 val

theorem signalBuffer_eq (table : FieldName) (m : Memory 64) (unit : Addr) {n : ℕ}
    (hfit : n * 8 < 2 ^ 63) (i : Fin n) :
    signalBuffer table m unit (i : ℕ) =
      some (loadBits 64 m (elementAt (loadBits 64 m (unitField unit table)) 8 i)) := by
  unfold signalBuffer
  rw [Ptr.index_eq m _ hfit i]
  rfl

theorem signalBuffer_zero (table : FieldName) (m : Memory 64) (unit : Addr) :
    signalBuffer table m unit 0 = some (loadBits 64 m (loadBits 64 m (unitField unit table))) := by
  have hentry := signalBuffer_eq table m unit (show 1 * 8 < 2 ^ 63 by decide) 0
  rwa [Fin.val_zero, elementAt_zero] at hentry

-- `unit.mInBuf[]`, from which `next` reads, is `IN(0)`.
theorem IN_zero (m : Memory 64) (unit : Addr) : IN m unit 0 = some (inputOf m unit) :=
  signalBuffer_zero mInBuf m unit

theorem OUT_zero (m : Memory 64) (unit : Addr) : OUT m unit 0 = some (outputOf m unit) :=
  signalBuffer_zero mOutBuf m unit

theorem index_zero (m : Memory 64) (p : Addr) : Ptr.index 4 m p 0 = some (loadBytes m p 4) := by
  have hfirst := Ptr.index_eq m p (show 1 * 4 < 2 ^ 63 by decide) 0
  rwa [elements, Fin.val_zero, elementAt_zero] at hfirst

theorem indexAssign_zero (m : Memory 64) (p : Addr) (val : List Byte) :
    Ptr.indexAssign 4 m p 0 val = some (storeBytes m p val) := by
  have hfirst := Ptr.indexAssign_eq m p (show 1 * 4 < 2 ^ 63 by decide) 0 val
  rwa [Fin.val_zero, elementAt_zero] at hfirst

/-! ## 2. Control-rate outputs -/

/-- The first `n` outputs of the unit are the buffers `out`: their first samples overlap neither
each other nor the pointers that lead to them. -/
structure Outputs (m : Memory 64) (unit : Addr) {n : ℕ} (out : Fin n → Addr) : Prop where
  fits : n * 8 < 2 ^ 63
  table : ∀ i : Fin n,
    loadBits 64 m (elementAt (loadBits 64 m (unitField unit mOutBuf)) 8 i) = out i
  apart : ∀ i j, i ≠ j → Apart (out i) 4 (out j) 4
  field_apart : ∀ j, Apart (unitField unit mOutBuf) 8 (out j) 4
  table_apart : ∀ i j : Fin n,
    Apart (elementAt (loadBits 64 m (unitField unit mOutBuf)) 8 i) 8 (out j) 4

/-- The first samples of the buffers. -/
def firstSamples {n : ℕ} (m : Memory 64) (out : Fin n → Addr) : Fin n → List Byte :=
  fun i ↦ loadBytes m (out i) 4

namespace Outputs

variable {m : Memory 64} {unit : Addr} {n : ℕ} {out : Fin n → Addr}

theorem OUT_eq (h : Outputs m unit out) (i : Fin n) : OUT m unit (i : ℕ) = some (out i) := by
  rw [← h.table i]
  exact signalBuffer_eq mOutBuf m unit h.fits i

theorem OUT0_eq (h : Outputs m unit out) (i : Fin n) :
    OUT0 m unit (i : ℕ) = some (firstSamples m out i) := by
  have hbuffer : signalBuffer mOutBuf m unit (i : ℕ) = some (out i) := h.OUT_eq i
  unfold OUT0 signalSample
  rw [hbuffer]
  exact index_zero m (out i)

theorem OUT0Assign_eq (h : Outputs m unit out) (i : Fin n) (val : List Byte) :
    OUT0Assign m unit (i : ℕ) val = some (storeBytes m (out i) val) := by
  unfold OUT0Assign
  rw [h.OUT_eq i]
  exact indexAssign_zero m (out i) val

-- A sample stored in an output does not touch the pointers.
theorem store (h : Outputs m unit out) (i : Fin n) {val : List Byte} (hlen : val.length = 4) :
    Outputs (storeBytes m (out i) val) unit out := by
  have hword : ∀ a, Apart a 8 (out i) 4 →
      loadBits 64 (storeBytes m (out i) val) a = loadBits 64 m a := by
    intro a ha
    apply loadBits_congr (by simp)
    intro x hx
    apply storeBytes_outside
    rw [hlen]
    exact ha x hx
  have hfield := hword _ (h.field_apart i)
  refine ⟨h.fits, fun j ↦ ?_, h.apart, h.field_apart, fun j k ↦ ?_⟩
  · rw [hfield, hword _ (h.table_apart j i), h.table j]
  · rw [hfield]
    exact h.table_apart j k

theorem firstSamples_store (h : Outputs m unit out) (i : Fin n) {val : List Byte}
    (hlen : val.length = 4) : firstSamples (storeBytes m (out i) val) out =
      Function.update (firstSamples m out) i val :=
  windows_storeBytes m out (by simp) h.apart i hlen

/-- Any row of assignments leaves in each output what was assigned to it last, and changes nothing
but first samples of outputs. -/
theorem assignAll (h : Outputs m unit out) (writes : List (Fin n × List Byte))
    (hlen : ∀ p ∈ writes, p.2.length = 4) :
    ∃ m', writes.foldlM (fun m p ↦ OUT0Assign m unit (p.1 : ℕ) p.2) m = some m' ∧
      Outputs m' unit out ∧
      (∀ j : Fin n, OUT0 m' unit (j : ℕ) =
        some (writes.foldl (fun f p ↦ Function.update f p.1 p.2) (firstSamples m out) j)) ∧
      ∀ a, (∀ j, ¬ Within (out j) 4 a) → m' a = m a := by
  induction writes generalizing m with
  | nil => exact ⟨m, rfl, h, h.OUT0_eq, fun _ _ ↦ rfl⟩
  | cons p writes ih =>
      have hval := hlen p (List.mem_cons_self)
      obtain ⟨m', hrun, hout, hread, hframe⟩ := ih (h.store p.1 hval)
        fun q hq ↦ hlen q (List.mem_cons_of_mem p hq)
      refine ⟨m', ?_, hout, ?_, ?_⟩
      · rw [List.foldlM_cons, h.OUT0Assign_eq p.1 p.2]
        exact hrun
      · intro j
        rw [hread j, h.firstSamples_store p.1 hval, List.foldl_cons]
      · intro a ha
        rw [hframe a ha]
        apply storeBytes_outside
        rw [hval]
        exact ha p.1

-- A unit at 4096 whose table at 8192 leads to outputs at 16384 and 16388, and one at 4608 whose
-- table at 8448 leads to the second of these as its second input.
def twoOutputMem : Memory 64 :=
  let m := storeBytes (storeBits (fun _ ↦ 0) 4176 8192#64) 8192 (wordBytes [16384#64, 16388#64])
  storeBytes (storeBits m 4680 8448#64) 8448 (wordBytes [20480#64, 16388#64])

theorem outputs_twoOutputMem : Outputs twoOutputMem 4096 ![16384, 16388] := by
  have htable : loadBits 64 twoOutputMem (unitField 4096 mOutBuf) = 8192 := by decide +kernel
  have hfield : unitField 4096 mOutBuf = 4176 := by decide +kernel
  refine ⟨by decide, ?_, ?_, fun j ↦ ?_, fun i j ↦ ?_⟩
  · rw [htable]
    decide +kernel
  · intro i j hij
    fin_cases i <;> fin_cases j
    · exact absurd rfl hij
    · exact apart_of_gap (by decide) (by decide)
    · exact Apart.symm (apart_of_gap (by decide) (by decide))
    · exact absurd rfl hij
  · rw [hfield]
    fin_cases j <;> exact apart_of_gap (by decide) (by decide)
  · rw [htable]
    fin_cases i <;> fin_cases j <;> exact apart_of_gap (by decide) (by decide)

theorem assignAll_twoOutputMem : ∃ m',
    [((0 : Fin 2), [1, 1, 1, 1]), (1, [2, 2, 2, 2]), (0, [3, 3, 3, 3])].foldlM
      (fun m p ↦ OUT0Assign m 4096 (p.1 : ℕ) p.2) twoOutputMem = some m' ∧
    OUT0 m' 4096 0 = some [3, 3, 3, 3] ∧ OUT0 m' 4096 1 = some [2, 2, 2, 2] := by
  obtain ⟨m', hrun, -, hread, -⟩ := assignAll outputs_twoOutputMem
    [((0 : Fin 2), [1, 1, 1, 1]), (1, [2, 2, 2, 2]), (0, [3, 3, 3, 3])] (by simp)
  exact ⟨m', hrun, hread 0, hread 1⟩

/-- What a unit stores in an output, a unit fed by it reads from its input. -/
theorem IN0_of_OUT0Assign (h : Outputs m unit out) (i : Fin n) {val : List Byte}
    (hlen : val.length = 4) {fed : Addr} {k : ℤ} {m' : Memory 64}
    (hm' : OUT0Assign m unit (i : ℕ) val = some m') (hfed : IN m' fed k = some (out i)) :
    IN0 m' fed k = some val := by
  have hbuffer : signalBuffer mInBuf m' fed k = some (out i) := hfed
  rw [h.OUT0Assign_eq i val, Option.some.injEq] at hm'
  unfold IN0 signalSample
  rw [hbuffer]
  refine (index_zero m' (out i)).trans (congrArg some ?_)
  rw [← hm', ← hlen]
  exact loadBytes_storeBytes m (out i) val (by omega)

theorem IN0_of_OUT0Assign_twoOutputMem : ∃ m',
    OUT0Assign twoOutputMem 4096 1 [1, 2, 3, 4] = some m' ∧
    IN0 m' 4608 1 = some [1, 2, 3, 4] := by
  have hassign := outputs_twoOutputMem.OUT0Assign_eq 1 [1, 2, 3, 4]
  exact ⟨_, hassign, IN0_of_OUT0Assign outputs_twoOutputMem 1 rfl hassign (by decide +kernel)⟩

end Outputs

end Scnim
