import Scnim.PtrMath
import Scnim.Records

/-!
# The example unit generator

`example/ExampleUGens.nim`: the unit type `Example`, its calculation function `next`, its
constructor and the plugin's `load`.  A unit is a record in memory; `next` finds its buffers through
the record each time it is called.
-/

open Machine

namespace Scnim

open FieldName

/-! ## 1. The unit type -/

-- A field that a plugin adds to its unit type.
structure AddedField where
  name : String
  size : ℕ
  align : ℕ
  align_pos : 0 < align

def AddedField.ty (f : AddedField) : FieldTy := .scalar (.blob f.size f.align) f.align_pos

-- `object of Unit` with the given fields.
def objectOfUnit (fields : List AddedField) : FieldTy :=
  .derived Nim.unit (fields.map fun f ↦ (added f.name, f.ty))

-- `Example = object of Unit`
def exampleTy : FieldTy := objectOfUnit []

def unitField (unit : Addr) (f : FieldName) : Addr :=
  unit + BitVec.ofNat 64 (Nim.unit.offset [f])

/-! ## 2. The calculation function -/

/-- A use of the templates on a signal buffer: the buffer and the index. -/
inductive Access
  | read (p : Addr) (i : ℤ)
  | write (p : Addr) (i : ℤ)
  deriving DecidableEq

def Access.at : Access → ℤ
  | .read _ i => i
  | .write _ i => i

structure Mach where
  mem : Memory 64
  log : List Access

-- `output[i] = input[i]`, on `ptr cfloat`.
def copySample (output input : Addr) (s : Mach) (i : ℤ) : Option Mach := do
  let v ← Ptr.index 4 s.mem input i
  let mem ← Ptr.indexAssign 4 s.mem output i v
  return ⟨mem, s.log ++ [.read input i, .write output i]⟩

-- The values of `i` in `for i in a..b`; Nim's `..` includes `b`.
def upTo (a b : ℤ) : List ℤ := (List.range (b + 1 - a).toNat).map fun k : ℕ ↦ a + (k : ℤ)

-- `unit.mInBuf[]`
def inputOf (m : Memory 64) (unit : Addr) : Addr :=
  loadBits 64 m (loadBits 64 m (unitField unit mInBuf))

-- `unit.mOutBuf[]`
def outputOf (m : Memory 64) (unit : Addr) : Addr :=
  loadBits 64 m (loadBits 64 m (unitField unit mOutBuf))

def next (m : Memory 64) (unit : Addr) (numSamples : Int32) : Option Mach :=
  let input := inputOf m unit
  let output := outputOf m unit
  (upTo 0 numSamples.toInt).foldlM (copySample output input) ⟨m, []⟩

/-! ## 3. Constructor and load -/

-- `unit.mCalcFunc = cast[UnitCalcFunc](next)`, `next` being at the address `nextPtr`.
def ctor (nextPtr : Addr) (m : Memory 64) (unit : Addr) : Memory 64 :=
  storeBits m (unitField unit mCalcFunc) nextPtr

/-- The server's call `unit->mCalcFunc(unit, inNumSamples)`, which only succeeds where the field
holds `next`. -/
def callCalcFunc (nextPtr : Addr) (m : Memory 64) (unit : Addr) (inNumSamples : Int32) :
    Option Mach :=
  if loadBits 64 m (unitField unit mCalcFunc) = nextPtr then next m unit inNumSamples else none

structure DefineUnit where
  callee : Addr
  inUnitClassName : String
  inAllocSize : ℕ
  inCtor : Addr
  inDtor : Addr
  inFlags : BitVec 32
  deriving DecidableEq

/-- `load` of a plugin with one unit type: the table it keeps in `ft`, and its call.  The example's
own is `load "Example" exampleTy`. -/
def load (className : String) (unitTy : FieldTy) (ctorPtr : Addr) (m : Memory 64)
    (inTable : Addr) : Addr × DefineUnit :=
  let ft := inTable
  (ft, { callee := loadBits 64 m (ft + BitVec.ofNat 64 (Nim.interfaceTable.offset [fDefineUnit]))
         inUnitClassName := className
         inAllocSize := unitTy.size
         inCtor := ctorPtr
         inDtor := 0
         inFlags := 0 })

end Scnim
