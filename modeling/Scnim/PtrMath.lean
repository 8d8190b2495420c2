import Scnim.Machine.Memory

/-! The pointer templates of `scnim/ptrmath.nim`, over byte memory with 64-bit addresses. -/

open Machine

namespace Scnim

abbrev Addr := BitVec 64

/-- A product of two `int`s; Nim raises an overflow error where it does not fit. -/
def checkedMul (a b : ℤ) : Option ℤ :=
  if -2 ^ 63 ≤ a * b ∧ a * b < 2 ^ 63 then some (a * b) else none

namespace Ptr

-- `p + off`, where `p[]` takes `size` bytes; `+%` wraps.
def plus (size : ℕ) (p : Addr) (off : ℤ) : Option Addr := do
  let d ← checkedMul off size
  return p + BitVec.ofInt 64 d

-- The value of `p` after `p += off`.
def plusAssign (size : ℕ) (p : Addr) (off : ℤ) : Option Addr := plus size p off

-- `p - off`
def minus (size : ℕ) (p : Addr) (off : ℤ) : Option Addr := do
  let d ← checkedMul off size
  return p - BitVec.ofInt 64 d

-- The value of `p` after `p -= off`.
def minusAssign (size : ℕ) (p : Addr) (off : ℤ) : Option Addr := minus size p off

-- `p[off]`
def index (size : ℕ) (m : Memory 64) (p : Addr) (off : ℤ) : Option (List Byte) := do
  let q ← plus size p off
  return loadBytes m q size

-- The memory after `p[off] = val`.
def indexAssign (size : ℕ) (m : Memory 64) (p : Addr) (off : ℤ) (val : List Byte) :
    Option (Memory 64) := do
  let q ← plus size p off
  return storeBytes m q val

end Ptr

theorem checkedMul_of_fits {a b : ℤ} (hlo : -2 ^ 63 ≤ a * b) (hhi : a * b < 2 ^ 63) :
    checkedMul a b = some (a * b) := if_pos ⟨hlo, hhi⟩

theorem Ptr.plus_ofNat {size k : ℕ} (p : Addr) (hfit : k * size < 2 ^ 63) :
    Ptr.plus size p k = some (p + BitVec.ofNat 64 (k * size)) := by
  have hcast : (k : ℤ) * (size : ℤ) = ((k * size : ℕ) : ℤ) := by push_cast; rfl
  unfold Ptr.plus
  rw [checkedMul_of_fits (by rw [hcast]; omega) (by rw [hcast]; omega), hcast]
  change some (p + BitVec.ofInt 64 ((k * size : ℕ) : ℤ)) = _
  rw [BitVec.ofInt_natCast]

end Scnim
