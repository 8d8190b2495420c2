import Scnim.Machine.Mixing

/-!
# Hashing integers

`Hash` for an `int32` and `Hash64` of `dev/Hash.h`: Thomas Wang's integer hashes, on unsigned words.
-/

open Machine

namespace Scnim

/-! ## 1. The hashes -/

def hash (inKey : BitVec 32) : BitVec 32 :=
  let hash := inKey
  let hash := hash + ~~~(hash <<< 15)
  let hash := hash ^^^ hash >>> 10
  let hash := hash + hash <<< 3
  let hash := hash ^^^ hash >>> 6
  let hash := hash + ~~~(hash <<< 11)
  hash ^^^ hash >>> 16

def hash64 (inKey : BitVec 64) : BitVec 64 :=
  let hash := inKey
  let hash := hash + ~~~(hash <<< 32)
  let hash := hash ^^^ hash >>> 22
  let hash := hash + ~~~(hash <<< 13)
  let hash := hash ^^^ hash >>> 8
  let hash := hash + hash <<< 3
  let hash := hash ^^^ hash >>> 15
  let hash := hash + ~~~(hash <<< 27)
  hash ^^^ hash >>> 31

/-! ## 2. No collisions -/

theorem hash_injective : Function.Injective hash := by
  intro x y hxy
  apply add_not_shiftLeft_injective (show 0 < 15 by decide)
  apply xor_ushiftRight_injective (show 0 < 10 by decide)
  apply add_shiftLeft_injective (show 0 < 3 by decide)
  apply xor_ushiftRight_injective (show 0 < 6 by decide)
  apply add_not_shiftLeft_injective (show 0 < 11 by decide)
  apply xor_ushiftRight_injective (show 0 < 16 by decide)
  exact hxy

theorem hash64_injective : Function.Injective hash64 := by
  intro x y hxy
  apply add_not_shiftLeft_injective (show 0 < 32 by decide)
  apply xor_ushiftRight_injective (show 0 < 22 by decide)
  apply add_not_shiftLeft_injective (show 0 < 13 by decide)
  apply xor_ushiftRight_injective (show 0 < 8 by decide)
  apply add_shiftLeft_injective (show 0 < 3 by decide)
  apply xor_ushiftRight_injective (show 0 < 15 by decide)
  apply add_not_shiftLeft_injective (show 0 < 27 by decide)
  apply xor_ushiftRight_injective (show 0 < 31 by decide)
  exact hxy

/-- Different integers have different hashes, and every word is the hash of one. -/
theorem integerHashes_bijective : Function.Bijective hash ∧ Function.Bijective hash64 :=
  ⟨bijective_of_injective hash_injective, bijective_of_injective hash64_injective⟩

end Scnim
