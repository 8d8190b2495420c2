import Mathlib.Data.BitVec
import Mathlib.Data.List.GetD
import Mathlib.Tactic.Ring
import Mathlib.Tactic.Abel

/-!
# Byte memory

A total byte-addressed memory whose `w`-bit addresses wrap around.  Bytes are read and written as
lists, so a value of any size is its object representation; the numbers those bytes stand for are
little-endian.
-/

namespace Machine

abbrev Byte := BitVec 8

abbrev Memory (w : ℕ) := BitVec w → Byte

variable {w : ℕ}

/-! ## 1. Windows of addresses -/

/-- How many bytes above `base` the address `a` lies, counted around the address space. -/
def gap (base a : BitVec w) : ℕ := (a - base).toNat

-- `a` is one of the `len` bytes from `base` on.
def Within (base : BitVec w) (len : ℕ) (a : BitVec w) : Prop := gap base a < len

instance (base : BitVec w) (len : ℕ) (a : BitVec w) : Decidable (Within base len a) :=
  inferInstanceAs (Decidable (_ < _))

def Apart (a : BitVec w) (m : ℕ) (b : BitVec w) (n : ℕ) : Prop :=
  ∀ x, Within a m x → ¬ Within b n x

theorem gap_lt (base a : BitVec w) : gap base a < 2 ^ w := (a - base).isLt

theorem gap_add {k : ℕ} (base : BitVec w) (hk : k < 2 ^ w) :
    gap base (base + BitVec.ofNat w k) = k := by
  unfold gap
  rw [add_sub_cancel_left, BitVec.toNat_ofNat, Nat.mod_eq_of_lt hk]

theorem add_gap (base a : BitVec w) : base + BitVec.ofNat w (gap base a) = a := by
  unfold gap
  rw [BitVec.ofNat_toNat, BitVec.setWidth_eq, add_sub_cancel]

theorem within_add_iff {k : ℕ} (base : BitVec w) (len : ℕ) (hk : k < 2 ^ w) :
    Within base len (base + BitVec.ofNat w k) ↔ k < len := by
  unfold Within
  rw [gap_add base hk]

-- Moving the base up by `k` lowers the gap by `k`, around the address space.
theorem gap_shift {k : ℕ} (base a : BitVec w) (hk : k ≤ 2 ^ w) :
    gap (base + BitVec.ofNat w k) a =
      if k ≤ gap base a then gap base a - k else gap base a + 2 ^ w - k := by
  have hlt := gap_lt base a
  have hsub : a - (base + BitVec.ofNat w k) = (a - base) - BitVec.ofNat w k := by ring
  have hmod : gap (base + BitVec.ofNat w k) a = (2 ^ w - k % 2 ^ w + gap base a) % 2 ^ w := by
    unfold gap
    rw [hsub, BitVec.toNat_sub, BitVec.toNat_ofNat]
  rw [hmod]
  rcases Nat.lt_or_eq_of_le hk with hklt | rfl
  · rw [Nat.mod_eq_of_lt hklt]
    split
    · rw [show 2 ^ w - k + gap base a = (gap base a - k) + 2 ^ w by omega, Nat.add_mod_right,
        Nat.mod_eq_of_lt (by omega)]
    · rw [Nat.mod_eq_of_lt (by omega)]
      omega
  · rw [Nat.mod_self, if_neg (by omega), Nat.sub_zero, Nat.add_mod_left, Nat.mod_eq_of_lt hlt]
    omega

theorem within_shift_iff {k n : ℕ} (base a : BitVec w) (hfit : k + n ≤ 2 ^ w) :
    Within (base + BitVec.ofNat w k) n a ↔ k ≤ gap base a ∧ gap base a < k + n := by
  have hlt := gap_lt base a
  unfold Within
  rw [gap_shift base a (by omega)]
  split <;> omega

theorem Apart.symm {a b : BitVec w} {m n : ℕ} (h : Apart a m b n) : Apart b n a m :=
  fun x hb ha ↦ h x ha hb

-- A window that starts at or above the end of another one and ends below its base.
theorem apart_of_gap {a b : BitVec w} {m n : ℕ} (hstart : m ≤ gap a b)
    (hend : gap a b + n ≤ 2 ^ w) : Apart a m b n := by
  intro x ha hb
  rw [← add_gap a b, within_shift_iff a x hend] at hb
  unfold Within at ha
  omega

/-! ## 2. Reading and writing bytes -/

def loadBytes (m : Memory w) (a : BitVec w) (n : ℕ) : List Byte :=
  (List.range n).map fun k ↦ m (a + BitVec.ofNat w k)

def storeBytes (m : Memory w) (a : BitVec w) (bs : List Byte) : Memory w :=
  fun x ↦ (bs[gap a x]?).getD (m x)

@[simp] theorem loadBytes_length (m : Memory w) (a : BitVec w) (n : ℕ) :
    (loadBytes m a n).length = n := by
  simp [loadBytes]

theorem loadBytes_getElem? (m : Memory w) (a : BitVec w) {n k : ℕ} (hk : k < n) :
    (loadBytes m a n)[k]? = some (m (a + BitVec.ofNat w k)) := by
  simp [loadBytes, hk]

theorem loadBytes_eq_iff {m m' : Memory w} {a b : BitVec w} {n : ℕ} :
    loadBytes m a n = loadBytes m' b n ↔
      ∀ k < n, m (a + BitVec.ofNat w k) = m' (b + BitVec.ofNat w k) := by
  simp [loadBytes]

theorem loadBytes_congr {m m' : Memory w} {a : BitVec w} {n : ℕ} (hn : n ≤ 2 ^ w)
    (h : ∀ x, Within a n x → m' x = m x) : loadBytes m' a n = loadBytes m a n := by
  rw [loadBytes_eq_iff]
  intro k hk
  exact h _ ((within_add_iff a n (by omega)).mpr hk)

theorem storeBytes_outside (m : Memory w) (a : BitVec w) (bs : List Byte) {x : BitVec w}
    (h : ¬ Within a bs.length x) : storeBytes m a bs x = m x := by
  unfold storeBytes
  rw [List.getElem?_eq_none (by unfold Within at h; omega), Option.getD_none]

theorem storeBytes_inside (m : Memory w) (a : BitVec w) (bs : List Byte) {x : BitVec w}
    (h : gap a x < bs.length) : storeBytes m a bs x = bs[gap a x] := by
  unfold storeBytes
  rw [List.getElem?_eq_getElem h, Option.getD_some]

theorem loadBytes_storeBytes (m : Memory w) (a : BitVec w) (bs : List Byte)
    (hlen : bs.length ≤ 2 ^ w) : loadBytes (storeBytes m a bs) a bs.length = bs := by
  apply List.ext_getElem?
  intro k
  by_cases hk : k < bs.length
  · have hgap : gap a (a + BitVec.ofNat w k) = k := gap_add a (by omega)
    rw [loadBytes_getElem? _ _ hk, storeBytes_inside _ _ _ (by omega), List.getElem?_eq_getElem hk]
    simp only [hgap]
  · rw [List.getElem?_eq_none (by simpa using hk), List.getElem?_eq_none (by omega)]

theorem storeBytes_same (m : Memory w) (a : BitVec w) (bs : List Byte)
    (h : loadBytes m a bs.length = bs) : storeBytes m a bs = m := by
  funext x
  by_cases hx : gap a x < bs.length
  · have hbyte := loadBytes_getElem? m a hx
    rw [h, add_gap] at hbyte
    unfold storeBytes
    rw [hbyte, Option.getD_some]
  · exact storeBytes_outside m a bs hx

theorem loadBytes_storeBytes_apart (m : Memory w) (a b : BitVec w) (bs : List Byte) {n : ℕ}
    (hn : n ≤ 2 ^ w) (h : Apart b n a bs.length) :
    loadBytes (storeBytes m a bs) b n = loadBytes m b n :=
  loadBytes_congr hn fun x hx ↦ storeBytes_outside m a bs (h x hx)

theorem loadBytes_storeBytes_part (m : Memory w) (a : BitVec w) (bs : List Byte) {k n : ℕ}
    (hfit : k + n ≤ bs.length) (hlen : bs.length ≤ 2 ^ w) :
    loadBytes (storeBytes m a bs) (a + BitVec.ofNat w k) n = (bs.drop k).take n := by
  apply List.ext_getElem?
  intro i
  by_cases hi : i < n
  · rw [loadBytes_getElem? _ _ hi, add_assoc, ← BitVec.ofNat_add]
    have hgap : gap a (a + BitVec.ofNat w (k + i)) = k + i := gap_add a (by omega)
    rw [storeBytes_inside _ _ _ (by omega), List.getElem?_take_of_lt hi, List.getElem?_drop,
      List.getElem?_eq_getElem (by omega)]
    simp only [hgap]
  · rw [List.getElem?_eq_none (by simpa using hi), List.getElem?_eq_none (by simp; omega)]

theorem storeBytes_append (m : Memory w) (a : BitVec w) (as bs : List Byte) {k : ℕ}
    (hk : as.length = k) (hlen : k + bs.length ≤ 2 ^ w) :
    storeBytes (storeBytes m a as) (a + BitVec.ofNat w k) bs = storeBytes m a (as ++ bs) := by
  subst hk
  funext x
  have hlt := gap_lt a x
  have hshift := gap_shift a x (show as.length ≤ 2 ^ w by omega)
  unfold storeBytes
  rw [List.getElem?_append]
  by_cases hx : gap a x < as.length
  · rw [if_pos hx, List.getElem?_eq_none (l := bs) (by rw [hshift, if_neg (by omega)]; omega),
      Option.getD_none]
  · rw [if_neg hx, hshift, if_pos (by omega), List.getElem?_eq_none (l := as) (by omega),
      Option.getD_none]

/-! ## 3. Exact copies -/

/-- `m` after the `len` bytes from `src` have been copied to `dst`, all at once. -/
def copied (m : Memory w) (dst src : BitVec w) (len : ℕ) : Memory w :=
  fun a ↦ if gap dst a < len then m (src + BitVec.ofNat w (gap dst a)) else m a

theorem copied_zero (m : Memory w) (dst src : BitVec w) : copied m dst src 0 = m := by
  funext a
  unfold copied
  rw [if_neg (Nat.not_lt_zero _)]

theorem copied_inside (m : Memory w) (dst src : BitVec w) {len k : ℕ} (hk : k < len)
    (hlen : len ≤ 2 ^ w) :
    copied m dst src len (dst + BitVec.ofNat w k) = m (src + BitVec.ofNat w k) := by
  unfold copied
  rw [gap_add dst (by omega), if_pos hk]

theorem copied_outside (m : Memory w) (dst src : BitVec w) {len : ℕ} {a : BitVec w}
    (h : ¬ Within dst len a) : copied m dst src len a = m a := if_neg h

theorem loadBytes_copied (m : Memory w) (dst src : BitVec w) {len k n : ℕ} (hfit : k + n ≤ len)
    (hlen : len ≤ 2 ^ w) :
    loadBytes (copied m dst src len) (dst + BitVec.ofNat w k) n =
      loadBytes m (src + BitVec.ofNat w k) n := by
  rw [loadBytes_eq_iff]
  intro d hd
  rw [add_assoc, add_assoc, ← BitVec.ofNat_add]
  exact copied_inside m dst src (by omega) hlen

-- Bytes of the source at or above `k` are still what they were once `k` bytes are copied: the
-- two regions are the same one or have no byte in common.
theorem copied_source (m : Memory w) (dst src : BitVec w) {len k d : ℕ}
    (hr : src = dst ∨ Apart src len dst len) (hlen : len ≤ 2 ^ w) (hkd : k ≤ d) (hd : d < len) :
    copied m dst src k (src + BitVec.ofNat w d) = m (src + BitVec.ofNat w d) := by
  apply copied_outside
  rcases hr with rfl | hr
  · rw [within_add_iff src k (by omega)]
    omega
  · have hout := hr _ ((within_add_iff src len (by omega)).mpr hd)
    unfold Within at hout ⊢
    omega

/-- Copying `n` more bytes by a load and a store extends the exact copy. -/
theorem storeBytes_copied (m : Memory w) (dst src : BitVec w) {len k n : ℕ}
    (hr : src = dst ∨ Apart src len dst len) (hlen : len ≤ 2 ^ w) (hfit : k + n ≤ len) :
    storeBytes (copied m dst src k) (dst + BitVec.ofNat w k)
        (loadBytes (copied m dst src k) (src + BitVec.ofNat w k) n) =
      copied m dst src (k + n) := by
  funext a
  have hshift := gap_shift dst a (show k ≤ 2 ^ w by omega)
  have hlt := gap_lt dst a
  by_cases hin : k ≤ gap dst a ∧ gap dst a < k + n
  · obtain ⟨hk, hn⟩ := hin
    rw [if_pos hk] at hshift
    have haddr : src + BitVec.ofNat w k + BitVec.ofNat w (gap dst a - k) =
        src + BitVec.ofNat w (gap dst a) := by
      rw [add_assoc, ← BitVec.ofNat_add, show k + (gap dst a - k) = gap dst a by omega]
    unfold storeBytes
    rw [hshift, loadBytes_getElem? _ _ (by omega), Option.getD_some, haddr,
      copied_source m dst src hr hlen hk (by omega)]
    unfold copied
    rw [if_pos hn]
  · have hout : ¬ Within (dst + BitVec.ofNat w k) n a :=
      fun h ↦ hin ((within_shift_iff dst a (by omega)).mp h)
    rw [storeBytes_outside _ _ _ (by rwa [loadBytes_length])]
    unfold copied
    by_cases hk : gap dst a < k
    · rw [if_pos hk, if_pos (by omega)]
    · rw [if_neg hk, if_neg (by omega)]

/-! ## 4. Little-endian numbers -/

-- The number the bytes stand for, lowest byte first.
def leNat : List Byte → ℕ
  | [] => 0
  | b :: bs => b.toNat + 256 * leNat bs

def leBytes : ℕ → ℕ → List Byte
  | 0, _ => []
  | n + 1, v => BitVec.ofNat 8 v :: leBytes n (v / 256)

@[simp] theorem leBytes_length (n v : ℕ) : (leBytes n v).length = n := by
  induction n generalizing v with
  | zero => rfl
  | succ n ih => rw [leBytes, List.length_cons, ih]

theorem leNat_lt (bs : List Byte) : leNat bs < 256 ^ bs.length := by
  induction bs with
  | nil => simp [leNat]
  | cons b bs ih =>
      have hb := b.isLt
      rw [leNat, List.length_cons, pow_succ]
      omega

theorem leNat_leBytes (n v : ℕ) : leNat (leBytes n v) = v % 256 ^ n := by
  induction n generalizing v with
  | zero => simp [leBytes, leNat, Nat.mod_one]
  | succ n ih =>
      rw [leBytes, leNat, ih, BitVec.toNat_ofNat, pow_succ' 256 n, Nat.mod_mul]

theorem leNat_inj {as bs : List Byte} (hlen : as.length = bs.length)
    (h : leNat as = leNat bs) : as = bs := by
  induction as generalizing bs with
  | nil =>
      rw [List.length_nil] at hlen
      exact (List.eq_nil_of_length_eq_zero hlen.symm).symm
  | cons a as ih =>
      cases bs with
      | nil => simp at hlen
      | cons b bs =>
          have ha := a.isLt
          have hb := b.isLt
          rw [leNat, leNat] at h
          have hab : a.toNat = b.toNat := by omega
          rw [BitVec.eq_of_toNat_eq hab, ih (by simpa using hlen) (by omega)]

-- The `v`-bit word whose `v / 8` bytes start at `a`.
def loadBits (v : ℕ) (m : Memory w) (a : BitVec w) : BitVec v :=
  BitVec.ofNat v (leNat (loadBytes m a (v / 8)))

def storeBits {v : ℕ} (m : Memory w) (a : BitVec w) (x : BitVec v) : Memory w :=
  storeBytes m a (leBytes (v / 8) x.toNat)

theorem loadBits_congr {v : ℕ} {m m' : Memory w} {a : BitVec w} (hv : v / 8 ≤ 2 ^ w)
    (h : ∀ x, Within a (v / 8) x → m' x = m x) : loadBits v m' a = loadBits v m a := by
  unfold loadBits
  rw [loadBytes_congr hv h]

theorem ofNat_leNat_leBytes {v : ℕ} (x : BitVec v) (hbytes : 8 ∣ v) :
    BitVec.ofNat v (leNat (leBytes (v / 8) x.toNat)) = x := by
  have hpow : 256 ^ (v / 8) = 2 ^ v := by
    rw [show (256 : ℕ) = 2 ^ 8 from rfl, ← pow_mul, Nat.mul_div_cancel' hbytes]
  rw [leNat_leBytes, hpow, Nat.mod_eq_of_lt x.isLt, BitVec.ofNat_toNat, BitVec.setWidth_eq]

theorem loadBits_storeBits {v : ℕ} (m : Memory w) (a : BitVec w) (x : BitVec v)
    (hv : v / 8 ≤ 2 ^ w) (hbytes : 8 ∣ v) : loadBits v (storeBits m a x) a = x := by
  have hback := loadBytes_storeBytes m a (leBytes (v / 8) x.toNat) (by rwa [leBytes_length])
  rw [leBytes_length] at hback
  unfold loadBits storeBits
  rw [hback, ofNat_leNat_leBytes x hbytes]

theorem leBytes_add (n k v : ℕ) : leBytes (n + k) v = leBytes n v ++ leBytes k (v / 256 ^ n) := by
  induction n generalizing v with
  | zero => simp [leBytes]
  | succ n ih =>
      rw [Nat.add_right_comm, leBytes, leBytes, ih, List.cons_append, Nat.div_div_eq_div_mul,
        ← pow_succ']

theorem leBytes_mod (n v : ℕ) : leBytes n (v % 256 ^ n) = leBytes n v := by
  apply leNat_inj (by simp)
  rw [leNat_leBytes, leNat_leBytes, Nat.mod_mod]

def wordBytes {v : ℕ} (ws : List (BitVec v)) : List Byte :=
  ws.flatMap fun x ↦ leBytes (v / 8) x.toNat

theorem wordBytes_length {v : ℕ} (ws : List (BitVec v)) :
    (wordBytes ws).length = v / 8 * ws.length := by
  induction ws with
  | nil => rfl
  | cons x ws ih =>
      rw [wordBytes, List.flatMap_cons, List.length_append, leBytes_length, List.length_cons,
        Nat.mul_succ, ← ih, Nat.add_comm]
      rfl

theorem wordBytes_part {v : ℕ} (ws : List (BitVec v)) {i : ℕ} (hi : i < ws.length) :
    ((wordBytes ws).drop (v / 8 * i)).take (v / 8) = leBytes (v / 8) ws[i].toNat := by
  induction ws generalizing i with
  | nil => simp at hi
  | cons x ws ih =>
      rw [wordBytes, List.flatMap_cons]
      cases i with
      | zero => simp
      | succ i =>
          rw [Nat.mul_succ, Nat.add_comm, ← List.drop_drop, List.drop_left' (leBytes_length _ _)]
          exact ih (by simpa using hi)

theorem loadBits_wordBytes {v : ℕ} (m : Memory w) (a : BitVec w) (ws : List (BitVec v)) {i : ℕ}
    (hi : i < ws.length) (hlen : v / 8 * ws.length ≤ 2 ^ w) (hbytes : 8 ∣ v) :
    loadBits v (storeBytes m a (wordBytes ws)) (a + BitVec.ofNat w (v / 8 * i)) = ws[i] := by
  have hfit : v / 8 * i + v / 8 ≤ v / 8 * ws.length := by
    rw [← Nat.mul_succ]
    exact Nat.mul_le_mul_left _ hi
  unfold loadBits
  rw [loadBytes_storeBytes_part m a _ (by rwa [wordBytes_length]) (by rwa [wordBytes_length]),
    wordBytes_part ws hi, ofNat_leNat_leBytes ws[i] hbytes]

end Machine
