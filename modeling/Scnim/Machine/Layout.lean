import Scnim.Machine.Memory
import Mathlib.Data.List.Pairwise

/-!
# Record layout

The C rule for records on a 64-bit machine: fields in declaration order, each at the next multiple
of its alignment.  A `Ty` carries the proof that its scalar slots lie inside it and follow one
another, so no declaration laid out here can have overlapping fields.
-/

namespace Machine

/-! ## 1. Scalars and their values -/

/-- The kinds of scalar field.  A `closure` is a procedure together with its environment; a `blob`
stands for any field of which only the size and the alignment matter. -/
inductive Scalar
  | sint (bytes : ℕ)
  | uint (bytes : ℕ)
  | float (bytes : ℕ)
  | bool
  | pointer
  | closure
  | blob (bytes align : ℕ)
  deriving DecidableEq, Repr

def Scalar.size : Scalar → ℕ
  | .sint n => n
  | .uint n => n
  | .float n => n
  | .bool => 1
  | .pointer => 8
  | .closure => 16
  | .blob n _ => n

def Scalar.align : Scalar → ℕ
  | .closure => 8
  | .blob _ a => a
  | k => k.size

/-- What a scalar field holds: a number, or the bytes themselves where their reading as a number
plays no part. -/
inductive Value
  | int (z : ℤ)
  | raw (bs : List Byte)
  deriving DecidableEq, Repr

-- The bytes as a two's complement number, lowest byte first.
def leInt (bs : List Byte) : ℤ :=
  if 2 * leNat bs < 256 ^ bs.length then leNat bs else leNat bs - (256 ^ bs.length : ℕ)

def Scalar.decode : Scalar → List Byte → Value
  | .sint _, bs => .int (leInt bs)
  | .uint _, bs => .int (leNat bs)
  | .bool, bs => .int (leNat bs)
  | .pointer, bs => .int (leNat bs)
  | .float _, bs => .raw bs
  | .closure, bs => .raw bs
  | .blob _ _, bs => .raw bs

theorem leInt_inj {as bs : List Byte} (hlen : as.length = bs.length)
    (h : leInt as = leInt bs) : as = bs := by
  have ha := leNat_lt as
  have hb := leNat_lt bs
  apply leNat_inj hlen
  unfold leInt at h
  rw [hlen] at h ha
  split at h <;> split at h <;> omega

-- A value of a given size determines its bytes.
theorem Scalar.decode_inj (k : Scalar) {as bs : List Byte} (hlen : as.length = bs.length)
    (h : k.decode as = k.decode bs) : as = bs := by
  cases k <;> simp only [decode, Value.int.injEq, Value.raw.injEq, Nat.cast_inj] at h
  case sint => exact leInt_inj hlen h
  case uint => exact leNat_inj hlen h
  case bool => exact leNat_inj hlen h
  case pointer => exact leNat_inj hlen h
  all_goals exact h

/-! ## 2. Slots -/

/-- A scalar field of a record: the path of field names that leads to it, and where it stands. -/
structure Slot (ι : Type) where
  path : List ι
  offset : ℕ
  kind : Scalar
  deriving DecidableEq, Repr

namespace Slot

variable {ι : Type} {w : ℕ}

-- The slot as part of the field `f` that starts at `base`.
def under (f : ι) (base : ℕ) (s : Slot ι) : Slot ι := ⟨f :: s.path, base + s.offset, s.kind⟩

def Before (s t : Slot ι) : Prop := s.offset + s.kind.size ≤ t.offset

instance (s t : Slot ι) : Decidable (s.Before t) := inferInstanceAs (Decidable (_ ≤ _))

def read (s : Slot ι) (m : Memory w) (base : BitVec w) : Value :=
  s.kind.decode (loadBytes m (base + BitVec.ofNat w s.offset) s.kind.size)

def write (s : Slot ι) (m : Memory w) (base : BitVec w) (bs : List Byte) : Memory w :=
  storeBytes m (base + BitVec.ofNat w s.offset) bs

theorem apart_of_before {s t : Slot ι} (base : BitVec w) (h : s.Before t ∨ t.Before s)
    (hs : s.offset + s.kind.size ≤ 2 ^ w) (ht : t.offset + t.kind.size ≤ 2 ^ w) :
    Apart (base + BitVec.ofNat w s.offset) s.kind.size
      (base + BitVec.ofNat w t.offset) t.kind.size := by
  intro x hxs hxt
  have hs' := (within_shift_iff base x hs).mp hxs
  have ht' := (within_shift_iff base x ht).mp hxt
  unfold Before at h
  omega

-- Memories that read alike through a slot agree on each of its bytes.
theorem eq_of_read_eq {s : Slot ι} {m m' : Memory w} {base : BitVec w}
    (h : s.read m base = s.read m' base) {k : ℕ} (hk : k < s.kind.size) :
    m (base + BitVec.ofNat w (s.offset + k)) = m' (base + BitVec.ofNat w (s.offset + k)) := by
  have hb := s.kind.decode_inj (by simp) h
  have hat : ∀ n : Memory w, (loadBytes n (base + BitVec.ofNat w s.offset) s.kind.size)[k]? =
      some (n (base + BitVec.ofNat w (s.offset + k))) := by
    intro n
    rw [loadBytes_getElem? n _ hk, add_assoc, ← BitVec.ofNat_add]
  have he := (hat m).symm.trans ((congrArg (·[k]?) hb).trans (hat m'))
  exact Option.some.inj he

theorem read_congr {s : Slot ι} {m m' : Memory w} {base : BitVec w}
    (hs : s.offset + s.kind.size ≤ 2 ^ w)
    (h : ∀ x, s.offset ≤ gap base x → gap base x < s.offset + s.kind.size → m' x = m x) :
    s.read m' base = s.read m base := by
  unfold read
  rw [loadBytes_congr (by omega)]
  intro x hx
  obtain ⟨hlo, hhi⟩ := (within_shift_iff base x hs).mp hx
  exact h x hlo hhi

theorem read_write (s : Slot ι) (m : Memory w) (base : BitVec w) {bs : List Byte}
    (hlen : bs.length = s.kind.size) (hs : s.kind.size ≤ 2 ^ w) :
    s.read (s.write m base bs) base = s.kind.decode bs := by
  unfold read write
  rw [← hlen, loadBytes_storeBytes m _ bs (by omega)]

theorem read_write_apart {s t : Slot ι} (m : Memory w) (base : BitVec w) {bs : List Byte}
    (hlen : bs.length = s.kind.size) (h : s.Before t ∨ t.Before s)
    (hs : s.offset + s.kind.size ≤ 2 ^ w) (ht : t.offset + t.kind.size ≤ 2 ^ w) :
    t.read (s.write m base bs) base = t.read m base := by
  unfold read write
  rw [loadBytes_storeBytes_apart m _ _ bs (by omega)]
  rw [hlen]
  exact (apart_of_before base h hs ht).symm

end Slot

/-! ## 3. Types -/

-- `x` moved up to the next multiple of `a`.
def alignUp (x a : ℕ) : ℕ := (x + (a - 1)) / a * a

theorem le_alignUp (x : ℕ) {a : ℕ} (ha : 0 < a) : x ≤ alignUp x a := by
  have hdiv := Nat.div_add_mod (x + (a - 1)) a
  have hmod := Nat.mod_lt (x + (a - 1)) ha
  unfold alignUp
  rw [Nat.mul_comm]
  omega

/-- A laid out type: its size and alignment, and its scalar slots in declaration order. -/
structure Ty (ι : Type) where
  size : ℕ
  align : ℕ
  slots : List (Slot ι)
  align_pos : 0 < align
  fits : ∀ s ∈ slots, s.offset + s.kind.size ≤ size
  ordered : slots.Pairwise Slot.Before

namespace Ty

variable {ι : Type}

def scalar (k : Scalar) (h : 0 < k.align := by decide) : Ty ι where
  size := k.size
  align := k.align
  slots := [⟨[], 0, k⟩]
  align_pos := h
  fits := by simp
  ordered := List.pairwise_singleton _ _

-- The slots of the fields, the first of which may start at `cur`.
def place : ℕ → List (ι × Ty ι) → List (Slot ι)
  | _, [] => []
  | cur, (f, t) :: fs =>
      t.slots.map (Slot.under f (alignUp cur t.align)) ++ place (alignUp cur t.align + t.size) fs

def fieldsEnd : ℕ → List (ι × Ty ι) → ℕ
  | cur, [] => cur
  | cur, (_, t) :: fs => fieldsEnd (alignUp cur t.align + t.size) fs

def fieldsAlign : List (ι × Ty ι) → ℕ
  | [] => 1
  | (_, t) :: fs => max t.align (fieldsAlign fs)

theorem fieldsAlign_pos (fs : List (ι × Ty ι)) : 0 < fieldsAlign fs := by
  induction fs with
  | nil => exact Nat.one_pos
  | cons _ fs ih => exact lt_of_lt_of_le ih (Nat.le_max_right _ _)

theorem le_fieldsEnd (cur : ℕ) (fs : List (ι × Ty ι)) : cur ≤ fieldsEnd cur fs := by
  induction fs generalizing cur with
  | nil => exact le_rfl
  | cons ft fs ih =>
      have hup := le_alignUp cur ft.2.align_pos
      have hend := ih (alignUp cur ft.2.align + ft.2.size)
      rw [fieldsEnd]
      omega

theorem place_lower {cur : ℕ} {fs : List (ι × Ty ι)} {s : Slot ι} (hs : s ∈ place cur fs) :
    cur ≤ s.offset := by
  induction fs generalizing cur with
  | nil => simp [place] at hs
  | cons ft fs ih =>
      have hup := le_alignUp cur ft.2.align_pos
      rw [place, List.mem_append, List.mem_map] at hs
      rcases hs with ⟨t, _, rfl⟩ | hs
      · simp only [Slot.under]
        omega
      · have hrest := ih hs
        omega

theorem place_upper {cur : ℕ} {fs : List (ι × Ty ι)} {s : Slot ι} (hs : s ∈ place cur fs) :
    s.offset + s.kind.size ≤ fieldsEnd cur fs := by
  induction fs generalizing cur with
  | nil => simp [place] at hs
  | cons ft fs ih =>
      rw [place, List.mem_append, List.mem_map] at hs
      rw [fieldsEnd]
      rcases hs with ⟨t, ht, rfl⟩ | hs
      · have hfit := ft.2.fits t ht
        have hend := le_fieldsEnd (alignUp cur ft.2.align + ft.2.size) fs
        simp only [Slot.under]
        omega
      · exact ih hs

theorem place_ordered (cur : ℕ) (fs : List (ι × Ty ι)) :
    (place cur fs).Pairwise Slot.Before := by
  induction fs generalizing cur with
  | nil => exact List.Pairwise.nil
  | cons ft fs ih =>
      rw [place, List.pairwise_append]
      refine ⟨?_, ih _, ?_⟩
      · rw [List.pairwise_map]
        apply ft.2.ordered.imp
        intro s t hst
        simp only [Slot.Before, Slot.under] at hst ⊢
        omega
      · intro s hs t ht
        obtain ⟨u, hu, rfl⟩ := List.mem_map.mp hs
        have hfit := ft.2.fits u hu
        have hlow := place_lower ht
        simp only [Slot.Before, Slot.under]
        omega

/-- A record of the given fields. -/
def record (fs : List (ι × Ty ι)) : Ty ι where
  size := alignUp (fieldsEnd 0 fs) (fieldsAlign fs)
  align := fieldsAlign fs
  slots := place 0 fs
  align_pos := fieldsAlign_pos fs
  fits _ hs := (place_upper hs).trans (le_alignUp _ (fieldsAlign_pos fs))
  ordered := place_ordered 0 fs

/-- A record that embeds the whole of `base` first and adds the given fields. -/
def derived (base : Ty ι) (fs : List (ι × Ty ι)) : Ty ι where
  size := alignUp (fieldsEnd base.size fs) (max base.align (fieldsAlign fs))
  align := max base.align (fieldsAlign fs)
  slots := base.slots ++ place base.size fs
  align_pos := lt_of_lt_of_le base.align_pos (Nat.le_max_left _ _)
  fits s hs := by
    have hup := le_alignUp (fieldsEnd base.size fs)
      (lt_of_lt_of_le base.align_pos (Nat.le_max_left base.align (fieldsAlign fs)))
    have hend := le_fieldsEnd base.size fs
    rcases List.mem_append.mp hs with hs | hs
    · have hfit := base.fits s hs
      omega
    · have hfit := place_upper hs
      omega
  ordered := by
    rw [List.pairwise_append]
    refine ⟨base.ordered, place_ordered _ fs, ?_⟩
    intro s hs t ht
    exact (base.fits s hs).trans (place_lower ht)

def offset [DecidableEq ι] (T : Ty ι) (path : List ι) : ℕ :=
  ((T.slots.find? (·.path = path)).map Slot.offset).getD 0

theorem before_or_before (T : Ty ι) {s t : Slot ι} (hs : s ∈ T.slots) (ht : t ∈ T.slots)
    (hne : s ≠ t) : s.Before t ∨ t.Before s := by
  have hsym : Std.Symm fun s t : Slot ι ↦ s.Before t ∨ t.Before s := ⟨fun _ _ h ↦ h.symm⟩
  have hall : T.slots.Pairwise fun s t ↦ s.Before t ∨ t.Before s := T.ordered.imp Or.inl
  exact hall.forall hs ht hne

end Ty

/-! ## 4. One record under two layouts -/

/-- Through the slot `n` one sees the slot `c` of a record laid out as `C`: a read gives what was
stored in `c`, and what is written is found in `c`, every other slot of `C` being left alone. -/
structure Sees {ι : Type} (w : ℕ) (C : Ty ι) (c n : Slot ι) : Prop where
  read : ∀ (m : Memory w) (base : BitVec w), n.read m base = c.read m base
  write : ∀ (m : Memory w) (base : BitVec w) (bs : List Byte), bs.length = n.kind.size →
    c.read (n.write m base bs) base = n.kind.decode bs
  frame : ∀ (m : Memory w) (base : BitVec w) (bs : List Byte), bs.length = n.kind.size →
    ∀ d ∈ C.slots, d ≠ c → d.read (n.write m base bs) base = d.read m base

section

variable {ι : Type} {w : ℕ} {C : Ty ι} {c n : Slot ι}

theorem Sees.of_same_place (hc : c ∈ C.slots) (hC : C.size ≤ 2 ^ w)
    (hoff : n.offset = c.offset) (hsize : n.kind.size = c.kind.size)
    (hdec : ∀ bs, bs.length = n.kind.size → n.kind.decode bs = c.kind.decode bs) :
    Sees w C c n := by
  have hfit := C.fits c hc
  refine ⟨fun m base ↦ ?_, fun m base bs hlen ↦ ?_, fun m base bs hlen d hd hne ↦ ?_⟩
  · unfold Slot.read
    rw [hdec _ (by simp), hoff, hsize]
  · rw [show n.write m base bs = c.write m base bs by unfold Slot.write; rw [hoff],
      c.read_write m base (by omega) (by omega), hdec bs hlen]
  · have hfitd := C.fits d hd
    rw [show n.write m base bs = c.write m base bs by unfold Slot.write; rw [hoff],
      Slot.read_write_apart m base (by omega) (C.before_or_before hc hd hne.symm) (by omega)
        (by omega)]

-- Slots that read alike in every memory: each byte of the one is a byte of the other.
theorem offset_mem_of_read_eq {s t : Slot ι}
    (h : ∀ (m : Memory w) (base : BitVec w), s.read m base = t.read m base)
    (hs : s.offset + s.kind.size ≤ 2 ^ w) (ht : t.offset + t.kind.size ≤ 2 ^ w) {k : ℕ}
    (hk : k < s.kind.size) :
    t.offset ≤ s.offset + k ∧ s.offset + k < t.offset + t.kind.size := by
  by_contra hout
  -- two memories that differ at that byte alone, and so not inside `t`
  let mark : BitVec w := 0 + BitVec.ofNat w (s.offset + k)
  let m : Memory w := fun _ ↦ 0
  let m' : Memory w := fun x ↦ if x = mark then 1 else 0
  have hmark : gap 0 mark = s.offset + k := gap_add 0 (by omega)
  have hread : t.read m' 0 = t.read m 0 := by
    apply Slot.read_congr ht
    intro x hlo hhi
    have hx : x ≠ mark := by
      rintro rfl
      exact hout (by omega)
    exact if_neg hx
  have hbyte := Slot.eq_of_read_eq ((h m' 0).trans (hread.trans (h m 0).symm)) hk
  have hone : m' mark = 1 := if_pos rfl
  exact absurd (hone.symm.trans hbyte) (by simp [m])

/-- A slot sees another exactly when they stand at the same place and read alike there. -/
theorem sees_iff (hc : c ∈ C.slots) (hC : C.size ≤ 2 ^ w) (hn : n.offset + n.kind.size ≤ 2 ^ w)
    (hcpos : 0 < c.kind.size) (hnpos : 0 < n.kind.size) :
    Sees w C c n ↔ n.offset = c.offset ∧ n.kind.size = c.kind.size ∧
      ∀ bs, bs.length = n.kind.size → n.kind.decode bs = c.kind.decode bs := by
  constructor
  · intro h
    have hfit := C.fits c hc
    have hread := h.read
    have hlo := offset_mem_of_read_eq hread hn (by omega) hnpos
    have hhi := offset_mem_of_read_eq hread hn (by omega)
      (show n.kind.size - 1 < n.kind.size by omega)
    have hlo' := offset_mem_of_read_eq (fun m b ↦ (hread m b).symm) (by omega) hn hcpos
    have hhi' := offset_mem_of_read_eq (fun m b ↦ (hread m b).symm) (by omega) hn
      (show c.kind.size - 1 < c.kind.size by omega)
    have hoff : n.offset = c.offset := by omega
    have hsize : n.kind.size = c.kind.size := by omega
    refine ⟨hoff, hsize, fun bs hlen ↦ ?_⟩
    have hw := h.write (fun _ ↦ 0) 0 bs hlen
    rw [show n.write (fun _ ↦ 0) (0 : BitVec w) bs = c.write (fun _ ↦ 0) 0 bs by
        unfold Slot.write; rw [hoff],
      c.read_write _ _ (by omega) (by omega)] at hw
    exact hw.symm
  · rintro ⟨hoff, hsize, hdec⟩
    exact Sees.of_same_place hc hC hoff hsize hdec

end

end Machine
