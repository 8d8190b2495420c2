import Scnim.ExampleUGens

/-!
# Unit types and the interface table

The records of which the Nim declaration follows the C one field for field, and the unit types that
plugins derive from `Unit`.
-/

open Machine

namespace Scnim

open FieldName

/-! ## 1. Records declared alike -/

/-- Field by field, in declaration order, each side sees what the other stored and writes that field
alone. -/
structure SameRecord (N C : FieldTy) : Prop where
  length : N.slots.length = C.slots.length
  sees : ∀ i (hn : i < N.slots.length) (hc : i < C.slots.length),
    Sees 64 C C.slots[i] N.slots[i] ∧ Sees 64 N N.slots[i] C.slots[i]

theorem sameRecord_of_slots_eq {N C : FieldTy} (h : N.slots = C.slots) (hN : N.size ≤ 2 ^ 64)
    (hC : C.size ≤ 2 ^ 64) : SameRecord N C := by
  refine ⟨by rw [h], fun i hn hc ↦ ?_⟩
  have hi : N.slots[i] = C.slots[i] := by simp only [h]
  exact ⟨Sees.of_same_place (List.getElem_mem hc) hC (by rw [hi]) (by rw [hi])
      (fun bs _ ↦ by rw [hi]),
    Sees.of_same_place (List.getElem_mem hn) hN (by rw [hi]) (by rw [hi])
      (fun bs _ ↦ by rw [hi])⟩

theorem unit_same : SameRecord Nim.unit Dev.unit :=
  sameRecord_of_slots_eq (by decide +kernel) (by decide +kernel) (by decide +kernel)

theorem interfaceTable_same : SameRecord Nim.interfaceTable Dev.interfaceTable :=
  sameRecord_of_slots_eq (by decide +kernel) (by decide +kernel) (by decide +kernel)

theorem sndBuf_same : SameRecord Nim.sndBuf Dev.sndBuf :=
  sameRecord_of_slots_eq (by decide +kernel) (by decide +kernel) (by decide +kernel)

theorem rate_same : SameRecord Nim.rate Dev.rate :=
  sameRecord_of_slots_eq (by decide +kernel) (by decide +kernel) (by decide +kernel)

/-! ## 2. Derived unit types -/

theorem dvd_alignUp (x a : ℕ) : a ∣ alignUp x a := Nat.dvd_mul_left a _

theorem place_added_cons (cur : ℕ) (f : AddedField) (fields : List AddedField) :
    Ty.place cur ((f :: fields).map fun f ↦ (added f.name, f.ty)) =
      ⟨[added f.name], alignUp cur f.align, .blob f.size f.align⟩ ::
        Ty.place (alignUp cur f.align + f.size) (fields.map fun f ↦ (added f.name, f.ty)) := rfl

-- Each added field has its own slot, of its size and at a multiple of its alignment.
theorem place_added_getElem? (cur : ℕ) (fields : List AddedField) {j : ℕ}
    (hj : j < fields.length) :
    ∃ off, (Ty.place cur (fields.map fun f ↦ (added f.name, f.ty)))[j]? =
        some ⟨[added fields[j].name], off, .blob fields[j].size fields[j].align⟩ ∧
      fields[j].align ∣ off := by
  induction fields generalizing cur j with
  | nil => simp at hj
  | cons f fields ih =>
      rw [place_added_cons]
      cases j with
      | zero => exact ⟨alignUp cur f.align, rfl, dvd_alignUp _ _⟩
      | succ j => exact ih _ (by simpa using hj)

theorem place_added_length (cur : ℕ) (fields : List AddedField) :
    (Ty.place cur (fields.map fun f ↦ (added f.name, f.ty))).length = fields.length := by
  induction fields generalizing cur with
  | nil => rfl
  | cons f fields ih => rw [place_added_cons, List.length_cons, ih, List.length_cons]

/-- A unit type as the server relies on it: the `Unit` the server knows comes first, the added
fields follow one another inside the size that is allocated.  Where a record of that size exists at
all, a write to one field of it leaves the others alone. -/
structure UnitType (fields : List AddedField) : Prop where
  length : (objectOfUnit fields).slots.length = Dev.unit.slots.length + fields.length
  unitPart : ∀ i (hi : i < Dev.unit.slots.length) (ht : i < (objectOfUnit fields).slots.length),
    Sees 64 Dev.unit Dev.unit.slots[i] (objectOfUnit fields).slots[i] ∧
      ((objectOfUnit fields).size ≤ 2 ^ 64 →
        Sees 64 (objectOfUnit fields) (objectOfUnit fields).slots[i] Dev.unit.slots[i])
  addedPart : ∀ j (hj : j < fields.length),
    ∃ off, (objectOfUnit fields).slots[Dev.unit.slots.length + j]? =
        some ⟨[added fields[j].name], off, .blob fields[j].size fields[j].align⟩ ∧
      fields[j].align ∣ off
  addedAlone : (objectOfUnit fields).size ≤ 2 ^ 64 → ∀ j (_ : j < fields.length)
      (ht : Dev.unit.slots.length + j < (objectOfUnit fields).slots.length),
    Sees 64 (objectOfUnit fields) (objectOfUnit fields).slots[Dev.unit.slots.length + j]
      (objectOfUnit fields).slots[Dev.unit.slots.length + j]
  apart : (objectOfUnit fields).slots.Pairwise Slot.Before
  inside : ∀ s ∈ (objectOfUnit fields).slots, s.offset + s.kind.size ≤ (objectOfUnit fields).size

theorem objectOfUnit_slots (fields : List AddedField) : (objectOfUnit fields).slots =
    Dev.unit.slots ++ Ty.place Nim.unit.size (fields.map fun f ↦ (added f.name, f.ty)) := by
  have hslots : Nim.unit.slots = Dev.unit.slots := by decide +kernel
  rw [← hslots]
  rfl

theorem unitType (fields : List AddedField) : UnitType fields := by
  have hslots := objectOfUnit_slots fields
  refine ⟨?_, fun i hi ht ↦ ?_, fun j hj ↦ ?_, fun hsize j _ ht ↦ ?_,
    (objectOfUnit fields).ordered, (objectOfUnit fields).fits⟩
  · rw [hslots, List.length_append, place_added_length]
  · have he : (objectOfUnit fields).slots[i] = Dev.unit.slots[i] := by
      simp only [hslots, List.getElem_append_left hi]
    exact ⟨Sees.of_same_place (List.getElem_mem hi) (by decide +kernel) (by rw [he])
        (by rw [he]) (fun bs _ ↦ by rw [he]),
      fun hsize ↦ Sees.of_same_place (List.getElem_mem ht) hsize (by rw [he]) (by rw [he])
        (fun bs _ ↦ by rw [he])⟩
  · rw [hslots, List.getElem?_append_right (Nat.le_add_right _ _), Nat.add_sub_cancel_left]
    exact place_added_getElem? _ fields hj
  · exact Sees.of_same_place (List.getElem_mem ht) hsize rfl rfl (fun _ _ ↦ rfl)

/-! ## 3. Load -/

theorem load_callee (className : String) (unitTy : FieldTy) (ctorPtr : Addr) (m : Memory 64)
    (inTable : Addr) : (load className unitTy ctorPtr m inTable).2.callee =
      loadBits 64 m (inTable + BitVec.ofNat 64 (Dev.interfaceTable.offset [fDefineUnit])) := by
  have hoff : Nim.interfaceTable.offset [fDefineUnit] =
      Dev.interfaceTable.offset [fDefineUnit] := by decide +kernel
  unfold load
  rw [hoff]

/-- Units, the interface table and the records they point to mean the same on both sides, for every
plugin, and the fields it adds lie in the memory that `load` asks for. -/
theorem plugin_agrees (className : String) (fields : List AddedField) (ctorPtr : Addr)
    (m : Memory 64) (inTable : Addr) :
    SameRecord Nim.unit Dev.unit ∧ SameRecord Nim.interfaceTable Dev.interfaceTable ∧
    SameRecord Nim.sndBuf Dev.sndBuf ∧ SameRecord Nim.rate Dev.rate ∧ UnitType fields ∧
    (load className (objectOfUnit fields) ctorPtr m inTable).2.callee =
      loadBits 64 m (inTable + BitVec.ofNat 64 (Dev.interfaceTable.offset [fDefineUnit])) ∧
    (load className (objectOfUnit fields) ctorPtr m inTable).2.inAllocSize =
      (objectOfUnit fields).size :=
  ⟨unit_same, interfaceTable_same, sndBuf_same, rate_same, unitType fields,
    load_callee _ _ _ _ _, rfl⟩

-- a counter, a flag, an aligned vector and a pointer after the 104 bytes of `Unit`
example : (objectOfUnit [⟨"phase", 4, 4, by decide⟩, ⟨"flag", 1, 1, by decide⟩,
    ⟨"state", 16, 16, by decide⟩, ⟨"table", 8, 8, by decide⟩]).size = 144 := by decide +kernel

end Scnim
