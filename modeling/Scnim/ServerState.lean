import Scnim.Records

/-!
# Server-owned state as the plugin sees it

The server stores `World`, `Node`, `Graph` and `Wire` by their C declarations and hands out
pointers; a plugin reads and writes the same bytes through the Nim declarations.
-/

open Machine

namespace Scnim

open FieldName

inductive ServerRecord
  | world | node | graph | wire
  deriving DecidableEq

namespace ServerRecord

def dev : ServerRecord → FieldTy
  | .world => Dev.world
  | .node => Dev.node
  | .graph => Dev.graph
  | .wire => Dev.wire

def nim : ServerRecord → FieldTy
  | .world => Nim.world
  | .node => Nim.node
  | .graph => Nim.graph
  | .wire => Nim.wire

def all : List ServerRecord := [.world, .node, .graph, .wire]

theorem mem_all (r : ServerRecord) : r ∈ all := by cases r <;> decide

end ServerRecord

/-- The fields that come before the first one the Nim files hoisted out of the record. -/
def sharedFields : List (ServerRecord × List FieldName) :=
  [(.node, [mID]), (.node, [mHash]), (.graph, [mNode, mID]), (.graph, [mNode, mHash])]

-- The fields of one name that also stand at one place are the shared ones.
theorem same_place_iff_shared : ∀ r ∈ ServerRecord.all, ∀ c ∈ r.dev.slots, ∀ n ∈ r.nim.slots,
    n.path = c.path →
      ((n.offset = c.offset ∧ n.kind.size = c.kind.size) ↔ (r, c.path) ∈ sharedFields) := by
  decide +kernel

theorem kind_eq_of_shared : ∀ r ∈ ServerRecord.all, ∀ c ∈ r.dev.slots, ∀ n ∈ r.nim.slots,
    n.path = c.path → (r, c.path) ∈ sharedFields → n.kind = c.kind := by
  decide +kernel

theorem dev_small : ∀ r ∈ ServerRecord.all, r.dev.size ≤ 2 ^ 64 ∧
    ∀ c ∈ r.dev.slots, 0 < c.kind.size := by
  decide +kernel

theorem nim_small : ∀ r ∈ ServerRecord.all, r.nim.size ≤ 2 ^ 64 ∧
    ∀ n ∈ r.nim.slots, 0 < n.kind.size := by
  decide +kernel

/-- A field of a server record is what the plugin sees under its name, in reading and in writing,
exactly when it is one of the shared fields. -/
theorem serverField_seen_iff (r : ServerRecord) (c n : Slot FieldName) (hc : c ∈ r.dev.slots)
    (hn : n ∈ r.nim.slots) (hname : n.path = c.path) :
    Sees 64 r.dev c n ↔ (r, c.path) ∈ sharedFields := by
  have hr := r.mem_all
  obtain ⟨hdev, hcpos⟩ := dev_small r hr
  obtain ⟨hnim, hnpos⟩ := nim_small r hr
  have hfit := r.nim.fits n hn
  have hplace := same_place_iff_shared r hr c hc n hn hname
  rw [sees_iff hc hdev (hfit.trans hnim) (hcpos c hc) (hnpos n hn)]
  constructor
  · rintro ⟨hoff, hsize, -⟩
    exact hplace.mp ⟨hoff, hsize⟩
  · intro hshared
    obtain ⟨hoff, hsize⟩ := hplace.mpr hshared
    have hkind := kind_eq_of_shared r hr c hc n hn hname hshared
    exact ⟨hoff, hsize, fun bs _ ↦ by rw [hkind]⟩

theorem serverField_seen_iff_graph_mHash :
    Sees 64 Dev.graph ⟨[mNode, mHash], 4, .sint 4⟩ ⟨[mNode, mHash], 4, .sint 4⟩ :=
  (serverField_seen_iff .graph ⟨[mNode, mHash], 4, .sint 4⟩ ⟨[mNode, mHash], 4, .sint 4⟩
    (by decide +kernel) (by decide +kernel) rfl).mpr (by decide)

-- A `World` at 4096 whose `hw` pointer is 8192 and whose other bytes are 0.
def hwWorld : Memory 64 := storeBits (fun _ ↦ 0) 4096 8192#64

/-- The server stored 0 in `mSampleRate`; the plugin finds the bytes of `hw` there. -/
theorem world_mSampleRate_misread :
    ⟨[mSampleRate], 16, .float 8⟩ ∈ Dev.world.slots ∧
    ⟨[mSampleRate], 0, .float 8⟩ ∈ Nim.world.slots ∧
    Slot.read (⟨[mSampleRate], 16, .float 8⟩ : Slot FieldName) hwWorld 4096 =
      .raw [0, 0, 0, 0, 0, 0, 0, 0] ∧
    Slot.read (⟨[mSampleRate], 0, .float 8⟩ : Slot FieldName) hwWorld 4096 =
      .raw [0, 32, 0, 0, 0, 0, 0, 0] ∧
    ¬ Sees 64 Dev.world ⟨[mSampleRate], 16, .float 8⟩ ⟨[mSampleRate], 0, .float 8⟩ := by
  have hdev : Slot.read (⟨[mSampleRate], 16, .float 8⟩ : Slot FieldName) hwWorld 4096 =
      .raw [0, 0, 0, 0, 0, 0, 0, 0] := by decide +kernel
  have hnim : Slot.read (⟨[mSampleRate], 0, .float 8⟩ : Slot FieldName) hwWorld 4096 =
      .raw [0, 32, 0, 0, 0, 0, 0, 0] := by decide +kernel
  refine ⟨by decide +kernel, by decide +kernel, hdev, hnim, fun h ↦ ?_⟩
  have hread := h.read hwWorld 4096
  rw [hdev, hnim] at hread
  exact absurd hread (by decide)

end Scnim
