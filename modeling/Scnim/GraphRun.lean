import Mathlib.Data.Fintype.Basic
import Mathlib.Data.Fintype.Card
import Mathlib.Order.WellFounded
import Scnim.NextCall

/-!
# Runs of a graph of example units

Units wired by their signal buffers are called block after block on one memory, in any order that
calls a unit after the one feeding it.  A call writes one sample too many, so what a run leaves
behind depends on where that sample lands.
-/

open Machine

namespace Scnim

open FieldName

/-! ## 1. Units in memory -/

/-- What feeds a unit: the output of another unit, or a buffer from outside the graph. -/
inductive Source (U : Type*)
  | unit (v : U)
  | external (a : Addr)

def Source.Covers {U : Type*} (s : Source U) (len : ℕ) (x : Addr) : Prop :=
  match s with
  | .unit _ => False
  | .external a => Within a len x

instance {U : Type*} (s : Source U) (len : ℕ) (x : Addr) : Decidable (s.Covers len x) :=
  match s with
  | .unit _ => inferInstanceAs (Decidable False)
  | .external a => inferInstanceAs (Decidable (Within a len x))

/-- The addresses of a set of units: their records, the cells `mInBuf` and `mOutBuf` point to, and
the signal buffers. -/
structure Wires (U : Type*) where
  numSamples : Int32
  unit : U → Addr
  inBuf : U → Addr
  outBuf : U → Addr
  source : U → Source U
  output : U → Addr

namespace Wires

variable {U : Type*} (w : Wires U)

def len : ℕ := w.numSamples.toInt.toNat * 4

def input (u : U) : Addr :=
  match w.source u with
  | .unit v => w.output v
  | .external a => a

-- base and size of what the unit is called through
def records (u : U) : List (Addr × ℕ) :=
  [(w.unit u, exampleTy.size), (w.inBuf u, 8), (w.outBuf u, 8)]

-- base and size of what it reads and writes
def signals (u : U) : List (Addr × ℕ) :=
  match w.source u with
  | .unit _ => [(w.output u, w.len)]
  | .external a => [(w.output u, w.len), (a, w.len)]

end Wires

/-- A block: what the external buffers hold during it, and the order of its calls. -/
structure Block (U : Type*) where
  ext : Memory 64
  order : List U

/-- The outputs are regions of their own, no external buffer overlaps one, the wiring has no cycle,
and the units' records are not used as signal buffers. -/
structure Wiring (U : Type*) extends Wires U where
  pos : 0 < numSamples.toInt
  acyclic : WellFounded fun v u ↦ source u = .unit v
  outputs_apart : ∀ u v, u ≠ v → Apart (output u) toWires.len (output v) toWires.len
  external_apart : ∀ u a, source u = .external a → ∀ v, Apart a toWires.len (output v) toWires.len
  records_apart : ∀ u v, ∀ r ∈ toWires.records u, ∀ s ∈ toWires.signals v, Apart r.1 r.2 s.1 s.2
  units_apart : ∀ u v, u ≠ v → Apart (unit u) exampleTy.size (unit v) exampleTy.size
  cells_apart : ∀ u v, Apart (inBuf u) 8 (unit v) exampleTy.size ∧
    Apart (outBuf u) 8 (unit v) exampleTy.size

namespace Wiring

variable {U : Type*} (w : Wiring U)

theorem len_le : w.len + 4 ≤ 2 ^ 64 := by
  have hlt := w.numSamples.toInt_lt
  unfold Wires.len
  omega

-- The pointers of the units' records lead to their buffers.
structure Wired (m : Memory 64) : Prop where
  inBuf : ∀ u, loadBits 64 m (unitField (w.unit u) mInBuf) = w.inBuf u
  outBuf : ∀ u, loadBits 64 m (unitField (w.unit u) mOutBuf) = w.outBuf u
  input : ∀ u, loadBits 64 m (w.inBuf u) = w.input u
  output : ∀ u, loadBits 64 m (w.outBuf u) = w.output u

structure Ready (nextPtr : Addr) (m : Memory 64) : Prop extends w.Wired m where
  calcFunc : ∀ u, loadBits 64 m (unitField (w.unit u) mCalcFunc) = nextPtr

def construct (nextPtr : Addr) (us : List U) (m : Memory 64) : Memory 64 :=
  us.foldl (fun m u ↦ ctor nextPtr m (w.unit u)) m

theorem within_unit {f : FieldName} (hf : f ∈ [mInBuf, mOutBuf, mCalcFunc]) (u : U) {x : Addr}
    (hx : Within (unitField (w.unit u) f) 8 x) : Within (w.unit u) exampleTy.size x := by
  have hfit : ∀ f ∈ [mInBuf, mOutBuf, mCalcFunc],
      Nim.unit.offset [f] + 8 ≤ exampleTy.size ∧ exampleTy.size ≤ 2 ^ 64 := by decide +kernel
  have hgap := (within_shift_iff _ x ((hfit f hf).1.trans (hfit f hf).2)).mp hx
  exact lt_of_lt_of_le hgap.2 (hfit f hf).1

-- A store outside the records leaves the units as they are.
theorem Ready.congr {w : Wiring U} {nextPtr : Addr} {m m' : Memory 64}
    (h : w.Ready nextPtr m)
    (hsame : ∀ u, ∀ r ∈ w.records u, ∀ x, Within r.1 r.2 x → m' x = m x) :
    w.Ready nextPtr m' := by
  have hfield : ∀ f ∈ [mInBuf, mOutBuf, mCalcFunc], ∀ u,
      loadBits 64 m' (unitField (w.unit u) f) = loadBits 64 m (unitField (w.unit u) f) := by
    intro f hf u
    apply loadBits_congr (by simp)
    intro x hx
    exact hsame u (w.unit u, exampleTy.size) (by simp [Wires.records]) x (w.within_unit hf u hx)
  have hin : ∀ u, loadBits 64 m' (w.inBuf u) = loadBits 64 m (w.inBuf u) := fun u ↦
    loadBits_congr (by simp) (hsame u (w.inBuf u, 8) (by simp [Wires.records]))
  have hout : ∀ u, loadBits 64 m' (w.outBuf u) = loadBits 64 m (w.outBuf u) := fun u ↦
    loadBits_congr (by simp) (hsame u (w.outBuf u, 8) (by simp [Wires.records]))
  constructor
  · constructor
    · intro u
      rw [hfield mInBuf (by simp), h.inBuf]
    · intro u
      rw [hfield mOutBuf (by simp), h.outBuf]
    · intro u
      rw [hin, h.input]
    · intro u
      rw [hout, h.output]
  · intro u
    rw [hfield mCalcFunc (by simp), h.calcFunc]

/-! ### Construction -/

theorem ctor_outside {nextPtr unit : Addr} {m : Memory 64} {x : Addr}
    (hx : ¬ Within (unitField unit mCalcFunc) 8 x) : ctor nextPtr m unit x = m x :=
  storeBytes_outside _ _ _ (by rwa [leBytes_length])

theorem ctor_calcFunc (nextPtr unit : Addr) (m : Memory 64) :
    loadBits 64 (ctor nextPtr m unit) (unitField unit mCalcFunc) = nextPtr :=
  loadBits_storeBits m _ nextPtr (by simp) (by decide)

-- The constructor of one unit keeps what it does not write of another unit's record.
theorem ctor_record {f : FieldName} (hf : f ∈ [mInBuf, mOutBuf, mCalcFunc]) (nextPtr : Addr)
    (m : Memory 64) {u v : U} (huv : f = mCalcFunc → v ≠ u) :
    loadBits 64 (ctor nextPtr m (w.unit u)) (unitField (w.unit v) f) =
      loadBits 64 m (unitField (w.unit v) f) := by
  apply loadBits_congr (by simp)
  intro x hx
  apply ctor_outside
  intro hcalc
  by_cases hvu : v = u
  · -- another field of the same record
    have hoff : ∀ g ∈ [mInBuf, mOutBuf, mCalcFunc], g ≠ mCalcFunc →
        Nim.unit.offset [g] + 8 ≤ Nim.unit.offset [mCalcFunc] ∧
        Nim.unit.offset [mCalcFunc] + 8 ≤ 2 ^ 64 := by decide +kernel
    obtain ⟨hbelow, hfit⟩ := hoff f hf fun h ↦ huv h hvu
    subst hvu
    have hlow := (within_shift_iff (w.unit v) x (by omega)).mp hx
    have hhigh := (within_shift_iff (w.unit v) x hfit).mp hcalc
    omega
  · exact w.units_apart v u hvu x (w.within_unit hf v hx) (w.within_unit (by simp) u hcalc)

theorem ctor_cell (nextPtr : Addr) (m : Memory 64) {cell : Addr} {u : U}
    (hcell : Apart cell 8 (w.unit u) exampleTy.size) :
    loadBits 64 (ctor nextPtr m (w.unit u)) cell = loadBits 64 m cell := by
  apply loadBits_congr (by simp)
  intro x hx
  apply ctor_outside
  intro hcalc
  exact hcell x hx (w.within_unit (by simp) u hcalc)

theorem Wired.ctor {w : Wiring U} {m : Memory 64} (h : w.Wired m) (nextPtr : Addr) (u : U) :
    w.Wired (ctor nextPtr m (w.unit u)) := by
  constructor
  · intro v
    rw [w.ctor_record (by simp) nextPtr m (by simp), h.inBuf]
  · intro v
    rw [w.ctor_record (by simp) nextPtr m (by simp), h.outBuf]
  · intro v
    rw [w.ctor_cell nextPtr m (w.cells_apart v u).1, h.input]
  · intro v
    rw [w.ctor_cell nextPtr m (w.cells_apart v u).2, h.output]

theorem Wired.construct {w : Wiring U} {m : Memory 64} (h : w.Wired m) (nextPtr : Addr)
    (us : List U) : w.Wired (w.construct nextPtr us m) := by
  induction us generalizing m with
  | nil => exact h
  | cons u us ih => exact ih (h.ctor nextPtr u)

-- Later constructors do not change what an earlier one has set.
theorem construct_calcFunc (nextPtr : Addr) {us : List U} {m : Memory 64} {v : U}
    (hv : v ∈ us ∨ loadBits 64 m (unitField (w.unit v) mCalcFunc) = nextPtr) :
    loadBits 64 (w.construct nextPtr us m) (unitField (w.unit v) mCalcFunc) = nextPtr := by
  induction us generalizing m with
  | nil => exact hv.resolve_left List.not_mem_nil
  | cons u us ih =>
      apply ih
      by_cases hvu : v = u
      · subst hvu
        exact .inr (ctor_calcFunc nextPtr (w.unit v) m)
      · rcases hv with hv | hv
        · exact .inl ((List.mem_cons.mp hv).resolve_left hvu)
        · rw [w.ctor_record (by simp) nextPtr m fun _ ↦ hvu]
          exact .inr hv

theorem construct_ready {m : Memory 64} (h : w.Wired m) (nextPtr : Addr) {us : List U}
    (hall : ∀ u, u ∈ us) : w.Ready nextPtr (w.construct nextPtr us m) :=
  ⟨h.construct nextPtr us, fun u ↦ w.construct_calcFunc nextPtr (.inl (hall u))⟩

/-! ## 2. One call -/

def call (nextPtr : Addr) (m : Memory 64) (u : U) : Option (Memory 64) :=
  (callCalcFunc nextPtr m (w.unit u) w.numSamples).map Mach.mem

/-- The extra sample changes no byte but those of outputs that are still to be computed. -/
def Harmless (m : Memory 64) (u : U) (later : List U) : Prop :=
  ∀ d < 4,
    copied m (w.output u) (w.input u) w.len (w.input u + BitVec.ofNat 64 (w.len + d)) =
        m (w.output u + BitVec.ofNat 64 (w.len + d)) ∨
      ∃ v ∈ later, Within (w.output v) w.len (w.output u + BitVec.ofNat 64 (w.len + d))

instance decidableHarmless (m : Memory 64) (u : U) (later : List U) :
    Decidable (w.Harmless m u later) :=
  inferInstanceAs (Decidable (∀ d < 4, _ ∨ ∃ v ∈ later, _))

theorem input_apart (u : U) (hself : w.source u ≠ .unit u) :
    Apart (w.input u) w.len (w.output u) w.len := by
  unfold Wires.input
  cases hs : w.source u with
  | unit v => exact w.outputs_apart v u fun h ↦ hself (by rw [hs, h])
  | external a => exact w.external_apart u a hs u

theorem source_ne_self (u : U) : w.source u ≠ .unit u := by
  intro hs
  exact w.acyclic.asymmetric u u hs hs

theorem call_eq {nextPtr : Addr} {m : Memory 64} (h : w.Ready nextPtr m) (u : U) :
    w.call nextPtr m u =
      some (overrun m (w.output u) (w.input u) w.numSamples.toInt.toNat) := by
  have hin : inputOf m (w.unit u) = w.input u := by
    unfold inputOf
    rw [h.inBuf, h.input]
  have hout : outputOf m (w.unit u) = w.output u := by
    unfold outputOf
    rw [h.outBuf, h.output]
  have hregions : SameOrApart (inputOf m (w.unit u)) (outputOf m (w.unit u))
      w.numSamples.toInt.toNat := by
    rw [hin, hout]
    exact .inr (w.input_apart u (w.source_ne_self u))
  obtain ⟨s, hs, hmem, -⟩ := next_spec m (w.unit u) w.numSamples (by have := w.pos; omega) hregions
  unfold call callCalcFunc
  rw [if_pos (h.calcFunc u), hs, Option.map_some, hmem, hin, hout]

theorem overrun_other {m : Memory 64} {u : U} {later : List U} (h : w.Harmless m u later)
    {x : Addr} (hown : ¬ Within (w.output u) w.len x)
    (hlater : ∀ v ∈ later, ¬ Within (w.output v) w.len x) :
    overrun m (w.output u) (w.input u) w.numSamples.toInt.toNat x = m x := by
  by_cases hx : Within (w.output u + BitVec.ofNat 64 w.len) 4 x
  · have haddr : x = w.output u +
        BitVec.ofNat 64 (w.len + gap (w.output u + BitVec.ofNat 64 w.len) x) := by
      rw [BitVec.ofNat_add, ← add_assoc, add_gap]
    rw [haddr] at hlater ⊢
    rcases h _ hx with hsame | hhit
    · rw [← hsame]
      exact overrun_behind m _ _ hx
    · obtain ⟨v, hv, hin⟩ := hhit
      exact absurd hin (hlater v hv)
  · rw [overrun_outside m _ _ hx]
    exact copied_outside m _ _ hown

/-! ## 3. One block -/

/-- The external buffer at the end of the chain of units that feeds `u`. -/
inductive Root : U → Addr → Prop
  | external {u : U} {a : Addr} (h : w.source u = .external a) : Root u a
  | unit {u v : U} {a : Addr} (h : w.source u = .unit v) (hv : Root v a) : Root u a

theorem exists_root (u : U) : ∃ a, w.Root u a := by
  induction u using w.acyclic.induction with
  | _ u ih =>
      cases hs : w.source u with
      | external a => exact ⟨a, .external hs⟩
      | unit v =>
          obtain ⟨a, ha⟩ := ih v hs
          exact ⟨a, .unit hs ha⟩

/-- An order of calls that calls every unit once, and after the unit feeding it. -/
structure Admissible (order : List U) : Prop where
  nodup : order.Nodup
  all : ∀ u, u ∈ order
  fed : ∀ called u later v, order = called ++ u :: later → w.source u = .unit v → v ∈ called

theorem mem_of_mem_takeWhile [DecidableEq U] {u v : U} {called later : List U}
    (h : v ∈ (called ++ u :: later).takeWhile (· ≠ u)) : v ∈ called := by
  induction called with
  | nil => simp at h
  | cons x called ih =>
      rw [List.cons_append, List.takeWhile_cons] at h
      split at h
      · rcases List.mem_cons.mp h with rfl | hv
        · exact List.mem_cons_self
        · exact List.mem_cons_of_mem x (ih hv)
      · cases h

theorem admissible_of_takeWhile [DecidableEq U] {w : Wiring U} {order : List U}
    (hnodup : order.Nodup) (hall : ∀ u, u ∈ order)
    (hfed : ∀ u v, w.source u = .unit v → v ∈ order.takeWhile (· ≠ u)) : w.Admissible order :=
  ⟨hnodup, hall, fun _ u _ v horder hs ↦ mem_of_mem_takeWhile (horder ▸ hfed u v hs)⟩

-- An order that may break off before all units have been called.
structure Begun (called : List U) : Prop where
  nodup : called.Nodup
  fed : ∀ before u after v, called = before ++ u :: after → w.source u = .unit v → v ∈ before

-- Of the units left, one that none of the others feeds can be called next.
theorem Begun.longer {w : Wiring U} {called : List U} (h : w.Begun called)
    (hrest : {u | u ∉ called}.Nonempty) : ∃ u, w.Begun (called ++ [u]) := by
  obtain ⟨u, hu, hmin⟩ := w.acyclic.has_min _ hrest
  refine ⟨u, List.nodup_append.mpr ⟨h.nodup, List.nodup_singleton u, fun a ha b hb hab ↦ ?_⟩, ?_⟩
  · rw [List.mem_singleton.mp hb] at hab
    exact hu (hab ▸ ha)
  · intro before x after v hsplit hsource
    rcases List.eq_nil_or_concat' after with rfl | ⟨after', y, rfl⟩
    · obtain ⟨rfl, rfl⟩ := List.append_singleton_inj.mp hsplit
      by_contra hv
      exact hmin v hv hsource
    · rw [← List.cons_append, ← List.append_assoc] at hsplit
      obtain ⟨hcalled, -⟩ := List.append_singleton_inj.mp hsplit
      exact h.fed before x after' v hcalled hsource

/-- The invariant of a block: the units called so far hold their root's samples, and only outputs
have changed since the block started with the memory `start`. -/
structure Called (start : Memory 64) (called : List U) (m : Memory 64) : Prop where
  samples : ∀ u ∈ called, ∀ a, w.Root u a →
    loadBytes m (w.output u) w.len = loadBytes start a w.len
  frame : ∀ x, (∀ u, ¬ Within (w.output u) w.len x) → m x = start x

theorem Called.nil (start : Memory 64) : w.Called start [] start :=
  ⟨fun _ hu ↦ absurd hu (List.not_mem_nil), fun _ _ ↦ rfl⟩

theorem Called.input {w : Wiring U} {start m : Memory 64} {called : List U}
    (h : w.Called start called m) {u : U} (hfed : ∀ v, w.source u = .unit v → v ∈ called)
    {a : Addr} (ha : w.Root u a) :
    loadBytes m (w.input u) w.len = loadBytes start a w.len := by
  have hlen := w.len_le
  unfold Wires.input
  cases ha with
  | external hs =>
      rw [hs]
      apply loadBytes_congr (by omega)
      intro x hx
      exact h.frame x fun v ↦ w.external_apart u a hs v x hx
  | unit hs hv =>
      rw [hs]
      exact h.samples _ (hfed _ hs) a hv

theorem Called.step {w : Wiring U} {start m : Memory 64} {called later : List U}
    (h : w.Called start called m) {u : U} (hnew : u ∉ called)
    (hlater : ∀ v ∈ called, v ∉ later) (hself : u ∉ later)
    (hfed : ∀ v, w.source u = .unit v → v ∈ called) (hharm : w.Harmless m u later) :
    w.Called start (called ++ [u])
      (overrun m (w.output u) (w.input u) w.numSamples.toInt.toNat) := by
  have hlen := w.len_le
  constructor
  · intro v hv a ha
    by_cases hvu : v = u
    · subst hvu
      rw [← h.input hfed ha]
      have hblock := loadBytes_overrun m (w.output v) (w.input v)
        (show 0 + w.len ≤ w.numSamples.toInt.toNat * 4 by unfold Wires.len; omega) hlen
      rwa [show BitVec.ofNat 64 0 = 0 from rfl, add_zero, add_zero] at hblock
    · have hv' : v ∈ called := by simpa [hvu] using hv
      rw [← h.samples v hv' a ha]
      apply loadBytes_congr (by omega)
      intro x hx
      apply w.overrun_other hharm (w.outputs_apart v u hvu x hx)
      intro t ht
      exact w.outputs_apart v t (fun h ↦ hlater v hv' (h ▸ ht)) x hx
  · intro x hx
    rw [w.overrun_other hharm (hx u) fun v _ ↦ hx v, h.frame x hx]

def runCalls (nextPtr : Addr) (m : Memory 64) (order : List U) : Option (Memory 64) :=
  order.foldlM (w.call nextPtr) m

-- No call of the block does harm in the state in which it is made.
def HarmlessCalls (nextPtr : Addr) : Memory 64 → List U → Prop
  | _, [] => True
  | m, u :: later => w.Harmless m u later ∧
      ∀ m' ∈ w.call nextPtr m u, HarmlessCalls nextPtr m' later

instance decidableHarmlessCalls (nextPtr : Addr) :
    ∀ m order, Decidable (w.HarmlessCalls nextPtr m order)
  | _, [] => isTrue trivial
  | m, u :: later =>
      have : DecidablePred fun m' ↦ w.HarmlessCalls nextPtr m' later := fun m' ↦
        decidableHarmlessCalls nextPtr m' later
      @instDecidableAnd _ _ (w.decidableHarmless m u later)
        (Option.decidableForallMem (w.call nextPtr m u))

theorem Ready.called {w : Wiring U} {nextPtr : Addr} {start m : Memory 64} {called : List U}
    (hready : w.Ready nextPtr start) (h : w.Called start called m) : w.Ready nextPtr m := by
  apply hready.congr
  intro u r hr x hx
  apply h.frame
  intro v hv
  have hsignal : (w.output v, w.len) ∈ w.signals v := by
    unfold Wires.signals
    cases w.source v <;> simp
  exact w.records_apart u v r hr _ hsignal x hx hv

-- The calls still to be made extend the invariant to all units.
theorem runCalls_called {nextPtr : Addr} {start m : Memory 64} {called order : List U}
    (hready : w.Ready nextPtr start) (hadm : w.Admissible (called ++ order))
    (h : w.Called start called m) (hharm : w.HarmlessCalls nextPtr m order) :
    ∃ m', w.runCalls nextPtr m order = some m' ∧ w.Called start (called ++ order) m' := by
  induction order generalizing called m with
  | nil => exact ⟨m, rfl, by rwa [List.append_nil]⟩
  | cons u later ih =>
      have hcall := w.call_eq (hready.called h) u
      obtain ⟨hnow, hafter⟩ := hharm
      have hnodup := List.nodup_append.mp hadm.nodup
      have hfirst := List.nodup_cons.mp hnodup.2.1
      have hstep := h.step (fun hu ↦ hnodup.2.2 u hu u (List.mem_cons_self) rfl)
        (fun v hv hl ↦ hnodup.2.2 v hv v (List.mem_cons_of_mem u hl) rfl) hfirst.1
        (fun v hs ↦ hadm.fed called u later v rfl hs) hnow
      rw [List.append_cons] at hadm ⊢
      obtain ⟨m', hrun, hcalled⟩ := ih hadm hstep (hafter _ hcall)
      refine ⟨m', ?_, hcalled⟩
      unfold runCalls
      rw [List.foldlM_cons, hcall]
      exact hrun

/-- A block as it is meant to be: every output holds the samples of its root, nothing outside the
outputs has changed. -/
structure BlockDone (start done : Memory 64) : Prop where
  samples : ∀ u a, w.Root u a → loadBytes done (w.output u) w.len = loadBytes start a w.len
  frame : ∀ x, (∀ u, ¬ Within (w.output u) w.len x) → done x = start x

-- There is only one memory a block can be meant to leave.
theorem BlockDone.unique {w : Wiring U} {start done done' : Memory 64}
    (h : w.BlockDone start done) (h' : w.BlockDone start done') : done = done' := by
  funext x
  by_cases hx : ∃ u, Within (w.output u) w.len x
  · obtain ⟨u, hu⟩ := hx
    obtain ⟨a, ha⟩ := w.exists_root u
    have hsame := loadBytes_eq_iff.mp ((h.samples u a ha).trans (h'.samples u a ha).symm) _ hu
    rwa [add_gap] at hsame
  · have hout : ∀ u, ¬ Within (w.output u) w.len x := fun u hu ↦ hx ⟨u, hu⟩
    rw [h.frame x hout, h'.frame x hout]

theorem runCalls_done {nextPtr : Addr} {start : Memory 64} {order : List U}
    (hready : w.Ready nextPtr start) (hadm : w.Admissible order)
    (hharm : w.HarmlessCalls nextPtr start order) :
    ∃ done, w.runCalls nextPtr start order = some done ∧ w.BlockDone start done ∧
      w.Ready nextPtr done := by
  obtain ⟨done, hrun, hcalled⟩ := w.runCalls_called hready
    (show w.Admissible ([] ++ order) from hadm) (Called.nil w start) hharm
  exact ⟨done, hrun, ⟨fun u ↦ hcalled.samples u (hadm.all u), hcalled.frame⟩,
    hready.called hcalled⟩

/-! ## 4. Whole runs -/

def External (x : Addr) : Prop := ∃ u, (w.source u).Covers w.len x

variable [Fintype U]

instance decidableExternal (x : Addr) : Decidable (w.External x) :=
  inferInstanceAs (Decidable (∃ u, (w.source u).Covers w.len x))

-- The memory once the external buffers have their contents for the next block.
def feed (ext m : Memory 64) : Memory 64 := fun x ↦ if w.External x then ext x else m x

-- The memories at the start and at the end of each block.
def runBlocks (nextPtr : Addr) : Memory 64 → List (Block U) →
    Option (List (Memory 64 × Memory 64))
  | _, [] => some []
  | m, b :: blocks => do
      let start := w.feed b.ext m
      let done ← w.runCalls nextPtr start b.order
      let rest ← runBlocks nextPtr done blocks
      return (start, done) :: rest

-- No call of the run does harm in the state in which it is made.
def HarmlessRun (nextPtr : Addr) : Memory 64 → List (Block U) → Prop
  | _, [] => True
  | m, b :: blocks => w.HarmlessCalls nextPtr (w.feed b.ext m) b.order ∧
      ∀ done ∈ w.runCalls nextPtr (w.feed b.ext m) b.order, HarmlessRun nextPtr done blocks

instance decidableHarmlessRun (nextPtr : Addr) :
    ∀ m blocks, Decidable (w.HarmlessRun nextPtr m blocks)
  | _, [] => isTrue trivial
  | m, b :: blocks =>
      have : DecidablePred fun done ↦ w.HarmlessRun nextPtr done blocks := fun done ↦
        decidableHarmlessRun nextPtr done blocks
      @instDecidableAnd _ _ (w.decidableHarmlessCalls nextPtr (w.feed b.ext m) b.order)
        (Option.decidableForallMem (w.runCalls nextPtr (w.feed b.ext m) b.order))

theorem Ready.feed {w : Wiring U} {nextPtr : Addr} {m : Memory 64} (h : w.Ready nextPtr m)
    (ext : Memory 64) : w.Ready nextPtr (w.feed ext m) := by
  apply h.congr
  intro u r hr x hx
  unfold Wiring.feed
  rw [if_neg]
  intro hext
  obtain ⟨v, hv⟩ := hext
  have hapart := w.records_apart u v r hr
  unfold Wires.signals at hapart
  cases hs : w.source v with
  | unit t => rw [hs] at hv; exact hv
  | external a =>
      rw [hs] at hv hapart
      exact hapart (a, w.len) (by simp) x hx hv

/-- A run of harmless calls does in each block what it is meant to do, and another run on the same
external contents leaves the same memories. -/
theorem runBlocks_done {nextPtr : Addr} {m : Memory 64} (hready : w.Ready nextPtr m)
    {blocks : List (Block U)} (hadm : ∀ b ∈ blocks, w.Admissible b.order)
    (hharm : w.HarmlessRun nextPtr m blocks) :
    ∃ trace, w.runBlocks nextPtr m blocks = some trace ∧ trace.length = blocks.length ∧
      (∀ p ∈ trace, w.BlockDone p.1 p.2) ∧
      ∀ others : List (Block U), others.map Block.ext = blocks.map Block.ext →
        (∀ b ∈ others, w.Admissible b.order) → w.HarmlessRun nextPtr m others →
        w.runBlocks nextPtr m others = some trace := by
  induction blocks generalizing m with
  | nil =>
      refine ⟨[], rfl, rfl, fun p hp ↦ absurd hp (List.not_mem_nil), ?_⟩
      intro others hext _ _
      rw [List.map_nil, List.map_eq_nil_iff] at hext
      rw [hext]
      rfl
  | cons b blocks ih =>
      obtain ⟨hcalls, hrest⟩ := hharm
      obtain ⟨done, hrun, hdone, hready'⟩ := w.runCalls_done (hready.feed b.ext)
        (hadm b (List.mem_cons_self)) hcalls
      obtain ⟨trace, htrace, hlength, hall, hothers⟩ := ih hready'
        (fun c hc ↦ hadm c (List.mem_cons_of_mem b hc)) (hrest done hrun)
      refine ⟨(w.feed b.ext m, done) :: trace, ?_, by simp [hlength], ?_, ?_⟩
      · unfold runBlocks
        simp [hrun, htrace]
      · intro p hp
        rcases List.mem_cons.mp hp with rfl | hp
        · exact hdone
        · exact hall p hp
      · intro others hext hadm' hharm'
        cases others with
        | nil => simp at hext
        | cons c others =>
            rw [List.map_cons, List.map_cons, List.cons.injEq] at hext
            obtain ⟨hcalls', hrest'⟩ := hharm'
            obtain ⟨done', hrun', hdone', -⟩ := w.runCalls_done (hready.feed c.ext)
              (hadm' c (List.mem_cons_self)) hcalls'
            have hsame : done' = done := by
              rw [hext.1] at hdone'
              exact hdone'.unique hdone
            have htail := hothers others hext.2
              (fun d hd ↦ hadm' d (List.mem_cons_of_mem c hd)) (hsame ▸ hrest' done' hrun')
            unfold runBlocks
            rw [hext.1] at hrun'
            simp [hext.1, hrun', hsame, htail]

theorem exists_admissible : ∃ order, w.Admissible order := by
  suffices h : ∀ n (called : List U), w.Begun called → Fintype.card U ≤ called.length + n →
      ∃ order, w.Admissible order from
    h (Fintype.card U) [] ⟨List.nodup_nil, fun before u after v h ↦ absurd h.symm (by simp)⟩
      (by omega)
  intro n
  induction n with
  | zero =>
      intro called hbegun hleft
      refine ⟨called, hbegun.nodup, fun u ↦ ?_, hbegun.fed⟩
      by_contra hu
      have hlen := (List.nodup_cons.mpr ⟨hu, hbegun.nodup⟩).length_le_card
      rw [List.length_cons] at hlen
      omega
  | succ n ih =>
      intro called hbegun hleft
      by_cases hrest : {u | u ∉ called}.Nonempty
      · obtain ⟨u, hlonger⟩ := hbegun.longer hrest
        apply ih _ hlonger
        rw [List.length_append, List.length_singleton]
        omega
      · refine ⟨called, hbegun.nodup, fun u ↦ ?_, hbegun.fed⟩
        by_contra hu
        exact hrest ⟨u, hu⟩

/-- Where every admissible order is harmless, all of them leave the same memories. -/
theorem runBlocks_any_order {nextPtr : Addr} {m : Memory 64} (hready : w.Ready nextPtr m)
    {exts : List (Memory 64)}
    (hharm : ∀ blocks : List (Block U), blocks.map Block.ext = exts →
      (∀ b ∈ blocks, w.Admissible b.order) → w.HarmlessRun nextPtr m blocks) :
    ∃ trace, trace.length = exts.length ∧ (∀ p ∈ trace, w.BlockDone p.1 p.2) ∧
      ∀ blocks : List (Block U), blocks.map Block.ext = exts →
        (∀ b ∈ blocks, w.Admissible b.order) → w.runBlocks nextPtr m blocks = some trace := by
  obtain ⟨order, horder⟩ := w.exists_admissible
  have hext : (exts.map fun ext ↦ Block.mk ext order).map Block.ext = exts := by
    rw [List.map_map]
    exact List.map_id exts
  have hadm : ∀ b ∈ exts.map fun ext ↦ Block.mk ext order, w.Admissible b.order := by
    intro b hb
    obtain ⟨ext, -, rfl⟩ := List.mem_map.mp hb
    exact horder
  obtain ⟨trace, -, hlength, hdone, hothers⟩ :=
    w.runBlocks_done hready hadm (hharm _ hext hadm)
  refine ⟨trace, by rw [hlength, List.length_map], hdone, fun blocks hblocks hadm' ↦ ?_⟩
  exact hothers blocks (hblocks.trans hext.symm) hadm' (hharm blocks hblocks hadm')

/-- From the constructors on, whatever the records and buffers hold at first: in every run of
harmless calls every output holds its root's samples at the end of each block, nothing outside the
outputs changes in a block, and the order of the calls makes no difference. -/
theorem graphRun_harmless (nextPtr : Addr) {m : Memory 64} (hwired : w.Wired m) {us : List U}
    (hus : ∀ u, u ∈ us) {blocks : List (Block U)} (hadm : ∀ b ∈ blocks, w.Admissible b.order)
    (hharm : w.HarmlessRun nextPtr (w.construct nextPtr us m) blocks) :
    (∀ u, ∃ a, w.Root u a) ∧
    ∃ trace, w.runBlocks nextPtr (w.construct nextPtr us m) blocks = some trace ∧
      trace.length = blocks.length ∧ (∀ p ∈ trace, w.BlockDone p.1 p.2) ∧
      ∀ others : List (Block U), others.map Block.ext = blocks.map Block.ext →
        (∀ b ∈ others, w.Admissible b.order) →
        w.HarmlessRun nextPtr (w.construct nextPtr us m) others →
        w.runBlocks nextPtr (w.construct nextPtr us m) others = some trace :=
  ⟨w.exists_root, w.runBlocks_done (w.construct_ready hwired nextPtr hus) hadm hharm⟩

/-! ## 5. Units at given addresses -/

section Spaced

variable (w : Wires U)

-- The second window starts at or above the end of the first and ends below its base.
def Clear (r s : Addr × ℕ) : Prop := r.2 ≤ gap r.1 s.1 ∧ gap r.1 s.1 + s.2 ≤ 2 ^ 64

instance (r s : Addr × ℕ) : Decidable (Clear r s) := inferInstanceAs (Decidable (_ ∧ _))

theorem Clear.apart {r s : Addr × ℕ} (h : Clear r s) : Apart r.1 r.2 s.1 s.2 :=
  apart_of_gap h.1 h.2

/-- The pairs of windows that a wiring keeps apart, by their distances. -/
def Spaced : Prop :=
  (∀ u v, u ≠ v → Clear (w.output u, w.len) (w.output v, w.len)) ∧
  (∀ u v, ∀ s ∈ (w.signals u).tail, Clear s (w.output v, w.len)) ∧
  (∀ u v, ∀ r ∈ w.records u, ∀ s ∈ w.signals v, Clear r s) ∧
  (∀ u v, u ≠ v → Clear (w.unit u, exampleTy.size) (w.unit v, exampleTy.size)) ∧
  (∀ u v, ∀ r ∈ (w.records u).tail, Clear r (w.unit v, exampleTy.size))

instance [DecidableEq U] : Decidable (Spaced w) := inferInstanceAs (Decidable (_ ∧ _))

def ofSpaced (hpos : 0 < w.numSamples.toInt)
    (hacyclic : WellFounded fun v u ↦ w.source u = .unit v) (h : Spaced w) : Wiring U where
  toWires := w
  pos := hpos
  acyclic := hacyclic
  outputs_apart u v huv := (h.1 u v huv).apart
  external_apart u a hu v :=
    (h.2.1 u v (a, w.len) (by simp [Wires.signals, hu])).apart
  records_apart u v r hr s hs := (h.2.2.1 u v r hr s hs).apart
  units_apart u v huv := (h.2.2.2.1 u v huv).apart
  cells_apart u v :=
    ⟨(h.2.2.2.2 u v (w.inBuf u, 8) (by simp [Wires.records])).apart,
      (h.2.2.2.2 u v (w.outBuf u, 8) (by simp [Wires.records])).apart⟩

end Spaced

/-! ## 6. Two units side by side -/

-- Two units with a buffer from outside each; the output of the second follows that of the first.
def twoWires : Wires Bool where
  numSamples := 1
  unit u := bif u then 0x1100 else 0x1000
  inBuf u := bif u then 0x1300 else 0x1200
  outBuf u := bif u then 0x1500 else 0x1400
  source u := .external (bif u then 0x1800 else 0x1700)
  output u := bif u then 0x1604 else 0x1600

def twoUnits : Wiring Bool :=
  ofSpaced twoWires (by decide) ⟨fun u ↦ ⟨u, fun v hv ↦ absurd hv (by simp [twoWires])⟩⟩
    (by decide +kernel)

-- The first samples are 1 and 2, and 7 lies behind the first unit's input.
def twoUnitsMem : Memory 64 :=
  let m := storeBytes (fun _ ↦ 0) 0x1048 (wordBytes [0x1200#64, 0x1400#64])
  let m := storeBytes m 0x1148 (wordBytes [0x1300#64, 0x1500#64])
  let m := storeBits (storeBits m 0x1200 0x1700#64) 0x1300 0x1800#64
  let m := storeBits (storeBits m 0x1400 0x1600#64) 0x1500 0x1604#64
  storeBits (storeBytes m 0x1700 (wordBytes [1#32, 7#32])) 0x1800 2#32

theorem twoUnits_wired : twoUnits.Wired twoUnitsMem :=
  ⟨by decide +kernel, by decide +kernel, by decide +kernel, by decide +kernel⟩

theorem twoUnits_admissible {order : List Bool} (hnodup : order.Nodup) (hall : ∀ u, u ∈ order) :
    twoUnits.Admissible order :=
  ⟨hnodup, hall, fun _ u _ v _ hv ↦ absurd hv (by simp [twoUnits, ofSpaced, twoWires])⟩

/-- Calling the first unit last overwrites the sample of the second with the extra one. -/
theorem graphRun_misses : ¬ ∀ (w : Wiring Bool) (nextPtr : Addr) (m : Memory 64) (us : List Bool)
    (blocks : List (Block Bool)), w.Wired m → (∀ u, u ∈ us) →
    (∀ b ∈ blocks, w.Admissible b.order) →
    ∃ trace, w.runBlocks nextPtr (w.construct nextPtr us m) blocks = some trace ∧
      ∀ p ∈ trace, w.BlockDone p.1 p.2 := by
  intro hall
  obtain ⟨trace, hrun, hdone⟩ := hall twoUnits 0x2000 twoUnitsMem [false, true]
    [⟨twoUnitsMem, [true, false]⟩] twoUnits_wired (by decide)
    (fun b hb ↦ by
      rw [List.mem_singleton.mp hb]
      exact twoUnits_admissible (by decide) (by decide))
  have hbad : ∃ p, p ∈ trace ∧ loadBytes p.2 0x1604 4 ≠ loadBytes p.1 0x1800 4 := by
    have heval : (twoUnits.runBlocks 0x2000 (twoUnits.construct 0x2000 [false, true] twoUnitsMem)
        [⟨twoUnitsMem, [true, false]⟩]).map (fun t ↦ t.any fun p ↦
          loadBytes p.2 0x1604 4 != loadBytes p.1 0x1800 4) = some true := by decide +kernel
    rw [hrun, Option.map_some, Option.some.injEq, List.any_eq_true] at heval
    obtain ⟨p, hp, hne⟩ := heval
    exact ⟨p, hp, by simpa using hne⟩
  obtain ⟨p, hp, hne⟩ := hbad
  exact hne ((hdone p hp).samples true 0x1800 (.external rfl))

/-! ## 7. A chain of two units and a third one -/

-- The first unit feeds the second.  Its output follows that of the third, as its input does.
def threeWires : Wires (Fin 3) where
  numSamples := 2
  unit u := BitVec.ofNat 64 (0x1000 + 0x100 * u)
  inBuf u := BitVec.ofNat 64 (0x2000 + 8 * u)
  outBuf u := BitVec.ofNat 64 (0x2100 + 8 * u)
  source u :=
    match u with
    | 0 => .external 0x3008
    | 1 => .unit 0
    | 2 => .external 0x3000
  output u :=
    match u with
    | 0 => 0x4008
    | 1 => 0x4100
    | 2 => 0x4000

theorem threeWires_source {u v : Fin 3} (h : threeWires.source u = .unit v) : u = 1 ∧ v = 0 := by
  match u with
  | 0 => cases h
  | 1 => cases h; exact ⟨rfl, rfl⟩
  | 2 => cases h

def threeUnits : Wiring (Fin 3) :=
  ofSpaced threeWires (by decide)
    (Subrelation.wf (r := (· < ·))
      (fun {v u} h ↦ by obtain ⟨rfl, rfl⟩ := threeWires_source h; decide) wellFounded_lt)
    (by decide +kernel)

def threeUnitsMem : Memory 64 :=
  let m := storeBytes (fun _ ↦ 0) 0x1048 (wordBytes [0x2000#64, 0x2100#64])
  let m := storeBytes m 0x1148 (wordBytes [0x2008#64, 0x2108#64])
  let m := storeBytes m 0x1248 (wordBytes [0x2010#64, 0x2110#64])
  let m := storeBytes m 0x2000 (wordBytes [0x3008#64, 0x4008#64, 0x3000#64])
  storeBytes m 0x2100 (wordBytes [0x4008#64, 0x4100#64, 0x4000#64])

theorem threeUnits_wired : threeUnits.Wired threeUnitsMem :=
  ⟨by decide +kernel, by decide +kernel, by decide +kernel, by decide +kernel⟩

theorem threeUnits_admissible {blocks : List (Block (Fin 3))}
    (h : ∀ order ∈ blocks.map Block.order,
      order.Nodup ∧ (∀ u, u ∈ order) ∧ 0 ∈ order.takeWhile (· ≠ 1)) :
    ∀ b ∈ blocks, threeUnits.Admissible b.order := by
  intro b hb
  obtain ⟨hnodup, hall, hfed⟩ := h b.order (List.mem_map_of_mem hb)
  refine admissible_of_takeWhile hnodup hall fun u v hs ↦ ?_
  obtain ⟨rfl, rfl⟩ := threeWires_source hs
  exact hfed

-- two samples for the third unit and two for the first
def threeBlock (samples : List (BitVec 32)) (order : List (Fin 3)) : Block (Fin 3) :=
  ⟨storeBytes (fun _ ↦ 0) 0x3000 (wordBytes samples), order⟩

-- Two blocks, with other samples in the second one, in two orders each.
theorem graphRun_harmless_threeUnits :
    ∃ trace, threeUnits.runBlocks 0x5000 (threeUnits.construct 0x5000 [0, 1, 2] threeUnitsMem)
        [threeBlock [1, 2, 3, 4] [0, 1, 2], threeBlock [5, 6, 7, 8] [0, 1, 2]] = some trace ∧
      threeUnits.runBlocks 0x5000 (threeUnits.construct 0x5000 [0, 1, 2] threeUnitsMem)
        [threeBlock [1, 2, 3, 4] [2, 0, 1], threeBlock [5, 6, 7, 8] [0, 2, 1]] = some trace ∧
      trace.length = 2 ∧ ∀ p ∈ trace, threeUnits.BlockDone p.1 p.2 := by
  have hadm : ∀ b ∈ [threeBlock [1, 2, 3, 4] [0, 1, 2], threeBlock [5, 6, 7, 8] [0, 1, 2]],
      threeUnits.Admissible b.order := threeUnits_admissible (by decide)
  obtain ⟨-, trace, hrun, hlength, hdone, hothers⟩ := threeUnits.graphRun_harmless 0x5000
    threeUnits_wired (show ∀ u, u ∈ [0, 1, 2] by decide) hadm (by decide +kernel)
  exact ⟨trace, hrun, hothers _ rfl (threeUnits_admissible (by decide)) (by decide +kernel),
    hlength, hdone⟩

theorem threeUnits_orders {order : List (Fin 3)} (h : threeUnits.Admissible order) :
    order ∈ [[0, 1, 2], [0, 2, 1], [2, 0, 1]] := by
  have hlength : order.length = 3 :=
    ((List.perm_ext_iff_of_nodup h.nodup (by decide : [(0 : Fin 3), 1, 2].Nodup)).mpr
      fun u ↦ iff_of_true (h.all u) (by revert u; decide)).length_eq
  obtain ⟨a, b, c, rfl⟩ := List.length_eq_three.mp hlength
  have hfirst : a ≠ 1 := by
    rintro rfl
    exact List.not_mem_nil (h.fed [] 1 [b, c] 0 rfl rfl)
  have hsecond : b = 1 → 0 ∈ [a] := by
    rintro rfl
    exact h.fed [a] 1 [c] 0 rfl rfl
  have hall : ∀ a b c : Fin 3, [a, b, c].Nodup → a ≠ 1 → (b = 1 → 0 ∈ [a]) →
      [a, b, c] ∈ [[0, 1, 2], [0, 2, 1], [2, 0, 1]] := by decide
  exact hall a b c h.nodup hfirst hsecond

-- Here each of the nine pairs of orders is harmless.
theorem runBlocks_any_order_threeUnits : ∃ trace, trace.length = 2 ∧
    (∀ p ∈ trace, threeUnits.BlockDone p.1 p.2) ∧
    ∀ first second, threeUnits.Admissible first → threeUnits.Admissible second →
      threeUnits.runBlocks 0x5000 (threeUnits.construct 0x5000 [0, 1, 2] threeUnitsMem)
        [threeBlock [1, 2, 3, 4] first, threeBlock [5, 6, 7, 8] second] = some trace := by
  have hready := threeUnits.construct_ready threeUnits_wired 0x5000
    (show ∀ u, u ∈ [0, 1, 2] by decide)
  have horders : ∀ first ∈ [[0, 1, 2], [0, 2, 1], [2, 0, 1]],
      ∀ second ∈ [[0, 1, 2], [0, 2, 1], [2, 0, 1]],
      threeUnits.HarmlessRun 0x5000 (threeUnits.construct 0x5000 [0, 1, 2] threeUnitsMem)
        [threeBlock [1, 2, 3, 4] first, threeBlock [5, 6, 7, 8] second] := by decide +kernel
  have hharm : ∀ blocks : List (Block (Fin 3)), blocks.map Block.ext =
      [(threeBlock [1, 2, 3, 4] []).ext, (threeBlock [5, 6, 7, 8] []).ext] →
      (∀ b ∈ blocks, threeUnits.Admissible b.order) →
      threeUnits.HarmlessRun 0x5000 (threeUnits.construct 0x5000 [0, 1, 2] threeUnitsMem)
        blocks := by
    intro blocks hexts hadm
    obtain ⟨⟨_, first⟩, ⟨_, second⟩, rfl⟩ :=
      List.length_eq_two.mp ((List.length_map _).symm.trans (congrArg List.length hexts))
    rw [List.map_cons, List.map_cons, List.cons.injEq, List.cons.injEq] at hexts
    obtain ⟨rfl, rfl, -⟩ := hexts
    have hfirst := hadm _ List.mem_cons_self
    have hsecond := hadm _ (List.mem_cons_of_mem _ List.mem_cons_self)
    exact horders first (threeUnits_orders hfirst) second (threeUnits_orders hsecond)
  obtain ⟨trace, hlength, hdone, hrun⟩ := threeUnits.runBlocks_any_order hready hharm
  refine ⟨trace, hlength, hdone, fun first second hfirst hsecond ↦ hrun _ rfl ?_⟩
  intro b hb
  rcases List.mem_cons.mp hb with rfl | hb
  · exact hfirst
  · rw [List.mem_singleton.mp hb]
    exact hsecond

end Wiring

end Scnim
