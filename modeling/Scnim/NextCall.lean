import Scnim.ExampleUGens

/-!
# One call of `next`

The loop bound is inclusive: a call copies the block and then one sample more.
-/

open Machine

namespace Scnim

open FieldName

/-! ## 1. The loop -/

-- The memory and the log after the first `k` passes.
def copySamples (output input : Addr) (s : Mach) : ℕ → Mach
  | 0 => s
  | k + 1 =>
      let t := copySamples output input s k
      ⟨storeBytes t.mem (output + BitVec.ofNat 64 (k * 4))
          (loadBytes t.mem (input + BitVec.ofNat 64 (k * 4)) 4),
        t.log ++ [.read input k, .write output k]⟩

theorem copySample_eq (output input : Addr) (s : Mach) {k : ℕ} (hk : k < 2 ^ 32) :
    copySample output input s k =
      some ⟨storeBytes s.mem (output + BitVec.ofNat 64 (k * 4))
          (loadBytes s.mem (input + BitVec.ofNat 64 (k * 4)) 4),
        s.log ++ [.read input k, .write output k]⟩ := by
  have hfit : k * 4 < 2 ^ 63 := by omega
  unfold copySample Ptr.index Ptr.indexAssign
  rw [Ptr.plus_ofNat input hfit, Ptr.plus_ofNat output hfit]
  rfl

theorem copySamples_succ (output input : Addr) (s : Mach) {k : ℕ} (hk : k < 2 ^ 32) :
    copySample output input (copySamples output input s k) k =
      some (copySamples output input s (k + 1)) := copySample_eq output input _ hk

theorem foldlM_copySample (output input : Addr) (s : Mach) {k : ℕ} (hk : k ≤ 2 ^ 32) :
    ((List.range k).map fun j : ℕ ↦ (0 : ℤ) + (j : ℤ)).foldlM (copySample output input) s =
      some (copySamples output input s k) := by
  induction k with
  | zero => rfl
  | succ k ih =>
      have hpass := copySamples_succ output input s (Nat.lt_of_succ_le hk)
      rw [List.range_succ, List.map_append, List.foldlM_append, ih (Nat.le_of_succ_le hk),
        List.map_singleton, zero_add]
      rw [Option.bind_eq_bind, Option.bind_some, List.foldlM_cons, hpass]
      rw [Option.bind_eq_bind, Option.bind_some, List.foldlM_nil, Option.pure_def]

-- `next` makes one pass more than there are samples.
theorem next_eq (m : Memory 64) (unit : Addr) (numSamples : Int32)
    (hn : 0 ≤ numSamples.toInt) :
    next m unit numSamples = some (copySamples (outputOf m unit) (inputOf m unit) ⟨m, []⟩
      (numSamples.toInt.toNat + 1)) := by
  have hlt := numSamples.toInt_lt
  unfold next upTo
  dsimp only
  rw [show (numSamples.toInt + 1 - 0).toNat = numSamples.toInt.toNat + 1 by omega]
  exact foldlM_copySample _ _ _ (by omega)

theorem copySamples_log (output input : Addr) (m : Memory 64) (k : ℕ) :
    (copySamples output input ⟨m, []⟩ k).log =
      (List.range k).flatMap fun j : ℕ ↦ [.read input j, .write output j] := by
  induction k with
  | zero => rfl
  | succ k ih => rw [copySamples, ih, List.range_succ, List.flatMap_append]; rfl

-- The two regions of `n` samples are the same one or share no byte.
def SameOrApart (input output : Addr) (n : ℕ) : Prop :=
  input = output ∨ Apart input (n * 4) output (n * 4)

-- As long as the samples read lie in a region that is the output region or apart from it, the loop
-- is an exact copy.
theorem copySamples_mem (output input : Addr) (m : Memory 64) {n k : ℕ} (hk : k ≤ n)
    (hn : n * 4 ≤ 2 ^ 64) (hr : SameOrApart input output n) :
    (copySamples output input ⟨m, []⟩ k).mem = copied m output input (k * 4) := by
  induction k with
  | zero => rw [Nat.zero_mul, copied_zero]; rfl
  | succ k ih =>
      rw [copySamples, ih (by omega), Nat.succ_mul]
      exact storeBytes_copied m output input hr hn (by omega)

/-! ## 2. What a call leaves behind -/

-- The sample that the last pass stores behind the output region.
def extraSample (m : Memory 64) (output input : Addr) (n : ℕ) : List Byte :=
  loadBytes (copied m output input (n * 4)) (input + BitVec.ofNat 64 (n * 4)) 4

def overrun (m : Memory 64) (output input : Addr) (n : ℕ) : Memory 64 :=
  storeBytes (copied m output input (n * 4)) (output + BitVec.ofNat 64 (n * 4))
    (extraSample m output input n)

theorem next_spec (m : Memory 64) (unit : Addr) (numSamples : Int32)
    (hn : 0 ≤ numSamples.toInt)
    (hr : SameOrApart (inputOf m unit) (outputOf m unit) numSamples.toInt.toNat) :
    ∃ s, next m unit numSamples = some s ∧
      s.mem = overrun m (outputOf m unit) (inputOf m unit) numSamples.toInt.toNat ∧
      s.log = (List.range (numSamples.toInt.toNat + 1)).flatMap fun j : ℕ ↦
        [.read (inputOf m unit) j, .write (outputOf m unit) j] := by
  have hlt := numSamples.toInt_lt
  refine ⟨_, next_eq m unit numSamples hn, ?_, copySamples_log _ _ m _⟩
  rw [copySamples, copySamples_mem _ _ m le_rfl (by omega) hr]
  rfl

theorem overrun_outside (m : Memory 64) (output input : Addr) {n : ℕ} {a : Addr}
    (h : ¬ Within (output + BitVec.ofNat 64 (n * 4)) 4 a) :
    overrun m output input n a = copied m output input (n * 4) a :=
  storeBytes_outside _ _ _ (by rwa [extraSample, loadBytes_length])

theorem overrun_behind (m : Memory 64) (output input : Addr) {n d : ℕ} (hd : d < 4) :
    overrun m output input n (output + BitVec.ofNat 64 (n * 4 + d)) =
      copied m output input (n * 4) (input + BitVec.ofNat 64 (n * 4 + d)) := by
  have hgap : gap (output + BitVec.ofNat 64 (n * 4)) (output + BitVec.ofNat 64 (n * 4 + d)) =
      d := by
    rw [BitVec.ofNat_add, ← add_assoc, gap_add _ (by omega)]
  unfold overrun storeBytes
  rw [hgap, extraSample, loadBytes_getElem? _ _ hd, Option.getD_some, add_assoc,
    ← BitVec.ofNat_add]

theorem loadBytes_overrun (m : Memory 64) (output input : Addr) {n k len : ℕ}
    (hk : k + len ≤ n * 4) (hn : n * 4 + 4 ≤ 2 ^ 64) :
    loadBytes (overrun m output input n) (output + BitVec.ofNat 64 k) len =
      loadBytes m (input + BitVec.ofNat 64 k) len := by
  have hkeep : loadBytes (overrun m output input n) (output + BitVec.ofNat 64 k) len =
      loadBytes (copied m output input (n * 4)) (output + BitVec.ofNat 64 k) len := by
    apply loadBytes_congr (by omega)
    intro x hx
    have hblock := (within_shift_iff output x (by omega)).mp hx
    apply overrun_outside
    rw [within_shift_iff output x hn]
    omega
  rw [hkeep]
  exact loadBytes_copied m output input hk (by omega)

-- Only if the bytes behind the region already hold the extra sample does the call stay inside.
theorem overrun_frame_iff (m : Memory 64) (output input : Addr) {n : ℕ}
    (hn : n * 4 + 4 ≤ 2 ^ 64) :
    (∀ a, ¬ Within output (n * 4) a → overrun m output input n a = m a) ↔
      loadBytes m (output + BitVec.ofNat 64 (n * 4)) 4 = extraSample m output input n := by
  have hbehind : ∀ x, Within (output + BitVec.ofNat 64 (n * 4)) 4 x →
      ¬ Within output (n * 4) x := by
    intro x hx
    have hgap := (within_shift_iff output x hn).mp hx
    unfold Within
    omega
  constructor
  · intro hframe
    rw [← loadBytes_congr (by simp) fun x hx ↦ hframe x (hbehind x hx)]
    have hback := loadBytes_storeBytes (copied m output input (n * 4))
      (output + BitVec.ofNat 64 (n * 4)) (extraSample m output input n)
      (by rw [extraSample, loadBytes_length]; simp)
    rwa [show (extraSample m output input n).length = 4 from loadBytes_length _ _ _] at hback
  · intro hsame a ha
    have hthere : loadBytes (copied m output input (n * 4)) (output + BitVec.ofNat 64 (n * 4)) 4 =
        extraSample m output input n := by
      rw [← hsame]
      exact loadBytes_congr (by simp) fun x hx ↦ copied_outside m output input (hbehind x hx)
    unfold overrun
    rw [storeBytes_same _ _ _ (by rwa [extraSample, loadBytes_length])]
    exact copied_outside m output input ha

/-! ## 3. What the call was meant to do -/

/-- The block of `n` samples is copied, nothing else changes, and no sample outside the block is
touched. -/
structure NextExact (m : Memory 64) (unit : Addr) (n : ℕ) (s : Mach) : Prop where
  copied : ∀ i < n, loadBytes s.mem (outputOf m unit + BitVec.ofNat 64 (i * 4)) 4 =
    loadBytes m (inputOf m unit + BitVec.ofNat 64 (i * 4)) 4
  frame : ∀ a, ¬ Within (outputOf m unit) (n * 4) a → s.mem a = m a
  inside : ∀ acc ∈ s.log, 0 ≤ acc.at ∧ acc.at < n

/-- Every call copies its block, but it also touches sample `n` of both buffers: its bytes behind
the output region stay as they were only if they already held the sample read there, and the call
is never an exact one. -/
theorem next_overruns (m : Memory 64) (unit : Addr) (numSamples : Int32)
    (hn : 0 ≤ numSamples.toInt)
    (hr : SameOrApart (inputOf m unit) (outputOf m unit) numSamples.toInt.toNat) :
    let n := numSamples.toInt.toNat
    ∃ s, next m unit numSamples = some s ∧
      (∀ i < n, loadBytes s.mem (outputOf m unit + BitVec.ofNat 64 (i * 4)) 4 =
        loadBytes m (inputOf m unit + BitVec.ofNat 64 (i * 4)) 4) ∧
      ((∀ a, ¬ Within (outputOf m unit) (n * 4) a → s.mem a = m a) ↔
        loadBytes m (outputOf m unit + BitVec.ofNat 64 (n * 4)) 4 =
          extraSample m (outputOf m unit) (inputOf m unit) n) ∧
      Access.read (inputOf m unit) n ∈ s.log ∧ Access.write (outputOf m unit) n ∈ s.log ∧
      ¬ NextExact m unit n s := by
  intro n
  have hlt := numSamples.toInt_lt
  have hfit : n * 4 + 4 ≤ 2 ^ 64 := by omega
  obtain ⟨s, hs, hmem, hlog⟩ := next_spec m unit numSamples hn hr
  have hlast : ∀ acc ∈ [Access.read (inputOf m unit) n, Access.write (outputOf m unit) n],
      acc ∈ s.log := by
    intro acc hacc
    rw [hlog]
    exact List.mem_flatMap.mpr ⟨n, List.mem_range.mpr (Nat.lt_succ_self n), hacc⟩
  have hread := hlast (.read (inputOf m unit) n) (by simp)
  refine ⟨s, hs, ?_, ?_, hread, hlast _ (by simp), ?_⟩
  · intro i hi
    rw [hmem]
    exact loadBytes_overrun m _ _ (by omega) hfit
  · rw [hmem]
    exact overrun_frame_iff m _ _ hfit
  · intro hexact
    have hinside := (hexact.inside _ hread).2
    exact lt_irrefl (n : ℤ) hinside

-- A unit at 4096 with its input at 12288 and its output at 16384, for blocks of three samples: 1, 2
-- and 3, and a 4 behind them.
def threeSampleMem : Memory 64 :=
  let m := storeBytes (fun _ ↦ 0) 4168 (wordBytes [8192#64, 8200#64])
  let m := storeBytes m 8192 (wordBytes [12288#64, 16384#64])
  storeBytes m 12288 (wordBytes [0x3F800000#32, 0x40000000#32, 0x40400000#32, 0x40800000#32])

theorem sameOrApart_threeSampleMem :
    SameOrApart (inputOf threeSampleMem 4096) (outputOf threeSampleMem 4096) 3 := by
  rw [show inputOf threeSampleMem 4096 = 12288 by decide +kernel,
    show outputOf threeSampleMem 4096 = 16384 by decide +kernel]
  exact .inr (apart_of_gap (by decide) (by decide))

theorem next_overruns_threeSampleMem : ∃ s, next threeSampleMem 4096 3 = some s ∧
    (∀ i < 3, loadBytes s.mem (outputOf threeSampleMem 4096 + BitVec.ofNat 64 (i * 4)) 4 =
      loadBytes threeSampleMem (inputOf threeSampleMem 4096 + BitVec.ofNat 64 (i * 4)) 4) ∧
    Access.write (outputOf threeSampleMem 4096) 3 ∈ s.log ∧
    ¬ NextExact threeSampleMem 4096 3 s := by
  obtain ⟨s, hs, hcopied, -, -, hwrite, hnot⟩ :=
    next_overruns threeSampleMem 4096 3 (by decide) sameOrApart_threeSampleMem
  exact ⟨s, hs, hcopied, hwrite, hnot⟩

/-- With three samples to copy, the fourth follows them: the byte at 16399, behind the output
region, becomes 64. -/
theorem next_not_exact : ¬ ∀ (m : Memory 64) (unit : Addr) (numSamples : Int32),
    0 ≤ numSamples.toInt →
    SameOrApart (inputOf m unit) (outputOf m unit) numSamples.toInt.toNat →
    ∃ s, next m unit numSamples = some s ∧ NextExact m unit numSamples.toInt.toNat s := by
  intro hall
  obtain ⟨s, hs, hexact⟩ := hall threeSampleMem 4096 3 (by decide) sameOrApart_threeSampleMem
  have hbyte : (next threeSampleMem 4096 3).map (fun t ↦ t.mem 16399) = some 64 := by
    decide +kernel
  have hframe := hexact.frame 16399 (by decide +kernel)
  rw [hs, Option.map_some, hframe] at hbyte
  exact absurd hbyte (by decide +kernel)

end Scnim
