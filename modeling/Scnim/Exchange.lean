import Scnim.Records

/-!
# Records exchanged through the interface table's calls

A plugin builds a `FifoMsg` in Nim and passes it by value to `fSendMsgFromRT` or `fSendMsgToRT`,
where the server decodes the same bytes by its own declaration.  `fSndFileFormatInfoFromStrings`
goes the other way: the server fills an `SF_INFO` that Nim allocated and reads.
-/

open Machine

namespace Scnim

open FieldName

/-! ## 1. Messages -/

-- A Nim `proc` value without a calling convention.
structure Closure where
  prc : BitVec 64
  env : BitVec 64
  deriving DecidableEq

def Closure.bytes (f : Closure) : List Byte := leBytes 8 f.prc.toNat ++ leBytes 8 f.env.toNat

structure FifoMsg where
  mPerformFunc : Closure
  mFreeFunc : Closure
  mData : BitVec 64
  deriving DecidableEq

-- The memory after the plugin has filled in the fields of its message.
def FifoMsg.store (msg : FifoMsg) (m : Memory 64) (base : BitVec 64) : Memory 64 :=
  let m := storeBytes m (base + BitVec.ofNat 64 (Nim.fifoMsg.offset [.mPerformFunc]))
    msg.mPerformFunc.bytes
  let m := storeBytes m (base + BitVec.ofNat 64 (Nim.fifoMsg.offset [.mFreeFunc]))
    msg.mFreeFunc.bytes
  storeBytes m (base + BitVec.ofNat 64 (Nim.fifoMsg.offset [.mData])) (leBytes 8 msg.mData.toNat)

-- A field of the message as the server decodes it.
def receivedField (f : FieldName) (m : Memory 64) (base : BitVec 64) : BitVec 64 :=
  loadBits 64 m (base + BitVec.ofNat 64 (Dev.fifoMsg.offset [f]))

/-- The server finds in the message what the plugin put there, and the world it is to use. -/
structure MsgArrives (msg : FifoMsg) (inWorld : BitVec 64) (m : Memory 64) (base : BitVec 64) :
    Prop where
  perform : receivedField .mPerformFunc (msg.store m base) base = msg.mPerformFunc.prc
  free : receivedField .mFreeFunc (msg.store m base) base = msg.mFreeFunc.prc
  data : receivedField .mData (msg.store m base) base = msg.mData
  room : Dev.fifoMsg.size ≤ Nim.fifoMsg.size
  world : receivedField .mWorld (msg.store m base) base = inWorld

theorem fifoMsg_offsets :
    Nim.fifoMsg.offset [.mPerformFunc] = 0 ∧ Nim.fifoMsg.offset [.mFreeFunc] = 16 ∧
    Nim.fifoMsg.offset [.mData] = 32 ∧
    Dev.fifoMsg.offset [.mPerformFunc] = 8 * 0 ∧ Dev.fifoMsg.offset [.mFreeFunc] = 8 * 1 ∧
    Dev.fifoMsg.offset [.mData] = 8 * 2 ∧ Dev.fifoMsg.offset [.mWorld] = 8 * 3 := by
  decide +kernel

-- The plugin's fields are five words in a row.
theorem FifoMsg.store_eq (msg : FifoMsg) (m : Memory 64) (base : BitVec 64) :
    msg.store m base = storeBytes m base (wordBytes [msg.mPerformFunc.prc, msg.mPerformFunc.env,
      msg.mFreeFunc.prc, msg.mFreeFunc.env, msg.mData]) := by
  obtain ⟨hperform, hfree, hdata, -⟩ := fifoMsg_offsets
  have hlen : ∀ f : Closure, f.bytes.length = 16 := fun f ↦ by simp [Closure.bytes]
  unfold FifoMsg.store
  dsimp only
  rw [hperform, hfree, hdata, show base + BitVec.ofNat 64 0 = base from add_zero base,
    storeBytes_append m base _ _ (hlen _) (by rw [hlen]; decide),
    storeBytes_append m base _ _ (by simp [hlen]) (by simp)]
  simp [Closure.bytes, wordBytes]

-- What the server decodes: the two words of the perform function, then those of the free
-- function.
theorem receivedField_store (msg : FifoMsg) (m : Memory 64) (base : BitVec 64) :
    receivedField .mPerformFunc (msg.store m base) base = msg.mPerformFunc.prc ∧
    receivedField .mFreeFunc (msg.store m base) base = msg.mPerformFunc.env ∧
    receivedField .mData (msg.store m base) base = msg.mFreeFunc.prc ∧
    receivedField .mWorld (msg.store m base) base = msg.mFreeFunc.env := by
  obtain ⟨-, -, -, hperform, hfree, hdata, hworld⟩ := fifoMsg_offsets
  have hword := fun i (hi : i < 5) ↦ loadBits_wordBytes m base [msg.mPerformFunc.prc,
    msg.mPerformFunc.env, msg.mFreeFunc.prc, msg.mFreeFunc.env, msg.mData] (i := i) hi
    (by simp) (by decide)
  unfold receivedField
  rw [msg.store_eq, hperform, hfree, hdata, hworld]
  exact ⟨hword 0 (by decide), hword 1 (by decide), hword 2 (by decide), hword 3 (by decide)⟩

theorem msgArrives_iff (msg : FifoMsg) (inWorld : BitVec 64) (m : Memory 64)
    (base : BitVec 64) :
    MsgArrives msg inWorld m base ↔ msg.mFreeFunc.prc = msg.mPerformFunc.env ∧
      msg.mData = msg.mFreeFunc.prc ∧ inWorld = msg.mFreeFunc.env := by
  obtain ⟨hperform, hfree, hdata, hworld⟩ := receivedField_store msg m base
  constructor
  · intro h
    exact ⟨h.free.symm.trans hfree, h.data.symm.trans hdata, h.world.symm.trans hworld⟩
  · rintro ⟨hf, hd, hw⟩
    exact ⟨hperform, hfree.trans hf.symm, hdata.trans hd.symm, by decide +kernel,
      hworld.trans hw.symm⟩

/-! ## 2. Sound file information -/

structure SfInfo where
  frames : BitVec 64
  samplerate : BitVec 32
  channels : BitVec 32
  format : BitVec 32
  sections : BitVec 32
  seekable : BitVec 32
  deriving DecidableEq

-- The memory after `fSndFileFormatInfoFromStrings` has filled in the record at `base`.
def SfInfo.fill (info : SfInfo) (m : Memory 64) (base : BitVec 64) : Memory 64 :=
  let at_ := fun f ↦ base + BitVec.ofNat 64 (Dev.sfInfo.offset [f])
  let m := storeBytes m (at_ .frames) (leBytes 8 info.frames.toNat)
  let m := storeBytes m (at_ .samplerate) (leBytes 4 info.samplerate.toNat)
  let m := storeBytes m (at_ .channels) (leBytes 4 info.channels.toNat)
  let m := storeBytes m (at_ .format) (leBytes 4 info.format.toNat)
  let m := storeBytes m (at_ .sections) (leBytes 4 info.sections.toNat)
  storeBytes m (at_ .seekable) (leBytes 4 info.seekable.toNat)

-- A field of the record as Nim reads it; all six are `cint` there.
def infoField (f : FieldName) (m : Memory 64) (base : BitVec 64) : ℤ :=
  (loadBits 32 m (base + BitVec.ofNat 64 (Nim.sfInfo.offset [f]))).toInt

structure InfoReadsBack (info : SfInfo) (m : Memory 64) (base : BitVec 64) : Prop where
  frames : infoField .frames (info.fill m base) base = info.frames.toInt
  samplerate : infoField .samplerate (info.fill m base) base = info.samplerate.toInt
  channels : infoField .channels (info.fill m base) base = info.channels.toInt
  format : infoField .format (info.fill m base) base = info.format.toInt
  sections : infoField .sections (info.fill m base) base = info.sections.toInt
  seekable : infoField .seekable (info.fill m base) base = info.seekable.toInt

/-- Nim reads what the server filled in, and the server filled in only what Nim allocated. -/
structure InfoArrives (info : SfInfo) (m : Memory 64) (base : BitVec 64) : Prop where
  readsBack : InfoReadsBack info m base
  inside : ∀ s ∈ Dev.sfInfo.slots, s.offset + s.kind.size ≤ Nim.sfInfo.size

theorem sfInfo_offsets :
    Dev.sfInfo.offset [frames] = 0 ∧ Dev.sfInfo.offset [samplerate] = 8 ∧
    Dev.sfInfo.offset [channels] = 12 ∧ Dev.sfInfo.offset [format] = 16 ∧
    Dev.sfInfo.offset [sections] = 20 ∧ Dev.sfInfo.offset [seekable] = 24 ∧
    Nim.sfInfo.offset [frames] = 4 * 0 ∧ Nim.sfInfo.offset [samplerate] = 4 * 1 ∧
    Nim.sfInfo.offset [channels] = 4 * 2 ∧ Nim.sfInfo.offset [format] = 4 * 3 ∧
    Nim.sfInfo.offset [sections] = 4 * 4 ∧ Nim.sfInfo.offset [seekable] = 4 * 5 := by
  decide +kernel

-- The filled fields as 32-bit words, `frames` being the first two.
theorem SfInfo.fill_eq (info : SfInfo) (m : Memory 64) (base : BitVec 64) :
    info.fill m base = storeBytes m base (wordBytes [info.frames.setWidth 32,
      (info.frames >>> 32).setWidth 32, info.samplerate, info.channels, info.format,
      info.sections, info.seekable]) := by
  obtain ⟨h0, h1, h2, h3, h4, h5, -⟩ := sfInfo_offsets
  have hframes : leBytes 8 info.frames.toNat = leBytes 4 (info.frames.setWidth 32).toNat ++
      leBytes 4 ((info.frames >>> 32).setWidth 32).toNat := by
    rw [leBytes_add 4 4, BitVec.toNat_setWidth, BitVec.toNat_setWidth,
      BitVec.toNat_ushiftRight, Nat.shiftRight_eq_div_pow, show 2 ^ 32 = 256 ^ 4 from rfl,
      leBytes_mod, leBytes_mod]
  unfold SfInfo.fill
  dsimp only
  rw [h0, h1, h2, h3, h4, h5, show base + BitVec.ofNat 64 0 = base from add_zero base,
    storeBytes_append m base _ _ (by simp) (by simp),
    storeBytes_append m base _ _ (by simp) (by simp),
    storeBytes_append m base _ _ (by simp) (by simp),
    storeBytes_append m base _ _ (by simp) (by simp),
    storeBytes_append m base _ _ (by simp) (by simp), hframes]
  simp [wordBytes]

theorem infoField_fill (info : SfInfo) (m : Memory 64) (base : BitVec 64) :
    infoField frames (info.fill m base) base = (info.frames.setWidth 32).toInt ∧
    infoField samplerate (info.fill m base) base = ((info.frames >>> 32).setWidth 32).toInt ∧
    infoField channels (info.fill m base) base = info.samplerate.toInt ∧
    infoField format (info.fill m base) base = info.channels.toInt ∧
    infoField sections (info.fill m base) base = info.format.toInt ∧
    infoField seekable (info.fill m base) base = info.sections.toInt := by
  obtain ⟨-, -, -, -, -, -, h0, h1, h2, h3, h4, h5⟩ := sfInfo_offsets
  have hword := fun i (hi : i < 7) ↦ loadBits_wordBytes m base [info.frames.setWidth 32,
    (info.frames >>> 32).setWidth 32, info.samplerate, info.channels, info.format,
    info.sections, info.seekable] (i := i) hi (by simp) (by decide)
  unfold infoField
  rw [info.fill_eq, h0, h1, h2, h3, h4, h5]
  exact ⟨congrArg BitVec.toInt (hword 0 (by decide)), congrArg BitVec.toInt (hword 1 (by decide)),
    congrArg BitVec.toInt (hword 2 (by decide)), congrArg BitVec.toInt (hword 3 (by decide)),
    congrArg BitVec.toInt (hword 4 (by decide)), congrArg BitVec.toInt (hword 5 (by decide))⟩

theorem infoReadsBack_iff (info : SfInfo) (m : Memory 64) (base : BitVec 64) :
    InfoReadsBack info m base ↔
      (info.frames.setWidth 32).toInt = info.frames.toInt ∧
      (info.frames >>> 32).setWidth 32 = info.samplerate ∧ info.samplerate = info.channels ∧
      info.channels = info.format ∧ info.format = info.sections ∧
      info.sections = info.seekable := by
  obtain ⟨h0, h1, h2, h3, h4, h5⟩ := infoField_fill info m base
  constructor
  · intro h
    exact ⟨h0.symm.trans h.frames, BitVec.eq_of_toInt_eq (h1.symm.trans h.samplerate),
      BitVec.eq_of_toInt_eq (h2.symm.trans h.channels),
      BitVec.eq_of_toInt_eq (h3.symm.trans h.format),
      BitVec.eq_of_toInt_eq (h4.symm.trans h.sections),
      BitVec.eq_of_toInt_eq (h5.symm.trans h.seekable)⟩
  · rintro ⟨hf, hs, hc, hfmt, hsec, hseek⟩
    exact ⟨h0.trans hf, h1.trans (congrArg BitVec.toInt hs), h2.trans (congrArg BitVec.toInt hc),
      h3.trans (congrArg BitVec.toInt hfmt), h4.trans (congrArg BitVec.toInt hsec),
      h5.trans (congrArg BitVec.toInt hseek)⟩

-- `seekable` ends four bytes past the end of the record Nim allocates.
theorem not_infoArrives (info : SfInfo) (m : Memory 64) (base : BitVec 64) :
    ¬ InfoArrives info m base := by
  intro h
  exact absurd h.inside (by decide +kernel)

/-! ## 3. Both directions -/

/-- A message arrives exactly when the two environment words and the data happen to repeat the
pointers the server reads in their place; a filled in `SF_INFO` never does. -/
theorem exchange_iff (msg : FifoMsg) (inWorld : BitVec 64) (info : SfInfo) (m : Memory 64)
    (base : BitVec 64) :
    (MsgArrives msg inWorld m base ↔ msg.mFreeFunc.prc = msg.mPerformFunc.env ∧
      msg.mData = msg.mFreeFunc.prc ∧ inWorld = msg.mFreeFunc.env) ∧
    (InfoReadsBack info m base ↔
      (info.frames.setWidth 32).toInt = info.frames.toInt ∧
      (info.frames >>> 32).setWidth 32 = info.samplerate ∧ info.samplerate = info.channels ∧
      info.channels = info.format ∧ info.format = info.sections ∧
      info.sections = info.seekable) ∧
    ¬ InfoArrives info m base :=
  ⟨msgArrives_iff msg inWorld m base, infoReadsBack_iff info m base,
    not_infoArrives info m base⟩

/-- A message without environments: the server decodes the free function as null and the data as
the free function.  A mono file of 100 frames: Nim reads a sample rate of 0 and 44100 channels,
and the record is overrun. -/
theorem exchange_misread :
    (receivedField .mFreeFunc
        (FifoMsg.store ⟨⟨0x1000, 0⟩, ⟨0x2000, 0⟩, 0x3000⟩ (fun _ ↦ 0) 4096) 4096 = 0 ∧
      receivedField .mData
        (FifoMsg.store ⟨⟨0x1000, 0⟩, ⟨0x2000, 0⟩, 0x3000⟩ (fun _ ↦ 0) 4096) 4096 = 0x2000 ∧
      ¬ MsgArrives ⟨⟨0x1000, 0⟩, ⟨0x2000, 0⟩, 0x3000⟩ 0x4000 (fun _ ↦ 0) 4096) ∧
    (infoField .samplerate (SfInfo.fill ⟨100, 44100, 1, 2, 1, 1⟩ (fun _ ↦ 0) 4096) 4096 = 0 ∧
      infoField .channels (SfInfo.fill ⟨100, 44100, 1, 2, 1, 1⟩ (fun _ ↦ 0) 4096) 4096 = 44100 ∧
      ¬ InfoArrives ⟨100, 44100, 1, 2, 1, 1⟩ (fun _ ↦ 0) 4096) := by
  refine ⟨⟨by decide +kernel, by decide +kernel, ?_⟩, by decide +kernel, by decide +kernel,
    not_infoArrives _ _ _⟩
  rw [msgArrives_iff]
  decide

end Scnim
