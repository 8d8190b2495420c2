import Scnim.Spectrum
import Scnim.SpinBufferLock

/-!
# Shared spectra

Unit generators on several threads that convert spectra in common buffers, each one inside a lock
object on the buffer, as `PV_GET_BUF` and `PV_GET_BUF2` of `dev/FFT_UGens.h` declare them.  The
conversions are taken apart into their accesses to the samples, each sample being loaded once and
stored once; a conversion that is not defined goes no further.
-/

open Machine

namespace Scnim.Dev

variable {κ β : Type*}

/-! ## 1. The clients -/

-- `LOCK_SNDBUF(buf)` declares a `buffer_lock<false>`.
def lockSndbuf (buf : β) : Request β := .one ⟨false, buf⟩

-- `LOCK_SNDBUF2(buf1, buf2)` declares a `buffer_lock2<false, false>`.
def lockSndbuf2 (buf1 buf2 : β) : Request β := .two ⟨false, false, buf1, buf2⟩

/-- What the conversion of a bin does next: it reads one word and the other, and stores one result
and the other. -/
inductive Stage
  | first
  | second (x : CFloat)
  | store (bin : CFloat × CFloat)
  | stored (bin : CFloat × CFloat)
  deriving DecidableEq

/-- A call that is converting the bin `i` of a buffer. -/
structure Loop (β : Type*) where
  buf : β
  call : Call
  i : ℕ
  stage : Stage
  deriving DecidableEq

def Loop.access (lib : Libm) (data : Addr) (l : Loop β) (m : Memory 64) :
    Option (Loop β × Memory 64) :=
  match l.stage with
  | .first => some ({ l with stage := .second (loadBits 32 m (binAt data l.i)) }, m)
  | .second x => (l.call.inPlace lib (x, loadBits 32 m (binAt data l.i + 4))).map fun bin ↦
      ({ l with stage := .store bin }, m)
  | .store bin => some ({ l with stage := .stored bin }, storeBits m (binAt data l.i) bin.1)
  | .stored bin => some ({ l with i := l.i + 1, stage := .first },
      storeBits m (binAt data l.i + 4) bin.2)

structure SpectraState (κ β : Type*) where
  spin : SpinState κ β
  mem : Memory 64
  coord : β → Coord
  -- the call a client is in
  loop : κ → Option (Loop β)
  -- the calls that have returned, in this order
  log : List (β × Call)

def SpectraState.init (mem : Memory 64) (bufs : β → SpectralBuf) : SpectraState κ β :=
  ⟨SpinState.init, mem, fun b ↦ (bufs b).coord, fun _ ↦ none, []⟩

-- The client is inside a lock object that was to lock the buffer exclusively.
def MayConvert (b : β) : Client β → Prop
  | .inside r => (b, false) ∈ r.asks
  | _ => False

instance [DecidableEq β] (b : β) (c : Client β) : Decidable (MayConvert b c) := by
  unfold MayConvert
  cases c <;> infer_instance

inductive SpectraAct (β : Type*)
  | lock (a : SpinAct β)
  | call (b : β) (call : Call)
  | access
  deriving DecidableEq

-- The lock object that a step begins to construct.
def SpectraAct.request : SpectraAct β → Option (Request β)
  | .lock (.construct r) => some r
  | _ => none

section Steps

variable [DecidableEq κ] [DecidableEq β] (lib : Libm) (isLocal : β → Bool) (bufs : β → SpectralBuf)

def SpectraState.step (s : SpectraState κ β) (k : κ) : SpectraAct β → Option (SpectraState κ β)
  | .lock a =>
      if s.loop k = none then (s.spin.step isLocal k a).map fun spin ↦ { s with spin := spin }
      else none
  | .call b call =>
      if s.loop k = none ∧ MayConvert b (s.spin.client k) then
        if s.coord b = call.source then
          some { s with loop := Function.update s.loop k (some ⟨b, call, 0, .first⟩) }
        else some { s with log := s.log ++ [(b, call)] }
      else none
  | .access =>
      match s.loop k with
      | none => none
      | some l =>
          if l.i < (bufs l.buf).numbins then
            (l.access lib (bufs l.buf).data s.mem).map fun (l', m) ↦
              { s with mem := m, loop := Function.update s.loop k (some l') }
          else some { s with
            coord := Function.update s.coord l.buf l.call.target
            loop := Function.update s.loop k none
            log := s.log ++ [(l.buf, l.call)] }

/-- Everything a step can do. -/
theorem SpectraState.step_cases {s s' : SpectraState κ β} {k : κ} {a : SpectraAct β}
    (h : s.step lib isLocal bufs k a = some s') :
    (∃ act spin, a = .lock act ∧ s.loop k = none ∧ s.spin.step isLocal k act = some spin ∧
      s' = { s with spin := spin }) ∨
    (∃ b call, s.loop k = none ∧ MayConvert b (s.spin.client k) ∧
      ((s.coord b = call.source ∧
        s' = { s with loop := Function.update s.loop k (some ⟨b, call, 0, .first⟩) }) ∨
      (s.coord b ≠ call.source ∧ s' = { s with log := s.log ++ [(b, call)] }))) ∨
    ∃ l, s.loop k = some l ∧
      ((l.i < (bufs l.buf).numbins ∧ ∃ l' m, l.access lib (bufs l.buf).data s.mem = some (l', m) ∧
        s' = { s with mem := m, loop := Function.update s.loop k (some l') }) ∨
      (¬ l.i < (bufs l.buf).numbins ∧ s' = { s with
        coord := Function.update s.coord l.buf l.call.target
        loop := Function.update s.loop k none
        log := s.log ++ [(l.buf, l.call)] })) := by
  cases a with
  | lock act =>
      simp only [SpectraState.step] at h
      split at h
      · next hloop =>
          obtain ⟨spin, hspin, rfl⟩ := Option.map_eq_some_iff.mp h
          exact .inl ⟨act, spin, rfl, hloop, hspin, rfl⟩
      · cases h
  | call b call =>
      simp only [SpectraState.step] at h
      split at h
      · next hmay =>
          refine .inr (.inl ⟨b, call, hmay.1, hmay.2, ?_⟩)
          split at h
          · next hsource =>
              cases h
              exact .inl ⟨hsource, rfl⟩
          · next hother =>
              cases h
              exact .inr ⟨hother, rfl⟩
      · cases h
  | access =>
      simp only [SpectraState.step] at h
      split at h
      · cases h
      · next l hl =>
          refine .inr (.inr ⟨l, hl, ?_⟩)
          split at h
          · next hi =>
              obtain ⟨⟨l', m⟩, hacc, rfl⟩ := Option.map_eq_some_iff.mp h
              exact .inl ⟨hi, l', m, hacc, rfl⟩
          · next hi =>
              cases h
              exact .inr ⟨hi, rfl⟩

/-- The states of all runs in which no lock object is asked for one buffer first shared and then
exclusively. -/
inductive SpectraReachable (mem0 : Memory 64) : SpectraState κ β → Prop
  | init : SpectraReachable mem0 (SpectraState.init mem0 bufs)
  | step {s s' : SpectraState κ β} (k : κ) (a : SpectraAct β) (hs : SpectraReachable mem0 s)
      (ha : ∀ r, a.request = some r → ¬ r.Underlocked isLocal)
      (h : s.step lib isLocal bufs k a = some s') : SpectraReachable mem0 s'

end Steps

/-! ## 2. One bin -/

-- The two memories hold the same bins.
def SameBins (buf : SpectralBuf) (m m' : Memory 64) : Prop :=
  ∀ a, Within (buf.data + 8) (buf.numbins * 8) a → m' a = m a

/-- What the call has read and stored of its bin, which was converted from the memory `m`. -/
def Loop.Holds (lib : Libm) (buf : SpectralBuf) (l : Loop β) (m mem : Memory 64) : Prop :=
  match l.stage with
  | .first => SameBins buf m mem
  | .second x => SameBins buf m mem ∧ x = (readBin m buf.data l.i).1
  | .store bin => SameBins buf m mem ∧ l.call.inPlace lib (readBin m buf.data l.i) = some bin
  | .stored bin => SameBins buf (storeBits m (binAt buf.data l.i) bin.1) mem ∧
      l.call.inPlace lib (readBin m buf.data l.i) = some bin

section Bin

variable {lib : Libm} {buf : SpectralBuf} {l l' : Loop β} {m mem mem' : Memory 64}

theorem within_bin {a : Addr} {i : ℕ} (hi : i < buf.numbins) (ha : Within (binAt buf.data i) 8 a) :
    Within (buf.data + 8) (buf.numbins * 8) a := by
  have hsmall := (numbins_fits buf).1
  have hinside := (within_elementAt_iff (buf.data + 8) a hi (by omega)).mp ha
  unfold Within
  omega

theorem within_first {a p : Addr} (ha : Within p 4 a) : Within p 8 a :=
  lt_of_lt_of_le ha (by decide)

theorem within_second {a p : Addr} (ha : Within (p + 4) 4 a) : Within p 8 a :=
  ((within_shift_iff (k := 4) p a (by decide)).mp ha).2

theorem SameBins.store {bits : BitVec 32} (h : SameBins buf m mem) (p : Addr) :
    SameBins buf (storeBits m p bits) (storeBits mem p bits) := by
  intro a ha
  unfold storeBits storeBytes
  rw [h a ha]

theorem SameBins.readBin {i : ℕ} (h : SameBins buf m mem) (hi : i < buf.numbins) :
    readBin mem buf.data i = readBin m buf.data i :=
  readBin_congr fun a ha ↦ h a (within_bin hi ha)

theorem Loop.Holds.congr (h : l.Holds lib buf m mem) (hsame : SameBins buf mem mem') :
    l.Holds lib buf m mem' := by
  have htrans : ∀ {m : Memory 64}, SameBins buf m mem → SameBins buf m mem' :=
    fun h a ha ↦ (hsame a ha).trans (h a ha)
  unfold Loop.Holds at h ⊢
  cases hstage : l.stage with
  | first => rw [hstage] at h; exact htrans h
  | second x => rw [hstage] at h; exact ⟨htrans h.1, h.2⟩
  | store bin => rw [hstage] at h; exact ⟨htrans h.1, h.2⟩
  | stored bin => rw [hstage] at h; exact ⟨htrans h.1, h.2⟩

theorem Loop.access_next {data : Addr} (hacc : l.access lib data mem = some (l', mem')) :
    l'.buf = l.buf ∧ l'.call = l.call ∧ (l'.i = l.i ∨ l'.i = l.i + 1 ∧ l'.stage = .first) := by
  unfold Loop.access at hacc
  cases hstage : l.stage with
  | first =>
      rw [hstage] at hacc
      cases hacc
      exact ⟨rfl, rfl, .inl rfl⟩
  | second x =>
      rw [hstage] at hacc
      obtain ⟨bin, -, heq⟩ := Option.map_eq_some_iff.mp hacc
      cases heq
      exact ⟨rfl, rfl, .inl rfl⟩
  | store bin =>
      rw [hstage] at hacc
      cases hacc
      exact ⟨rfl, rfl, .inl rfl⟩
  | stored bin =>
      rw [hstage] at hacc
      cases hacc
      exact ⟨rfl, rfl, .inr ⟨rfl, rfl⟩⟩

/-- The memory is that of a conversion of `start` which is at the loop's bin. -/
def Loop.Converts (lib : Libm) (buf : SpectralBuf) (l : Loop β) (start mem : Memory 64) : Prop :=
  ∃ m, convertBins (l.call.inPlace lib) buf.data l.i start = some m ∧ l.Holds lib buf m mem

theorem Loop.Converts.access {start : Memory 64} (h : l.Converts lib buf start mem)
    (hi : l.i < buf.numbins) (hacc : l.access lib buf.data mem = some (l', mem')) :
    l'.Converts lib buf start mem' := by
  obtain ⟨m, hm, hholds⟩ := h
  unfold Loop.access at hacc
  unfold Loop.Holds at hholds
  cases hstage : l.stage with
  | first =>
      rw [hstage] at hholds hacc
      cases hacc
      exact ⟨m, hm, hholds, congrArg Prod.fst (hholds.readBin hi)⟩
  | second x =>
      rw [hstage] at hholds hacc
      obtain ⟨bin, hbin, heq⟩ := Option.map_eq_some_iff.mp hacc
      cases heq
      obtain ⟨hsame, rfl⟩ := hholds
      have hsecond : loadBits 32 mem (binAt buf.data l.i + 4) = (Dev.readBin m buf.data l.i).2 :=
        congrArg Prod.snd (hsame.readBin hi)
      rw [hsecond] at hbin
      exact ⟨m, hm, hsame, hbin⟩
  | store bin =>
      rw [hstage] at hholds hacc
      cases hacc
      exact ⟨m, hm, hholds.1.store _, hholds.2⟩
  | stored bin =>
      rw [hstage] at hholds hacc
      cases hacc
      refine ⟨writeBin m buf.data l.i bin, ?_, hholds.1.store _⟩
      rw [convertBins_succ, hm, Option.bind_some, hholds.2, Option.map_some]

-- An access changes nothing but its bin.
theorem Loop.access_frame (hi : l.i < buf.numbins)
    (hacc : l.access lib buf.data mem = some (l', mem')) {a : Addr}
    (ha : ¬ Within (buf.data + 8) (buf.numbins * 8) a) : mem' a = mem a := by
  have hword : ∀ {p : Addr} {bits : BitVec 32}, (Within p 4 a → Within (binAt buf.data l.i) 8 a) →
      storeBits mem p bits a = mem a := by
    intro p bits hp
    apply storeBytes_outside
    rw [leBytes_length]
    exact fun hin ↦ ha (within_bin hi (hp hin))
  unfold Loop.access at hacc
  cases hstage : l.stage with
  | first =>
      rw [hstage] at hacc
      cases hacc
      rfl
  | second x =>
      rw [hstage] at hacc
      obtain ⟨bin, -, heq⟩ := Option.map_eq_some_iff.mp hacc
      cases heq
      rfl
  | store bin =>
      rw [hstage] at hacc
      cases hacc
      exact hword within_first
  | stored bin =>
      rw [hstage] at hacc
      cases hacc
      exact hword within_second

end Bin

/-! ## 3. Runs -/

section Update

variable [DecidableEq κ] {loop : κ → Option (Loop β)} {k : κ} {o : Option (Loop β)} {l : Loop β}

-- The clients that are in a call, after one of them has made a step.
theorem loop_update {j : κ}
    (h : Function.update loop k o j = some l) :
    (j = k ∧ o = some l) ∨ (j ≠ k ∧ loop j = some l) := by
  by_cases hj : j = k
  · subst hj
    rw [Function.update_self] at h
    exact .inl ⟨rfl, h⟩
  · rw [Function.update_of_ne hj] at h
    exact .inr ⟨hj, h⟩

-- The loops on other buffers are not concerned.
theorem loop_update_iff {b : β}
    (hold : ∀ l, loop k = some l → l.buf = b) (hnew : ∀ l, o = some l → l.buf = b)
    (hl : l.buf ≠ b) (j : κ) : Function.update loop k o j = some l ↔ loop j = some l := by
  by_cases hj : j = k
  · subst hj
    rw [Function.update_self]
    exact iff_of_false (fun h ↦ hl (hnew l h)) fun h ↦ hl (hold l h)
  · rw [Function.update_of_ne hj]

end Update

section Runs

variable [DecidableEq β] {lib : Libm} {isLocal : β → Bool} {bufs : β → SpectralBuf}
  {mem0 : Memory 64} {s s' : SpectraState κ β} {k : κ}

-- The buffer as its record says now.
def SpectraState.buf (bufs : β → SpectralBuf) (s : SpectraState κ β) (b : β) : SpectralBuf :=
  { bufs b with coord := s.coord b }

-- The calls on the buffer that have returned.
def callsOn (log : List (β × Call)) (b : β) : List Call :=
  (log.filter fun p ↦ p.1 = b).map Prod.snd

theorem callsOn_append (log : List (β × Call)) (b c : β) (call : Call) :
    callsOn (log ++ [(b, call)]) c = callsOn log c ++ if b = c then [call] else [] := by
  unfold callsOn
  rw [List.filter_append, List.map_append]
  by_cases hb : b = c <;> simp [hb]

/-- The bins of different buffers share no byte. -/
def BinsApart (bufs : β → SpectralBuf) : Prop :=
  ∀ b c, b ≠ c → Apart ((bufs b).data + 8) ((bufs b).numbins * 8) ((bufs c).data + 8)
    ((bufs c).numbins * 8)

/-- The calls that have returned, made one after the other, leave the buffer as it is, but for what
a call that has not returned has done. -/
def Serial (lib : Libm) (bufs : β → SpectralBuf) (mem0 : Memory 64) (s : SpectraState κ β) (b : β) :
    Prop :=
  ∃ m, performAll lib (callsOn s.log b) (mem0, bufs b) = some (m, s.buf bufs b) ∧
    ((∀ k l, s.loop k = some l → l.buf ≠ b) → SameBins (bufs b) m s.mem) ∧
    ∀ k l, s.loop k = some l → l.buf = b →
      s.coord b = l.call.source ∧ l.Converts lib (bufs b) m s.mem

theorem Serial.congr {b : β} (h : Serial lib bufs mem0 s b)
    (hcalls : callsOn s'.log b = callsOn s.log b) (hcoord : s'.coord b = s.coord b)
    (hmem : SameBins (bufs b) s.mem s'.mem)
    (hloop : ∀ k l, l.buf = b → (s'.loop k = some l ↔ s.loop k = some l)) :
    Serial lib bufs mem0 s' b := by
  obtain ⟨m, hrun, hidle, hbusy⟩ := h
  refine ⟨m, ?_, fun hnone a ha ↦ ?_, fun k l hl hb ↦ ?_⟩
  · unfold SpectraState.buf
    rw [hcalls, hcoord]
    exact hrun
  · rw [hmem a ha]
    exact hidle (fun k l hl hb ↦ hnone k l ((hloop k l hb).mpr hl) hb) a ha
  · obtain ⟨hsource, mi, hmi, hholds⟩ := hbusy k l ((hloop k l hb).mp hl) hb
    exact ⟨hcoord.trans hsource, mi, hmi, hholds.congr hmem⟩

variable [DecidableEq κ]

structure SpectraInv (lib : Libm) (isLocal : β → Bool) (bufs : β → SpectralBuf) (mem0 : Memory 64)
    (s : SpectraState κ β) : Prop where
  spin : SpinReachable isLocal (fun r ↦ ¬ r.Underlocked isLocal) s.spin
  may : ∀ k l, s.loop k = some l → MayConvert l.buf (s.spin.client k)
  range : ∀ k l, s.loop k = some l → l.i < (bufs l.buf).numbins ∨
    l.i = (bufs l.buf).numbins ∧ l.stage = .first
  serial : ∀ b, isLocal b = false → Serial lib bufs mem0 s b
  frame : ∀ a, (∀ b, ¬ Within ((bufs b).data + 8) ((bufs b).numbins * 8) a) → s.mem a = mem0 a

theorem spectraInv_init :
    SpectraInv lib isLocal bufs mem0 (SpectraState.init mem0 bufs : SpectraState κ β) :=
  ⟨.init, fun _ _ h ↦ absurd h (Option.some_ne_none _).symm,
    fun _ _ h ↦ absurd h (Option.some_ne_none _).symm,
    fun _ _ ↦ ⟨mem0, rfl, fun _ _ _ ↦ rfl, fun _ _ h ↦ absurd h (Option.some_ne_none _).symm⟩,
    fun _ _ ↦ rfl⟩

namespace SpectraInv

-- No two clients may convert one buffer.
theorem alone (h : SpectraInv lib isLocal bufs mem0 s) {j k : κ} {b : β}
    (hlocal : isLocal b = false) (hj : MayConvert b (s.spin.client j))
    (hk : MayConvert b (s.spin.client k)) : j = k := by
  obtain ⟨t, href, hsafe⟩ := h.spin.exists_safe
  unfold MayConvert at hj hk
  split at hj
  · next q hq =>
      split at hk
      · next r hr =>
          rw [href.client] at hq hr
          by_contra hne
          exact hsafe.exclusive j k q r hq hr hne b false hlocal hk hj
      · cases hk
  · cases hj

theorem lock (h : SpectraInv lib isLocal bufs mem0 s) {act : SpinAct β} {spin : SpinState κ β}
    (hloop : s.loop k = none) (hspin : s.spin.step isLocal k act = some spin)
    (hact : ∀ r, act = .construct r → ¬ r.Underlocked isLocal) :
    SpectraInv lib isLocal bufs mem0 { s with spin := spin } := by
  refine ⟨.step k act h.spin hact hspin, fun j l hl ↦ ?_, h.range, h.serial, h.frame⟩
  have hj : j ≠ k := by
    rintro rfl
    rw [hloop] at hl
    cases hl
  rw [show (SpectraState.mk spin s.mem s.coord s.loop s.log).spin.client j = s.spin.client j from
    SpinState.step_other isLocal hspin hj]
  exact h.may j l hl

theorem call_begins (h : SpectraInv lib isLocal bufs mem0 s) {b : β} {call : Call}
    (hloop : s.loop k = none) (hmay : MayConvert b (s.spin.client k))
    (hsource : s.coord b = call.source) : SpectraInv lib isLocal bufs mem0
      { s with loop := Function.update s.loop k (some ⟨b, call, 0, .first⟩) } := by
  refine ⟨h.spin, fun j l hl ↦ ?_, fun j l hl ↦ ?_, fun c hc ↦ ?_, h.frame⟩
  · rcases loop_update hl with ⟨rfl, hnew⟩ | ⟨-, hold⟩
    · cases hnew
      exact hmay
    · exact h.may j l hold
  · rcases loop_update hl with ⟨rfl, hnew⟩ | ⟨-, hold⟩
    · cases hnew
      exact (Nat.eq_zero_or_pos _).symm.imp_right fun hzero ↦ ⟨hzero.symm, rfl⟩
    · exact h.range j l hold
  · by_cases hcb : c = b
    · subst hcb
      have hnone : ∀ j l, s.loop j = some l → l.buf ≠ c := by
        rintro j l hl rfl
        rw [h.alone hc (h.may j l hl) hmay, hloop] at hl
        cases hl
      obtain ⟨m, hrun, hidle, -⟩ := h.serial c hc
      refine ⟨m, hrun, fun hall ↦ absurd rfl (hall k _ (Function.update_self ..)), ?_⟩
      intro j l hl hb
      rcases loop_update hl with ⟨rfl, hnew⟩ | ⟨-, hold⟩
      · cases hnew
        exact ⟨hsource, m, rfl, hidle hnone⟩
      · exact absurd hb (hnone j l hold)
    · refine (h.serial c hc).congr rfl rfl (fun _ _ ↦ rfl) fun j l hl ↦ ?_
      refine loop_update_iff (b := b) (fun l' hl' ↦ ?_) (fun l' hl' ↦ ?_) (hl ▸ hcb) j
      · rw [hloop] at hl'
        cases hl'
      · cases hl'
        rfl

-- A call on a buffer that is not in its form returns at once.
theorem call_returns (h : SpectraInv lib isLocal bufs mem0 s) {b : β} {call : Call}
    (hother : s.coord b ≠ call.source) :
    SpectraInv lib isLocal bufs mem0 { s with log := s.log ++ [(b, call)] } := by
  refine ⟨h.spin, h.may, h.range, fun c hc ↦ ?_, h.frame⟩
  by_cases hcb : b = c
  · subst hcb
    obtain ⟨m, hrun, hrest⟩ := h.serial b hc
    refine ⟨m, ?_, hrest⟩
    have hlater : performAll lib [call] (m, s.buf bufs b) = some (m, s.buf bufs b) := by
      rw [performAll_cons, Call.perform_of_ne hother]
      rfl
    rw [callsOn_append, if_pos rfl, performAll_append, hrun, Option.bind_some, hlater]
    rfl
  · refine (h.serial c hc).congr ?_ rfl (fun _ _ ↦ rfl) fun _ _ _ ↦ Iff.rfl
    rw [callsOn_append, if_neg hcb, List.append_nil]

theorem call_access (h : SpectraInv lib isLocal bufs mem0 s)
    (hapart : BinsApart bufs) {l l' : Loop β} {m : Memory 64} (hl : s.loop k = some l)
    (hi : l.i < (bufs l.buf).numbins) (hacc : l.access lib (bufs l.buf).data s.mem = some (l', m)) :
    SpectraInv lib isLocal bufs mem0
      { s with mem := m, loop := Function.update s.loop k (some l') } := by
  obtain ⟨hbuf, hcall, hnext⟩ := Loop.access_next hacc
  have hframe : ∀ {a}, ¬ Within ((bufs l.buf).data + 8) ((bufs l.buf).numbins * 8) a →
      m a = s.mem a := fun ha ↦ Loop.access_frame hi hacc ha
  refine ⟨h.spin, fun j q hq ↦ ?_, fun j q hq ↦ ?_, fun c hc ↦ ?_, fun a ha ↦ ?_⟩
  · rcases loop_update hq with ⟨rfl, hnew⟩ | ⟨-, hold⟩
    · cases hnew
      rw [hbuf]
      exact h.may j l hl
    · exact h.may j q hold
  · rcases loop_update hq with ⟨rfl, hnew⟩ | ⟨-, hold⟩
    · cases hnew
      rw [hbuf]
      rcases hnext with hsame | ⟨hsucc, hfirst⟩
      · exact .inl (hsame ▸ hi)
      · rw [hsucc, hfirst]
        exact (Nat.lt_or_eq_of_le (Nat.succ_le_of_lt hi)).imp_right fun heq ↦ ⟨heq, rfl⟩
    · exact h.range j q hold
  · by_cases hcb : c = l.buf
    · subst hcb
      obtain ⟨m0, hrun, -, hbusy⟩ := h.serial l.buf hc
      refine ⟨m0, hrun, fun hall ↦ absurd hbuf (hall k l' (Function.update_self ..)), ?_⟩
      intro j q hq hb
      rcases loop_update hq with ⟨rfl, hnew⟩ | ⟨hjk, hold⟩
      · cases hnew
        obtain ⟨hsource, hconverts⟩ := hbusy j l hl rfl
        exact ⟨by rw [hcall]; exact hsource, hconverts.access hi hacc⟩
      · exact absurd (h.alone hc (hb ▸ h.may j q hold) (h.may k l hl)) hjk
    · refine (h.serial c hc).congr rfl rfl (fun a ha ↦ hframe (hapart c l.buf hcb a ha)) ?_
      intro j q hq
      refine loop_update_iff (b := l.buf) (fun l'' hl'' ↦ ?_) (fun l'' hl'' ↦ ?_) (hq ▸ hcb) j
      · rw [hl] at hl''
        cases hl''
        rfl
      · cases hl''
        exact hbuf
  · exact (hframe (ha l.buf)).trans (h.frame a ha)

theorem call_ends (h : SpectraInv lib isLocal bufs mem0 s) {l : Loop β} (hl : s.loop k = some l)
    (hi : ¬ l.i < (bufs l.buf).numbins) : SpectraInv lib isLocal bufs mem0 { s with
      coord := Function.update s.coord l.buf l.call.target
      loop := Function.update s.loop k none
      log := s.log ++ [(l.buf, l.call)] } := by
  obtain ⟨hlast, hfirst⟩ := (h.range k l hl).resolve_left hi
  refine ⟨h.spin, fun j q hq ↦ ?_, fun j q hq ↦ ?_, fun c hc ↦ ?_, h.frame⟩
  · rcases loop_update hq with ⟨-, hnew⟩ | ⟨-, hold⟩
    · cases hnew
    · exact h.may j q hold
  · rcases loop_update hq with ⟨-, hnew⟩ | ⟨-, hold⟩
    · cases hnew
    · exact h.range j q hold
  · by_cases hcb : c = l.buf
    · subst hcb
      obtain ⟨m, hrun, -, hbusy⟩ := h.serial l.buf hc
      obtain ⟨hsource, m', hm', hholds⟩ := hbusy k l hl rfl
      rw [hlast] at hm'
      unfold Loop.Holds at hholds
      rw [hfirst] at hholds
      refine ⟨m', ?_, fun _ ↦ hholds, fun j q hq hb ↦ ?_⟩
      · have hlater : performAll lib [l.call] (m, s.buf bufs l.buf) =
            some (m', { s.buf bufs l.buf with coord := l.call.target }) := by
          rw [performAll_cons,
            Call.perform_of_source (show (s.buf bufs l.buf).coord = l.call.source from hsource) hm']
          rfl
        rw [callsOn_append, if_pos rfl, performAll_append, hrun, Option.bind_some, hlater]
        simp [SpectraState.buf]
      · rcases loop_update hq with ⟨-, hnew⟩ | ⟨hjk, hold⟩
        · cases hnew
        · exact absurd (h.alone hc (hb ▸ h.may j q hold) (h.may k l hl)) hjk
    · refine (h.serial c hc).congr ?_ (Function.update_of_ne hcb _ _) (fun _ _ ↦ rfl) ?_
      · rw [callsOn_append, if_neg (Ne.symm hcb), List.append_nil]
      · intro j q hq
        refine loop_update_iff (b := l.buf) (fun l'' hl'' ↦ ?_) (fun l'' hl'' ↦ ?_) (hq ▸ hcb) j
        · rw [hl] at hl''
          cases hl''
          rfl
        · cases hl''

end SpectraInv

theorem SpectraReachable.inv (hapart : BinsApart bufs)
    (h : SpectraReachable lib isLocal bufs mem0 s) : SpectraInv lib isLocal bufs mem0 s := by
  induction h with
  | init => exact spectraInv_init
  | step k a _ ha hstep ih =>
      rcases SpectraState.step_cases lib isLocal bufs hstep with
        ⟨act, spin, rfl, hloop, hspin, rfl⟩ | ⟨b, call, hloop, hmay, hcases⟩ | ⟨l, hl, hcases⟩
      · exact ih.lock hloop hspin fun r hr ↦ ha r (by rw [hr]; rfl)
      · rcases hcases with ⟨hsource, rfl⟩ | ⟨hother, rfl⟩
        · exact ih.call_begins hloop hmay hsource
        · exact ih.call_returns hother
      · rcases hcases with ⟨hi, l', m, hacc, rfl⟩ | ⟨hi, rfl⟩
        · exact ih.call_access hapart hl hi hacc
        · exact ih.call_ends hl hi

/-- Whatever the order of the accesses to the locks and to the samples: the calls on a shared buffer
are made one at a time, and between them the buffer is what those that have returned make of it, one
after the other.  Nothing but bins changes. -/
theorem spectra_serial (hapart : BinsApart bufs) (h : SpectraReachable lib isLocal bufs mem0 s) :
    (∀ j k q l, s.loop j = some q → s.loop k = some l → q.buf = l.buf → isLocal l.buf = false →
      j = k) ∧
    (∀ b, isLocal b = false → (∀ k l, s.loop k = some l → l.buf ≠ b) →
      ∃ m, performAll lib (callsOn s.log b) (mem0, bufs b) = some (m, s.buf bufs b) ∧
        SameBins (bufs b) m s.mem) ∧
    ∀ a, (∀ b, ¬ Within ((bufs b).data + 8) ((bufs b).numbins * 8) a) → s.mem a = mem0 a := by
  have hinv := h.inv hapart
  refine ⟨fun j k q l hq hl hbuf hlocal ↦ ?_, fun b hlocal hnone ↦ ?_, hinv.frame⟩
  · exact hinv.alone hlocal (hbuf ▸ hinv.may j q hq) (hinv.may k l hl)
  · obtain ⟨m, hrun, hidle, -⟩ := hinv.serial b hlocal
    exact ⟨m, hrun, hidle hnone⟩

end Runs

/-! ## 4. Two clients -/

section Run

variable [DecidableEq κ] [DecidableEq β] (lib : Libm) (isLocal : β → Bool) (bufs : β → SpectralBuf)

def SpectraState.run (s : SpectraState κ β) (acts : List (κ × SpectraAct β)) :
    Option (SpectraState κ β) :=
  acts.foldlM (fun s p ↦ s.step lib isLocal bufs p.1 p.2) s

theorem SpectraReachable.run {mem0 : Memory 64} {s s' : SpectraState κ β}
    {acts : List (κ × SpectraAct β)} (hs : SpectraReachable lib isLocal bufs mem0 s)
    (hacts : ∀ r ∈ acts.filterMap fun p ↦ p.2.request, ¬ r.Underlocked isLocal)
    (h : s.run lib isLocal bufs acts = some s') : SpectraReachable lib isLocal bufs mem0 s' := by
  induction acts generalizing s with
  | nil =>
      cases h
      exact hs
  | cons p acts ih =>
      obtain ⟨u, hu, hrun⟩ := Option.bind_eq_some_iff.mp h
      have hfirst : ∀ r, p.2.request = some r → ¬ r.Underlocked isLocal := fun r hr ↦
        hacts r (List.mem_filterMap.mpr ⟨p, List.mem_cons_self, hr⟩)
      refine ih (.step p.1 p.2 hs hfirst hu) (fun r hr ↦ hacts r ?_) hrun
      obtain ⟨q, hq, hrequest⟩ := List.mem_filterMap.mp hr
      exact List.mem_filterMap.mpr ⟨q, List.mem_cons_of_mem p hq, hrequest⟩

end Run

-- Two buffers of one bin each, the first one complex, the second one polar.
def twoBufs (b : Bool) : SpectralBuf := bif b then ⟨8192, 4, .polar⟩ else ⟨4096, 4, .complex⟩

theorem binsApart_twoBufs : BinsApart twoBufs := by
  intro b c hbc
  cases b <;> cases c
  · exact absurd rfl hbc
  · exact apart_of_gap (by decide +kernel) (by decide +kernel)
  · exact apart_of_gap (by decide +kernel) (by decide +kernel)
  · exact absurd rfl hbc

-- Client true converts the first buffer.  Client false wants both, is refused the first one while
-- it is being converted, and turns it back afterwards.
def twoConversions : List (Bool × SpectraAct Bool) :=
  [(true, .lock (.construct (lockSndbuf false))), (true, .lock (.access .newest)),
    (true, .lock (.access .newest)), (true, .call false .toPolarApx), (true, .access),
    (false, .lock (.construct (lockSndbuf2 true false))), (false, .lock (.access .newest)),
    (true, .access), (false, .lock (.access .newest)), (true, .access),
    (false, .lock (.access .newest)), (true, .access), (false, .lock (.access .newest)),
    (true, .access), (false, .lock (.access .newest)), (true, .lock .destroy),
    (true, .lock (.access .newest)), (true, .lock (.access .newest)),
    (false, .lock (.access .newest)), (false, .lock (.access .newest)),
    (false, .lock (.access .newest)), (false, .call false .toComplexApx), (false, .access),
    (false, .access), (false, .access), (false, .access), (false, .access)]

theorem spectra_serial_twoConversions : ∃ s : SpectraState Bool Bool,
    (SpectraState.init imaginaryMem twoBufs).run Libm.onAxes (fun _ ↦ false) twoBufs
      twoConversions = some s ∧ readBin s.mem 4096 0 = (0x250D3132, 0x3F800000) ∧
    ∃ m, performAll Libm.onAxes [.toPolarApx, .toComplexApx] (imaginaryMem, twoBufs false) =
        some (m, s.buf twoBufs false) ∧ SameBins (twoBufs false) m s.mem := by
  have hrun : ((SpectraState.init imaginaryMem twoBufs : SpectraState Bool Bool).run
      Libm.onAxes (fun _ ↦ false) twoBufs twoConversions).map
      (fun s ↦ (s.log, s.loop true, s.loop false, readBin s.mem 4096 0)) =
        some ([(false, .toPolarApx), (false, .toComplexApx)], none, none,
          0x250D3132, 0x3F800000) := by decide +kernel
  obtain ⟨s, hs, hend⟩ := Option.map_eq_some_iff.mp hrun
  rw [Prod.mk.injEq, Prod.mk.injEq, Prod.mk.injEq] at hend
  obtain ⟨hlog, htrue, hfalse, hbin⟩ := hend
  have hidle : ∀ k l, s.loop k = some l → l.buf ≠ false := by
    intro k l hl
    cases k
    · rw [hfalse] at hl
      cases hl
    · rw [htrue] at hl
      cases hl
  have hreach := SpectraReachable.init.run Libm.onAxes (fun _ ↦ false) twoBufs (by decide) hs
  obtain ⟨m, hm, hsame⟩ := (spectra_serial binsApart_twoBufs hreach).2.1 false rfl hidle
  rw [hlog] at hm
  exact ⟨s, hs, hbin, m, hm, hsame⟩

end Scnim.Dev
