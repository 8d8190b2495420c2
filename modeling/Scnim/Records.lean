import Scnim.Machine.Layout

/-!
# The records shared with the server

Every record the plugins and the server exchange is declared twice: in C (`dev/`) and again in Nim
(`scnim/`).  Both declarations are given here field by field and laid out by the same rule.
-/

open Machine

namespace Scnim

/-- The field names of the records, one for each name the sources use. -/
inductive FieldName
  -- World
  | hw | ft | mBufCounter | mNumAudioBusChannels | mNumControlBusChannels | mAudioBus | mControlBus
  | mAudioBusTouched | mControlBusTouched | mNumSndBufs | mSndBufs | mSndBufsNonRealTimeMirror
  | mSndBufUpdates | mTopGroup | mFullRate | mNumRGens | mRGen | mNumGraphs | mNumGroups
  | mNRTLock | mNumSharedControls | mSharedControls | mRealTime | mRunning | mDumpOSC | mDriverLock
  | mVerbosity | mErrorNotification | mLocalErrorNotification | mRendezvous | mRestrictedPath
  -- Rate
  | mSampleRate | mSampleDur | mBufDuration | mBufRate | mSlopeFactor | mRadiansPerSample
  | mBufLength | mFilterLoops | mFilterRemain | mFilterSlope
  -- Node
  | mID | mHash | mWorld | mDef | mCalcFunc | mPrev | mNext | mParent | mIsGroup
  -- Graph
  | mNode | mNumWires | mWire | mNumControls | mControls | mMapControls | mAudioBusOffsets
  | mControlRates | mNumUnits | mUnits | mNumCalcUnits | mCalcUnits | mSampleOffset
  | mLocalAudioBusUnit | mLocalControlBusUnit | mSubsampleOffset | mLocalSndBufs | localBufNum
  | localMaxBufNum
  -- Wire
  | mFromUnit | mCalcRate | mBuffer | mScalarValue
  -- FifoMsg
  | mPerformFunc | mFreeFunc | mData
  -- SF_INFO
  | frames | samplerate | channels | format | sections | seekable
  -- SndBuf
  | sampledur | data | samples | mask | mask1 | coord | sndfile
  -- Unit
  | mUnitDef | mNumInputs | mNumOutputs | mSpecialIndex | mParentIndex | mDone | mInput | mOutput
  | mRate | mExtensions | mInBuf | mOutBuf
  -- InterfaceTable
  | mSineSize | mSineWavetable | mSine | mCosecant | fPrint | fRanSeed | fDefineUnit
  | fDefinePlugInCmd | fDefineUnitCmd | fDefineBufGen | fClearUnitOutputs | fNRTAlloc | fNRTRealloc
  | fNRTFree | fRTAlloc | fRTRealloc | fRTFree | fNodeRun | fNodeEnd | fSendTrigger
  | fSendNodeReply | fSendMsgFromRT | fSendMsgToRT | fSndFileFormatInfoFromStrings | fGetNode
  | fGetGraph | fNRTLock | fNRTUnlock | mUnused0 | fGroup_DeleteAll | fDoneAction
  | fDoAsynchronousCommand | fBufAlloc | fSCfftCreate | fSCfftDoFFT | fSCfftDoIFFT | fSCfftDestroy
  | fGetScopeBuffer | fPushScopeBuffer | fReleaseScopeBuffer
  -- the fields a plugin adds to its own unit type
  | added (name : String)
  deriving DecidableEq

open FieldName

abbrev FieldTy := Ty FieldName

/-! ## 1. The C declarations -/

namespace Dev

-- A data pointer or a function pointer.
def pointer : FieldTy := .scalar .pointer
def double : FieldTy := .scalar (.float 8)
def float : FieldTy := .scalar (.float 4)
def int : FieldTy := .scalar (.sint 4)
def unsignedInt : FieldTy := .scalar (.uint 4)
def int16 : FieldTy := .scalar (.sint 2)
def int32 : FieldTy := .scalar (.sint 4)
def int64 : FieldTy := .scalar (.sint 8)
def uint32 : FieldTy := .scalar (.uint 4)
def bool : FieldTy := .scalar .bool

-- `dev/SC_Rate.h`
def rate : FieldTy := .record
  [(mSampleRate, double), (mSampleDur, double), (mBufDuration, double), (mBufRate, double),
   (mSlopeFactor, double), (mRadiansPerSample, double), (mBufLength, int), (mFilterLoops, int),
   (mFilterRemain, int), (mFilterSlope, double)]

-- `dev/SC_SndBuf.h`
def sndBuf : FieldTy := .record
  [(samplerate, double), (sampledur, double), (data, pointer), (channels, int), (samples, int),
   (frames, int), (mask, int), (mask1, int), (coord, int), (sndfile, pointer)]

-- `dev/SC_World.h`
def world : FieldTy := .record
  [(hw, pointer), (ft, pointer), (mSampleRate, double), (mBufLength, int), (mBufCounter, int),
   (mNumAudioBusChannels, uint32), (mNumControlBusChannels, uint32), (mNumInputs, uint32),
   (mNumOutputs, uint32), (mAudioBus, pointer), (mControlBus, pointer),
   (mAudioBusTouched, pointer), (mControlBusTouched, pointer), (mNumSndBufs, uint32),
   (mSndBufs, pointer), (mSndBufsNonRealTimeMirror, pointer), (mSndBufUpdates, pointer),
   (mTopGroup, pointer), (mFullRate, rate), (mBufRate, rate), (mNumRGens, uint32),
   (mRGen, pointer), (mNumUnits, uint32), (mNumGraphs, uint32), (mNumGroups, uint32),
   (mSampleOffset, int), (mNRTLock, pointer), (mNumSharedControls, uint32),
   (mSharedControls, pointer), (mRealTime, bool), (mRunning, bool), (mDumpOSC, int),
   (mDriverLock, pointer), (mSubsampleOffset, float), (mVerbosity, int),
   (mErrorNotification, int), (mLocalErrorNotification, int), (mRendezvous, bool),
   (mRestrictedPath, pointer)]

-- `dev/SC_Node.h`
def node : FieldTy := .record
  [(mID, int32), (mHash, int32), (mWorld, pointer), (mDef, pointer), (mCalcFunc, pointer),
   (mPrev, pointer), (mNext, pointer), (mParent, pointer), (mIsGroup, int32)]

-- `dev/SC_Graph.h`
def graph : FieldTy := .record
  [(mNode, node), (mNumWires, uint32), (mWire, pointer), (mNumControls, uint32),
   (mControls, pointer), (mMapControls, pointer), (mAudioBusOffsets, pointer),
   (mControlRates, pointer), (mNumUnits, uint32), (mUnits, pointer), (mNumCalcUnits, uint32),
   (mCalcUnits, pointer), (mSampleOffset, int), (mRGen, pointer), (mLocalAudioBusUnit, pointer),
   (mLocalControlBusUnit, pointer), (mSubsampleOffset, float), (mLocalSndBufs, pointer),
   (localBufNum, int), (localMaxBufNum, int)]

-- `dev/SC_Wire.h`
def wire : FieldTy := .record
  [(mFromUnit, pointer), (mCalcRate, int32), (mBuffer, pointer), (mScalarValue, float)]

-- `dev/SC_FifoMsg.h`
def fifoMsg : FieldTy := .record
  [(mPerformFunc, pointer), (mFreeFunc, pointer), (mData, pointer), (mWorld, pointer)]

-- `dev/sndfile.h`
def sfInfo : FieldTy := .record
  [(frames, int64), (samplerate, int), (channels, int), (format, int), (sections, int),
   (seekable, int)]

-- `dev/SC_Unit.h`
def unit : FieldTy := .record
  [(mWorld, pointer), (mUnitDef, pointer), (mParent, pointer), (mNumInputs, uint32),
   (mNumOutputs, uint32), (mCalcRate, int16), (mSpecialIndex, int16), (mParentIndex, int16),
   (mDone, int16), (mInput, pointer), (mOutput, pointer), (mRate, pointer),
   (mExtensions, pointer), (mInBuf, pointer), (mOutBuf, pointer), (mCalcFunc, pointer),
   (mBufLength, int)]

-- `dev/SC_InterfaceTable.h`
def interfaceTable : FieldTy := .record
  [(mSineSize, unsignedInt), (mSineWavetable, pointer), (mSine, pointer), (mCosecant, pointer),
   (fPrint, pointer), (fRanSeed, pointer), (fDefineUnit, pointer), (fDefinePlugInCmd, pointer),
   (fDefineUnitCmd, pointer), (fDefineBufGen, pointer), (fClearUnitOutputs, pointer),
   (fNRTAlloc, pointer), (fNRTRealloc, pointer), (fNRTFree, pointer), (fRTAlloc, pointer),
   (fRTRealloc, pointer), (fRTFree, pointer), (fNodeRun, pointer), (fNodeEnd, pointer),
   (fSendTrigger, pointer), (fSendNodeReply, pointer), (fSendMsgFromRT, pointer),
   (fSendMsgToRT, pointer), (fSndFileFormatInfoFromStrings, pointer), (fGetNode, pointer),
   (fGetGraph, pointer), (fNRTLock, pointer), (fNRTUnlock, pointer), (mUnused0, bool),
   (fGroup_DeleteAll, pointer), (fDoneAction, pointer), (fDoAsynchronousCommand, pointer),
   (fBufAlloc, pointer), (fSCfftCreate, pointer), (fSCfftDoFFT, pointer),
   (fSCfftDoIFFT, pointer), (fSCfftDestroy, pointer), (fGetScopeBuffer, pointer),
   (fPushScopeBuffer, pointer), (fReleaseScopeBuffer, pointer)]

end Dev

/-! ## 2. The Nim declarations -/

namespace Nim

def cdouble : FieldTy := .scalar (.float 8)
def cfloat : FieldTy := .scalar (.float 4)
def cint : FieldTy := .scalar (.sint 4)
def cuint : FieldTy := .scalar (.uint 4)
def int16 : FieldTy := .scalar (.sint 2)
def int32 : FieldTy := .scalar (.sint 4)
def uint32 : FieldTy := .scalar (.uint 4)
def bool : FieldTy := .scalar .bool
-- `pointer`, `cstring` and every `ptr T`.
def pointer : FieldTy := .scalar .pointer
-- A `proc` type declared `{.cdecl.}`.
def cdecl : FieldTy := .scalar .pointer
-- A `proc` type without a calling convention.
def closure : FieldTy := .scalar .closure

-- `scnim/Rate.nim`
def rate : FieldTy := .record
  [(mSampleRate, cdouble), (mSampleDur, cdouble), (mBufDuration, cdouble), (mBufRate, cdouble),
   (mSlopeFactor, cdouble), (mRadiansPerSample, cdouble), (mBufLength, cint),
   (mFilterLoops, cint), (mFilterRemain, cint), (mFilterSlope, cdouble)]

-- `scnim/SndBuf.nim`
def sndBuf : FieldTy := .record
  [(samplerate, cdouble), (sampledur, cdouble), (data, pointer), (channels, cint),
   (samples, cint), (frames, cint), (mask, cint), (mask1, cint), (coord, cint),
   (sndfile, pointer)]

-- `scnim/World.nim`; `hw`, `ft` and `mTopGroup` are module variables there.
def world : FieldTy := .record
  [(mSampleRate, cdouble), (mBufLength, cint), (mBufCounter, cint),
   (mNumAudioBusChannels, uint32), (mNumControlBusChannels, uint32), (mNumInputs, uint32),
   (mNumOutputs, uint32), (mAudioBus, pointer), (mControlBus, pointer),
   (mAudioBusTouched, pointer), (mControlBusTouched, pointer), (mNumSndBufs, uint32),
   (mSndBufs, pointer), (mSndBufsNonRealTimeMirror, pointer), (mSndBufUpdates, pointer),
   (mFullRate, rate), (mBufRate, rate), (mNumRGens, uint32), (mRGen, pointer),
   (mNumUnits, uint32), (mNumGraphs, uint32), (mNumGroups, uint32), (mSampleOffset, cint),
   (mNRTLock, pointer), (mNumSharedControls, uint32), (mSharedControls, pointer),
   (mRealTime, bool), (mRunning, bool), (mDumpOSC, cint), (mDriverLock, pointer),
   (mSubsampleOffset, cfloat), (mVerbosity, cint), (mErrorNotification, cint),
   (mLocalErrorNotification, cint), (mRendezvous, bool), (mRestrictedPath, pointer)]

-- `scnim/Node.nim`; the five pointers but `mCalcFunc` are module variables there, and
-- `NodeCalcFunc` has no calling convention.
def node : FieldTy := .record
  [(mID, int32), (mHash, int32), (mCalcFunc, closure), (mIsGroup, int32)]

-- `scnim/Graph.nim`
def graph : FieldTy := .record
  [(mNode, node), (mNumWires, uint32), (mNumControls, uint32), (mControls, pointer),
   (mMapControls, pointer), (mAudioBusOffsets, pointer), (mControlRates, pointer),
   (mNumUnits, uint32), (mNumCalcUnits, uint32), (mSampleOffset, cint),
   (mSubsampleOffset, cfloat), (mLocalSndBufs, pointer), (localBufNum, cint),
   (localMaxBufNum, cint)]

-- `scnim/Wire.nim`
def wire : FieldTy := .record
  [(mCalcRate, int32), (mBuffer, pointer), (mScalarValue, cfloat)]

-- `scnim/FifoMsg.nim`; `mWorld` is a module variable there.
def fifoMsg : FieldTy := .record
  [(mPerformFunc, closure), (mFreeFunc, closure), (mData, pointer)]

-- `scnim/sndfile_stub.nim`, where `sf_count_t` is `cint`.
def sfInfo : FieldTy := .record
  [(frames, cint), (samplerate, cint), (channels, cint), (format, cint), (sections, cint),
   (seekable, cint)]

-- `scnim/Unit.nim`
def unit : FieldTy := .record
  [(mWorld, pointer), (mUnitDef, pointer), (mParent, pointer), (mNumInputs, uint32),
   (mNumOutputs, uint32), (mCalcRate, int16), (mSpecialIndex, int16), (mParentIndex, int16),
   (mDone, int16), (mInput, pointer), (mOutput, pointer), (mRate, pointer),
   (mExtensions, pointer), (mInBuf, pointer), (mOutBuf, pointer), (mCalcFunc, cdecl),
   (mBufLength, cint)]

-- `scnim/InterfaceTable.nim`
def interfaceTable : FieldTy := .record
  [(mSineSize, cuint), (mSineWavetable, pointer), (mSine, pointer), (mCosecant, pointer),
   (fPrint, cdecl), (fRanSeed, cdecl), (fDefineUnit, cdecl), (fDefinePlugInCmd, cdecl),
   (fDefineUnitCmd, cdecl), (fDefineBufGen, cdecl), (fClearUnitOutputs, cdecl),
   (fNRTAlloc, cdecl), (fNRTRealloc, cdecl), (fNRTFree, cdecl), (fRTAlloc, cdecl),
   (fRTRealloc, cdecl), (fRTFree, cdecl), (fNodeRun, cdecl), (fNodeEnd, cdecl),
   (fSendTrigger, cdecl), (fSendNodeReply, cdecl), (fSendMsgFromRT, cdecl),
   (fSendMsgToRT, cdecl), (fSndFileFormatInfoFromStrings, cdecl), (fGetNode, cdecl),
   (fGetGraph, cdecl), (fNRTLock, cdecl), (fNRTUnlock, cdecl), (mUnused0, bool),
   (fGroup_DeleteAll, cdecl), (fDoneAction, cdecl), (fDoAsynchronousCommand, cdecl),
   (fBufAlloc, cdecl), (fSCfftCreate, cdecl), (fSCfftDoFFT, cdecl), (fSCfftDoIFFT, cdecl),
   (fSCfftDestroy, cdecl), (fGetScopeBuffer, cdecl), (fPushScopeBuffer, cdecl),
   (fReleaseScopeBuffer, cdecl)]

end Nim

example : Dev.world.size = 368 ∧ Nim.world.size = 344 := by decide +kernel
example : Dev.node.size = 64 ∧ Nim.node.size = 32 := by decide +kernel

end Scnim
