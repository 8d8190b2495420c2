import Scnim.Machine.Memory
import Scnim.Machine.Layout
import Scnim.Records
import Scnim.ServerState
import Scnim.Exchange
import Scnim.PtrMath
import Scnim.Machine.Elements
import Scnim.ArrayView
import Scnim.ExampleUGens
import Scnim.SignalBuffers
import Scnim.Plugin
import Scnim.NextCall
import Scnim.GraphRun
import Scnim.Machine.RWLock
import Scnim.BufferLock
import Scnim.BufferLockSafety
import Scnim.BufferLockProgress
import Scnim.Machine.Clip
import Scnim.Machine.Float
import Scnim.World
import Scnim.SndBuf
import Scnim.BoundsMacros
import Scnim.Machine.Atomic
import Scnim.SpinLock
import Scnim.SpinBufferLock
import Scnim.SpinBufferLockProgress
import Scnim.Machine.Mixing
import Scnim.Hash
import Scnim.RGen
import Scnim.Machine.FloatRound
import Scnim.RGenDraws
import Scnim.Machine.FloatApprox
import Scnim.Lookup
import Scnim.Signals
import Scnim.Polar
import Scnim.Machine.Plane
import Scnim.PolarApprox
import Scnim.Spectrum
import Scnim.DevBounds
import Scnim.BufferChoice
import Scnim.SharedSpectra
