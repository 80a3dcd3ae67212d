import Ecen5623.Library.SlotSchedule
import Ecen5623.Library.PeriodicTasks
import Ecen5623.Library.Demand
import Ecen5623.Library.FixedPriority
import Ecen5623.Library.DeadlineDriven
import Ecen5623.Library.WorkAhead
import Ecen5623.Library.Layout
import Ecen5623.Library.UtilisationBound
import Ecen5623.Library.LockedSections
import Ecen5623.Library.Sieving
import Ecen5623.Library.DecimalText
import Ecen5623.Feasibility.Agreement
import Ecen5623.Feasibility.Termination
import Ecen5623.Feasibility.UtilisationBound
import Ecen5623.Feasibility.Wraparound
import Ecen5623.Feasibility.Reads
import Ecen5623.Schedule.Engine
import Ecen5623.Schedule.Trace
import Ecen5623.Schedule.DeadlineDriven
import Ecen5623.Schedule.RateMonotonic
import Ecen5623.Schedule.Horizon
import Ecen5623.Schedule.MissCount
import Ecen5623.Schedule.Statistics
import Ecen5623.Schedule.Chart
import Ecen5623.Schedule.ArgumentOrder
import Ecen5623.Schedule.Invariant
import Ecen5623.Schedule.Verdict
import Ecen5623.Schedule.Optimality
import Ecen5623.Deadlock.Timeout
import Ecen5623.Deadlock.Safety
import Ecen5623.Deadlock.Progress
import Ecen5623.Deadlock.OppositeOrder
import Ecen5623.Inversion.Services
import Ecen5623.Inversion.Stages
import Ecen5623.Inversion.Blocking
import Ecen5623.Inversion.Outcome
import Ecen5623.Simplethread.IncDec
import Ecen5623.Mutex.SumsPriorities
import Ecen5623.Mutex.Timestamp
import Ecen5623.Ecc.Ecclib
import Ecen5623.Ecc.Classify
import Ecen5623.Ecc.ReadBack
import Ecen5623.Hamming.Syndrome
import Ecen5623.Hamming.Placement
import Ecen5623.Hamming.MemoryWord
import Ecen5623.Hamming.CheckBits
import Ecen5623.Hamming.Register
import Ecen5623.Hamming.Scrubbing
import Ecen5623.Hamming.Errors
import Ecen5623.Clock.TimespecSubtract
import Ecen5623.Clock.DeltaT
import Ecen5623.Clock.Memlog
import Ecen5623.Clock.LogLines
import Ecen5623.Clock.Jitter
import Ecen5623.Clock.FrameProfile
import Ecen5623.Capture.Transformation
import Ecen5623.Capture.Sharpen
import Ecen5623.Capture.SharpenBounds
import Ecen5623.Capture.Release
import Ecen5623.Capture.DriverQueue
import Ecen5623.Capture.Motion
import Ecen5623.Capture.TickReports
import Ecen5623.Capture.ScanRing
import Ecen5623.Capture.WriteoutQueue
import Ecen5623.Capture.System
import Ecen5623.Capture.Detection
import Ecen5623.Capture.Selection
import Ecen5623.Capture.Output
import Ecen5623.Capture.Teardown
import Ecen5623.Capture.Lifetime
import Ecen5623.Capture.ImageFiles
import Ecen5623.Pipeline.Channel
import Ecen5623.Pipeline.Threads
import Ecen5623.Pipeline.Conservation
import Ecen5623.Pipeline.Shutdown
import Ecen5623.Pipeline.Provided
import Ecen5623.Pipeline.Stranding
import Ecen5623.Pipeline.Completion
import Ecen5623.Pipeline.HeapQueue
import Ecen5623.Clock.ServiceRates
import Ecen5623.Exercise1.FibTest
import Ecen5623.Exercise1.Sequencer
import Ecen5623.Sieve.Eratosthenes
import Ecen5623.Sieve.Threads
import Ecen5623.Sieve.Locking
