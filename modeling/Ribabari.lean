import Ribabari.Foundation.TransitionSystem
import Ribabari.Foundation.FairRuns
import Ribabari.Foundation.LogReplay
import Ribabari.Foundation.FirstMatch
import Ribabari.Foundation.ReferenceCount
import Ribabari.Foundation.CountingSemaphore
import Ribabari.Foundation.SweepArm
import Ribabari.Foundation.DueCalendar
import Ribabari.Foundation.ListCursor
import Ribabari.Foundation.DoublyLinked
import Ribabari.Foundation.DemandPrefix
import Ribabari.Foundation.FifoQueue
import Ribabari.Foundation.AmortisedCost
import Ribabari.Foundation.ServedQueue
import Ribabari.Foundation.GatedQueue
import Ribabari.Foundation.CLibrary
import Ribabari.Model.ProcessRecords
import Ribabari.Model.LinkedList
import Ribabari.Model.ListFrames
import Ribabari.Model.ListFamily
import Ribabari.Model.ElapsedTime
import Ribabari.Model.SemaphoreTable
import Ribabari.Model.SegmentMemory
import Ribabari.Model.KernelState
import Ribabari.Model.Dispatch
import Ribabari.Model.DiskAndFiles
import Ribabari.Model.KernelEvents
import Ribabari.Model.CpuLoop
import Ribabari.Model.DiskThreads
import Ribabari.Model.LifecycleThreads
import Ribabari.Model.LogViews
import Ribabari.Model.ProgramFile
import Ribabari.Abstract.QueueBoard
import Ribabari.Abstract.QueueRefinement
import Ribabari.Abstract.BoardInvariants
import Ribabari.Abstract.LifeCycle
import Ribabari.Abstract.ViewGate
import Ribabari.Model.HeapBoard
import Ribabari.Kernel.RecordFrame
import Ribabari.Kernel.Placement
import Ribabari.Abstract.HeapRefinement
import Ribabari.Kernel.StateField
import Ribabari.Kernel.OpenFiles
import Ribabari.Memory.PagedCode
import Ribabari.Memory.RemainingMemory
import Ribabari.Memory.ByteSizes
import Ribabari.Memory.SwapPass
import Ribabari.Memory.SegmentListSize
import Ribabari.Memory.UsedPages
import Ribabari.Kernel.ProgramLedger
import Ribabari.Kernel.CodeMemory
import Ribabari.Kernel.SemaphoreAccounts
import Ribabari.Kernel.SemaphoreNames
import Ribabari.Kernel.GrantOrder
import Ribabari.Kernel.MutualExclusion
import Ribabari.Kernel.DeadlockFreedom
import Ribabari.Kernel.InstructionFetch
import Ribabari.Kernel.CpuGuarantees
import Ribabari.Kernel.RemainingTime
import Ribabari.Kernel.EvaluationTime
import Ribabari.Kernel.StartPriority
import Ribabari.Kernel.HighQueueWait
import Ribabari.Kernel.FinishFrame
import Ribabari.Kernel.LifecycleTables
import Ribabari.Kernel.SegmentOwners
import Ribabari.Disk.ArmSweep
import Ribabari.Disk.Turnaround
import Ribabari.Disk.RequestTracks
import Ribabari.Disk.WakeUps
import Ribabari.Disk.NodeLives
import Ribabari.Disk.ResolvePass
import Ribabari.Kernel.LogEntries
import Ribabari.Kernel.RecordGrowth
import Ribabari.Kernel.ProcessLives
import Ribabari.Kernel.ProcessorShare
import Ribabari.Loader.ProgramRoundTrip
import Ribabari.Loader.CodeLength
import Ribabari.Loader.InstructionGrammar
import Ribabari.Loader.LineEndings
import Ribabari.Loader.SemaphoreLine
import Ribabari.Loader.ResolvedNames
import Ribabari.Kernel.NoFaults
import Ribabari.Kernel.WorkLeft
import Ribabari.Disk.ElevatorOrder
import Ribabari.Disk.WalkBound
import Ribabari.Abstract.DiskService
import Ribabari.Kernel.Completion
import Ribabari.Kernel.Quiescence
import Ribabari.Kernel.NoStarvation
import Ribabari.Kernel.WaitersReturn
import Ribabari.Kernel.LifecyclePlaces
import Ribabari.Kernel.LifecycleFiles
import Ribabari.Terminal.LogOrder
import Ribabari.Terminal.ProcessView
import Ribabari.Terminal.IoAudit
import Ribabari.Terminal.LogTotals
import Ribabari.Terminal.ResourceAudit
import Ribabari.Terminal.ProgramOutput
import Ribabari.Terminal.TextMeaning
import Ribabari.Terminal.ViewTitles
