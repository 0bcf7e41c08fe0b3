import LibProc.VirtClock
import LibProc.SchedRemove
import LibProc.Responses
import LibProc.Outgoing
import LibProc.XdrSafety
import LibProc.GlobalOrder
import LibProc.GlobalProgress
import LibProc.EventLoop
import LibProc.FdRuns
import LibProc.CriticalRuns
import LibProc.CriticalAlone
import LibProc.DictRoundTrip
import LibProc.DataRequest
import LibProc.AutoExit
import LibProc.VirtTime
import LibProc.LegacyCommands
import LibProc.Signals
import LibProc.WriteQueue
import LibProc.ThreadIo
import LibProc.ThreadTimers
import LibProc.ThreadTimeouts
import LibProc.ChildDeath
import LibProc.ZmqReads
import LibProc.MultiStruct
import LibProc.ConfigTree
import LibProc.ReadyRound
import LibProc.GlobalJoins
import LibProc.ReportedSize
import LibProc.ArrayTables
import LibProc.StringDicts
import LibProc.FdSlots
import LibProc.FdHeld
import LibProc.Ledgers
import LibProc.FdCleanups
import LibProc.QueueSlots
import LibProc.SchedSlots
import LibProc.SchedHandles
import LibProc.ReplyTimer
import LibProc.UnionTables
import LibProc.Bitfields
import LibProc.VisitLoops
import LibProc.DictIterate
import LibProc.Receives
import LibProc.QueuedData
import LibProc.SignalPipe
import LibProc.ParseCmd
import LibProc.ChildOutput
import LibProc.Json
import LibProc.JsonFlat
import LibProc.JsonGetters
import LibProc.HashExtract
import LibProc.Accumulation
import LibProc.LongLines
import LibProc.ConfigReader
import LibProc.Replay
import LibProc.ConfigCalls
import LibProc.DebuggerCommands
import LibProc.CleanupDir
import LibProc.FailedBuffers
import LibProc.RtDebug
import LibProc.HexText
import LibProc.ArrayScanner
import LibProc.Exchange
import LibProc.Md5Stream
import LibProc.Multicast
import LibProc.ZmqServer
import LibProc.BlockingCommand
import LibProc.Registries
import LibProc.Gpio
import LibProc.DataQuery
import LibProc.Threads
import LibProc.KeyValues
import LibProc.CommandLine
import LibProc.ProcFiles
