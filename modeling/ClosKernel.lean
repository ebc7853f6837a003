import ClosKernel.Lib.PartialRun
import ClosKernel.Lib.LinkedStack
import ClosKernel.Lib.TextTerminal
import ClosKernel.Lib.Unscrolled
import ClosKernel.Lib.ScrolledText
import ClosKernel.Lib.PageWalk
import ClosKernel.Lib.Latch
import ClosKernel.Lib.LineEditor
import ClosKernel.Lib.RoundRobin
import ClosKernel.Lib.BoundedBuffer
import ClosKernel.Lib.Numerals
import ClosKernel.Lib.WordLoop
import ClosKernel.Lib.StateProgram
import ClosKernel.Lib.TextLines
import ClosKernel.Lib.StackMachine
import ClosKernel.Lib.InterruptController
import ClosKernel.Lib.IntervalTimer
import ClosKernel.CString
import ClosKernel.Screen
import ClosKernel.Erasing
import ClosKernel.FileSystem
import ClosKernel.Paging
import ClosKernel.Kernel
import ClosKernel.Execute
import ClosKernel.Machine
import ClosKernel.ProcessTable
import ClosKernel.Reach
import ClosKernel.KernelStack
import ClosKernel.CpuState
import ClosKernel.Fairness
import ClosKernel.Context
import ClosKernel.Preemption
import ClosKernel.Reuse
import ClosKernel.Terminals
import ClosKernel.Drivers
import ClosKernel.Printf
import ClosKernel.Format
import ClosKernel.Files
import ClosKernel.Stream
import ClosKernel.Slices
import ClosKernel.Directory
import ClosKernel.Inodes
import ClosKernel.Entries
import ClosKernel.ClockRate
import ClosKernel.Memcpy
import ClosKernel.Memset
import ClosKernel.Loading
import ClosKernel.Buffers
import ClosKernel.Arguments
import ClosKernel.CommandLine
import ClosKernel.RtcWait
import ClosKernel.Keyboard
import ClosKernel.Console
import ClosKernel.Acknowledge
import ClosKernel.Cursor
import ClosKernel.LineRows
import ClosKernel.Commands
import ClosKernel.Pieces
import ClosKernel.LineInput
import ClosKernel.Echo
import ClosKernel.KeyText
import ClosKernel.Memmove
import ClosKernel.PrivateMemory
import ClosKernel.Gates
import ClosKernel.Interrupts
import ClosKernel.SystemCall
import ClosKernel.Controllers
import ClosKernel.Boot
import ClosKernel.Timer
import ClosKernel.Programs.Support
import ClosKernel.Programs.Cat
import ClosKernel.Programs.Grep
import ClosKernel.Programs.Shell
import ClosKernel.Programs.Syserr
import ClosKernel.Programs.Counter
