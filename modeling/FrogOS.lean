import FrogOS.Lib.StepSystem
import FrogOS.Lib.RingBuffer
import FrogOS.Lib.ByteMemory
import FrogOS.Heap
import FrogOS.Process
import FrogOS.ProcessContext
import FrogOS.ProcessCreate
import FrogOS.SetupProcess
import FrogOS.RunQueueSafety
import FrogOS.ContextSwitch
import FrogOS.Syscall
import FrogOS.ProcessLoss
import FrogOS.RoundRobin
import FrogOS.Console
import FrogOS.Terminal
import FrogOS.ConsolePreempt
import FrogOS.TimerInterrupt
import FrogOS.Boot
import FrogOS.Sleep
import FrogOS.Accounting
import FrogOS.Lib.ExchangeSort
import FrogOS.SleepQueue
import FrogOS.HandlerChain
import FrogOS.InstallHandler
import FrogOS.Lib.X86
import FrogOS.SyscallEntry
import FrogOS.InterruptEntry
import FrogOS.SyscallMachine
import FrogOS.SyscallRegisters
import FrogOS.Lib.PagedMemory
import FrogOS.Lib.Paging
import FrogOS.Stage2Loader
import FrogOS.Stage2Routines
import FrogOS.Stage2Paging
import FrogOS.LoadImage
import FrogOS.RunQueue
import FrogOS.Lib.SlotTable
import FrogOS.Memcmp
import FrogOS.DescriptorTables
import FrogOS.Lib.LinkArray
import FrogOS.Mkfs
import FrogOS.FreeLists
import FrogOS.Lib.RealMode
import FrogOS.BootSector
import FrogOS.BootRoutines
import FrogOS.BootCopy
import FrogOS.Vsnprintf
import FrogOS.FormatText
import FrogOS.FormatOutput
import FrogOS.FormatSyntax
import FrogOS.Snprintf
import FrogOS.ConsoleOutput
import FrogOS.IntegerText
import FrogOS.IntegerReading
import FrogOS.Udivmoddi4
import FrogOS.UserTask
import FrogOS.FormatScan
import FrogOS.Diagnostics
import FrogOS.Dump
import FrogOS.UserTaskRun
import FrogOS.BootProtected
import FrogOS.BootChain
import FrogOS.BoundedWaiting
import FrogOS.SleepLateness
