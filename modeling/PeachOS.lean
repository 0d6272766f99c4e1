import PeachOS.Lib.Run
import PeachOS.Lib.BlockRange
import PeachOS.Lib.CInt
import PeachOS.Disk.Streamer
import PeachOS.Fat.Chain
import PeachOS.Lib.Lookup
import PeachOS.Fat.ChainWalk
import PeachOS.Fat.Read
import PeachOS.Strings
import PeachOS.Fat.Directory
import PeachOS.Fat.Resolve
import PeachOS.Fat.RootScan
import PeachOS.Fat.Mount
import PeachOS.Fat.Subdirectory
import PeachOS.Fat.FailedLoad
import PeachOS.Fat.PathLookup
import PeachOS.Fat.Names
import PeachOS.File.Descriptor
import PeachOS.Fat.File
import PeachOS.Fat.Position
import PeachOS.Fat.Division
import PeachOS.Fat.BytePosition
import PeachOS.File.Lifetime
import PeachOS.File.Validity
import PeachOS.File.NewDescriptor
import PeachOS.Memory.HeapSafety
import PeachOS.Memory.LiveRanges
import PeachOS.Memory.FirstFit
import PeachOS.Memory.Blocks
import PeachOS.Memory.Paging
import PeachOS.Memory.Pool
import PeachOS.Memory.Bytes
import PeachOS.Lib.Overlay
import PeachOS.Loader.Elf
import PeachOS.Loader.Segments
import PeachOS.Loader.HeaderReads
import PeachOS.Loader.LoadOnly
import PeachOS.Lib.Candidate
import PeachOS.Loader.Extents
import PeachOS.File.PathParser
import PeachOS.File.PathBlocks
import PeachOS.File.Open
import PeachOS.Gdt
import PeachOS.Lib.Ring
import PeachOS.Keyboard
import PeachOS.Lib.Linked
import PeachOS.Lib.DoublyLinked
import PeachOS.Task.Sched
import PeachOS.Task.TaskList
import PeachOS.Task.TaskLinks
import PeachOS.Task.RoundRobin
import PeachOS.Task.SchedSafety
import PeachOS.Task.TaskHeap
import PeachOS.Task.TaskHeapSched
import PeachOS.Task.ProcessTable
import PeachOS.Task.Syscall
import PeachOS.Task.Kernel
import PeachOS.Lib.ByteMemory
import PeachOS.Lib.Machine
import PeachOS.Task.Switch
import PeachOS.Task.Context
import PeachOS.Task.LoadFailure
import PeachOS.Task.LoadSuccess
import PeachOS.Task.Teardown
import PeachOS.Task.Isolation
import PeachOS.Task.HeapUsers
import PeachOS.Task.StrayFree
import PeachOS.Lib.ByteStrings
import PeachOS.Lib.Loop
import PeachOS.Lib.Fields
import PeachOS.Shell.Strtok
import PeachOS.Shell.StrtokBuffer
import PeachOS.Shell.CommandLine
import PeachOS.Shell.ArgumentWalks
import PeachOS.Shell.Running
import PeachOS.Shell.CommandList
import PeachOS.Shell.InjectedArguments
import PeachOS.Shell.SystemRun
import PeachOS.Shell.ProgramArguments
import PeachOS.Shell.ParseHistory
import PeachOS.Shell.LeakedArguments
import PeachOS.Lib.Buffer
import PeachOS.Lib.Decimal
import PeachOS.Stdlib.Itoa
import PeachOS.Stdlib.Printf
import PeachOS.Stdlib.Readline
import PeachOS.Terminal
import PeachOS.StringCopy
import PeachOS.Task.AddressSpace
import PeachOS.Task.CopyString
import PeachOS.Task.ProgramPath
import PeachOS.Lib.Simulation
import PeachOS.Memory.KernelHeap
import PeachOS.Fat.OpenFile
import PeachOS.Fat.Image
import PeachOS.Fat.VolumeFiles
import PeachOS.Disk.Ata
import PeachOS.Disk.BootLoader
import PeachOS.Idt
import PeachOS.DivideError
import PeachOS.KeyboardDriver
import PeachOS.Task.SystemCallStubs
import PeachOS.Screen
import PeachOS.Stdlib.LineOnScreen
import PeachOS.Disk.AtaStreamer
import PeachOS.Task.PrintCall
import PeachOS.Stdlib.PrintfOnScreen
import PeachOS.Shell.UncopiedCommand
import PeachOS.Shell.UnopenedProgram
