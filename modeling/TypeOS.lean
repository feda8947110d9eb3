import TypeOS.Heap.Runs
import TypeOS.Paging.Frames
import TypeOS.Proc.PipeEnds
import TypeOS.Proc.Slots
import TypeOS.Proc.Backed
import TypeOS.Proc.Fifo
import TypeOS.Sched.Nested
import TypeOS.Sched.OneRunning
import TypeOS.Sched.Parents
import TypeOS.Sched.Reports
import TypeOS.Fs.Straight
import TypeOS.Fs.Namespace
import TypeOS.Fs.Cpio
import TypeOS.Fs.Archive
import TypeOS.Fs.Newc
import TypeOS.Fs.Unpack
import TypeOS.Fs.Agree
import TypeOS.Fs.Whole
import TypeOS.Sys.Cwd
import TypeOS.Sys.Getdents
import TypeOS.Sys.Execve
import TypeOS.Paging.Available
import TypeOS.Paging.BootBlock
import TypeOS.Paging.EarlyUser
import TypeOS.Sys.Reach
import TypeOS.Sys.Usable
import TypeOS.Sys.KernelKept
import TypeOS.Sys.FreshPages
import TypeOS.Entry.Registers
import TypeOS.Fs.Outcome
import TypeOS.Sys.Write
import TypeOS.Entry.Fork
import TypeOS.Sys.Undo
import TypeOS.Elf.Clean
import TypeOS.Fs.Names
import TypeOS.Sys.Resolved
import TypeOS.Proc.Atomic
import TypeOS.Fs.Bounded
import TypeOS.Heap.Window
import TypeOS.Heap.Merged
import TypeOS.Sys.Dirents
import TypeOS.Elf.Initial
import TypeOS.Elf.Permissions
import TypeOS.Boot.Modules
import TypeOS.Boot.Decoded
import TypeOS.Console.Cursor
import TypeOS.Sys.Seek
import TypeOS.Console.Printf
import TypeOS.Sched.Decoding
import TypeOS.Console.GetString
import TypeOS.Paging.PhysCopy
import TypeOS.Paging.PhysRead
import TypeOS.Sys.UserString
import TypeOS.Sched.Fair
import TypeOS.Sched.KeyQueue
import TypeOS.Console.Value
import TypeOS.Sched.Wakeups
import TypeOS.Entry.Jump
import TypeOS.Entry.Descriptors
import TypeOS.Fs.Strings
import TypeOS.Heap.Contents
import TypeOS.Fs.Rootfs
import TypeOS.Console.Format
import TypeOS.Proc.Channel
import TypeOS.Sys.Getcwd
import TypeOS.Elf.Isolation
import TypeOS.Elf.Named
import TypeOS.Proc.Isolation
import TypeOS.Elf.Shared
import TypeOS.Elf.Pointers
import TypeOS.Elf.FailedExec
import TypeOS.Elf.StackFrames
import TypeOS.Elf.Fork
import TypeOS.Proc.Leftover
import TypeOS.Proc.FailedFork
import TypeOS.Sched.LostWakeups
import TypeOS.Lib.Record
import TypeOS.Sys.Stat
