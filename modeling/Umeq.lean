import Umeq.Lib.Frames
import Umeq.Lib.Intervals
import Umeq.Lib.Runs
import Umeq.Lib.Bytes
import Umeq.Lib.Width
import Umeq.Lib.LinearScan
import Umeq.Lib.AddWithCarry
import Umeq.Lib.Shifts
import Umeq.Lib.Swaps
import Umeq.Lib.Places
import Umeq.Lib.Limbs
import Umeq.Lib.Copies
import Umeq.Lib.Rounding
import Umeq.Lib.X86.Encoding
import Umeq.Lib.X86.Machine
import Umeq.Memory.Vma
import Umeq.Memory.InsertArea
import Umeq.Memory.Neighbours
import Umeq.Memory.Mmap
import Umeq.Memory.Shadow
import Umeq.Memory.Faithful
import Umeq.Memory.Requests
import Umeq.Memory.Queries
import Umeq.Memory.Cursor
import Umeq.Memory.Owners
import Umeq.Memory.Lookups
import Umeq.Memory.Pool
import Umeq.Memory.Stale
import Umeq.Memory.Searches
import Umeq.Memory.Failed
import Umeq.Memory.Brk
import Umeq.Cache.Cache
import Umeq.Cache.Log
import Umeq.Cache.Map
import Umeq.Cache.Walk
import Umeq.Loop.Loop
import Umeq.Loop.Links
import Umeq.Loop.Unlinked
import Umeq.Loop.Linking
import Umeq.Loop.Events
import Umeq.Jitter.Ir
import Umeq.Jitter.Meaning
import Umeq.Jitter.Built
import Umeq.Jitter.X8664.Backend
import Umeq.Jitter.X8664.Emit
import Umeq.Jitter.X8664.Host
import Umeq.Jitter.X8664.Lowering
import Umeq.Jitter.X8664.Lowered
import Umeq.Jitter.X8664.Run
import Umeq.Jitter.X8664.Canonical
import Umeq.Jitter.X8664.Values
import Umeq.Jitter.X8664.Simulation
import Umeq.Jitter.X8664.Correct
import Umeq.Jitter.X8664.Allocation
import Umeq.Jitter.X8664.Execute
import Umeq.Jitter.X8664.Restart
import Umeq.Jitter.X8664.Twin
import Umeq.Jitter.I386.Backend
import Umeq.Jitter.I386.Emit
import Umeq.Jitter.I386.Twin
import Umeq.Jitter.I386.Words
import Umeq.Jitter.FindInsn
import Umeq.Jitter.Fragments
import Umeq.Jitter.Reproduced
import Umeq.Jitter.Restarted
import Umeq.Arm.ItBlocks
import Umeq.Arm.Flags
import Umeq.Arm.Registers
import Umeq.Arm.Shifter
import Umeq.Arm.LoadMultiple
import Umeq.Arm.Int128
import Umeq.Arm.VectorShifts
import Umeq.Arm.ThumbMoves
import Umeq.Arm64.Exclusive
import Umeq.Arm64.Flags
import Umeq.Arm64.Registers
import Umeq.Arm64.Bitfield
import Umeq.Arm64.Extract
import Umeq.Arm64.LoadStore
import Umeq.Arm64.ScalarLoads
import Umeq.Arm64.PairLoads
import Umeq.Arm64.ZeroRegister
import Umeq.Arm64.Crc32
import Umeq.Runtime.Pthread
import Umeq.Runtime.Stdio
import Umeq.Signal.Sigaction
import Umeq.Signal.Location
import Umeq.Signal.Altstack
import Umeq.Signal.Jump
import Umeq.Signal.Transient
import Umeq.Signal.Retranslation
import Umeq.Syscall.Getdents
import Umeq.Syscall.Adapter
import Umeq.Syscall.Clean
import Umeq.Syscall.Ptrace
import Umeq.Syscall.Maps
import Umeq.Syscall.Shebang
import Umeq.Messages.Control
import Umeq.Messages.Translated
import Umeq.Messages.Vectors
import Umeq.Loader.Environment
import Umeq.Loader.Elf
import Umeq.Loader.Load
import Umeq.Loader.Auxv
import Umeq.Loader.GuestSpace
import Umeq.Loader.Undo
import Umeq.Loader.InPlace
import Umeq.Fpu.Format
import Umeq.Fpu.Macros
import Umeq.Fpu.RoundAndPack
import Umeq.Fpu.Specialize
import Umeq.Fpu.Operands
import Umeq.Fpu.Multiply
import Umeq.Fpu.AddSub
import Umeq.Fpu.Divide
import Umeq.Fpu.Arithmetic
import Umeq.Fpu.Compare
import Umeq.Fpu.Convert
import Umeq.Fpu.FromInteger
import Umeq.Fpu.ToInteger
import Umeq.Fpu.RoundToInt
import Umeq.Fpu.Wide
import Umeq.Fpu.MulAdd
import Umeq.Arm64.FloatingPoint
