import EbpfJit.Lib.Transition
import EbpfJit.Lib.ByteMemory
import EbpfJit.Lib.CountedLoop
import EbpfJit.Lib.Runs
import EbpfJit.Lib.Ir
import EbpfJit.Lib.IrRun
import EbpfJit.Lib.IrBuilder
import EbpfJit.Lib.IrSsa
import EbpfJit.CodeGen
import EbpfJit.Compiler
import EbpfJit.Split
import EbpfJit.Shape
import EbpfJit.Layout
import EbpfJit.Accept
import EbpfJit.WellFormed
import EbpfJit.Ssa
import EbpfJit.Termination
import EbpfJit.Failures
import EbpfJit.Targets
import EbpfJit.Encodings
import EbpfJit.Lib.IrSpec
import EbpfJit.Core
import EbpfJit.Effect
import EbpfJit.CallStack
import EbpfJit.Boundary
import EbpfJit.Vm
import EbpfJit.Refinement
import EbpfJit.Calls
import EbpfJit.CallReturn
import EbpfJit.FramePointer
import EbpfJit.StackFrames
import EbpfJit.Interpreter
import EbpfJit.Outcomes
import EbpfJit.Forward
import EbpfJit.Isa
import EbpfJit.Preservation
import EbpfJit.Emitted
import EbpfJit.Atomic
import EbpfJit.Division
import EbpfJit.Bounds
import EbpfJit.ReturnBlocks
import EbpfJit.Registry
import EbpfJit.Endian
import EbpfJit.Lib.Interference
import EbpfJit.Lib.Reduction
import EbpfJit.CmpXchg
import EbpfJit.Correctness
import EbpfJit.Safe
import EbpfJit.Build
import EbpfJit.MapValues
import EbpfJit.Lib.Numeral
import EbpfJit.Baremetal.Uart
import EbpfJit.Baremetal.Printk
import EbpfJit.Baremetal.Printf
import EbpfJit.Baremetal.Packets
import EbpfJit.Baremetal.Runtime
import EbpfJit.Lib.Threads
import EbpfJit.Concurrency
import EbpfJit.Linearization
