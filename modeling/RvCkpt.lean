import RvCkpt.Recorder.Fidelity
import RvCkpt.Recorder.Visited
import RvCkpt.Recorder.Segmentation
import RvCkpt.Recorder.StoreCheck
import RvCkpt.Parse.InjectSpec
import RvCkpt.Parse.LogAgree
import RvCkpt.Loader.ReplaySpec
import RvCkpt.Loader.Readable
import RvCkpt.Isa.Hidden
import RvCkpt.Isa.Correct32
import RvCkpt.Stub.Substitute
import RvCkpt.Asm.Compress
import RvCkpt.Jit.Lifetime
import RvCkpt.Stub.Placed
import RvCkpt.Lib.BitField
import RvCkpt.Mmu.Access
import RvCkpt.Mmu.Dirty
import RvCkpt.Mmu.Transparent
import RvCkpt.Priv.Csr
import RvCkpt.Priv.Delivery
import RvCkpt.Priv.Machine
import RvCkpt.Asm.Model
import RvCkpt.Emu.InstCache
import RvCkpt.Emu.Proxy
import RvCkpt.Lib.LazyBitmap
import RvCkpt.Meta.Bitmask
import RvCkpt.Meta.Switch
import RvCkpt.Meta.SwitchSpec
import RvCkpt.Tracker.Bitmap
import RvCkpt.Tracker.Guest
import RvCkpt.Tracker.GuestSpec
import RvCkpt.Emu.Reserved
import RvCkpt.Lib.RangeList
import RvCkpt.Lib.WhileLoop
import RvCkpt.Mmu.FetchSpec
import RvCkpt.Mmu.OutcomeSpec
import RvCkpt.Mmu.ProxyAmo
import RvCkpt.Mmu.WalkSpec
import RvCkpt.Parse.BranchReach
import RvCkpt.Parse.FreeListSpec
import RvCkpt.Parse.Process
import RvCkpt.Parse.ProcessSpec
import RvCkpt.Abi.Calls
import RvCkpt.Abi.Effects
import RvCkpt.Abi.Records
import RvCkpt.Abi.RecordsSpec
import RvCkpt.Asm.Assembler
import RvCkpt.Emu.LoadImm
import RvCkpt.Priv.FcsrViews
import RvCkpt.Asm.Pseudo
import RvCkpt.Jit.RunLoop
import RvCkpt.Jit.Recording
import RvCkpt.Lib.Tally
import RvCkpt.Recorder.Counters
import RvCkpt.Recorder.Reports
import RvCkpt.Parse.BlockVector
import RvCkpt.Jit.Host
import RvCkpt.Jit.LoadStore
import RvCkpt.Jit.LoadStoreSpec
import RvCkpt.Jit.DataSpec
import RvCkpt.Jit.DataCorrect
import RvCkpt.Jit.Covers
import RvCkpt.Jit.Emitted
import RvCkpt.Jit.Instret
import RvCkpt.Elf.SymbolIndex
import RvCkpt.Emu.Plic
import RvCkpt.Tracker.Heap
import RvCkpt.Tracker.Search
import RvCkpt.Elf.SymbolIndexSpec
import RvCkpt.Util.QueueAtomic
import RvCkpt.Asm.Int128
import RvCkpt.Asm.Int128Spec
import RvCkpt.Asm.Sections
import RvCkpt.Lib.Nearest
import RvCkpt.Asm.LocalLabels
import RvCkpt.Asm.Relocate
import RvCkpt.Emu.Patch
import RvCkpt.Emu.RelocateSpec
import RvCkpt.Emu.LinkSpec
import RvCkpt.Parse.LeastFit
import RvCkpt.Parse.PutSpec
import RvCkpt.Emu.Htif
import RvCkpt.Emu.Mipi
import RvCkpt.Emu.Uart
import RvCkpt.Lib.Transducer
import RvCkpt.Meta.ReadFile
import RvCkpt.Meta.ReadFileSpec
import RvCkpt.Jit.AluCorrect
import RvCkpt.Jit.FusedCorrect
import RvCkpt.Lib.Annotation
import RvCkpt.Jit.TraceCode
import RvCkpt.Jit.TraceRun
import RvCkpt.Jit.TraceSpec
import RvCkpt.Jit.DataStep
import RvCkpt.Jit.TraceStatic
import RvCkpt.Jit.TraceEntries
import RvCkpt.Jit.TraceCorrect
import RvCkpt.Jit.TraceProgress
