import RiscvSim.EncodingRoundTrip
import RiscvSim.PageTable
import RiscvSim.Tlb
import RiscvSim.TraceRefinement
import RiscvSim.TraceCache
import RiscvSim.LruExact
import RiscvSim.Loader
import RiscvSim.RegTemplates
import RiscvSim.SetTemplates
import RiscvSim.ShiftTemplates
import RiscvSim.ProductTemplates
import RiscvSim.MemTemplates
import RiscvSim.JumpTemplates
import RiscvSim.Stops
import RiscvSim.InstLimit
import RiscvSim.PagedNative
import RiscvSim.FetchLoop
import RiscvSim.WideStores
import RiscvSim.MExtension
import RiscvSim.Shifts
import RiscvSim.FlatMemory
import RiscvSim.LruThrows
import RiscvSim.FullAddresses
import RiscvSim.EagerFetch
import RiscvSim.ParseOptions
import RiscvSim.Liveness
import RiscvSim.SyscallFrame
import RiscvSim.ImmTemplates
import RiscvSim.BareTemplates
import RiscvSim.ControlTransfer
import RiscvSim.CachedTraces
import RiscvSim.JitRuns
import RiscvSim.ManualRuns
import RiscvSim.TranslationPolicy
import RiscvSim.ExactCaches
import RiscvSim.UndefinedRuns
import RiscvSim.CallingConvention
import RiscvSim.OptionGrammar
import RiscvSim.Program
import RiscvSim.Console
import RiscvSim.LoadOutcome
import RiscvSim.ConfiguredCaches
import RiscvSim.Confinement
