import Gem5.Mem.Bridge
import Gem5.Mem.CheckFunctional
import Gem5.Sim.EventBins
import Gem5.Mem.Cache.Tags.Occupancy
import Gem5.Cpu.O3.BPredUnit
import Gem5.Cpu.ReplaceRounds
import Gem5.Mem.Cache.Tags.Agreement
import Gem5.Mem.Cache.TargetLimit
import Gem5.Mem.Cache.BlockLocks
import Gem5.Mem.Cache.Blocking
import Gem5.Mem.Cache.Ledger
import Gem5.Mem.Cache.TempBlock
import Gem5.Mem.BusLayer
import Gem5.Mem.PacketQueue
import Gem5.Mem.Ruby.BufferCapacity
import Gem5.Mem.Ruby.BufferOrder
import Gem5.Mem.Protocol.MIExampleSystem
import Gem5.Cpu.O3.IssueRun
import Gem5.Base.HistStor
import Gem5.Mem.PageTable
import Gem5.Dev.PktFifo
import Gem5.Base.CircleBuf
import Gem5.Dev.DmaTransfers
import Gem5.Mem.Ruby.Sequencer
import Gem5.Mem.Ruby.Routing
import Gem5.Mem.Ruby.MemoryControlRun
import Gem5.Mem.RangeAddrMapper
import Gem5.Cpu.Activity
import Gem5.Cpu.TimingSimpleCPU
import Gem5.Mem.Cache.SendOrder
import Gem5.Sim.DebugVerify
import Gem5.Python.Region
