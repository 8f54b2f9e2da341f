import UGDS.Lib.Ring
import UGDS.Lib.Steps
import UGDS.Lib.Tiling
import UGDS.Lib.Mask
import UGDS.Lib.Keys
import UGDS.Lib.RefTable
import UGDS.Lib.Ledger
import UGDS.Lib.Account
import UGDS.Lib.Segments
import UGDS.Lib.Linked
import UGDS.Lib.Chain
import UGDS.Lib.Deal
import UGDS.Lib.Monitor
import UGDS.Lib.Holding
import UGDS.Nvm.Types
import UGDS.Nvm.Queue
import UGDS.Nvm.Ctrl
import UGDS.Nvm.Cmd
import UGDS.Nvm.CqProtocol
import UGDS.Nvm.SqProtocol
import UGDS.Nvm.SqSizes
import UGDS.Nvm.PrpChain
import UGDS.Nvm.QueuePair
import UGDS.Nvm.Serial
import UGDS.Nvm.Admin
import UGDS.Nvm.NumQueues
import UGDS.Nvm.QueueWindow
import UGDS.Nvm.Doorbell
import UGDS.Nvm.Refs
import UGDS.Nvm.RefExact
import UGDS.Nvm.RefCalls
import UGDS.Nvm.RefFrame
import UGDS.Nvm.CtrlThreads
import UGDS.Nvm.MapThreads
import UGDS.Nvm.RpcList
import UGDS.Nvm.RpcHandles
import UGDS.Drv.Map
import UGDS.Drv.Ioctl
import UGDS.Drv.Ctrls
import UGDS.Drv.Gpu
import UGDS.Drv.Calls
import UGDS.Drv.Failed
import UGDS.Drv.Dmabuf
import UGDS.Drv.SgFlatten
import UGDS.Drv.CtrlAddrs
import UGDS.Drv.HostUndo
import UGDS.Drv.Descriptor
import UGDS.Drv.ListMem
import UGDS.Drv.Lists
import UGDS.Drv.MapLists
import UGDS.Drv.Module
import UGDS.Drv.Balance
import UGDS.Drv.Unload
import UGDS.Nvm.Dma
import UGDS.Nvm.Backing
import UGDS.Nvm.Rounding
import UGDS.Nvm.Container
import UGDS.Nvm.Hip
import UGDS.Io.DoIo
import UGDS.Io.Transfer
import UGDS.Io.Calls
import UGDS.Io.Exact
import UGDS.Io.OnTheFly
import UGDS.Io.Requests
import UGDS.Io.Outcome
import UGDS.Io.Bounds
import UGDS.Io.Threads
import UGDS.Io.Independent
import UGDS.Io.Footprint
import UGDS.Io.Data
import UGDS.Io.Bytes
import UGDS.Io.RoundRobin
import UGDS.Io.Results
import UGDS.Api.Session
import UGDS.Api.QueuePairs
import UGDS.Api.Register
import UGDS.Api.AdminQueues
import UGDS.Api.Rpc
import UGDS.Api.RpcThreads
import UGDS.Api.World
import UGDS.Api.Unmaps
import UGDS.Api.Effect
import UGDS.Api.Serves
import UGDS.Api.RegActs
import UGDS.Api.Cleanup
import UGDS.Api.Rollback
import UGDS.Api.RegRefs
import UGDS.Api.Undone
import UGDS.Api.Life
import UGDS.Api.Release
import UGDS.Api.Registry
import UGDS.Api.Backing
import UGDS.Api.Driver
import UGDS.Api.Interleaved
import UGDS.Api.Overlap
import UGDS.Api.Alone
import UGDS.Api.Queues
import UGDS.Api.Addresses
import UGDS.Api.Bounds
import UGDS.Api.Limits
