import IpNuma.Kc705.RoundTrip
import IpNuma.Kc705.RxPath
import IpNuma.Kc705.Crossing
import IpNuma.Kc705.SnoopIds
import IpNuma.Kc705.SnoopSelect
import IpNuma.Kc705.SnoopBus
import IpNuma.Regs.Bar0
import IpNuma.Boards.MemAccess
import IpNuma.Ecp3.Regs
import IpNuma.Driver.Mmio
import IpNuma.Driver.Ioctl
import IpNuma.Driver.IfAddrs
import IpNuma.Clocked.Lossy
import IpNuma.Kc705.SnoopFull
import IpNuma.Kc705.PioEp
import IpNuma.Kc705.Completion
import IpNuma.Ecp3.FrameIsolation
import IpNuma.Ecp3.TlpRx
import IpNuma.Ecp3.TlpSlave
import IpNuma.Ecp3.TlpMaster
import IpNuma.Ecp3.TlpTx
import IpNuma.Ecp3.TxPhase
import IpNuma.Ecp3.TxFraming
import IpNuma.Ecp3.MasterFifo
import IpNuma.Ecp3.MasterWrites
import IpNuma.Ecp3.MemReq
import IpNuma.Ecp3.Traffic
import IpNuma.Ecp3.SlaveWrites
import IpNuma.Ecp3.Requests
import IpNuma.Ecp3.Served
import IpNuma.Ecp3.ReqStores
import IpNuma.Ecp3.RegisterFile
import IpNuma.Kc705.Translation
import IpNuma.Kc705.Reframing
import IpNuma.Cores.LaneSync
import IpNuma.Kc705.TxFrame
import IpNuma.Boards.Ipv4Header
import IpNuma.Kc705.TxLengths
import IpNuma.Kc705.TxFcs
import IpNuma.Ecp3.TxGrammar
import IpNuma.Ecp3.RequesterWrites
import IpNuma.Cores.Fifo9ToGmii
import IpNuma.Ecp3.FrameGap
import IpNuma.Cores.Gmii2Fifo9
import IpNuma.Ecp3.GmiiFrame
import IpNuma.Ecp3.RemoteCommand
import IpNuma.Ecp3.RemoteFrame
import IpNuma.Ecp3.MasterDrain
import IpNuma.Ecp3.RemoteWrite
import IpNuma.Ecp3.MasterFed
import IpNuma.Ecp3.ServerNode
import IpNuma.Kc705.RxEngine
import IpNuma.Ecp3.CommandList
import IpNuma.Ecp3.PhyPace
import IpNuma.Ecp3.ByteEnables
import IpNuma.Ecp3.ReadCompletion
import IpNuma.Ecp3.WriteEffect
import IpNuma.Ecp3.Credits
import IpNuma.Ecp3.Resync
import IpNuma.Cores.GmiiFcs
import IpNuma.Ecp3.GmiiStream
import IpNuma.Driver.Virt2Phys
import IpNuma.Clocked.Ledger
import IpNuma.Driver.Probe
import IpNuma.Driver.Discipline
import IpNuma.Clocked.Relay
import IpNuma.Software.PingPong
import IpNuma.Software.SocketPingPong
import IpNuma.Cores.Crc32Widths
import IpNuma.Ecp3.FrameStream
import IpNuma.Software.Ecp3Client
import IpNuma.Kc705.TxStray
import IpNuma.Kc705.TwoNodes
import IpNuma.Kc705.Endpoint
import IpNuma.Fifo.SFifo
import IpNuma.Kc705.TxFifo
import IpNuma.Kc705.FifoNodes
import IpNuma.Kc705.Progress
import IpNuma.Ecp3.GmiiBursts
import IpNuma.Kc705.TurnOff
