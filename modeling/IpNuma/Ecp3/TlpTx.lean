import IpNuma.Ecp3.TlpMaster
import IpNuma.Ecp3.TlpSlave

/-!
# The transmitter of `pcie_tlp`, and the four blocks together

The second always block of `pcie_tlp.v`.  It sends the completion of the slave sequencer (`TX1`) or
the write of the master sequencer (`TX2`), one word of sixteen bits in a cycle, and tells the
sequencer when it is ready for data; the sequencer tells it when the last word is on its way.

`PcieTlp` is the module: all four blocks take a step on the registers of the cycle before.
-/

namespace IpNuma

/-- `tx_status`. -/
inductive TlpTxState
  | idle
  | wait
  | tx1Head0
  | tx1Head1
  | tx1Comp2
  | tx1Comp3
  | tx1Comp4
  | tx1Comp5
  | tx1Data
  | tx2Head0
  | tx2Head1
  | tx2Comp2
  | tx2Comp3
  | tx2Comp4
  | tx2Comp5
  | tx2Comp6
  | tx2Comp7
  | tx2Data
  deriving DecidableEq, Inhabited

/-- The registers of the block. -/
structure TlpTx where
  txStatus : TlpTxState
  txLastch : Bool
  txReq : Bool
  txSt : Bool
  txData : BitVec 16
  tx1TlpdReady : Bool
  tx2TlpdReady : Bool
  deriving Inhabited

namespace TlpTx

/-- The registers after an edge with the reset active. -/
def reset : TlpTx where
  txStatus := .idle
  txLastch := false
  txReq := false
  txSt := false
  txData := 0
  tx1TlpdReady := false
  tx2TlpdReady := false

/-- What is assigned in every cycle. -/
def always (s : TlpTx) : TlpTx := { s with txSt := false }

@[simp] theorem always_txSt (s : TlpTx) : s.always.txSt = false := rfl

@[simp] theorem always_tx1TlpdReady (s : TlpTx) : s.always.tx1TlpdReady = s.tx1TlpdReady := rfl

@[simp] theorem always_tx2TlpdReady (s : TlpTx) : s.always.tx2TlpdReady = s.tx2TlpdReady := rfl

/-- The registers at an edge of the clock with the reset inactive; `ids` is
`{bus_num, dev_num, func_num}`. -/
def step (s : TlpTx) (slv : TlpSlave) (mst : TlpMaster) (rdy : Bool) (ids : BitVec 16) : TlpTx :=
  match s.txStatus with
  | .idle =>
      if slv.tx1TlphValid || mst.tx2TlphValid then
        { always s with txLastch := mst.tx2TlphValid, txReq := true, txStatus := .wait }
      else always s
  | .wait =>
      if rdy then
        { always s with txReq := false, txStatus := if s.txLastch then .tx2Head0 else .tx1Head0 }
      else always s
  | .tx1Head0 =>
      { always s with
        txData := 0#1 ++ slv.tx1Fmt ++ slv.tx1Type ++ 0#1 ++ slv.tx1Tc ++ 0#4
        txSt := true
        txStatus := .tx1Head1 }
  | .tx1Head1 =>
      { always s with
        txData := BitVec.ofBool slv.tx1Td ++ BitVec.ofBool slv.tx1Ep ++ slv.tx1Attr ++ 0#2 ++
          slv.tx1Length.extractLsb' 1 10
        txStatus := .tx1Comp2 }
  | .tx1Comp2 => { always s with txData := ids, tx1TlpdReady := true, txStatus := .tx1Comp3 }
  | .tx1Comp3 =>
      { always s with
        txData := slv.tx1Cplst ++ BitVec.ofBool slv.tx1Bcm ++ slv.tx1Bcount
        txStatus := .tx1Comp4 }
  | .tx1Comp4 => { always s with txData := slv.tx1Reqid, txStatus := .tx1Comp5 }
  | .tx1Comp5 =>
      { always s with
        txData := slv.tx1Tag ++ 0#1 ++ slv.tx1Lowaddr.extractLsb' 0 7
        txStatus := .tx1Data }
  | .tx1Data =>
      { always s with
        txData := slv.tx1Data
        txStatus := if slv.tx1TlpdDone then .idle else .tx1Data
        tx1TlpdReady := if slv.tx1TlpdDone then false else s.tx1TlpdReady }
  | .tx2Head0 =>
      { always s with
        txData := 0#1 ++ mst.tx2Fmt ++ mst.tx2Type ++ 0#1 ++ mst.tx2Tc ++ 0#4
        txSt := true
        txStatus := .tx2Head1 }
  | .tx2Head1 =>
      { always s with
        txData := BitVec.ofBool mst.tx2Td ++ BitVec.ofBool mst.tx2Ep ++ mst.tx2Attr ++ 0#2 ++
          mst.tx2Length.extractLsb' 1 10
        txStatus := .tx2Comp2 }
  | .tx2Comp2 => { always s with txData := ids, txStatus := .tx2Comp3 }
  | .tx2Comp3 =>
      { always s with
        txData := mst.tx2Tag ++ mst.tx2Lastbe ++ mst.tx2Firstbe
        tx2TlpdReady := if mst.tx2Fmt.getLsbD 0 then s.tx2TlpdReady else true
        txStatus := if mst.tx2Fmt.getLsbD 0 then .tx2Comp4 else .tx2Comp6 }
  | .tx2Comp4 => { always s with txData := 0, tx2TlpdReady := true, txStatus := .tx2Comp5 }
  | .tx2Comp5 => { always s with txData := mst.tx2Addr.extractLsb' 30 16, txStatus := .tx2Comp6 }
  | .tx2Comp6 => { always s with txData := mst.tx2Addr.extractLsb' 14 16, txStatus := .tx2Comp7 }
  | .tx2Comp7 =>
      { always s with txData := mst.tx2Addr.extractLsb' 0 14 ++ 0b00#2, txStatus := .tx2Data }
  | .tx2Data =>
      { always s with
        txData := mst.tx2Data
        txStatus := if mst.tx2TlpdDone then .idle else .tx2Data
        tx2TlpdReady := if mst.tx2TlpdDone then false else s.tx2TlpdReady }

end TlpTx

/-- What `pcie_tlp` samples at an edge of `pcie_clk`. -/
structure PcieIn where
  rx : RxWord
  txRdy : Bool
  busNum : BitVec 8
  devNum : BitVec 5
  funcNum : BitVec 3
  slvDatO : BitVec 16
  mstEmpty : Bool
  mstDout : BitVec 18
  deriving DecidableEq, Inhabited

/-- `{bus_num, dev_num, func_num}`. -/
def PcieIn.ids (i : PcieIn) : BitVec 16 := i.busNum ++ i.devNum ++ i.funcNum

/-- The registers of `pcie_tlp`. -/
structure PcieTlp where
  rx : TlpRx
  tx : TlpTx
  slv : TlpSlave
  mst : TlpMaster
  deriving Inhabited

/-- A cycle at the transmit side. -/
structure TxWord where
  txSt : Bool
  txEnd : Bool
  txData : BitVec 16
  deriving DecidableEq, Inhabited

namespace PcieTlp

def reset (s : PcieTlp) : PcieTlp := ⟨s.rx.reset, TlpTx.reset, s.slv.reset, s.mst.reset⟩

/-- The registers at an edge of the clock with the reset inactive. -/
def step (s : PcieTlp) (i : PcieIn) : PcieTlp where
  rx := s.rx.step i.rx
  tx := s.tx.step s.slv s.mst i.txRdy i.ids
  slv := s.slv.step s.rx i.rx.rxBarHit s.tx.tx1TlpdReady i.slvDatO
  mst := s.mst.step s.tx.tx2TlpdReady i.mstEmpty i.mstDout

/-- `tx_st`, `tx_end` and `tx_data`. -/
def wire (s : PcieTlp) : TxWord :=
  ⟨s.tx.txSt, s.slv.tx1TlpdDone || s.mst.tx2TlpdDone, s.tx.txData⟩

end PcieTlp

end IpNuma
