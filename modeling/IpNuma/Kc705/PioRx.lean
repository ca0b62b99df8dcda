import IpNuma.Kc705.RxSnoop

/-!
# `PIO_RX_ENGINE`: the endpoint's side of the receive port

The 64-bit state machine.  It drives `m_axis_rx_tready`, and reads the header of a TLP in
`PIO_RX_RST_STATE`, its address and data in the states behind, and then waits for the memory or for
the completion.  `in_packet_q` is up between the first and the last transferred beat of a TLP.
-/

namespace IpNuma

/-- The states of `PIO_RX_ENGINE` that it enters. -/
inductive PioRxState
  | rst
  | memRd32Dw1Dw2
  | memWr32Dw1Dw2
  | memRd64Dw1Dw2
  | memWr64Dw1Dw2
  | memWr64Dw3
  | wait
  | ioWrDw1Dw2
  deriving DecidableEq, Inhabited

/-- The registers of the engine. -/
structure PioRx where
  state : PioRxState
  inPacketQ : Bool
  tready : Bool
  tlpType : BitVec 8
  reqCompl : Bool
  reqComplWd : Bool
  reqTc : BitVec 3
  reqTd : Bool
  reqEp : Bool
  reqAttr : BitVec 2
  reqLen : BitVec 10
  reqRid : BitVec 16
  reqTag : BitVec 8
  reqBe : BitVec 8
  reqAddr : BitVec 16
  wrAddr : BitVec 14
  wrBe : BitVec 8
  wrData : BitVec 32
  wrEn : Bool
  deriving DecidableEq, Inhabited

/-- The inputs of the engine beside the bus. -/
structure PioRxIn where
  complDone : Bool
  wrBusy : Bool
  deriving DecidableEq, Inhabited

/-- `region_select` of a beat. -/
def RxBeat.regionSelect (b : RxBeat) : BitVec 2 :=
  match b.tuser.getLsbD 2, b.tuser.getLsbD 4, b.tuser.getLsbD 8 with
  | true, false, false => 0b01#2
  | false, true, false => 0b10#2
  | false, false, true => 0b11#2
  | _, _, _ => 0b00#2

namespace PioRx

/-- `PIO_RX_MEM_RD32_FMT_TYPE` and the others. -/
def memRd32FmtType : BitVec 7 := 0b0000000#7
def memWr32FmtType : BitVec 7 := 0b1000000#7
def memRd64FmtType : BitVec 7 := 0b0100000#7
def memWr64FmtType : BitVec 7 := 0b1100000#7
def ioRd32FmtType : BitVec 7 := 0b0000010#7
def ioWr32FmtType : BitVec 7 := 0b1000010#7

/-- After an edge with `rst_n` low. -/
def reset : PioRx where
  state := .rst
  inPacketQ := false
  tready := false
  tlpType := 0
  reqCompl := false
  reqComplWd := true
  reqTc := 0
  reqTd := false
  reqEp := false
  reqAttr := 0
  reqLen := 0
  reqRid := 0
  reqTag := 0
  reqBe := 0
  reqAddr := 0
  wrAddr := 0
  wrBe := 0
  wrData := 0
  wrEn := false

/-- The fields of a request, from its first beat. -/
def latchReq (s : PioRx) (b : RxBeat) : PioRx := { s with
  reqTc := b.tdata.extractLsb' 20 3
  reqTd := b.tdata.getLsbD 15
  reqEp := b.tdata.getLsbD 14
  reqAttr := b.tdata.extractLsb' 12 2
  reqLen := b.tdata.extractLsb' 0 10
  reqRid := b.tdata.extractLsb' 48 16
  reqTag := b.tdata.extractLsb' 40 8
  reqBe := b.tdata.extractLsb' 32 8 }

/-- `PIO_RX_RST_STATE` with the first beat of a TLP on the bus. -/
def header (s : PioRx) (b : RxBeat) : PioRx :=
  let fmtType := b.tdata.extractLsb' 24 7
  let len := b.tdata.extractLsb' 0 10
  let t := { s with tlpType := b.tdata.extractLsb' 24 8, reqLen := len, tready := false }
  if fmtType = memRd32FmtType then
    if len ≠ 0 then { t.latchReq b with state := .memRd32Dw1Dw2 } else { t with state := .rst }
  else if fmtType = memWr32FmtType then
    if len = 1 then { t with wrBe := b.tdata.extractLsb' 32 8, state := .memWr32Dw1Dw2 }
    else { t with state := .rst }
  else if fmtType = memRd64FmtType then
    if len ≠ 0 then { t.latchReq b with state := .memRd64Dw1Dw2 } else { t with state := .rst }
  else if fmtType = memWr64FmtType then
    -- the only one that leaves `tready` up
    if len = 1 then
      { t with wrBe := b.tdata.extractLsb' 32 8, tready := true, state := .memWr64Dw1Dw2 }
    else { t with tready := true, state := .rst }
  else if fmtType = ioRd32FmtType then
    if len = 1 then { t.latchReq b with state := .memRd32Dw1Dw2 } else { t with state := .rst }
  else if fmtType = ioWr32FmtType then
    if len = 1 then
      { t.latchReq b with wrBe := b.tdata.extractLsb' 32 8, state := .ioWrDw1Dw2 }
    else { t with state := .rst }
  else { s with tready := true, state := .rst }

/-- The end of `PIO_RX_WAIT_STATE`: a write waits for the memory, a read for its completion. -/
def waitOver (s : PioRx) (i : PioRxIn) : Bool :=
  let is (fmtType : BitVec 7) : Bool := s.tlpType == fmtType.setWidth 8
  (is memWr32FmtType || is ioWr32FmtType || is memWr64FmtType) && !i.wrBusy ||
    (is memRd32FmtType || is ioRd32FmtType || is memRd64FmtType) && i.complDone

/-- `sop`. -/
def sop (s : PioRx) (tvalid : Bool) : Bool := !s.inPacketQ && tvalid

/-- `in_packet_q` after an edge. -/
def inPacketNext (s : PioRx) (b : RxBeat) (tvalid : Bool) : Bool :=
  if tvalid && s.tready && b.tlast then false
  else if s.sop tvalid && s.tready then true
  else s.inPacketQ

/-- The state machine at an edge of `clk` with `rst_n` high. -/
def advance (s : PioRx) (b : RxBeat) (tvalid : Bool) (i : PioRxIn) : PioRx :=
  let t := { s with wrEn := false, reqCompl := false }
  match s.state with
  | .rst =>
      let u := { t with tready := true, reqComplWd := true }
      if s.sop tvalid then u.header b else { u with state := .rst }
  | .memRd32Dw1Dw2 =>
      if tvalid then
        { t with
          tready := false, reqAddr := b.regionSelect ++ b.tdata.extractLsb' 2 12 ++ 0#2
          reqCompl := true, reqComplWd := true, state := .wait }
      else t
  | .memWr32Dw1Dw2 =>
      if tvalid then
        { t with
          wrData := b.tdata.extractLsb' 32 32, wrEn := true, tready := false
          wrAddr := b.regionSelect ++ b.tdata.extractLsb' 2 12, state := .wait }
      else t
  | .memRd64Dw1Dw2 =>
      if tvalid then
        { t with
          reqAddr := b.regionSelect ++ b.tdata.extractLsb' 34 12 ++ 0#2
          reqCompl := true, reqComplWd := true, tready := false, state := .wait }
      else t
  | .memWr64Dw1Dw2 =>
      if tvalid then
        { t with
          tready := false, wrAddr := b.regionSelect ++ b.tdata.extractLsb' 34 12
          state := .memWr64Dw3 }
      else t
  | .memWr64Dw3 =>
      if tvalid then
        { t with
          wrData := b.tdata.extractLsb' 0 32, wrEn := true, tready := false, state := .wait }
      else t
  | .ioWrDw1Dw2 =>
      if tvalid then
        { t with
          wrData := b.tdata.extractLsb' 32 32, wrEn := true, tready := false
          wrAddr := b.regionSelect ++ b.tdata.extractLsb' 2 12
          reqCompl := true, reqComplWd := false, state := .wait }
      else t
  | .wait => if s.waitOver i then { t with tready := true, state := .rst } else t

/-- Both blocks at an edge of `clk` with `rst_n` high. -/
def step (s : PioRx) (b : RxBeat) (tvalid : Bool) (i : PioRxIn) : PioRx :=
  { s.advance b tvalid i with inPacketQ := s.inPacketNext b tvalid }

@[simp] theorem step_inPacketQ (s : PioRx) (b : RxBeat) (tvalid : Bool) (i : PioRxIn) :
    (s.step b tvalid i).inPacketQ = s.inPacketNext b tvalid := rfl

end PioRx

end IpNuma
