import IpNuma.Ecp3.Regs
import IpNuma.Ecp3.TlpRx

/-!
# The slave sequencer of `pcie_tlp`

The third always block of `pcie_tlp.v`: memory reads and writes of the host on the slave bus.  A
write is put on the bus as its words arrive.  For a read the header of the completion is prepared
first; when the transmitter has reached it (`tx1_tlpd_ready`), one word is read in every cycle.
-/

namespace IpNuma

/-- `slv_status`. -/
inductive SlvState
  | idle
  | mreadh
  | mreadd
  | mwriteh
  | mwrited
  deriving DecidableEq, Inhabited

/-- The registers of the block; the completion to be sent is in those called `tx1`. -/
structure TlpSlave where
  slvStatus : SlvState
  bus : SlvBus
  tx1Data : BitVec 16
  tx1TlphValid : Bool
  tx1TlpdDone : Bool
  tx1Fmt : BitVec 2
  tx1Type : BitVec 5
  tx1Tc : BitVec 3
  tx1Td : Bool
  tx1Ep : Bool
  tx1Attr : BitVec 2
  tx1Length : BitVec 11
  tx1Cplst : BitVec 3
  tx1Bcm : Bool
  tx1Bcount : BitVec 12
  tx1Reqid : BitVec 16
  tx1Tag : BitVec 8
  tx1Lowaddr : BitVec 8
  deriving Inhabited

namespace TlpSlave

/-- The registers after an edge with the reset active. -/
def reset (s : TlpSlave) : TlpSlave :=
  { s with
    tx1TlphValid := false
    tx1TlpdDone := false
    slvStatus := .idle
    bus := ⟨0, false, false, 0, 0, 0⟩ }

/-- The `casex` over the byte enables: the bits that an arm looks at, their values, and the byte
count, `n` being four times the length. -/
def byteCounts (n : BitVec 12) : List (BitVec 8 × BitVec 8 × BitVec 12) :=
  [(0b10011111#8, 0b10010000#8, 4), (0b11011111#8, 0b01010000#8, 3),
    (0b10111111#8, 0b10100000#8, 3), (0b11111111#8, 0b00110000#8, 2),
    (0b11111111#8, 0b01100000#8, 2), (0b11111111#8, 0b11000000#8, 2),
    (0b11111111#8, 0b00010000#8, 1), (0b11111111#8, 0b00100000#8, 1),
    (0b11111111#8, 0b01000000#8, 1), (0b11111111#8, 0b10000000#8, 1),
    (0b11111111#8, 0b00000000#8, 1),
    (0b00011000#8, 0b00011000#8, n), (0b00011100#8, 0b00010100#8, n - 1),
    (0b00011110#8, 0b00010010#8, n - 2), (0b00011111#8, 0b00010001#8, n - 3),
    (0b00111000#8, 0b00101000#8, n - 1), (0b00111100#8, 0b00100100#8, n - 2),
    (0b00111110#8, 0b00100010#8, n - 3), (0b00111111#8, 0b00100001#8, n - 4),
    (0b01111000#8, 0b01001000#8, n - 2), (0b01111100#8, 0b01000100#8, n - 3),
    (0b01111110#8, 0b01000010#8, n - 4), (0b01111111#8, 0b01000001#8, n - 5),
    (0b11111000#8, 0b10001000#8, n - 3), (0b11111100#8, 0b10000100#8, n - 4),
    (0b11111110#8, 0b10000010#8, n - 5), (0b11111111#8, 0b10000001#8, n - 6)]

/-- `tx1_bcount` of a request; no arm leaves the register as it is. -/
def byteCount (s : TlpSlave) (rx : TlpRx) : BitVec 12 :=
  let bes := rx.rxFirstbe ++ rx.rxLastbe
  match (byteCounts (rx.rxLength.setWidth 12 * 4)).find? fun arm => bes &&& arm.1 == arm.2.1 with
  | some arm => arm.2.2
  | none => s.tx1Bcount

/-- `tx1_lowaddr` of a request. -/
def lowerAddress (rx : TlpRx) : BitVec 8 :=
  rx.rxAddr.extractLsb' 0 6 ++
    if rx.rxFirstbe = 0 ∨ rx.rxFirstbe.getLsbD 0 then 0b00#2
    else if rx.rxFirstbe.getLsbD 1 then 0b01#2
    else if rx.rxFirstbe.getLsbD 2 then 0b10#2
    else 0b11#2

/-- The word before the first one of a request. -/
def startAdr (rx : TlpRx) : BitVec 19 := rx.rxAddr.extractLsb' 0 18 ++ 0#1 - 1

/-- What is assigned in every cycle. -/
def always (s : TlpSlave) : TlpSlave :=
  { s with tx1TlpdDone := false, bus := { s.bus with ce := false, we := false } }

/-- `slv_bar_i` of a request: with `ENABLE_EXPROM` one that hits no BAR is for the BIOS ROM. -/
def barOf (expRom : Bool) (barHit : BitVec 7) : BitVec 7 :=
  if expRom ∧ barHit = 0 then 0b1000000#7 else barHit

/-- A BAR that is hit is the one on the bus, in both builds. -/
theorem barOf_of_ne {barHit : BitVec 7} (h : barHit ≠ 0) (expRom : Bool) :
    barOf expRom barHit = barHit := if_neg fun hzero => h hzero.2

/-- `SLV_IDLE`. -/
def idle (s : TlpSlave) (rx : TlpRx) (barHit : BitVec 7) : TlpSlave :=
  if rx.rxTlphValid ∧ rx.rxComm = .mr then
    { s with
      tx1TlphValid := false
      bus := { s.bus with bar := barOf rx.expRom barHit }
      slvStatus := if rx.rxFmt.getLsbD 1 then .mwriteh else .mreadh }
  else { s with tx1TlphValid := false, bus := { s.bus with bar := 0 } }

/-- `SLV_MREADH`. -/
def mreadh (s : TlpSlave) (rx : TlpRx) : TlpSlave :=
  { s with
    tx1Fmt := 0b10#2
    tx1Type := 0b01010#5
    tx1Tc := 0
    tx1Td := false
    tx1Ep := false
    tx1Attr := 0
    tx1Cplst := 0
    tx1Bcm := false
    tx1Bcount := byteCount s rx
    tx1Reqid := rx.rxReqid
    tx1Tag := rx.rxTag
    tx1Lowaddr := lowerAddress rx
    tx1Length := rx.rxLength ++ 1#1
    bus := { s.bus with adr := startAdr rx }
    tx1TlphValid := true
    slvStatus := .mreadd }

/-- `SLV_MREADD`. -/
def mreadd (s : TlpSlave) (ready : Bool) (datO : BitVec 16) : TlpSlave :=
  if ready then
    { s with
      tx1TlphValid := false
      tx1Length := s.tx1Length - 1
      bus :=
        { s.bus with
          adr := if s.tx1Length.extractLsb' 1 10 ≠ 0 then s.bus.adr + 1 else s.bus.adr
          ce := s.tx1Length ≠ 0x7ff#11 }
      slvStatus := if s.tx1Length = 0x7ff#11 then .idle else .mreadd
      tx1TlpdDone := s.tx1Length = 0x7ff#11
      tx1Data := datO }
  else s

/-- `SLV_MWRITEH`. -/
def mwriteh (s : TlpSlave) (rx : TlpRx) : TlpSlave :=
  { s with tx1Length := 0, bus := { s.bus with adr := startAdr rx }, slvStatus := .mwrited }

/-- The last word of the last DW, unless it is the first DW too. -/
def lastWord (s : TlpSlave) (rx : TlpRx) : Bool :=
  s.tx1Length.extractLsb' 1 10 ≠ 0 ∧ s.tx1Length.extractLsb' 1 10 = rx.rxLength - 1 ∧
    s.tx1Length.getLsbD 0 = true

/-- `slv_sel_i` of a word that is written. -/
def select (s : TlpSlave) (rx : TlpRx) : BitVec 2 :=
  if s.tx1Length.extractLsb' 1 10 = 0 then
    if s.tx1Length.getLsbD 0 then
      BitVec.ofBool (rx.rxFirstbe.getLsbD 2) ++ BitVec.ofBool (rx.rxFirstbe.getLsbD 3)
    else BitVec.ofBool (rx.rxFirstbe.getLsbD 0) ++ BitVec.ofBool (rx.rxFirstbe.getLsbD 1)
  else if s.tx1Length.extractLsb' 1 10 = rx.rxLength - 1 then
    if s.tx1Length.getLsbD 0 then
      BitVec.ofBool (rx.rxLastbe.getLsbD 2) ++ BitVec.ofBool (rx.rxLastbe.getLsbD 3)
    else BitVec.ofBool (rx.rxLastbe.getLsbD 0) ++ BitVec.ofBool (rx.rxLastbe.getLsbD 1)
  else 0b11#2

/-- `SLV_MWRITED`. -/
def mwrited (s : TlpSlave) (rx : TlpRx) : TlpSlave :=
  { s with
    tx1Length := s.tx1Length + 1
    bus :=
      { s.bus with
        adr := s.bus.adr + 1
        ce := true
        we := true
        dat := rx.rxData2
        sel := select s rx }
    slvStatus := if lastWord s rx || rx.rxEnd2 then .idle else .mwrited }

/-- The registers at an edge of the clock with the reset inactive. -/
def step (s : TlpSlave) (rx : TlpRx) (barHit : BitVec 7) (ready : Bool) (datO : BitVec 16) :
    TlpSlave :=
  match s.slvStatus with
  | .idle => idle (always s) rx barHit
  | .mreadh => mreadh (always s) rx
  | .mreadd => mreadd (always s) ready datO
  | .mwriteh => mwriteh (always s) rx
  | .mwrited => mwrited (always s) rx

end TlpSlave

end IpNuma
