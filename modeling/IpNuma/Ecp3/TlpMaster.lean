import IpNuma.Regs.Slice

/-!
# The master sequencer of `pcie_tlp`

The fourth always block of `pcie_tlp.v`: commands from the master FIFO become memory writes.  The
header is handed to the transmitter as soon as the address has been read.  From the cycle on in
which the transmitter is ready for the data (`tx2_tlpd_ready`) the block counts down in every cycle,
whether or not there is a word in the FIFO.
-/

namespace IpNuma

/-- `mst_status`. -/
inductive MstState
  | idle
  | mwrite64
  | mwrite48
  | mwrite32
  | mwrite16
  | mwrited
  deriving DecidableEq, Inhabited

/-- The registers of the block; the write to be sent is in those called `tx2`. -/
structure TlpMaster where
  mstStatus : MstState
  mstRdEn : Bool
  mstRdWait : Bool
  tx2Data : BitVec 16
  tx2TlphValid : Bool
  tx2TlpdDone : Bool
  tx2Fmt : BitVec 2
  tx2Type : BitVec 5
  tx2Tc : BitVec 3
  tx2Td : Bool
  tx2Ep : Bool
  tx2Attr : BitVec 2
  tx2Length : BitVec 11
  tx2Tag : BitVec 8
  tx2Lastbe : BitVec 4
  tx2Firstbe : BitVec 4
  /-- `tx2_addr[47:2]`. -/
  tx2Addr : BitVec 46
  deriving Inhabited

namespace TlpMaster

/-- The registers after an edge with the reset active. -/
def reset (s : TlpMaster) : TlpMaster :=
  { s with
    tx2TlphValid := false
    tx2TlpdDone := false
    mstStatus := .idle
    mstRdEn := false
    mstRdWait := false }

/-- `MST_IDLE`. -/
def idle (s : TlpMaster) (dout : BitVec 18) : TlpMaster :=
  let s' := { s with tx2TlphValid := false }
  if dout.getLsbD 17 then
    { s' with
      tx2Addr := setSlice s.tx2Addr 30 0#16
      tx2Length := 0b0000#4 ++ dout.extractLsb' 8 6 ++ 0#1
      tx2Lastbe := dout.extractLsb' 4 4
      tx2Firstbe := dout.extractLsb' 0 4
      mstStatus := if dout.getLsbD 14 then .mwrite64 else .mwrite32 }
  else s'

/-- `MST_MWRITE16`. -/
def mwrite16 (s : TlpMaster) (dout : BitVec 18) : TlpMaster :=
  { s with
    tx2Addr := setSlice s.tx2Addr 0 (dout.extractLsb' 2 14)
    tx2Fmt := 0b11#2
    tx2Type := 0
    tx2Tc := 0
    tx2Td := false
    tx2Ep := false
    tx2Attr := 0
    tx2Tag := 0x01#8
    tx2TlphValid := true
    mstRdEn := false
    mstRdWait := true
    mstStatus := .mwrited }

/-- `MST_MWRITED`. -/
def mwrited (s : TlpMaster) (ready : Bool) (dout : BitVec 18) : TlpMaster :=
  if ready then
    { s with
      tx2TlphValid := false
      tx2Length := s.tx2Length - 1
      mstRdEn := if s.tx2Length = 0x7ff#11 ∨ s.tx2Length = 0x7fe#11 then false else s.mstRdEn
      tx2TlpdDone := s.tx2Length = 0x7fe#11
      mstStatus := if s.tx2Length = 0x7fe#11 then .idle else .mwrited
      tx2Data := dout.extractLsb' 0 16
      mstRdWait := false }
  else s

/-- The states in which a word of the FIFO is read. -/
def read (s : TlpMaster) (dout : BitVec 18) : TlpMaster :=
  match s.mstStatus with
  | .idle => idle s dout
  | .mwrite64 => { s with mstStatus := .mwrite48 }
  | .mwrite48 =>
      { s with tx2Addr := setSlice s.tx2Addr 30 (dout.extractLsb' 0 16), mstStatus := .mwrite32 }
  | .mwrite32 =>
      { s with tx2Addr := setSlice s.tx2Addr 14 (dout.extractLsb' 0 16), mstStatus := .mwrite16 }
  | .mwrite16 => mwrite16 s dout
  | .mwrited => s

/-- What is assigned in every cycle. -/
def always (s : TlpMaster) (empty : Bool) : TlpMaster :=
  { s with tx2TlpdDone := false, mstRdEn := !empty && !s.mstRdWait }

/-- The registers at an edge of the clock with the reset inactive; `dout` is the output of the
FIFO. -/
def step (s : TlpMaster) (ready : Bool) (empty : Bool) (dout : BitVec 18) : TlpMaster :=
  if s.mstStatus = .mwrited then mwrited (always s empty) ready dout
  else if s.mstRdEn && !empty then read (always s empty) dout
  else always s empty

end TlpMaster

end IpNuma
