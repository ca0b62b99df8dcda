import IpNuma.Cores.Crc32D64
import IpNuma.Xgmii.Word

/-!
# `XGMII_TX_ENGINE`: the 10G transmitter

Two `always` blocks on `xgmii_clk`, each modelled by the record of the registers it assigns and
the next value of that record; every register on a right-hand side is its value before the edge.

* `FifoSide` reads the transmit FIFO: it waits for the first word of a TLP, holds it while the
  other block sends the headers, then reads the FIFO into `dout2` until the last word;
* `TxSide` drives `txc` and `txd`: the preamble and six header words, one word per `tx_counter`
  step of eight, then `dout2` in every cycle the FIFO side is in `FIFO_DATA`, then the word with
  the FCS and the terminate character, then the gap.

The CRC register is clocked by the falling edge in the middle of the cycle, so within one step
it first absorbs the `txd` of the cycle and the rising edge then uses the result.

FIFO words have 72 bits: `[63:0]` data, bit 64 start or valid, bit 65 last.
-/

namespace IpNuma

/-- `MAGIC_CODE` of `setup.v`. -/
def magicCode : BitVec 32 := 0xbe9be955#32

/-- The PCIe user registers the engines read. -/
structure Addrs where
  ifV4addr : BitVec 32
  ifMacaddr : BitVec 48
  destV4addr : BitVec 32
  destMacaddr : BitVec 48
  deriving DecidableEq, Inhabited

/-- `FIFO_IDLE`, `FIFO_WAIT`, `FIFO_DATA`, `FIFO_FIN`. -/
inductive FifoState
  | idle
  | wait
  | data
  | fin
  deriving DecidableEq, Inhabited

/-- `TX_IDLE`, `TX_HEADER`, `TX_DATA`, `TX_GAP`. -/
inductive TxState
  | idle
  | header
  | data
  | gap
  deriving DecidableEq, Inhabited

/-- The registers of the FIFO block. -/
structure FifoSide where
  state : FifoState
  rdEn : Bool
  dout2 : BitVec 72
  deriving DecidableEq, Inhabited

/-- The registers of the transmit block. -/
structure TxSide where
  state : TxState
  txCounter : BitVec 32
  txd : BitVec 64
  txc : BitVec 8
  crcInit : Bool
  ipSum : BitVec 24
  gapCount : BitVec 32
  deriving DecidableEq, Inhabited

/-- The engine: both blocks and the register of `crc32_d64_inst`. -/
structure XgmiiTx where
  fifo : FifoSide
  tx : TxSide
  lfsr : BitVec 32
  deriving DecidableEq, Inhabited

/-! ### The FIFO block -/

/-- Bit 64 without bit 65: the first word of a TLP. -/
def isStart (w : BitVec 72) : Bool := w.getLsbD 64 && !w.getLsbD 65

/-- Bit 65: the last word of a TLP. -/
def isLast (w : BitVec 72) : Bool := w.getLsbD 65

/-- `[63:0]`. -/
def payload (w : BitVec 72) : BitVec 64 := w.extractLsb' 0 64

namespace FifoSide

def reset : FifoSide := ⟨.idle, false, 0⟩

/-- The FIFO block at a clock edge. -/
def step (f : FifoSide) (txCounter : BitVec 32) (dout : BitVec 72) (empty : Bool) : FifoSide :=
  match f.state with
  | .idle =>
      if f.rdEn then
        if isStart dout then ⟨.wait, false, dout⟩ else ⟨.idle, !empty, dout⟩
      else ⟨.idle, !empty, f.dout2⟩
  | .wait => if txCounter.extractLsb' 0 16 = 0x30#16 then { f with state := .data } else f
  | .data =>
      if f.rdEn && isLast dout then ⟨.idle, false, dout⟩ else ⟨.data, !empty, dout⟩
  | .fin => { f with state := .idle }

end FifoSide

/-! ### The transmit block -/

namespace TxSide

/-- `tx0_frame_len`. -/
def frameLen : BitVec 16 := 68#16
/-- `tx0_udp_len`. -/
def udpLen : BitVec 16 := frameLen - 0x26#16
/-- `tx0_ip_len`. -/
def ipLen : BitVec 16 := frameLen - 18#16
/-- `tx0_inter_frame_gap`. -/
def interFrameGap : BitVec 16 := 1#16
/-- `ipv4_id`, a register that is never assigned. -/
def ipv4Id : BitVec 17 := 0
/-- `ipv4_ttl`, a register that is never assigned. -/
def ipv4Ttl : BitVec 8 := 0x40#8

/-- The sum of the words of the IPv4 header, before the carries are folded in. -/
def headerSum (a : Addrs) : BitVec 24 :=
  0x4500#24 + (0#4 ++ ipLen.extractLsb' 0 12).setWidth 24 + (ipv4Id.extractLsb' 0 16).setWidth 24 +
    (ipv4Ttl ++ 0x11#8).setWidth 24 + (a.ifV4addr.extractLsb' 16 16).setWidth 24 +
    (a.ifV4addr.extractLsb' 0 16).setWidth 24 + (a.destV4addr.extractLsb' 16 16).setWidth 24 +
    (a.destV4addr.extractLsb' 0 16).setWidth 24

/-- The complement of the sum with its carries folded in. -/
def foldSum (s : BitVec 24) : BitVec 24 :=
  ~~~((s.extractLsb' 0 16).setWidth 24 + (s.extractLsb' 16 8).setWidth 24)

/-- The word with the start character, the preamble and the SFD. -/
def preambleWord : XgmiiWord := ⟨0x01#8, 0xd5555555555555fb#64⟩

/-- The header words, `tx_counter` 0x08 to 0x30. -/
def header08 (a : Addrs) : XgmiiWord :=
  ⟨0x00#8, lanes (octet a.ifMacaddr 4) (octet a.ifMacaddr 5) (octet a.destMacaddr 0)
    (octet a.destMacaddr 1) (octet a.destMacaddr 2) (octet a.destMacaddr 3)
    (octet a.destMacaddr 4) (octet a.destMacaddr 5)⟩
def header10 (a : Addrs) : XgmiiWord :=
  ⟨0x00#8, lanes 0x00#8 0x45#8 0x00#8 0x08#8 (octet a.ifMacaddr 0) (octet a.ifMacaddr 1)
    (octet a.ifMacaddr 2) (octet a.ifMacaddr 3)⟩
def header18 : XgmiiWord :=
  ⟨0x00#8, lanes 0x11#8 ipv4Ttl 0x00#8 0x00#8 (octet ipv4Id 0) (octet ipv4Id 1) (octet ipLen 0)
    (0#4 ++ ipLen.extractLsb' 8 4)⟩
def header20 (a : Addrs) (ipSum : BitVec 24) : XgmiiWord :=
  ⟨0x00#8, lanes (octet a.destV4addr 2) (octet a.destV4addr 3) (octet a.ifV4addr 0)
    (octet a.ifV4addr 1) (octet a.ifV4addr 2) (octet a.ifV4addr 3) (octet ipSum 0) (octet ipSum 1)⟩
def header28 (a : Addrs) : XgmiiWord :=
  ⟨0x00#8, lanes (octet udpLen 0) (0#4 ++ udpLen.extractLsb' 8 4) 0x5e#8 0x0d#8 0x5e#8 0x0d#8
    (octet a.destV4addr 0) (octet a.destV4addr 1)⟩
def header30 : XgmiiWord :=
  ⟨0x00#8, lanes 0x00#8 0x00#8 (octet magicCode 0) (octet magicCode 1) (octet magicCode 2)
    (octet magicCode 3) 0x00#8 0x00#8⟩

/-- A payload word. -/
def dataWord (d : BitVec 64) : XgmiiWord := ⟨0x00#8, d⟩

/-- The word that ends a frame: the FCS in lanes 0 to 3, the terminate character in lane 4. -/
def termWord (fcs : BitVec 32) : XgmiiWord :=
  ⟨0xf0#8, lanes 0x07#8 0x07#8 0x07#8 0xfd#8 (octet fcs 0) (octet fcs 1) (octet fcs 2) (octet fcs 3)⟩

/-- What the transmit block drives on `xgmii_txd`. -/
def out (t : TxSide) : XgmiiWord := ⟨t.txc, t.txd⟩

/-- Drive a word. -/
def drive (t : TxSide) (w : XgmiiWord) : TxSide := { t with txc := w.c, txd := w.d }

def reset (t : TxSide) : TxSide :=
  { t.drive idleWord with crcInit := false, txCounter := 0, state := .idle }

/-- The branch `TX_HEADER`. -/
def headerStep (t : TxSide) (a : Addrs) : TxSide :=
  let c := t.txCounter.extractLsb' 0 16
  let u := { t with txCounter := t.txCounter + 8#32 }
  if c = 0x00#16 then
    { u.drive preambleWord with ipSum := headerSum a, crcInit := true }
  else if c = 0x08#16 then
    { u.drive (header08 a) with ipSum := foldSum t.ipSum, crcInit := false }
  else if c = 0x10#16 then u.drive (header10 a)
  else if c = 0x18#16 then u.drive header18
  else if c = 0x20#16 then u.drive (header20 a t.ipSum)
  else if c = 0x28#16 then u.drive (header28 a)
  else if c = 0x30#16 then { u.drive header30 with state := .data }
  else u

/-- The transmit block at a clock edge; `fcs` is `crc64_outrev`. -/
def step (t : TxSide) (fifoState : FifoState) (dout2 : BitVec 72) (fcs : BitVec 32) (a : Addrs) :
    TxSide :=
  match t.state with
  | .idle => if fifoState = .wait then { t with txCounter := 0, state := .header } else t
  | .header => t.headerStep a
  | .data =>
      if fifoState = .data then t.drive (dataWord (payload dout2))
      else { t.drive (termWord fcs) with
              txCounter := 0, gapCount := interFrameGap.setWidth 32 - 1#32, state := .gap }
  | .gap =>
      { t.drive idleWord with
        gapCount := t.gapCount - 1#32, state := if t.gapCount = 0 then .idle else .gap }

end TxSide

namespace XgmiiTx

/-- `crc64_outrev`: the complemented register, the bits of each octet reversed. -/
def fcsOf (q : BitVec 32) : BitVec 32 :=
  ~~~((octet q 3).reverse ++ (octet q 2).reverse ++ (octet q 1).reverse ++ (octet q 0).reverse)

/-- The engine after a clock edge with `sys_rst` high, from any power-up values. -/
def reset (s : XgmiiTx) : XgmiiTx := { s with fifo := FifoSide.reset, tx := s.tx.reset }

/-- The register of `crc32_d64_inst` after the falling edge of the cycle. -/
def crc (s : XgmiiTx) : BitVec 32 :=
  Crc32D64.step s.tx.crcInit (!s.tx.crcInit) s.lfsr s.tx.txd.reverse

/-- The engine at a clock edge with `sys_rst` low. -/
def step (s : XgmiiTx) (a : Addrs) (dout : BitVec 72) (empty : Bool) : XgmiiTx where
  fifo := s.fifo.step s.tx.txCounter dout empty
  tx := s.tx.step s.fifo.state s.fifo.dout2 (fcsOf s.crc) a
  lfsr := s.crc

/-- The word on the wire. -/
def out (s : XgmiiTx) : XgmiiWord := s.tx.out

end XgmiiTx

end IpNuma
