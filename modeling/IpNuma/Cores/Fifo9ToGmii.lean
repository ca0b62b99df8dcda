import IpNuma.Cores.Crc32D64
import IpNuma.Xgmii.Word
import Mathlib.Tactic.IntervalCases

/-!
# `fifo9togmii`: frames of the FIFO to GMII

The FIFO holds octets with a tag, which is 0 between two frames.  The module puts the preamble
before the octets and the FCS behind them.  The FIFO is not read in the preamble, whose bytes take
the time of eight words.

`crc_gen` is clocked by the falling edge in the middle of the cycle: within one step it absorbs the
`txd` of the cycle, and the rising edge uses the result.

`GmiiSide` is the module with an ideal show-ahead FIFO.
-/

namespace IpNuma

/-! ### `crc_gen` -/

namespace CrcGen

/-- The right-hand sides of `NewCRC[0]`, …, `NewCRC[31]`: the indices into `C`, then those into `D`.
-/
def taps : List (List ℕ × List ℕ) :=
  [([24, 30], [1, 7]), ([25, 31, 24, 30], [0, 6, 1, 7]), ([26, 25, 31, 24, 30], [5, 0, 6, 1, 7]),
   ([27, 26, 25, 31], [4, 5, 0, 6]), ([28, 27, 26, 24, 30], [3, 4, 5, 1, 7]),
   ([29, 28, 27, 25, 31, 24, 30], [2, 3, 4, 0, 6, 1, 7]),
   ([30, 29, 28, 26, 25, 31], [1, 2, 3, 5, 0, 6]), ([31, 29, 27, 26, 24], [0, 2, 4, 5, 7]),
   ([0, 28, 27, 25, 24], [3, 4, 6, 7]), ([1, 29, 28, 26, 25], [2, 3, 5, 6]),
   ([2, 29, 27, 26, 24], [2, 4, 5, 7]), ([3, 28, 27, 25, 24], [3, 4, 6, 7]),
   ([4, 29, 28, 26, 25, 24, 30], [2, 3, 5, 6, 1, 7]),
   ([5, 30, 29, 27, 26, 25, 31], [1, 2, 4, 5, 0, 6]), ([6, 31, 30, 28, 27, 26], [0, 1, 3, 4, 5]),
   ([7, 31, 29, 28, 27], [0, 2, 3, 4]), ([8, 29, 28, 24], [2, 3, 7]), ([9, 30, 29, 25], [1, 2, 6]),
   ([10, 31, 30, 26], [0, 1, 5]), ([11, 31, 27], [0, 4]), ([12, 28], [3]), ([13, 29], [2]),
   ([14, 24], [7]), ([15, 25, 24, 30], [6, 1, 7]), ([16, 26, 25, 31], [5, 0, 6]),
   ([17, 27, 26], [4, 5]), ([18, 28, 27, 24, 30], [3, 4, 1, 7]),
   ([19, 29, 28, 25, 31], [2, 3, 0, 6]), ([20, 30, 29, 26], [1, 2, 5]),
   ([21, 31, 30, 27], [0, 1, 4]), ([22, 31, 28], [0, 3]), ([23, 29], [2])]

/-- `NextCRC`. -/
def nextCRC (d : BitVec 8) (c : BitVec 32) : BitVec 32 :=
  (BitVec.ofBoolListLE (taps.map fun t =>
    Crc32D64.xorBits c t.1 ^^ Crc32D64.xorBits d t.2)).setWidth 32

/-- `CRC_reg` after a falling edge. -/
def step (init dataEn : Bool) (frameData : BitVec 8) (crcReg : BitVec 32) : BitVec 32 :=
  if init then BitVec.allOnes 32 else if dataEn then nextCRC frameData crcReg else crcReg

/-- `CRC_out`: every octet of the register complemented, its bits in reverse order. -/
def crcOut (crcReg : BitVec 32) : BitVec 32 :=
  ~~~((octet crcReg 3).reverse ++ (octet crcReg 2).reverse ++ (octet crcReg 1).reverse ++
    (octet crcReg 0).reverse)

end CrcGen

/-! ### The module -/

/-- `STATE_IDLE`, `STATE_PRE`, `STATE_SFD`, `STATE_DATA`, `STATE_FCS`. -/
inductive GmiiTxState
  | idle
  | pre
  | sfd
  | data
  | fcs
  deriving DecidableEq, Inhabited

/-- The registers of `fifo9togmii.v`, with `CRC_reg`. -/
structure Fifo9ToGmii where
  state : GmiiTxState
  count : BitVec 3
  fcsCount : BitVec 2
  txd : BitVec 8
  txd1 : BitVec 8
  txd2 : BitVec 8
  txEn : Bool
  crcInitReq : Bool
  crcRd : Bool
  crcReg : BitVec 32
  deriving DecidableEq, Inhabited

namespace Fifo9ToGmii

/-- The registers after a cycle with the reset active. -/
def reset (s : Fifo9ToGmii) : Fifo9ToGmii :=
  { s with
    state := .idle, txd := 0, txEn := false, count := 0, crcInitReq := false, crcRd := false
    fcsCount := 0, crcReg := BitVec.allOnes 32 }

/-- `crc_out` in the second half of the cycle. -/
def crcOut (s : Fifo9ToGmii) : BitVec 32 := CrcGen.crcOut s.crcReg

/-- The falling edge. -/
def fall (s : Fifo9ToGmii) : Fifo9ToGmii :=
  { s with crcReg := CrcGen.step s.crcInitReq (!s.crcRd) s.txd s.crcReg }

/-- The defaults of the rising edge. -/
def cleared (s : Fifo9ToGmii) : Fifo9ToGmii :=
  { s with txEn := false, crcInitReq := false, crcRd := false }

/-- `STATE_PRE`. -/
def preamble (s : Fifo9ToGmii) (dout : BitVec 9) : Fifo9ToGmii :=
  match s.count.toNat with
  | 0 => { s with txEn := true, count := s.count + 1, txd := 0x55#8, txd2 := dout.extractLsb' 0 8 }
  | 6 => { s with txEn := true, count := s.count + 1, txd := 0xd5#8, crcInitReq := true }
  | 7 => { s with txEn := true, count := s.count + 1, txd := s.txd1, state := .sfd }
  | _ => { s with txEn := true, count := s.count + 1, txd := 0x55#8 }

/-- `STATE_FCS`. -/
def fcs (s : Fifo9ToGmii) : Fifo9ToGmii :=
  match s.fcsCount.toNat with
  | 0 => { s with txEn := true, crcRd := true, fcsCount := s.fcsCount + 1, txd := octet s.crcOut 2 }
  | 1 => { s with txEn := true, crcRd := true, fcsCount := s.fcsCount + 1, txd := octet s.crcOut 1 }
  | 2 => { s with
      txEn := true, crcRd := true, fcsCount := s.fcsCount + 1, txd := octet s.crcOut 0
      state := .idle }
  | _ => { s with txEn := true, crcRd := true, fcsCount := s.fcsCount + 1 }

/-- The `case` of the rising edge, the defaults assigned before it. -/
def rise (s : Fifo9ToGmii) (dout : BitVec 9) (empty : Bool) : Fifo9ToGmii :=
  match s.state with
  | .idle =>
      if !empty && dout.getLsbD 8 then
        { s with
          txd := 0x55#8, txEn := true, txd1 := dout.extractLsb' 0 8, state := .pre, count := 0 }
      else s
  | .pre => preamble s dout
  | .sfd => { s with txd := s.txd2, txEn := true, state := .data }
  | .data =>
      if empty then { s with state := .idle }
      else if dout.getLsbD 8 then { s with txd := dout.extractLsb' 0 8, txEn := true }
      else
        { s with
          crcRd := true, txd := octet s.crcOut 3, txEn := true, fcsCount := 0, state := .fcs }
  | .fcs => fcs s

/-- A cycle with the reset inactive. -/
def step (s : Fifo9ToGmii) (dout : BitVec 9) (empty : Bool) : Fifo9ToGmii :=
  s.fall.cleared.rise dout empty

/-- `rd_en`. -/
def rdEn (s : Fifo9ToGmii) (empty : Bool) : Bool := !empty && s.state != .pre

/-! ### The states -/

variable {s : Fifo9ToGmii} {dout : BitVec 9} {empty : Bool}

theorem step_quiet (hst : s.state = .idle) (h : empty = true ∨ dout.getLsbD 8 = false) :
    s.step dout empty = s.fall.cleared := by
  have hst' : s.fall.cleared.state = .idle := hst
  have hquiet : (!empty && dout.getLsbD 8) = false := by
    rcases h with h | h <;> rw [h]
    · rfl
    · exact Bool.and_false _
  unfold step rise
  rw [hst']
  exact if_neg (by rw [hquiet]; exact Bool.false_ne_true)

/-- The first byte of the preamble; the octet read is kept. -/
theorem step_start (hst : s.state = .idle) (hw : dout.getLsbD 8 = true) : s.step dout false =
    { s.fall.cleared with
      txd := 0x55#8, txEn := true, txd1 := dout.extractLsb' 0 8, state := .pre, count := 0 } := by
  have hst' : s.fall.cleared.state = .idle := hst
  unfold step rise
  rw [hst']
  exact if_pos hw

/-- The other bytes of the preamble and the first octet; the second octet is looked at. -/
theorem step_pre {k : ℕ} (hst : s.state = .pre) (hc : s.count = BitVec.ofNat 3 k) (hk : k < 8) :
    s.step dout empty =
      { s.fall.cleared with
        txEn := true
        count := BitVec.ofNat 3 (k + 1)
        txd := if k = 6 then 0xd5#8 else if k = 7 then s.txd1 else 0x55#8
        txd2 := if k = 0 then dout.extractLsb' 0 8 else s.txd2
        crcInitReq := decide (k = 6)
        state := if k = 7 then .sfd else .pre } := by
  have hst' : s.fall.cleared.state = .pre := hst
  have hc' : s.fall.cleared.count = BitVec.ofNat 3 k := hc
  unfold step rise
  rw [hst']
  simp only [preamble, hc']
  interval_cases k <;> rw [← hst'] <;> rfl

/-- The second octet. -/
theorem step_sfd (hst : s.state = .sfd) :
    s.step dout empty = { s.fall.cleared with txd := s.txd2, txEn := true, state := .data } := by
  have hst' : s.fall.cleared.state = .sfd := hst
  unfold step rise
  rw [hst']
  rfl

/-- A later octet. -/
theorem step_data (hst : s.state = .data) (hw : dout.getLsbD 8 = true) : s.step dout false =
    { s.fall.cleared with txd := dout.extractLsb' 0 8, txEn := true } := by
  have hst' : s.fall.cleared.state = .data := hst
  unfold step rise
  simp only [hst', hw, Bool.false_eq_true, if_false, if_true]

/-- The word behind the frame: the first byte of the FCS. -/
theorem step_end (hst : s.state = .data) (hw : dout.getLsbD 8 = false) : s.step dout false =
    { s.fall.cleared with
      crcRd := true, txd := octet s.fall.crcOut 3, txEn := true, fcsCount := 0, state := .fcs } := by
  have hst' : s.fall.cleared.state = .data := hst
  unfold step rise
  simp only [hst', hw, Bool.false_eq_true, if_false]
  rfl

/-- The other bytes of the FCS. -/
theorem step_fcs {k : ℕ} (hst : s.state = .fcs) (hc : s.fcsCount = BitVec.ofNat 2 k) (hk : k < 3) :
    s.step dout empty =
      { s.fall.cleared with
        txEn := true
        crcRd := true
        fcsCount := BitVec.ofNat 2 (k + 1)
        txd := octet s.fall.crcOut (2 - k)
        state := if k = 2 then .idle else .fcs } := by
  have hst' : s.fall.cleared.state = .fcs := hst
  have hc' : s.fall.cleared.fcsCount = BitVec.ofNat 2 k := hc
  unfold step rise
  rw [hst']
  simp only [fcs, hc']
  interval_cases k <;> rw [← hst'] <;> rfl

end Fifo9ToGmii

/-! ### The FIFO -/

/-- What the FIFO gets in a cycle, and what its output shows if it is empty. -/
structure GmiiIn where
  arrive : List (BitVec 9)
  dout : BitVec 9
  deriving DecidableEq, Inhabited

/-- The words in the FIFO and the module that reads them. -/
structure GmiiSide where
  fifo : List (BitVec 9)
  tx : Fifo9ToGmii
  deriving DecidableEq, Inhabited

namespace GmiiSide

/-- After reset. -/
def start (t : Fifo9ToGmii) : GmiiSide := ⟨[], t.reset⟩

/-- `dout`. -/
def dout (s : GmiiSide) (i : GmiiIn) : BitVec 9 := s.fifo.headD i.dout

/-- One edge of `gmii_tx_clk`; the words that arrive are there in the next cycle. -/
def step (s : GmiiSide) (i : GmiiIn) : GmiiSide where
  fifo := (if s.tx.rdEn s.fifo.isEmpty then s.fifo.tail else s.fifo) ++ i.arrive
  tx := s.tx.step (s.dout i) s.fifo.isEmpty

/-- The words that are left after the cycle, without those that arrive. -/
theorem fifo_step (s : GmiiSide) (i : GmiiIn) :
    (s.step i).fifo = (if s.tx.state = .pre then s.fifo else s.fifo.tail) ++ i.arrive := by
  simp only [step, Fifo9ToGmii.rdEn]
  cases hfifo : s.fifo with
  | nil => simp
  | cons w ws => by_cases hst : s.tx.state = .pre <;> simp [hst]

end GmiiSide

end IpNuma
