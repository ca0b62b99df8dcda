import Mathlib.Data.BitVec

/-!
# `gmii2fifo9`: frames of GMII to the FIFO

The octets behind the start frame delimiter are written to the FIFO with the tag 1, and at most
`Gap` words with the tag 0 behind the last one.
-/

namespace IpNuma

/-- A byte on GMII: `gmii_tx_en` and `gmii_txd` at one end, `gmii_rx_dv` and `gmii_rxd` at the
other. -/
structure GmiiBeat where
  en : Bool
  data : BitVec 8
  deriving DecidableEq, Inhabited

/-- `STATE_IDLE`, `STATE_DATA`. -/
inductive GmiiRxState
  | idle
  | data
  deriving DecidableEq, Inhabited

/-- The registers of `gmii2fifo9.v`. -/
structure Gmii2Fifo9 where
  state : GmiiRxState
  rxd : BitVec 8
  rxc : Bool
  gapCount : BitVec 4
  wrEn : Bool
  deriving DecidableEq, Inhabited

namespace Gmii2Fifo9

/-- The registers after an edge with the reset active. -/
def reset (s : Gmii2Fifo9) : Gmii2Fifo9 := { s with state := .idle, gapCount := 0, wrEn := false }

/-- The registers at an edge of `gmii_rx_clk` with the reset inactive. -/
def step (gap : BitVec 4) (s : Gmii2Fifo9) (i : GmiiBeat) : Gmii2Fifo9 :=
  if i.en then
    match s.state with
    | .idle => { s with wrEn := false, state := if i.data = 0xd5#8 then .data else .idle }
    | .data => { s with gapCount := gap, rxd := i.data, rxc := true, wrEn := true }
  else if s.gapCount = 0 then { s with wrEn := false, state := .idle }
  else { s with
    state := .idle, rxd := 0, rxc := false, wrEn := true, gapCount := s.gapCount - 1 }

/-- `din`. -/
def din (s : Gmii2Fifo9) : BitVec 9 := BitVec.ofBool s.rxc ++ s.rxd

/-- The word that the FIFO takes at the edge behind this one. -/
def push (gap : BitVec 4) (s : Gmii2Fifo9) (i : GmiiBeat) : List (BitVec 9) :=
  if (s.step gap i).wrEn then [(s.step gap i).din] else []

end Gmii2Fifo9

end IpNuma
