import Mathlib.Data.BitVec

/-!
# `TX_MUX`: two sources on the transmit side of the PCIe core

A source raises `req` and drives its port when it has `ack`.  The two `ack` are registers; which
port is seen by the core, and whose `tready` follows the core's, depends on them alone.
-/

namespace IpNuma

/-- The signals of an AXI-Stream port, without `tready`. -/
structure Axis where
  tdata : BitVec 64
  tkeep : BitVec 8
  tlast : Bool
  tvalid : Bool
  deriving DecidableEq, Inhabited

/-- What is transferred in a cycle with `tvalid` and `tready`. -/
structure Beat where
  tdata : BitVec 64
  tkeep : BitVec 8
  tlast : Bool
  deriving DecidableEq, Inhabited

/-- The beat on a port. -/
def Axis.beat (x : Axis) : Beat := ⟨x.tdata, x.tkeep, x.tlast⟩

/-- `s_axis_tx1_ack` and `s_axis_tx2_ack`. -/
structure TxMux where
  ack1 : Bool
  ack2 : Bool
  deriving DecidableEq, Inhabited

namespace TxMux

def reset : TxMux := ⟨false, false⟩

/-- The arbiter at a clock edge with `sys_rst` low. -/
def step (m : TxMux) (req1 req2 : Bool) : TxMux :=
  match m.ack2, m.ack1 with
  | false, false => if req1 then { m with ack1 := true } else if req2 then { m with ack2 := true }
      else ⟨false, false⟩
  | false, true => if !req1 then ⟨false, if req2 then true else m.ack2⟩ else m
  | true, false => if !req2 then ⟨if req1 then true else m.ack1, false⟩ else m
  | true, true => m

/-- `s_axis_tx1_tready`. -/
def tready1 (m : TxMux) (tready : Bool) : Bool := tready && m.ack1

/-- The port the core sees. -/
def out (m : TxMux) (tx1 tx2 : Axis) : Axis := if m.ack2 then tx2 else tx1

variable {m : TxMux} {req1 req2 : Bool}

theorem step_exclusive (h : ¬ (m.ack1 = true ∧ m.ack2 = true)) :
    ¬ ((m.step req1 req2).ack1 = true ∧ (m.step req1 req2).ack2 = true) := by
  obtain ⟨a1, a2⟩ := m
  revert h
  revert a1 a2 req1 req2
  decide

/-- An `ack` stays while its `req` is up. -/
theorem step_keeps1 (h : m.ack1 = true) (hr : req1 = true) : (m.step req1 req2).ack1 = true := by
  obtain ⟨a1, a2⟩ := m
  subst h hr
  cases a2 <;> rfl

theorem step_keeps2 (h : m.ack2 = true) (hr : req2 = true) : (m.step req1 req2).ack2 = true := by
  obtain ⟨a1, a2⟩ := m
  subst h hr
  cases a1 <;> rfl

end TxMux

end IpNuma
