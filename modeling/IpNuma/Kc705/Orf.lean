import IpNuma.Kc705.TxMux

/-!
# `XGMII_RX_ENGINE`: from a received frame to the PCIe core

The blocks on `clk`.  `PktCount` samples `tlp_frame_end` into a shift register, and the state
machine `ORF` starts when the sample has reached its last bit alone.  It asks for the bus and then
puts `tlp1`, `tlp2` and, for more than four words, `tlp3` on its port, each for one cycle; `tready`
does not occur in it.
-/

namespace IpNuma

/-- The frame counter: `prev_xgmii_end` and `xgmii_pktcount`. -/
structure PktCount where
  prevXgmiiEnd : BitVec 4
  xgmiiPktcount : BitVec 8
  deriving DecidableEq, Inhabited

namespace PktCount

def reset : PktCount := ⟨0, 0⟩

/-- `prev_xgmii_end == 4'b0001`. -/
def frameSeen (p : PktCount) : Bool := p.prevXgmiiEnd == 0b0001#4

/-- The counter at an edge of `clk` with `sys_rst` low. -/
def step (p : PktCount) (tlpFrameEnd : Bool) : PktCount where
  prevXgmiiEnd := BitVec.ofBool tlpFrameEnd ++ p.prevXgmiiEnd.extractLsb' 1 3
  xgmiiPktcount := if p.frameSeen then p.xgmiiPktcount + 1#8 else p.xgmiiPktcount

end PktCount

/-- `ORF_IDLE`, `ORF_ACK`, `ORF_TLP1`, `ORF_TLP2`, `ORF_TLP3`. -/
inductive OrfState
  | idle
  | ack
  | tlp1
  | tlp2
  | tlp3
  deriving DecidableEq, Inhabited

/-- The registers of the state machine. -/
structure Orf where
  state : OrfState
  len : BitVec 10
  req : Bool
  axis : Axis
  deriving DecidableEq, Inhabited

namespace Orf

/-- After an edge with `sys_rst` high, from any register values. -/
def reset (s : Orf) : Orf :=
  { s with state := .idle, len := 0, axis := { s.axis with tvalid := false, tlast := false } }

/-- `len` of a TLP with the header words `tlp1`: its words less four, modulo 1024. -/
def tlpLen (tlp1 : BitVec 64) : BitVec 10 :=
  (if tlp1.getLsbD 30 then tlp1.extractLsb' 0 10 else 0) - 1#10 +
    (BitVec.ofBool (tlp1.getLsbD 29)).setWidth 10

/-- `tkeep`, `tlast` when `tdata` is sent with `len` words to come, less two. -/
def beatOf (tdata : BitVec 64) (len : BitVec 10) : Axis :=
  if len = 0 then ⟨tdata, 0xff#8, true, true⟩
  else if len = 1023#10 then ⟨tdata, 0x0f#8, true, true⟩
  else ⟨tdata, 0xff#8, false, true⟩

/-- The state machine at an edge of `clk` with `sys_rst` low. -/
def step (s : Orf) (frameSeen ack : Bool) (tlp1 tlp2 tlp3 : BitVec 64) : Orf :=
  match s.state with
  | .idle =>
      let u := { s with axis := { s.axis with tvalid := false, tlast := false } }
      if frameSeen then { u with req := true, state := .ack } else { u with req := false }
  | .ack => { s with req := true, state := if ack then .tlp1 else .ack }
  | .tlp1 => { s with
      len := tlpLen tlp1, req := true, axis := ⟨tlp1, 0xff#8, false, true⟩, state := .tlp2 }
  | .tlp2 => { s with
      len := s.len - 2#10, req := true, axis := beatOf tlp2 s.len
      state := if s.len = 0 ∨ s.len = 1023#10 then .idle else .tlp3 }
  | .tlp3 => { s with
      len := s.len - 2#10, req := true, axis := beatOf tlp3 s.len, state := .idle }

@[simp] theorem beatOf_tvalid (tdata : BitVec 64) (len : BitVec 10) :
    (beatOf tdata len).tvalid = true := by
  unfold beatOf
  split_ifs <;> rfl

/-- The states of a port that can go with a state of the machine and its `ack`. -/
def Sound (s : Orf) (ack : Bool) : Prop :=
  match s.state with
  | .idle => s.axis.tvalid = true → ack = true ∧ s.req = true
  | .ack => s.axis.tvalid = false ∧ s.req = true
  | .tlp1 => s.axis.tvalid = false ∧ s.req = true ∧ ack = true
  | .tlp2 | .tlp3 => s.axis.tvalid = true ∧ s.req = true ∧ ack = true

theorem reset_sound (s : Orf) : s.reset.Sound false := by
  intro h
  cases h

/-- The machine keeps to its `ack`, when an `ack` is kept while `req` is up. -/
theorem step_sound {s : Orf} {ack ack' : Bool} (frameSeen : Bool) (tlp1 tlp2 tlp3 : BitVec 64)
    (h : s.Sound ack) (hk : ack = true → s.req = true → ack' = true) :
    (s.step frameSeen ack tlp1 tlp2 tlp3).Sound ack' := by
  unfold Sound at h
  cases hs : s.state with
  | idle | ack =>
    rw [hs] at h
    simp only [step, hs]
    split_ifs <;> simp_all [Sound]
  | tlp1 | tlp3 =>
    rw [hs] at h
    simp_all [step, Sound]
  | tlp2 =>
    rw [hs] at h
    simp only [step, hs]
    split_ifs <;> simp_all [Sound]

/-- A beat on the port has the `ack` and the `req`. -/
theorem Sound.routed {s : Orf} {ack : Bool} (h : s.Sound ack) (hv : s.axis.tvalid = true) :
    ack = true ∧ s.req = true := by
  unfold Sound at h
  cases hs : s.state <;> simp_all

/-- A TLP is begun with the `ack` and the `req` up. -/
theorem Sound.start {s : Orf} {ack frameSeen : Bool} {tlp1 tlp2 tlp3 : BitVec 64} (h : s.Sound ack)
    (hv : s.axis.tvalid = false)
    (hv' : (s.step frameSeen ack tlp1 tlp2 tlp3).axis.tvalid = true) :
    ack = true ∧ s.req = true := by
  unfold Sound at h
  cases hs : s.state with
  | idle =>
    simp only [step, hs] at hv'
    split_ifs at hv'
  | ack =>
    -- `tvalid` stays low
    simp only [step, hs, hv] at hv'
    cases hv'
  | tlp1 | tlp2 | tlp3 =>
    simp_all

end Orf

end IpNuma
