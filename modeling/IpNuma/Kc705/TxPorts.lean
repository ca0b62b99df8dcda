import IpNuma.Clocked.Run
import IpNuma.Kc705.Orf
import IpNuma.Kc705.PioTx

/-!
# The transmit side of `PIO_EP`

`TX_MUX` with its two sources: `PIO_TX_ENGINE` on port 1 and the machine `ORF` of
`XGMII_RX_ENGINE` on port 2.  Everything that comes from elsewhere is an input of the cycle: the
core's `tready`, the completion requests, and the receiver's `tlp_frame_end`, `tlp1`, `tlp2`,
`tlp3`.

`grant_safe` holds of every state reached from reset: no two grants at once, no beat without the
grant, no grant withdrawn while it is asked for, and no TLP begun without both.
-/

namespace IpNuma

open Clocked

/-- What the transmit side samples at an edge of `clk`. -/
structure TxPortsIn where
  tready : Bool
  cpl : PioTxIn
  tlpFrameEnd : Bool
  tlp1 : BitVec 64
  tlp2 : BitVec 64
  tlp3 : BitVec 64
  deriving DecidableEq, Inhabited

/-- The multiplexer, its sources and the frame counter. -/
structure TxPorts where
  mux : TxMux
  pio : PioTx
  cnt : PktCount
  orf : Orf
  deriving DecidableEq, Inhabited

namespace TxPorts

/-- After an edge with the resets active, from any register values. -/
def reset (s : TxPorts) : TxPorts := ⟨TxMux.reset, PioTx.reset, PktCount.reset, s.orf.reset⟩

/-- One edge of `clk`. -/
def step (s : TxPorts) (i : TxPortsIn) : TxPorts where
  mux := s.mux.step s.pio.req s.orf.req
  pio := s.pio.step s.mux.ack1 (s.mux.tready1 i.tready) i.cpl
  cnt := s.cnt.step i.tlpFrameEnd
  orf := s.orf.step s.cnt.frameSeen s.mux.ack2 i.tlp1 i.tlp2 i.tlp3

/-- The port the core sees. -/
def out (s : TxPorts) : Axis := s.mux.out s.pio.axis s.orf.axis

/-- The invariant of the three machines. -/
structure Sound (s : TxPorts) : Prop where
  exclusive : ¬ (s.mux.ack1 = true ∧ s.mux.ack2 = true)
  pio : s.pio.Sound s.mux.ack1
  orf : s.orf.Sound s.mux.ack2

theorem reset_sound (s : TxPorts) : s.reset.Sound :=
  ⟨fun h => Bool.false_ne_true h.1, PioTx.reset_sound, Orf.reset_sound s.orf⟩

theorem tready1_ack1 {m : TxMux} {tready : Bool} (h : m.tready1 tready = true) : m.ack1 = true := by
  simp only [TxMux.tready1, Bool.and_eq_true] at h
  exact h.2

theorem step_sound {s : TxPorts} (h : s.Sound) (i : TxPortsIn) : (s.step i).Sound where
  exclusive := TxMux.step_exclusive h.exclusive
  pio := PioTx.step_sound i.cpl h.pio tready1_ack1 TxMux.step_keeps1
  orf := Orf.step_sound _ _ _ _ h.orf TxMux.step_keeps2

theorem run_sound (s : TxPorts) (is : List TxPortsIn) : (run step s.reset is).Sound :=
  run_induction (P := fun _ _ => True) (reset_sound s) (fun _ i h _ => step_sound h i) is
    (along_true _ is)

/-- What the multiplexer promises and what the sources keep to, in a state and over the edge
behind it. -/
structure GrantSafe (s : TxPorts) : Prop where
  /-- Never two grants. -/
  exclusive : ¬ (s.mux.ack1 = true ∧ s.mux.ack2 = true)
  /-- A beat on a port has the grant. -/
  routed1 : s.pio.axis.tvalid = true → s.mux.ack1 = true
  routed2 : s.orf.axis.tvalid = true → s.mux.ack2 = true
  /-- A grant is kept while it is asked for. -/
  keeps1 : ∀ i, s.mux.ack1 = true → s.pio.req = true → (s.step i).mux.ack1 = true
  keeps2 : ∀ i, s.mux.ack2 = true → s.orf.req = true → (s.step i).mux.ack2 = true
  /-- A grant no longer asked for, one left over from the TLP before, is gone at the next edge. -/
  drops1 : ∀ i, s.mux.ack1 = true → s.pio.req = false → (s.step i).mux.ack1 = false
  drops2 : ∀ i, s.mux.ack2 = true → s.orf.req = false → (s.step i).mux.ack2 = false
  /-- A TLP is begun only with a grant that is asked for. -/
  start1 : ∀ i, s.pio.axis.tvalid = false → (s.step i).pio.axis.tvalid = true →
    s.mux.ack1 = true ∧ s.pio.req = true
  start2 : ∀ i, s.orf.axis.tvalid = false → (s.step i).orf.axis.tvalid = true →
    s.mux.ack2 = true ∧ s.orf.req = true

/-- **Grant safety of the transmit multiplexer.**  It holds in every state reached from reset,
for every `tready`, every sequence of completion requests and every sequence of frames. -/
theorem grant_safe (s : TxPorts) (is : List TxPortsIn) : GrantSafe (run step s.reset is) := by
  have h := run_sound s is
  refine ⟨h.exclusive, fun hv => (h.pio.routed hv).1, fun hv => (h.orf.routed hv).1,
    fun _ => TxMux.step_keeps1, fun _ => TxMux.step_keeps2, fun _ ha hr => ?_, fun _ ha hr => ?_,
    fun i => h.pio.start i.cpl, fun _ => h.orf.start⟩
  · have hex := h.exclusive
    simp_all [step, TxMux.step]
  · have hex := h.exclusive
    simp_all [step, TxMux.step]

end TxPorts

end IpNuma
