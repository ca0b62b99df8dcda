import IpNuma.Kc705.TxMux

/-!
# `PIO_TX_ENGINE`: completions of the local endpoint

The 64-bit version (`gen_cpl_64`).  A request sets `compl_busy_i`; the engine then asks for the bus
and, when it has it with `tready`, sends two beats: the two first header words, and the third with
the data.  The first beat waits in `PIO_TX_CPLD_QW1` until it is taken, and the second is put on
the port for one cycle.
-/

namespace IpNuma

/-- `PIO_TX_RST_STATE`, `PIO_TX_CPLD_QW1_FIRST`, `PIO_TX_CPLD_QW1_TEMP`, `PIO_TX_CPLD_QW1`. -/
inductive PioTxState
  | rst
  | qw1First
  | qw1Temp
  | qw1
  deriving DecidableEq, Inhabited

/-- What the engine samples besides its port: the request, and the word read for it. -/
structure PioTxIn where
  reqCompl : Bool
  reqComplWd : Bool
  reqTc : BitVec 3
  reqTd : Bool
  reqEp : Bool
  reqAttr : BitVec 2
  reqLen : BitVec 10
  reqRid : BitVec 16
  reqTag : BitVec 8
  reqBe : BitVec 8
  reqAddr : BitVec 16
  rdData : BitVec 32
  completerId : BitVec 16
  deriving DecidableEq, Inhabited

/-- The registers of the engine. -/
structure PioTx where
  state : PioTxState
  req : Bool
  axis : Axis
  complDone : Bool
  complBusy : Bool
  reqComplQ : Bool
  reqComplWdQ : Bool
  rdBe : BitVec 4
  deriving DecidableEq, Inhabited

namespace PioTx

/-- `PIO_CPLD_FMT_TYPE`. -/
def cpldFmtType : BitVec 7 := 0b1001010#7
/-- `PIO_CPL_FMT_TYPE`. -/
def cplFmtType : BitVec 7 := 0b0001010#7

/-- `byte_count`: the number of bytes between the first and the last enabled one. -/
def byteCount (rdBe : BitVec 4) : BitVec 12 :=
  if rdBe.getLsbD 3 && rdBe.getLsbD 0 then 4
  else if !rdBe.getLsbD 3 && rdBe.getLsbD 2 && rdBe.getLsbD 0 then 3
  else if rdBe.getLsbD 3 && rdBe.getLsbD 1 && !rdBe.getLsbD 0 then 3
  else if rdBe = 0b0011#4 ∨ rdBe = 0b0110#4 ∨ rdBe = 0b1100#4 then 2
  else 1

/-- `lower_addr`: the address of the first enabled byte, zero without data. -/
def lowerAddr (complWd : Bool) (rdBe : BitVec 4) (reqAddr : BitVec 16) : BitVec 7 :=
  if complWd then
    reqAddr.extractLsb' 2 5 ++
      (if rdBe = 0 ∨ rdBe.getLsbD 0 then 0b00#2 else if rdBe.getLsbD 1 then 0b01#2
        else if rdBe.getLsbD 2 then 0b10#2 else 0b11#2)
  else 0

/-- The first beat: the first two header words. -/
def firstBeat (s : PioTx) (i : PioTxIn) : BitVec 64 :=
  i.completerId ++ 0#3 ++ 0#1 ++ byteCount s.rdBe ++ 0#1 ++
    (if s.reqComplWdQ then cpldFmtType else cplFmtType) ++ 0#1 ++ i.reqTc ++ 0#4 ++
    BitVec.ofBool i.reqTd ++ BitVec.ofBool i.reqEp ++ i.reqAttr ++ 0#2 ++ i.reqLen

/-- The second beat: the third header word and the data. -/
def secondBeat (s : PioTx) (i : PioTxIn) : BitVec 64 :=
  i.rdData ++ i.reqRid ++ i.reqTag ++ 0#1 ++ lowerAddr s.reqComplWdQ s.rdBe i.reqAddr

def reset : PioTx := ⟨.rst, false, ⟨0, 0, false, false⟩, false, false, false, true, 0⟩

/-- The engine at a clock edge with `rst_n` high. -/
def step (s : PioTx) (ack tready : Bool) (i : PioTxIn) : PioTx :=
  let u := { s with
    complDone := false
    complBusy := s.complBusy || s.reqComplQ
    reqComplQ := i.reqCompl
    reqComplWdQ := i.reqComplWd
    rdBe := i.reqBe.extractLsb' 0 4 }
  match s.state with
  | .rst =>
      if s.complBusy then
        { u with req := true, axis := ⟨0, 0xff#8, false, false⟩
                 state := if tready && ack then .qw1First else .rst }
      else { u with req := false, axis := ⟨0, 0xff#8, false, false⟩, state := .rst }
  | .qw1First =>
      if tready then
        { u with axis := ⟨firstBeat s i, 0xff#8, false, s.axis.tvalid⟩, state := .qw1Temp }
      else { u with state := .rst }
  | .qw1Temp => { u with axis := { s.axis with tvalid := true }, state := .qw1 }
  | .qw1 =>
      if tready then
        { u with axis := ⟨secondBeat s i, if s.reqComplWdQ then 0xff#8 else 0x0f#8, true, true⟩
                 complDone := true, complBusy := false, state := .rst }
      else { u with state := .qw1 }

/-- The states of a port that can go with a state of the engine and its `ack`. -/
def Sound (s : PioTx) (ack : Bool) : Prop :=
  match s.state with
  | .rst => s.axis.tvalid = true → ack = true ∧ s.req = true ∧ s.complBusy = false
  | .qw1First => s.axis.tvalid = false ∧ s.req = true
  | .qw1Temp => s.axis.tvalid = false ∧ s.req = true ∧ ack = true ∧ s.axis.tlast = false
  | .qw1 => s.axis.tvalid = true ∧ s.req = true ∧ ack = true ∧ s.axis.tlast = false

theorem reset_sound : reset.Sound false := by
  intro h
  cases h

/-- The engine keeps to its `ack`, when an `ack` is kept while `req` is up and `tready` needs it. -/
theorem step_sound {s : PioTx} {ack ack' tready : Bool} (i : PioTxIn) (h : s.Sound ack)
    (hr : tready = true → ack = true) (hk : ack = true → s.req = true → ack' = true) :
    (s.step ack tready i).Sound ack' := by
  unfold Sound at h
  cases hs : s.state with
  | rst =>
    rw [hs] at h
    simp only [step, hs]
    split_ifs <;> simp_all [Sound]
  | qw1First =>
    rw [hs] at h
    simp only [step, hs]
    split_ifs <;> simp_all [Sound]
  | qw1Temp =>
    rw [hs] at h
    simp_all [step, Sound]
  | qw1 =>
    rw [hs] at h
    simp only [step, hs]
    split_ifs <;> simp_all [Sound]

/-- A beat on the port has the `ack` and the `req`. -/
theorem Sound.routed {s : PioTx} {ack : Bool} (h : s.Sound ack) (hv : s.axis.tvalid = true) :
    ack = true ∧ s.req = true := by
  unfold Sound at h
  cases hs : s.state <;> simp_all

/-- A TLP is begun with the `ack` and the `req` up. -/
theorem Sound.start {s : PioTx} {ack tready : Bool} (i : PioTxIn) (h : s.Sound ack)
    (hv : s.axis.tvalid = false) (hv' : (s.step ack tready i).axis.tvalid = true) :
    ack = true ∧ s.req = true := by
  unfold Sound at h
  cases hs : s.state with
  | rst | qw1First =>
    simp only [step, hs] at hv'
    split_ifs at hv' <;> simp_all
  | qw1Temp | qw1 =>
    simp_all

end PioTx

end IpNuma
