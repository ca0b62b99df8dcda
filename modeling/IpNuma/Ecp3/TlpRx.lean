import IpNuma.Regs.Slice

/-!
# The receiver of `pcie_tlp`

The first always block of `pcie_tlp.v`.  A TLP arrives in words of sixteen bits, one in every cycle
from `rx_st` to `rx_end`; the receiver stores the fields of its header and announces a request by a
pulse of `rx_tlph_valid` before the last address word is stored.

The macro `ENABLE_EXPROM` is defined by the `setup.v` that `ipnuma.v` includes, and left out of the
one of the test bench.  It is a constant `expRom` next to the registers, kept by every step
(`expRom_step`), so what is said of all states is said of both builds.
-/

namespace IpNuma

/-- `rx_comm`. -/
inductive TlpComm
  | mr
  | mrdLk
  | io
  | cfg0
  | cfg1
  | msg
  | cpl
  | cplLk
  deriving DecidableEq, Inhabited

/-- `rx_status`, without the states that are never entered. -/
inductive TlpRxState
  | head0
  | head1
  | req2
  | req3
  | req4
  | req5
  | req6
  | req7
  | req
  | comp2
  deriving DecidableEq, Inhabited

/-- The receive credits. -/
structure RxCredits where
  pdNum : BitVec 8
  phCr : Bool
  pdCr : Bool
  nphCr : Bool
  npdCr : Bool
  deriving DecidableEq, Inhabited

/-- What the core drives to the receiver in a cycle. -/
structure RxWord where
  rxSt : Bool
  rxEnd : Bool
  rxData : BitVec 16
  rxBarHit : BitVec 7
  deriving DecidableEq, Inhabited

/-- The registers of the receiver. -/
structure TlpRx where
  rxComm : TlpComm
  rxStatus : TlpRxState
  rxFmt : BitVec 2
  rxType : BitVec 5
  rxLength : BitVec 10
  rxReqid : BitVec 16
  rxTag : BitVec 8
  rxLastbe : BitVec 4
  rxFirstbe : BitVec 4
  /-- `rx_addr[47:2]`. -/
  rxAddr : BitVec 46
  rxTlphValid : Bool
  rxData2 : BitVec 16
  rxEnd2 : Bool
  credits : RxCredits
  /-- Whether `ENABLE_EXPROM` is defined. -/
  expRom : Bool
  deriving Inhabited

namespace TlpRx

/-- The registers after an edge with the reset active. -/
def reset (s : TlpRx) : TlpRx :=
  { s with
    rxStatus := .head0
    rxTlphValid := false
    rxData2 := 0
    rxEnd2 := false
    credits := ⟨0, false, false, false, false⟩ }

/-- `rx_comm` from the first word of a TLP. -/
def commOf (w : BitVec 16) : TlpComm :=
  if w.getLsbD 12 then .msg
  else if w.getLsbD 11 then if w.getLsbD 8 then .cplLk else .cpl
  else
    match (w.extractLsb' 8 3).toNat with
    | 0b000 => .mr
    | 0b001 => .mrdLk
    | 0b010 => .io
    | 0b100 => .cfg0
    | _ => .cfg1

/-- The number of data credits of a payload. -/
def dataCredits (s : TlpRx) : BitVec 8 :=
  if s.rxLength.extractLsb' 0 2 = 0 then s.rxLength.extractLsb' 2 8
  else s.rxLength.extractLsb' 2 8 + 1

/-- The credits returned at the end of a TLP. -/
def returned (s : TlpRx) (i : RxWord) : RxCredits :=
  let none : RxCredits := ⟨0, false, false, false, false⟩
  if i.rxEnd then
    match s.rxComm with
    | .mr | .mrdLk =>
        -- with `ENABLE_EXPROM` also for a request that hits no BAR
        if s.expRom ∨ i.rxBarHit ≠ 0 then
          if s.rxFmt.getLsbD 1 then { none with phCr := true, pdCr := true, pdNum := s.dataCredits }
          else { none with nphCr := true }
        else none
    | .io | .cfg0 | .cfg1 => { none with nphCr := true, npdCr := s.rxFmt.getLsbD 1 }
    | .msg =>
        if s.rxFmt.getLsbD 1 then { none with phCr := true, pdCr := true, pdNum := s.dataCredits }
        else { none with phCr := true }
    | .cpl | .cplLk => none
  else none

/-- What is assigned in every cycle; the end of a TLP leads back to `RX_HEAD0` unless the state
assigns another one. -/
def always (s : TlpRx) (i : RxWord) : TlpRx :=
  { s with
    rxTlphValid := false
    rxData2 := i.rxData
    rxEnd2 := i.rxEnd
    credits := returned s i
    rxStatus := if i.rxEnd then .head0 else s.rxStatus }

/-- The registers at an edge of the clock with the reset inactive. -/
def step (s : TlpRx) (i : RxWord) : TlpRx :=
  match s.rxStatus with
  | .head0 =>
      if i.rxSt then
        { always s i with
          rxFmt := i.rxData.extractLsb' 13 2
          rxType := i.rxData.extractLsb' 8 5
          rxComm := commOf i.rxData
          rxStatus := .head1 }
      else always s i
  | .head1 =>
      { always s i with
        rxLength := i.rxData.extractLsb' 0 10
        rxStatus := if s.rxType.getLsbD 3 then .comp2 else .req2 }
  | .req2 => { always s i with rxReqid := i.rxData, rxStatus := .req3 }
  | .req3 =>
      { always s i with
        rxTag := i.rxData.extractLsb' 8 8
        rxLastbe := i.rxData.extractLsb' 4 4
        rxFirstbe := i.rxData.extractLsb' 0 4
        rxAddr := if s.rxFmt.getLsbD 0 then s.rxAddr else setSlice s.rxAddr 30 0#16
        rxStatus := if s.rxFmt.getLsbD 0 then .req4 else .req6 }
  | .req4 => { always s i with rxStatus := .req5 }
  | .req5 => { always s i with rxAddr := setSlice s.rxAddr 30 i.rxData, rxStatus := .req6 }
  | .req6 =>
      { always s i with
        rxAddr := setSlice s.rxAddr 14 i.rxData, rxTlphValid := true, rxStatus := .req7 }
  | .req7 =>
      { always s i with
        rxAddr := setSlice s.rxAddr 0 (i.rxData.extractLsb' 2 14)
        rxStatus := if i.rxEnd then .head0 else .req }
  | .req | .comp2 => always s i

@[simp] theorem expRom_step (s : TlpRx) (i : RxWord) : (s.step i).expRom = s.expRom := by
  unfold step
  cases s.rxStatus with
  | head0 =>
    simp only
    split <;> rfl
  | _ => rfl

@[simp] theorem expRom_reset (s : TlpRx) : s.reset.expRom = s.expRom := rfl

end TlpRx

end IpNuma
