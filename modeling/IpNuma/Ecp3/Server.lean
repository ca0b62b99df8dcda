import IpNuma.Clocked.Run
import IpNuma.Regs.Slice

/-!
# The command server of the ECP3 board

`server.v` between the receive FIFO of the PHY and the master FIFO of `pcie_tlp`.  A word of the
receive FIFO is a byte with a tag, which is 0 in the gap between frames.  The server looks for the
header of a UDP packet with the magic code and turns the commands after it into words of the master
FIFO.

`phy_rd_en` is registered, so `NoUnderflow` is a condition on the environment: in a cycle in which
the server reads, the FIFO is not empty.  A server that reads then reads in every later cycle, and a
run is the words it takes (`run_ready`).

Header fields that are stored but never used are left out.
-/

namespace IpNuma

open Clocked

inductive SrvState
  | idle
  | head0
  | head1
  | addr64
  | addr48
  | addr32
  | addr24
  | addr16
  | addr8
  | data
  deriving DecidableEq, Inhabited

/-- The registers of `server.v`. -/
structure Server where
  srvStatus : SrvState
  counter : BitVec 12
  ethType : BitVec 16
  ipv4Protocol : BitVec 8
  ipv4DestPort : BitVec 16
  magicCode : BitVec 32
  srv64bit : Bool
  blen : BitVec 7
  /-- The previous `phy_dout`. -/
  phyDout2 : BitVec 8
  phyRdEn : Bool
  mstDin : BitVec 18
  mstWrEn : Bool
  deriving DecidableEq, Inhabited

/-- What the receive FIFO drives in a cycle. -/
structure PhyOut where
  dout : BitVec 9
  empty : Bool
  deriving DecidableEq, Inhabited

namespace Server

/-- The registers after an edge with the reset active; `mst_din` has none. -/
def reset (s : Server) : Server where
  srvStatus := .idle
  counter := 0
  ethType := 0
  ipv4Protocol := 0
  ipv4DestPort := 0
  magicCode := 0
  srv64bit := false
  blen := 0
  phyDout2 := 0
  phyRdEn := false
  mstDin := s.mstDin
  mstWrEn := false

def matchesHeader (s : Server) (b : BitVec 8) : Bool :=
  s.ethType == 0x0800#16 && s.ipv4Protocol == 0x11#8 && s.ipv4DestPort == 0x0d5e#16 &&
    s.magicCode.extractLsb' 8 24 ++ b == 0xa1110000#32

/-- `SRV_IDLE`. -/
def header (s : Server) (b : BitVec 8) : Server :=
  match s.counter.toNat with
  | 0x0c => { s with ethType := setOctet s.ethType 1 b }
  | 0x0d => { s with ethType := setOctet s.ethType 0 b }
  | 0x17 => { s with ipv4Protocol := b }
  | 0x24 => { s with ipv4DestPort := setOctet s.ipv4DestPort 1 b }
  | 0x25 => { s with ipv4DestPort := setOctet s.ipv4DestPort 0 b }
  | 0x2a => { s with magicCode := setOctet s.magicCode 3 b }
  | 0x2b => { s with magicCode := setOctet s.magicCode 2 b }
  | 0x2c => { s with magicCode := setOctet s.magicCode 1 b }
  | 0x2d => if matchesHeader s b then { s with srvStatus := .head0 } else s
  | _ => s

/-- `mst_din` after its upper or lower part is assigned. -/
def upper (s : Server) (x : BitVec 10) : BitVec 18 := x ++ s.mstDin.extractLsb' 0 8

def lower (s : Server) (b : BitVec 8) : BitVec 18 := s.mstDin.extractLsb' 8 10 ++ b

/-- `SRV_DATA`. -/
def data (s : Server) (b : BitVec 8) : Server :=
  let last := s.blen == 1#7
  let din : BitVec 18 :=
    if s.blen.getLsbD 0 then s.mstDin.extractLsb' 8 10 ++ b else setSlice s.mstDin 8 b
  { s with
    blen := s.blen - 1
    mstDin := (if last then 0b01#2 else 0b00#2) ++ din.extractLsb' 0 16
    mstWrEn := s.blen.getLsbD 0
    srvStatus := if last then .head0 else .data }

/-- The `case` for a word with tag 1, `mst_wr_en` cleared before it. -/
def byte (s : Server) (b : BitVec 8) : Server :=
  match s.srvStatus with
  | .idle => header s b
  | .head0 =>
      { s with
        mstDin := upper s (0b10#2 ++ b)
        srv64bit := b.getLsbD 6
        -- eight bits assigned to seven
        blen := (b.extractLsb' 0 6 ++ 0#2).setWidth 7
        srvStatus := if b = 0x00#8 then .idle else .head1 }
  | .head1 =>
      { s with
        mstDin := lower s b
        mstWrEn := true
        srvStatus := if s.srv64bit then .addr64 else .addr32 }
  | .addr64 => { s with mstDin := 0, mstWrEn := true, srvStatus := .addr48 }
  | .addr48 => { s with mstDin := lower s s.phyDout2, mstWrEn := true, srvStatus := .addr32 }
  | .addr32 =>
      if s.srv64bit then
        { s with mstDin := 0b00#2 ++ s.phyDout2 ++ b, mstWrEn := true, srvStatus := .addr16 }
      else { s with mstDin := upper s (0b00#2 ++ b), srvStatus := .addr24 }
  | .addr24 =>
      { s with
        mstDin := lower s (if s.srv64bit then s.phyDout2 else b)
        mstWrEn := true
        srvStatus := .addr16 }
  | .addr16 => { s with mstDin := setSlice s.mstDin 8 b, srvStatus := .addr8 }
  | .addr8 => { s with mstDin := lower s b, mstWrEn := true, srvStatus := .data }
  | .data => data s b

/-- A word is taken.  A word of the gap clears the counter and leaves the state as it is. -/
def take (s : Server) (w : BitVec 9) : Server :=
  if w.getLsbD 8 then { byte s (w.extractLsb' 0 8) with counter := s.counter + 1 }
  else { s with counter := 0 }

/-- `mst_wr_en <= 1'b0`, the default of the cycle. -/
def cleared (s : Server) : Server := { s with mstWrEn := false }

/-- The registers at an edge of the clock with the reset inactive. -/
def step (s : Server) (i : PhyOut) : Server :=
  { (if s.phyRdEn then take (cleared s) i.dout else cleared s) with
    phyDout2 := i.dout.extractLsb' 0 8
    phyRdEn := !i.empty }

/-- The word written to the master FIFO in a cycle. -/
def push (s : Server) (_ : PhyOut) : List (BitVec 18) := if s.mstWrEn then [s.mstDin] else []

/-- The word taken from the receive FIFO in a cycle. -/
def taken (s : Server) (i : PhyOut) : List (BitVec 9) := if s.phyRdEn then [i.dout] else []

/-- The FIFO is not empty when it is read. -/
def NoUnderflow (s : Server) (i : PhyOut) : Prop := s.phyRdEn = true → i.empty = false

instance : DecidableRel NoUnderflow := fun s i =>
  inferInstanceAs (Decidable (s.phyRdEn = true → i.empty = false))

/-! ### The states -/

variable {s : Server} {i : PhyOut} {is : List PhyOut} {b : BitVec 8}

theorem byte_idle (h : s.srvStatus = .idle) : byte s b = header s b := by
  unfold byte
  rw [h]

theorem byte_head0 (h : s.srvStatus = .head0) : byte s b =
    { s with
      mstDin := upper s (0b10#2 ++ b)
      srv64bit := b.getLsbD 6
      blen := (b.extractLsb' 0 6 ++ 0#2).setWidth 7
      srvStatus := if b = 0x00#8 then .idle else .head1 } := by
  unfold byte
  rw [h]

theorem byte_head1 (h : s.srvStatus = .head1) : byte s b =
    { s with
      mstDin := lower s b
      mstWrEn := true
      srvStatus := if s.srv64bit then .addr64 else .addr32 } := by
  unfold byte
  rw [h]

/-- The states in which a word is completed. -/
theorem wrEn_byte (h : s.srvStatus ∈ [.head1, .addr64, .addr48, .addr24, .addr8]) :
    (byte s b).mstWrEn = true := by
  simp only [List.mem_cons, List.not_mem_nil, or_false] at h
  unfold byte
  rcases h with h | h | h | h | h <;> rw [h]

theorem byte_addr32 (h : s.srvStatus = .addr32) : byte s b =
    if s.srv64bit then
      { s with mstDin := 0b00#2 ++ s.phyDout2 ++ b, mstWrEn := true, srvStatus := .addr16 }
    else { s with mstDin := upper s (0b00#2 ++ b), srvStatus := .addr24 } := by
  unfold byte
  rw [h]

theorem byte_addr16 (h : s.srvStatus = .addr16) : byte s b =
    { s with mstDin := setSlice s.mstDin 8 b, srvStatus := .addr8 } := by
  unfold byte
  rw [h]

theorem byte_data (h : s.srvStatus = .data) : byte s b = data s b := by
  unfold byte
  rw [h]

/-! ### The words taken -/

/-- A byte of a frame. -/
def byteWord (b : BitVec 8) : BitVec 9 := 1#1 ++ b

/-- A word between frames. -/
def gapWord (b : BitVec 8) : BitVec 9 := 0#1 ++ b

@[simp] theorem tag_byteWord (b : BitVec 8) : (byteWord b).getLsbD 8 = true := by
  unfold byteWord
  rw [BitVec.getLsbD_append]
  rfl

@[simp] theorem tag_gapWord (b : BitVec 8) : (gapWord b).getLsbD 8 = false := by
  unfold gapWord
  rw [BitVec.getLsbD_append]
  rfl

@[simp] theorem octet_byteWord (b : BitVec 8) : (byteWord b).extractLsb' 0 8 = b :=
  octet_append_zero _ _

/-- A cycle in which a word is there to be taken. -/
def deliver (w : BitVec 9) : PhyOut := ⟨w, false⟩

/-- The registers every word is written to. -/
def next (s : Server) (c : BitVec 12) (b : BitVec 8) : Server :=
  { s with counter := c, phyDout2 := b, phyRdEn := true }

theorem step_of_unread (h : s.phyRdEn = false) : step s i =
    { cleared s with phyDout2 := i.dout.extractLsb' 0 8, phyRdEn := !i.empty } := by
  unfold step
  rw [if_neg (by rw [h]; exact Bool.false_ne_true)]

theorem step_byte (h : s.phyRdEn = true) :
    step s (deliver (byteWord b)) = next (byte (cleared s) b) (s.counter + 1) b := by
  unfold step take deliver
  rw [if_pos h, if_pos (tag_byteWord b), octet_byteWord]
  rfl

theorem step_gap (h : s.phyRdEn = true) :
    step s (deliver (gapWord b)) = next (cleared s) 0 b := by
  have hlow : (gapWord b).extractLsb' 0 8 = b := octet_append_zero _ _
  unfold step take deliver
  rw [if_pos h, if_neg (by rw [tag_gapWord]; exact Bool.false_ne_true), hlow]
  rfl

/-- **A server that reads takes a word in every cycle** without underflow. -/
theorem run_ready (hr : s.phyRdEn = true) (h : Along step NoUnderflow s is) :
    is = (log step taken s is).map deliver := by
  induction is generalizing s with
  | nil => rfl
  | cons i is ih =>
    obtain ⟨hi, his⟩ := h
    have hempty : i.empty = false := hi hr
    have hstep : (step s i).phyRdEn = true := by
      change (!i.empty) = true
      rw [hempty]
      rfl
    have hi' : i = deliver i.dout := by
      unfold deliver
      rw [← hempty]
    rw [log_cons, List.map_append, ← ih hstep his]
    unfold taken
    rw [if_pos hr, List.map_singleton, ← hi']
    rfl

/-- The words delivered to a reading server are those taken. -/
theorem taken_deliver (hr : s.phyRdEn = true) (ws : List (BitVec 9)) :
    log step taken s (ws.map deliver) = ws ∧ Along step NoUnderflow s (ws.map deliver) := by
  induction ws generalizing s with
  | nil => exact ⟨rfl, trivial⟩
  | cons w ws ih =>
    obtain ⟨h1, h2⟩ := ih (s := step s (deliver w)) rfl
    refine ⟨?_, fun _ => rfl, h2⟩
    rw [List.map_cons, log_cons, h1]
    unfold taken
    rw [if_pos hr]
    rfl

/-- **A run is the words it takes**, given to a server that reads. -/
theorem log_push_eq (hw : s.mstWrEn = false) (h : Along step NoUnderflow s is) :
    ∃ d, log step push s is = log step push { s with phyRdEn := true, phyDout2 := d }
      ((log step taken s is).map deliver) := by
  induction is generalizing s with
  | nil => exact ⟨0, rfl⟩
  | cons i is ih =>
    cases hr : s.phyRdEn with
    | true =>
      refine ⟨s.phyDout2, ?_⟩
      rw [← run_ready hr h, ← hr]
    | false =>
      have hpush : push s i = [] := if_neg (by rw [hw]; exact Bool.false_ne_true)
      have htaken : taken s i = [] := if_neg (by rw [hr]; exact Bool.false_ne_true)
      have hstep : step s i =
          { s with phyDout2 := i.dout.extractLsb' 0 8, phyRdEn := !i.empty } := by
        rw [step_of_unread hr]
        unfold cleared
        rw [← hw]
      rw [log_cons, log_cons, hpush, htaken, List.nil_append, List.nil_append]
      obtain ⟨d, hd⟩ := ih (s := step s i) (by rw [hstep]; exact hw) h.2
      refine ⟨d, hd.trans ?_⟩
      rw [hstep]

end Server

end IpNuma
