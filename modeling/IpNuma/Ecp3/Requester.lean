import IpNuma.Clocked.Framing
import IpNuma.Ecp3.Server
import IpNuma.Ecp3.TlpRx
import Mathlib.Tactic.IntervalCases

/-!
# The requester of the ECP3 board

`requester.v` on `pcie_clk`.  One block goes through the words of a received TLP and looks for a
memory write to BAR2 with the offset `0x37760`, whose first word of data it keeps in `tlp_data`.
The other one sends a frame of sixty bytes to the FIFO of the PHY, and nine words of gap behind it,
when it is idle in the cycle in which the first half of the data arrives.

The registers that are written but never read (`tlp_length`, `tlp_lbefbe`) are left out.
`frames_push` says what a frame is made of, whatever is received meanwhile.
-/

namespace IpNuma

open Clocked

/-- The interface information and the page table entry. -/
structure IfConfig where
  ifV4addr : BitVec 32
  ifMacaddr : BitVec 48
  destV4addr : BitVec 32
  destMacaddr : BitVec 48
  mem0Paddr : BitVec 48
  deriving DecidableEq, Inhabited

/-- `tlp_status`, without the states that are never entered. -/
inductive ReqTlpState
  | idle
  | head1
  | head2
  | head3
  | addr64
  | addr48
  | addr32
  | addr16
  | data0
  | data1
  | fin
  deriving DecidableEq, Inhabited

/-- `phy_status`. -/
inductive ReqPhyState
  | idle
  | v4Send
  | fin
  | gap
  deriving DecidableEq, Inhabited

/-- The registers of the block that checks TLPs. -/
structure ReqTlp where
  status : ReqTlpState
  is64bit : Bool
  /-- `tlp_addr[47:2]`. -/
  addr : BitVec 46
  data : BitVec 32
  deriving DecidableEq, Inhabited

/-- The registers of the block that sends frames. -/
structure ReqPhy where
  status : ReqPhyState
  txCount : BitVec 11
  txData : BitVec 8
  txEn : Bool
  ipSum : BitVec 24
  gapCount : BitVec 16
  phyWrEn : Bool
  deriving DecidableEq, Inhabited

/-- The registers of `requester.v`. -/
structure Requester where
  tlp : ReqTlp
  phy : ReqPhy
  deriving DecidableEq, Inhabited

/-- What the requester samples at an edge of `pcie_clk`. -/
structure RequesterIn where
  rx : RxWord
  cfg : IfConfig
  deriving DecidableEq, Inhabited

/-! ### Check TLP -/

namespace ReqTlp

def reset (t : ReqTlp) : ReqTlp := { t with status := .idle }

/-- The first word of a memory write to BAR2, as far as it is looked at. -/
def selects (w : RxWord) : Bool := w.rxBarHit.getLsbD 2 && w.rxSt && w.rxData.getLsbD 14

/-- The offset of the trigger. -/
def trigger : BitVec 20 := 0x37760#20

/-- The block at an edge with the reset inactive. -/
def step (t : ReqTlp) (w : RxWord) : ReqTlp :=
  match t.status with
  | .idle => if selects w then { t with is64bit := w.rxData.getLsbD 13, status := .head1 } else t
  | .head1 => { t with status := .head2 }
  | .head2 => { t with status := .head3 }
  | .head3 => { t with
      addr := setSlice t.addr 29 0#17, status := if t.is64bit then .addr64 else .addr32 }
  | .addr64 => { t with status := .addr48 }
  | .addr48 => { t with addr := setSlice t.addr 30 w.rxData, status := .addr32 }
  | .addr32 => { t with addr := setSlice t.addr 14 w.rxData, status := .addr16 }
  | .addr16 => { t with
      addr := setSlice t.addr 0 (w.rxData.extractLsb' 2 14)
      status := if t.addr.extractLsb' 14 4 ++ w.rxData.extractLsb' 2 14 ++ 0#2 = trigger then .data0
        else .idle }
  | .data0 => { t with data := setSlice t.data 16 w.rxData, status := .data1 }
  | .data1 => { t with data := setSlice t.data 0 w.rxData, status := .fin }
  | .fin => { t with status := .idle }

end ReqTlp

/-! ### Phy sequence -/

namespace ReqPhy

/-- `ipv4_id`. -/
def ipv4Id : BitVec 16 := 0x1#16
/-- `ipv4_ttl`. -/
def ipv4Ttl : BitVec 8 := 0x40#8
/-- `tx_frame_len`. -/
def txFrameLen : BitVec 16 := 0x3c#16
/-- `tx_udp_len`. -/
def txUdpLen : BitVec 16 := txFrameLen - 34#16
/-- `tx_ip_len`. -/
def txIpLen : BitVec 16 := txFrameLen - 14#16
/-- `magic_code`. -/
def magic : BitVec 32 := 0xa1110000#32

/-- The sum of the words of the IPv4 header, before the carries are folded in. -/
def headerSum (c : IfConfig) : BitVec 24 :=
  0x4500#24 + (0#4 ++ txIpLen.extractLsb' 0 12).setWidth 24 + ipv4Id.setWidth 24 +
    (ipv4Ttl ++ 0x11#8).setWidth 24 + (c.ifV4addr.extractLsb' 16 16).setWidth 24 +
    (c.ifV4addr.extractLsb' 0 16).setWidth 24 + (c.destV4addr.extractLsb' 16 16).setWidth 24 +
    (c.destV4addr.extractLsb' 0 16).setWidth 24

/-- The complement of the sum with its carries folded in. -/
def foldSum (s : BitVec 24) : BitVec 24 :=
  ~~~((s.extractLsb' 0 16).setWidth 24 + (s.extractLsb' 16 8).setWidth 24)

/-- The values of `tx_data` for `tx_count` 0x00 to 0x3a. -/
def txBytes (c : IfConfig) (ipSum : BitVec 24) (tlpData : BitVec 32) : List (BitVec 8) :=
  [octet c.destMacaddr 5, octet c.destMacaddr 4, octet c.destMacaddr 3, octet c.destMacaddr 2,
    octet c.destMacaddr 1, octet c.destMacaddr 0,
    octet c.ifMacaddr 5, octet c.ifMacaddr 4, octet c.ifMacaddr 3, octet c.ifMacaddr 2,
    octet c.ifMacaddr 1, octet c.ifMacaddr 0,
    0x08#8, 0x00#8,
    -- IPv4, from 0x0e on
    0x45#8, 0x00#8, 0#4 ++ txIpLen.extractLsb' 8 4, octet txIpLen 0, octet ipv4Id 1, octet ipv4Id 0,
    0x00#8, 0x00#8, ipv4Ttl, 0x11#8, octet ipSum 1, octet ipSum 0,
    octet c.ifV4addr 3, octet c.ifV4addr 2, octet c.ifV4addr 1, octet c.ifV4addr 0,
    octet c.destV4addr 3, octet c.destV4addr 2, octet c.destV4addr 1, octet c.destV4addr 0,
    -- UDP, from 0x22 on
    0x0d#8, 0x5e#8, 0x0d#8, 0x5e#8, 0#4 ++ txUdpLen.extractLsb' 8 4, octet txUdpLen 0, 0x00#8,
    0x00#8,
    -- the data, from 0x2a on
    octet magic 3, octet magic 2, octet magic 1, octet magic 0, 0xc1#8, 0xff#8,
    octet c.mem0Paddr 4, octet c.mem0Paddr 3, octet c.mem0Paddr 2, octet c.mem0Paddr 1,
    octet c.mem0Paddr 0,
    octet tlpData 3, octet tlpData 2, octet tlpData 1, octet tlpData 0, 0x00#8, 0x00#8]

/-- `tx_data` for a value of `tx_count`; `default` is a zero. -/
def txByte (c : IfConfig) (ipSum : BitVec 24) (tlpData : BitVec 32) (n : ℕ) : BitVec 8 :=
  (txBytes c ipSum tlpData).getD n 0x00#8

def reset (p : ReqPhy) : ReqPhy :=
  { p with txCount := 0, txEn := false, status := .idle, gapCount := 0, phyWrEn := false }

/-- The block at an edge with the reset inactive. -/
def step (p : ReqPhy) (t : ReqTlp) (c : IfConfig) : ReqPhy :=
  match p.status with
  | .idle => { p with
      txCount := 0, phyWrEn := false, status := if t.status = .data0 then .v4Send else .idle }
  | .v4Send => { p with
      phyWrEn := true
      txData := txByte c p.ipSum t.data p.txCount.toNat
      ipSum := if p.txCount = 0 then headerSum c else if p.txCount = 1 then foldSum p.ipSum
        else p.ipSum
      txEn := if p.txCount = 0 then true else p.txEn
      status := if p.txCount.toNat < (txBytes c p.ipSum t.data).length then .v4Send else .fin
      txCount := p.txCount + 1#11 }
  | .fin => { p with txEn := false, txData := 0, gapCount := 8#16, status := .gap }
  | .gap => { p with
      gapCount := p.gapCount - 1#16
      phyWrEn := if p.gapCount = 0 then false else p.phyWrEn
      status := if p.gapCount = 0 then .idle else .gap }

/-- `phy_din`. -/
def phyDin (p : ReqPhy) : BitVec 9 := BitVec.ofBool p.txEn ++ p.txData

end ReqPhy

namespace Requester

def reset (s : Requester) : Requester := ⟨s.tlp.reset, s.phy.reset⟩

/-- The requester at an edge with the reset inactive. -/
def step (s : Requester) (i : RequesterIn) : Requester :=
  ⟨s.tlp.step i.rx, s.phy.step s.tlp i.cfg⟩

/-- The word that the FIFO of the PHY takes at the edge behind this one. -/
def push (s : Requester) (i : RequesterIn) : List (BitVec 9) :=
  if (s.step i).phy.phyWrEn then [(s.step i).phy.phyDin] else []

end Requester

/-! ### The phases of the sender -/

/-- What the sender reads in a cycle: the configuration and `tlp_data`. -/
abbrev ReqSample := IfConfig × BitVec 32

/-- The checksum in a frame whose bytes are made from the samples `cs`. -/
def checksumOf (cs : List ReqSample) : BitVec 24 :=
  ReqPhy.foldSum (ReqPhy.headerSum (cs.headD default).1)

/-- The words of the FIFO for the bytes made from the samples `cs`. -/
def sentBytes (cs : List ReqSample) : List (BitVec 9) :=
  cs.mapIdx fun n x => Server.byteWord (ReqPhy.txByte x.1 (checksumOf cs) x.2 n)

/-- What the sender is doing, with the samples of the bytes it has sent. -/
inductive ReqPhase
  | idle
  | send (cs : List ReqSample)
  | fin (cs : List ReqSample)
  | gap (k : ℕ)

namespace ReqPhase

/-- The sender is in the phase. -/
def At : ReqPhase → ReqPhy → Prop
  | idle, p => p.status = .idle
  | send cs, p => p.status = .v4Send ∧ p.txCount = BitVec.ofNat 11 cs.length ∧ cs.length < 60 ∧
      (cs ≠ [] → p.txEn = true) ∧
      (cs.length = 1 → p.ipSum = ReqPhy.headerSum (cs.headD default).1) ∧
      (2 ≤ cs.length → p.ipSum = checksumOf cs)
  | fin cs, p => p.status = .fin ∧ p.phyWrEn = true ∧ cs.length = 60
  | gap k, p => p.status = .gap ∧ p.gapCount = BitVec.ofNat 16 k ∧ k ≤ 8 ∧ p.phyWrEn = true ∧
      p.txEn = false ∧ p.txData = 0

/-- The phase after the next edge. -/
def next (t : ReqTlp) (c : IfConfig) : ReqPhase → ReqPhase
  | idle => if t.status = .data0 then send [] else idle
  | send cs => if cs.length = 59 then fin (cs ++ [(c, t.data)]) else send (cs ++ [(c, t.data)])
  | fin _ => gap 8
  | gap 0 => idle
  | gap (k + 1) => gap k

/-- The words pushed at the next edge. -/
def emits (t : ReqTlp) (c : IfConfig) : ReqPhase → List (BitVec 9)
  | idle => []
  | send cs => [Server.byteWord
      (ReqPhy.txByte c (checksumOf (cs ++ [(c, t.data)])) t.data cs.length)]
  | fin _ => [Server.gapWord 0]
  | gap 0 => []
  | gap (_ + 1) => [Server.gapWord 0]

end ReqPhase

theorem sentBytes_concat (cs : List ReqSample) (x : ReqSample) :
    sentBytes (cs ++ [x]) = sentBytes cs ++
      [Server.byteWord (ReqPhy.txByte x.1 (checksumOf (cs ++ [x])) x.2 cs.length)] := by
  cases cs with
  | nil =>
    simp only [sentBytes, List.nil_append, List.mapIdx_nil, List.mapIdx_cons, List.length_nil]
  | cons y ys =>
    have hsum : checksumOf (y :: ys ++ [x]) = checksumOf (y :: ys) := rfl
    rw [sentBytes, sentBytes, List.mapIdx_concat, hsum]

/-- Only the two bytes of the checksum depend on it. -/
theorem txByte_congr (c : IfConfig) (s s' : BitVec 24) (d : BitVec 32) {n : ℕ} (hn : n < 2) :
    ReqPhy.txByte c s d n = ReqPhy.txByte c s' d n := by
  interval_cases n <;>
    simp only [ReqPhy.txByte, ReqPhy.txBytes, List.getD_cons_zero, List.getD_cons_succ]

section Edge

variable {s : Requester} {ph : ReqPhase} (i : RequesterIn)

theorem length_txBytes (c : IfConfig) (ipSum : BitVec 24) (tlpData : BitVec 32) :
    (ReqPhy.txBytes c ipSum tlpData).length = 59 := rfl

/-- The registers behind byte `n`. -/
theorem v4Send_step {p : ReqPhy} {n : ℕ} (hst : p.status = .v4Send)
    (hc : p.txCount = BitVec.ofNat 11 n) (hn : n < 60) (t : ReqTlp) (c : IfConfig) : p.step t c =
      { p with
        phyWrEn := true
        txData := ReqPhy.txByte c p.ipSum t.data n
        ipSum := if n = 0 then ReqPhy.headerSum c else if n = 1 then ReqPhy.foldSum p.ipSum
          else p.ipSum
        txEn := if n = 0 then true else p.txEn
        status := if n < 59 then .v4Send else .fin
        txCount := BitVec.ofNat 11 (n + 1) } := by
  have heq : ∀ m, m < 60 → (p.txCount = BitVec.ofNat 11 m ↔ n = m) := by
    intro m hm
    rw [hc, ← BitVec.toNat_inj, BitVec.toNat_ofNat, BitVec.toNat_ofNat]
    omega
  have h0 : p.txCount = 0 ↔ n = 0 := heq 0 (by decide)
  have h1 : p.txCount = 1 ↔ n = 1 := heq 1 (by decide)
  have hnat : p.txCount.toNat = n := by
    rw [hc, BitVec.toNat_ofNat]
    exact Nat.mod_eq_of_lt (by omega)
  have hsucc : p.txCount + 1#11 = BitVec.ofNat 11 (n + 1) := by
    rw [hc]
    apply BitVec.eq_of_toNat_eq
    simp
  simp only [ReqPhy.step, hst, h0, h1, hnat, hsucc, length_txBytes]

theorem gapCount_ne_zero {p : ReqPhy} {k : ℕ} (hcount : p.gapCount = BitVec.ofNat 16 (k + 1))
    (hk : k + 1 ≤ 8) : p.gapCount ≠ 0 := by
  rw [hcount]
  intro h0
  have hnat := congrArg BitVec.toNat h0
  simp at hnat
  omega

theorem step_at (h : ph.At s.phy) : (ph.next s.tlp i.cfg).At (s.step i).phy := by
  cases ph with
  | idle =>
    have hst : s.phy.status = .idle := h
    simp only [Requester.step, ReqPhy.step, hst, ReqPhase.next]
    split_ifs with h0
    · exact ⟨rfl, rfl, by decide, fun h => absurd rfl h, by simp, by simp⟩
    · rfl
  | send cs =>
    obtain ⟨hst, hcount, hlen, hen, hsum1, hsum2⟩ := h
    have hstep := v4Send_step hst hcount hlen s.tlp i.cfg
    have hlen' : (cs ++ [(i.cfg, s.tlp.data)]).length = cs.length + 1 := List.length_append
    rw [ReqPhase.next]
    by_cases h59 : cs.length = 59
    · rw [if_pos h59]
      refine ⟨?_, ?_, by rw [hlen', h59]⟩
      · rw [Requester.step, hstep]
        exact if_neg (by omega)
      · rw [Requester.step, hstep]
    · rw [if_neg h59]
      refine ⟨?_, ?_, by omega, fun _ => ?_, fun h1 => ?_, fun h2 => ?_⟩
      · rw [Requester.step, hstep]
        exact if_pos (by omega)
      · rw [Requester.step, hstep, hlen']
      · have hen' : (s.phy.step s.tlp i.cfg).txEn = if cs.length = 0 then true else s.phy.txEn := by
          rw [hstep]
        refine hen'.trans ?_
        split_ifs with h0
        · rfl
        · exact hen (List.length_eq_zero_iff.not.1 h0)
      · obtain rfl := List.eq_nil_of_length_eq_zero (Nat.succ.inj (hlen'.symm.trans h1))
        rw [Requester.step, hstep]
        rfl
      · have hsum : (s.phy.step s.tlp i.cfg).ipSum = if cs.length = 0 then ReqPhy.headerSum i.cfg
            else if cs.length = 1 then ReqPhy.foldSum s.phy.ipSum else s.phy.ipSum := by
          rw [hstep]
        have h0 : cs.length ≠ 0 := by omega
        obtain ⟨y, ys, rfl⟩ := List.exists_cons_of_ne_nil (List.length_eq_zero_iff.not.1 h0)
        refine hsum.trans ?_
        rw [if_neg h0]
        split_ifs with h1
        · rw [hsum1 h1]
          rfl
        · exact hsum2 (by omega)
  | fin cs =>
    obtain ⟨hst, hwr, hlen⟩ := h
    simp only [Requester.step, ReqPhy.step, hst, ReqPhase.next]
    exact ⟨rfl, rfl, le_rfl, hwr, rfl, rfl⟩
  | gap k =>
    obtain ⟨hst, hcount, hk, hwr, hen, hdata⟩ := h
    cases k with
    | zero =>
      simp only [Requester.step, ReqPhy.step, hst, ReqPhase.next]
      exact if_pos hcount
    | succ k =>
      have hne : s.phy.gapCount ≠ 0 := gapCount_ne_zero hcount hk
      simp only [Requester.step, ReqPhy.step, hst, ReqPhase.next, if_neg hne]
      refine ⟨rfl, ?_, by omega, hwr, hen, hdata⟩
      rw [hcount]
      apply BitVec.eq_of_toNat_eq
      simp only [BitVec.toNat_sub, BitVec.toNat_ofNat]
      omega

/-- The checksum that the next byte is made with is that of the frame, where it matters. -/
theorem txByte_send {cs : List ReqSample} (h : (ReqPhase.send cs).At s.phy) :
    ReqPhy.txByte i.cfg s.phy.ipSum s.tlp.data cs.length =
      ReqPhy.txByte i.cfg (checksumOf (cs ++ [(i.cfg, s.tlp.data)])) s.tlp.data cs.length := by
  obtain ⟨-, -, -, -, -, hsum⟩ := h
  by_cases h2 : cs.length < 2
  · exact txByte_congr _ _ _ _ h2
  · obtain ⟨y, ys, rfl⟩ := List.exists_cons_of_ne_nil (l := cs) (by rintro rfl; exact h2 (by simp))
    rw [hsum (not_lt.1 h2)]
    exact congrArg (fun x => ReqPhy.txByte i.cfg x s.tlp.data (y :: ys).length) rfl

theorem push_eq (h : ph.At s.phy) : s.push i = ph.emits s.tlp i.cfg := by
  cases ph with
  | idle =>
    have hst : s.phy.status = .idle := h
    simp [Requester.push, Requester.step, ReqPhy.step, hst, ReqPhase.emits]
  | send cs =>
    have hstep := v4Send_step h.1 h.2.1 h.2.2.1 s.tlp i.cfg
    have hen : (if cs.length = 0 then true else s.phy.txEn) = true := by
      split_ifs with h0
      · rfl
      · exact h.2.2.2.1 (List.length_eq_zero_iff.not.1 h0)
    rw [ReqPhase.emits, Requester.push, Requester.step, hstep, if_pos rfl, ← txByte_send i h]
    simp only [ReqPhy.phyDin, hen]
    rfl
  | fin cs =>
    obtain ⟨hst, hwr, -⟩ := h
    simp only [Requester.push, Requester.step, ReqPhy.step, hst, ReqPhase.emits, hwr, if_true]
    rfl
  | gap k =>
    obtain ⟨hst, hcount, hk, hwr, hen, hdata⟩ := h
    cases k with
    | zero =>
      have h0 : s.phy.gapCount = 0 := hcount
      simp [Requester.push, Requester.step, ReqPhy.step, hst, ReqPhase.emits, h0]
    | succ k =>
      have hne : s.phy.gapCount ≠ 0 := gapCount_ne_zero hcount hk
      simp only [Requester.push, Requester.step, ReqPhy.step, hst, ReqPhase.emits, if_neg hne, hwr,
        if_true, ReqPhy.phyDin, hen, hdata]
      rfl

end Edge

/-! ### The frames -/

/-- The reader of the words pushed: a frame goes from the first word with the tag to the first
without it. -/
def phyScan (ws : List (BitVec 9)) : Scan (BitVec 9) :=
  scan (fun w => w.getLsbD 8) (fun w => !w.getLsbD 8) ws

/-- The complete frames in the words pushed, each with the word that ends it. -/
def phyFrames (ws : List (BitVec 9)) : List (List (BitVec 9)) := (phyScan ws).done

/-- What a frame is made of: the samples in the cycles before its bytes. -/
structure ReqFrame where
  samples : List ReqSample
  length_samples : samples.length = 60

/-- The words of a frame. -/
def ReqFrame.words (f : ReqFrame) : List (BitVec 9) := sentBytes f.samples ++ [Server.gapWord 0]

/-- The octets of a frame in the FIFO. -/
def phyOctets (f : List (BitVec 9)) : List (BitVec 8) :=
  (f.filter fun w => w.getLsbD 8).map fun w => w.extractLsb' 0 8

theorem phyOctets_words (f : ReqFrame) : phyOctets f.words =
    f.samples.mapIdx fun n x => ReqPhy.txByte x.1 (checksumOf f.samples) x.2 n := by
  have hall : ∀ w ∈ sentBytes f.samples, w.getLsbD 8 = true := by
    intro w hw
    obtain ⟨n, hn, rfl⟩ := List.mem_mapIdx.1 hw
    exact Server.tag_byteWord _
  rw [phyOctets, ReqFrame.words, List.filter_append, List.filter_eq_self.2 hall,
    List.filter_cons_of_neg (by rw [Server.tag_gapWord]; decide), List.filter_nil, List.append_nil,
    sentBytes]
  refine List.ext_getElem (by simp) fun n hn hn' => ?_
  rw [List.getElem_map, List.getElem_mapIdx, List.getElem_mapIdx, Server.octet_byteWord]

namespace ReqPhase

/-- The samples of the bytes sent. -/
def samples : ReqPhase → List ReqSample
  | send cs => cs
  | fin cs => cs
  | _ => []

/-- The frame being sent, as far as it is pushed. -/
def part (ph : ReqPhase) : Option (List (BitVec 9)) :=
  if ph.samples = [] then none else some (sentBytes ph.samples)

/-- The frame that is completed at the next edge. -/
def closes : ReqPhase → List (List (BitVec 9))
  | fin cs => [sentBytes cs ++ [Server.gapWord 0]]
  | _ => []

@[simp] theorem closes_idle : closes idle = [] := rfl

@[simp] theorem closes_send (cs : List ReqSample) : closes (send cs) = [] := rfl

@[simp] theorem closes_gap (k : ℕ) : closes (gap k) = [] := rfl

end ReqPhase

section Frames

variable {ph : ReqPhase} {ws : List (BitVec 9)} {ds : List (List (BitVec 9))}

/-- What one edge adds to the frames. -/
theorem phyScan_emits (hfin : ∀ cs, ph = .fin cs → cs ≠ []) (t : ReqTlp) (c : IfConfig)
    (h : phyScan ws = ⟨ph.part, ds⟩) :
    phyScan (ws ++ ph.emits t c) = ⟨(ph.next t c).part, ds ++ ph.closes⟩ := by
  cases ph with
  | idle =>
    have hpart : (ReqPhase.idle.next t c).part = none := by
      simp only [ReqPhase.next]
      split_ifs <;> rfl
    rw [hpart, ReqPhase.closes_idle, List.append_nil, ReqPhase.emits, List.append_nil]
    exact h
  | send cs =>
    have hpart : ((ReqPhase.send cs).next t c).part = some (sentBytes (cs ++ [(c, t.data)])) := by
      simp only [ReqPhase.next]
      split_ifs <;> exact if_neg (by simp [ReqPhase.samples])
    rw [hpart, sentBytes_concat, ReqPhase.closes_send, List.append_nil]
    cases cs with
    | nil => exact scan_start h (Server.tag_byteWord _)
    | cons y ys => exact scan_take h (by rw [Server.tag_byteWord]; rfl)
  | fin cs =>
    have hpart : (ReqPhase.fin cs).part = some (sentBytes cs) := if_neg (hfin cs rfl)
    rw [hpart] at h
    exact scan_last h (by rw [Server.tag_gapWord]; rfl)
  | gap k =>
    rw [ReqPhase.closes_gap, List.append_nil]
    cases k with
    | zero =>
      rw [ReqPhase.emits, List.append_nil]
      exact h
    | succ k => exact scan_skip h (Server.tag_gapWord _)

/-- The sender is in a phase, and the frames pushed are made from samples that meet `P`. -/
structure ReqSending (P : IfConfig → Prop) (ph : ReqPhase) (s : Requester) (ws : List (BitVec 9)) :
    Prop where
  at_phase : ph.At s.phy
  samples : ∀ x ∈ ph.samples, P x.1
  part : (phyScan ws).part = ph.part
  done : ∀ f ∈ phyFrames ws, ∃ g : ReqFrame, (∀ x ∈ g.samples, P x.1) ∧ f = g.words

variable {P : IfConfig → Prop} {s : Requester}

/-- **One edge.** -/
theorem reqSending_step (h : ReqSending P ph s ws) {i : RequesterIn} (hi : P i.cfg) :
    ReqSending P (ph.next s.tlp i.cfg) (s.step i) (ws ++ s.push i) := by
  have hlen : ∀ cs, ph = .fin cs → cs.length = 60 := by
    rintro cs rfl
    exact h.at_phase.2.2
  have hpart : phyScan ws = ⟨ph.part, (phyScan ws).done⟩ := by rw [← h.part]
  have hscan := phyScan_emits (fun cs hcs => List.ne_nil_of_length_eq_add_one (hlen cs hcs)) s.tlp
    i.cfg hpart
  rw [push_eq i h.at_phase]
  refine ⟨step_at i h.at_phase, ?_, by rw [hscan], ?_⟩
  · have hs := h.samples
    cases ph with
    | idle =>
      simp only [ReqPhase.next]
      split_ifs <;> exact fun x hx => absurd hx List.not_mem_nil
    | send cs =>
      have hall : ∀ x ∈ cs ++ [(i.cfg, s.tlp.data)], P x.1 :=
        List.forall_mem_append.2 ⟨hs, List.forall_mem_singleton.2 hi⟩
      simp only [ReqPhase.next]
      split_ifs <;> exact hall
    | fin cs => exact fun x hx => absurd hx List.not_mem_nil
    | gap k => cases k <;> exact fun x hx => absurd hx List.not_mem_nil
  · rw [phyFrames, hscan]
    refine List.forall_mem_append.2 ⟨h.done, fun f hf => ?_⟩
    cases ph with
    | fin cs => exact ⟨⟨cs, hlen cs rfl⟩, h.samples, List.mem_singleton.1 hf⟩
    | idle => exact absurd hf List.not_mem_nil
    | send cs => exact absurd hf List.not_mem_nil
    | gap k => exact absurd hf List.not_mem_nil

/-- **The frames of a run** from reset, whatever is received. -/
theorem frames_push (s : Requester) {is : List RequesterIn} (hP : ∀ i ∈ is, P i.cfg) :
    ∀ f ∈ phyFrames (log Requester.step Requester.push s.reset is),
      ∃ g : ReqFrame, (∀ x ∈ g.samples, P x.1) ∧ f = g.words := by
  have h : ∃ ph, ReqSending P ph (run Requester.step s.reset is)
      (log Requester.step Requester.push s.reset is) :=
    log_induction (J := fun s ws => ∃ ph, ReqSending P ph s ws) (P := fun _ i => P i.cfg)
      ⟨.idle, (rfl : s.reset.phy.status = .idle), fun _ hx => absurd hx List.not_mem_nil, rfl,
        fun _ hf => absurd hf List.not_mem_nil⟩
      (fun _ _ _ ⟨_, hp⟩ hi => ⟨_, reqSending_step hp hi⟩) is (along_of_forall _ hP)
  obtain ⟨ph, hp⟩ := h
  exact hp.done

end Frames

end IpNuma
