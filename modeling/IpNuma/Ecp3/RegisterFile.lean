import IpNuma.Ecp3.ReqStores
import IpNuma.Ecp3.Served

/-!
# BAR0 is a register file

`SlaveSide` is the endpoint with the registers of `ipnuma.v` on its slave bus.  After writes the
slave sequencer reads a word in every cycle of the data of a completion: the address in one cycle,
the word in the register in front of the sequencer in the next, in its data register after that, and
on the wire in the cycle after.  `Reading` is this pipeline, and `registerFile_read` the statement
about the bytes of the completion.
-/

namespace IpNuma

open Clocked ByteStore PcieTlp

/-- `pcie_tlp` with the requests to come, and the registers behind BAR0. -/
structure SlaveSide where
  host : HostSide
  regs : Ecp3Regs

namespace SlaveSide

/-- `slv_dat_o`, with what comes from the RAM behind BAR2 and, with `ENABLE_EXPROM`, from the BIOS
ROM. -/
def slvDatO (s : SlaveSide) (mem : BitVec 16) : BitVec 16 :=
  (if s.host.tlp.slv.bus.bar.getLsbD 0 then s.regs.slvDat0 else 0) |||
    (if s.host.tlp.slv.bus.bar.getLsbD 2 ∨
      s.host.tlp.rx.expRom ∧ s.host.tlp.slv.bus.bar.getLsbD 6 then mem else 0)

/-- The inputs of `pcie_tlp`; the word on the slave bus in `i` is that of the memories. -/
def pcieIn (s : SlaveSide) (i : PcieIn) : PcieIn := { i with slvDatO := s.slvDatO i.slvDatO }

/-- One edge of `pcie_clk`. -/
def step (s : SlaveSide) (i : PcieIn) : SlaveSide :=
  ⟨s.host.step (s.pcieIn i), s.regs.step s.host.tlp.slv.bus⟩

/-- After reset. -/
def start (t : PcieTlp) (as : List Arrival) : SlaveSide := ⟨.start t as, .reset⟩

def cycle (s : SlaveSide) (i : PcieIn) : List HostCycle := s.host.cycle i

/-- The packets sent in a run. -/
def sent (s : SlaveSide) (is : List PcieIn) : List (List TxWord) :=
  ((run step s is).host.tlp.readTo ((log step cycle s is).map HostCycle.wire)).done

/-- The cycles of a run in which all requests have been received and the transmitter does not wait
for `tx_rdy`. -/
def elapsed (s : SlaveSide) (is : List PcieIn) : ℕ := (log step cycle s is).countP HostCycle.counts

end SlaveSide

/-! ### The words of a read -/

namespace MemReq

/-- The word of two bytes of a memory. -/
def wordOf (m : ℕ → BitVec 8) (w : ℕ) : BitVec 16 := m (2 * w) ++ m (2 * w + 1)

/-- Word `j` of the data of a read. -/
def readWord (r : MemReq) (m : ℕ → BitVec 8) (j : ℕ) : BitVec 16 :=
  wordOf m (Ecp3Regs.word (r.adr + BitVec.ofNat 19 j))

/-- The data of a read. -/
def payload (r : MemReq) (m : ℕ → BitVec 8) : List (BitVec 16) :=
  (List.range (2 * r.dws)).map (r.readWord m)

variable {r : MemReq} {m : ℕ → BitVec 8} {j : ℕ}

theorem payload_getElem (hj : j < 2 * r.dws) : (r.payload m)[j]? = some (r.readWord m j) := by
  unfold payload
  rw [List.getElem?_map, List.getElem?_range hj]
  rfl

theorem read_eq_wordOf (b : Bar0) (w : ℕ) :
    (Ecp3Regs.read b w).getD 0 = wordOf (b.byteAt Ecp3Regs.addrMap) w := by
  refine eq_of_octet (n := 2) _ _ fun k hk => ?_
  rw [Ecp3Regs.octet_read hk]
  unfold wordOf Ecp3Regs.laneOffset
  rw [Ecp3Regs.octet_pair _ _ hk]
  have hcase : k = 0 ∨ k = 1 := by omega
  rcases hcase with rfl | rfl <;> rfl

/-- Byte `b` of a read. -/
theorem octet_readWord (r : MemReq) (m : ℕ → BitVec 8) (b : ℕ) :
    octet (r.readWord m (b / 2)) (1 - b % 2) = m (r.offset b) := by
  have hk : 1 - b % 2 < 2 := by omega
  have hoff := laneOffset_adr r (b / 2) hk
  rw [show 2 * (b / 2) + (1 - (1 - b % 2)) = b by omega] at hoff
  rw [← hoff]
  unfold readWord wordOf Ecp3Regs.laneOffset
  rw [Ecp3Regs.octet_pair _ _ hk]
  rcases Nat.mod_two_eq_zero_or_one b with h | h <;> rw [h] <;> rfl

end MemReq

/-! ### The slave sequencer during a read -/

namespace TlpSlave

variable {s : TlpSlave} {rx : TlpRx} {hit : BitVec 7} {ready : Bool} {dat : BitVec 16} {n k : ℕ}

/-- Only `SLV_IDLE` leads to `SLV_MREADH`. -/
theorem idle_of_mreadh (h : (s.step rx hit ready dat).slvStatus = .mreadh) :
    s.slvStatus = .idle ∧ rx.rxTlphValid = true := by
  rw [status_step] at h
  cases hst : s.slvStatus with
  | idle =>
    rw [hst] at h
    simp only at h
    split at h
    · exact ⟨rfl, (‹_ ∧ _›).1⟩
    · cases h
  | mreadh =>
    rw [hst] at h
    cases h
  | mwriteh =>
    rw [hst] at h
    cases h
  | _ =>
    rw [hst] at h
    simp only at h
    split at h <;> cases h

/-- `SLV_MREADD` comes after `SLV_MREADH`. -/
theorem mreadh_of_mreadd (h : (s.step rx hit ready dat).slvStatus = .mreadd) :
    s.slvStatus = .mreadh ∨ s.slvStatus = .mreadd := by
  rw [status_step] at h
  cases hst : s.slvStatus with
  | idle =>
    rw [hst] at h
    simp only at h
    split at h
    · split at h <;> cases h
    · cases h
  | mreadh => exact .inl rfl
  | mreadd => exact .inr rfl
  | mwriteh =>
    rw [hst] at h
    cases h
  | mwrited =>
    rw [hst] at h
    simp only at h
    split at h <;> cases h

/-- The bus after a cycle of the data that is not the last one. -/
theorem bus_step (hb : s.Busy n k) (hn : n ≠ 1023) (hk : k < 2 * n + 2) :
    (s.step rx hit true dat).bus = { s.bus with
      adr := if k < 2 * n then s.bus.adr + 1 else s.bus.adr
      ce := true
      we := false } := by
  have hlength := hb.length
  have hlt := s.tx1Length.isLt
  have hsize := hb.size
  have hend := cplEnd_of_ne hn
  have hdw := dw_eq_zero_iff s.tx1Length
  have hne : s.tx1Length ≠ 0x7ff#11 := by
    intro heq
    have := (length_eq_iff hb).1 heq
    omega
  rw [step_mreadd hb.status]
  unfold mreadd
  rw [if_pos rfl]
  change SlvBus.mk _ (decide (s.tx1Length ≠ 0x7ff#11)) false
    (if s.tx1Length.extractLsb' 1 10 ≠ 0 then s.bus.adr + 1 else s.bus.adr) _ _ = _
  rw [decide_eq_true hne]
  by_cases hlast : k < 2 * n
  · rw [if_pos hlast, if_pos (mt hdw.1 (by omega))]
    rfl
  · rw [if_neg hlast, if_neg (not_not.2 (hdw.2 (by omega)))]
    rfl

end TlpSlave

namespace SlaveSide

/-- The pipeline of a read, `k` cycles of its data being over. -/
structure Reading (r : MemReq) (m : ℕ → BitVec 8) (s : SlaveSide) (φ : LinkPhase)
    (part : Option (List TxWord)) (k : ℕ) : Prop where
  busy : s.host.tlp.slv.Busy r.dws k
  phase : k ≠ 0 → φ = .cpl r.dws (k + 3)
  bar : s.host.tlp.slv.bus.bar = 0b0000001#7
  we : s.host.tlp.slv.bus.we = false
  ce : k ≠ 0 → s.host.tlp.slv.bus.ce = true
  adr : s.host.tlp.slv.bus.adr = r.adr + BitVec.ofNat 19 (min k (2 * r.dws)) - 1
  dat0 : 2 ≤ k → k < 2 * r.dws + 2 → s.regs.slvDat0 = r.readWord m (k - 2)
  data : 3 ≤ k → s.host.tlp.slv.tx1Data = r.readWord m (k - 3)
  part : k ≠ 0 → ∃ ws, part = some ws ∧
    (ws.map TxWord.txData).drop 6 = (r.payload m).take (k - 3)

variable {s : SlaveSide} {i : PcieIn} {r : MemReq} {m : ℕ → BitVec 8} {φ φ' : LinkPhase}
  {sc : Scan TxWord} {k : ℕ}

theorem slv_step (s : SlaveSide) (i : PcieIn) : (s.step i).host.tlp.slv =
    s.host.tlp.slv.step s.host.tlp.rx (s.host.rxWord (s.pcieIn i)).rxBarHit
      s.host.tlp.tx.tx1TlpdReady (s.slvDatO i.slvDatO) := rfl

/-- With only BAR0 hit the word on the bus is that of the registers. -/
theorem slvDatO_bar0 (h : s.host.tlp.slv.bus.bar = 0b0000001#7) (mem : BitVec 16) :
    s.slvDatO mem = s.regs.slvDat0 := by
  unfold slvDatO
  rw [h, if_neg (show ¬ ((0b0000001#7).getLsbD 2 = true ∨
    s.host.tlp.rx.expRom = true ∧ (0b0000001#7).getLsbD 6 = true) by simp)]
  exact BitVec.or_zero

/-- When the transmitter is ready for data it is at the word of the completion that the pipeline has
reached. -/
theorem Reading.phase_of_ready {part : Option (List TxWord)} (h : Reading r m s φ part k)
    (hphase : s.host.tlp.InPhase φ) (hwhole : Whole φ)
    (hr : s.host.tlp.tx.tx1TlpdReady = true) : φ = .cpl r.dws (k + 3) := by
  by_cases hk : k = 0
  · obtain ⟨n, p, rfl, h3⟩ := cpl_of_ready hphase hwhole h.busy.status hr
    have hb := hphase.cpl_busy
    have hvalid := h.busy.valid.symm.trans hb.valid
    rw [decide_eq_true hk] at hvalid
    have hp : p - 3 = 0 := of_decide_eq_true hvalid.symm
    have hlen := h.busy.length
    have hlen' := hb.length
    obtain rfl : n = r.dws := by omega
    obtain rfl : p = k + 3 := by omega
    rfl
  · exact h.phase hk

/-- The words of the completion so far. -/
theorem Reading.words (h : Reading r m s φ sc.part k) (hframed : Framed s.host.tlp φ sc.part)
    (hφ : φ = .cpl r.dws (k + 3)) : ∃ ws, sc.part = some ws ∧ ws.length = k + 3 ∧
      (ws.map TxWord.txData).drop 6 = (r.payload m).take (k - 3) := by
  have htaken := hframed.part
  rw [hφ] at htaken
  obtain ⟨ws, hws, hlen, -⟩ := Taken.words htaken (by omega)
  refine ⟨ws, hws, hlen, ?_⟩
  by_cases hk : k = 0
  · rw [hk, List.drop_eq_nil_of_le (by rw [List.length_map]; omega)]
    rfl
  · obtain ⟨ws', hws', hdrop⟩ := h.part hk
    rw [hws] at hws'
    cases hws'
    exact hdrop

/-- The words of the completion with the next one. -/
theorem Reading.words_step (h : Reading r m s φ sc.part k) (hframed : Framed s.host.tlp φ sc.part)
    (hφ : φ = .cpl r.dws (k + 3)) (hk : k < 2 * r.dws + 3) :
    ∃ ws, sc.part = some ws ∧ ws.length = k + 3 ∧
      ((ws ++ [(s.step i).host.tlp.wire]).map TxWord.txData).drop 6 =
        (r.payload m).take (k + 1 - 3) := by
  obtain ⟨ws, hws, hlen, hdrop⟩ := h.words hframed hφ
  have hphase := hframed.phase
  rw [hφ] at hphase
  obtain ⟨-, -, -, hdata⟩ := cpl_wire (i := s.host.pcieIn (s.pcieIn i)) hphase
  refine ⟨ws, hws, hlen, drop_concat (by omega) hdrop fun h3 => ?_⟩
  rw [MemReq.payload_getElem (by omega), ← h.data h3]
  exact congrArg some (hdata (by omega)).symm

theorem adr_succ (a : BitVec 19) (hk : 1 ≤ k) :
    a + BitVec.ofNat 19 k - 1 = a + BitVec.ofNat 19 (k - 1) := by
  obtain ⟨j, rfl⟩ : ∃ j, k = j + 1 := ⟨k - 1, by omega⟩
  rw [Nat.add_sub_cancel, BitVec.ofNat_add, ← BitVec.add_assoc]
  exact BitVec.add_sub_cancel _ _

/-- A cycle before the transmitter is ready. -/
theorem Reading.wait_step {part part' : Option (List TxWord)} (h : Reading r m s φ part k)
    (hphase : s.host.tlp.InPhase φ) (hr : s.host.tlp.tx.tx1TlpdReady = false) :
    Reading r m (s.step i) φ' part' 0 := by
  have hk : k = 0 := by
    by_contra hk
    rw [h.phase hk] at hphase
    exact absurd (hr.symm.trans (hphase.2.1.trans (decide_eq_true (by omega)))) (by decide)
  subst hk
  have hslv : (s.step i).host.tlp.slv = s.host.tlp.slv.always := by
    rw [slv_step, TlpSlave.step_mreadd h.busy.status, hr]
    rfl
  have hbusy : (s.step i).host.tlp.slv.Busy r.dws 0 := by
    rw [slv_step, hr]
    exact (TlpSlave.busy_wait h.busy).1
  refine ⟨hbusy, fun hk => absurd rfl hk, ?_, ?_, fun hk => absurd rfl hk, ?_, by omega, by omega,
    fun hk => absurd rfl hk⟩
  · rw [hslv]
    exact h.bar
  · rw [hslv]
    rfl
  · rw [hslv]
    exact h.adr

/-- **A cycle of the pipeline.** -/
theorem Reading.data_step (h : Reading r m s φ sc.part k) (hmem : s.regs.byteAt = m)
    (hdws : r.dws < 1023) (hframed : Framed s.host.tlp φ sc.part)
    (hr : s.host.tlp.tx.tx1TlpdReady = true) (hφ : φ = .cpl r.dws (k + 3))
    (hk : k < 2 * r.dws + 2) (hfollows : Follows φ φ') :
    Reading r m (s.step i) φ' (readWire sc (s.step i).host.tlp.wire).part (k + 1) := by
  have hend := TlpSlave.cplEnd_of_ne (n := r.dws) (by omega)
  have hphase := hframed.phase
  rw [hφ] at hphase hfollows
  obtain ⟨ws, hws, -, hdrop⟩ := h.words_step (i := i) hframed hφ (by omega)
  obtain ⟨-, hwire, -, -⟩ := cpl_wire (i := s.host.pcieIn (s.pcieIn i)) hphase
  have htake : readWire sc (s.step i).host.tlp.wire =
      ⟨some (ws ++ [(s.step i).host.tlp.wire]), sc.done⟩ :=
    readWire_take hws (hwire.trans (decide_eq_false (by omega)))
  have hslv := slv_step s i
  rw [hr] at hslv
  obtain ⟨hbusy, -, hdata⟩ := TlpSlave.busy_step s.host.tlp.rx
    (s.host.rxWord (s.pcieIn i)).rxBarHit (s.slvDatO i.slvDatO) h.busy (by omega)
  have hbus : (s.step i).host.tlp.slv.bus = { s.host.tlp.slv.bus with
      adr := if k < 2 * r.dws then s.host.tlp.slv.bus.adr + 1 else s.host.tlp.slv.bus.adr
      ce := true
      we := false } := by
    rw [hslv]
    exact TlpSlave.bus_step h.busy (by omega) hk
  refine ⟨?_, fun _ => ?_, ?_, ?_, fun _ => ?_, ?_, fun h2 hk' => ?_, fun h3 => ?_, fun _ => ?_⟩
  · rw [hslv]
    exact hbusy
  · exact hfollows.trans (if_neg (by omega))
  · rw [hbus]
    exact h.bar
  · rw [hbus]
  · rw [hbus]
  · rw [hbus]
    change (if k < 2 * r.dws then s.host.tlp.slv.bus.adr + 1 else s.host.tlp.slv.bus.adr) = _
    rw [h.adr]
    by_cases hlast : k < 2 * r.dws
    · rw [if_pos hlast, Nat.min_eq_left (by omega), Nat.min_eq_left (by omega),
        adr_succ _ (show 1 ≤ k + 1 by omega), Nat.add_sub_cancel]
      exact BitVec.sub_add_cancel _ _
    · rw [if_neg hlast, Nat.min_eq_right (by omega), Nat.min_eq_right (by omega)]
  · have hbar : s.host.tlp.slv.bus.bar.getLsbD 0 = true := by
      rw [h.bar]
      rfl
    change (s.regs.step s.host.tlp.slv.bus).slvDat0 = _
    rw [Ecp3Regs.slvDat0_step hbar (h.ce (by omega)) h.we, MemReq.read_eq_wordOf, h.adr,
      Nat.min_eq_left (by omega), adr_succ _ (by omega), show k + 1 - 2 = k - 1 by omega]
    unfold MemReq.readWord
    rw [← hmem]
    rfl
  · rw [hslv, hdata, slvDatO_bar0 h.bar, h.dat0 (by omega) hk, show k + 1 - 3 = k - 2 by omega]
  · rw [htake]
    exact ⟨_, rfl, hdrop⟩

/-! ### The service -/

open HostSide

/-- What the register file holds after some writes. -/
def memory (ws : List MemReq) : ℕ → BitVec 8 :=
  puts Ecp3Regs.mask Ecp3Regs.reset.byteAt (ws.flatMap MemReq.stores)

/-- A completion with the data of a read. -/
structure Returns (r : MemReq) (m : ℕ → BitVec 8) (p : List TxWord) : Prop where
  length : p.length = 6 + 2 * r.dws
  data : (p.map TxWord.txData).drop 6 = r.payload m

/-- The writes `ws` and the read `r` are being served: the registers and what is owed to them
together are the memory after the writes, and a completion carries it. -/
structure Keeps (e : Bool) (ws : List MemReq) (r : MemReq) (φ : LinkPhase) (left : List SlvBus)
    (pending : List (BitVec 16 × BitVec 8)) (rs : List MemReq) (s : SlaveSide)
    (cs : List HostCycle) : Prop where
  serves : Serves e (ws ++ [r]) φ left pending rs s.host cs
  owed : puts Ecp3Regs.mask s.regs.byteAt
    ((s.host.tlp.slv.bus.written ++ (left ++ accessesOf e rs)).flatMap Ecp3Regs.busStores) =
      memory ws
  mreadh : s.host.tlp.slv.slvStatus = .mreadh →
    s.host.tlp.rx.Holds r r.headLen ∧ s.host.tlp.slv.bus.bar = 0b0000001#7
  mreadd : s.host.tlp.slv.slvStatus = .mreadd →
    ∃ k, Reading r (memory ws) s φ (s.host.tlp.readTo (cs.map HostCycle.wire)).part k
  sent : ∀ p ∈ (s.host.tlp.readTo (cs.map HostCycle.wire)).done,
    isCompletion p = true → Returns r (memory ws) p

variable {e : Bool} {ws rs : List MemReq} {left : List SlvBus}
  {pending : List (BitVec 16 × BitVec 8)} {cs : List HostCycle}

theorem asksOf_writes (hws : ∀ w ∈ ws, w.write = true) (hread : r.write = false) :
    asksOf (ws ++ [r]) = [r.id] := by
  induction ws with
  | nil => exact (asksOf_read false hread []).1
  | cons w ws ih =>
    rw [List.forall_mem_cons] at hws
    rw [List.cons_append, (asksOf_write false hws.1 _).1, ih hws.2]

theorem accessesOf_writes (hread : r.write = false) :
    accessesOf e (ws ++ [r]) = accessesOf e ws := by
  unfold accessesOf
  rw [List.flatMap_append, List.flatMap_singleton]
  unfold MemReq.accesses
  rw [MemReq.data_of_read hread]
  exact List.append_nil _

theorem puts_accessesOf (hws : ∀ w ∈ ws, w.barHit.getLsbD 0 = true) (m : ℕ → BitVec 8) :
    puts Ecp3Regs.mask m ((accessesOf e ws).flatMap Ecp3Regs.busStores) =
      puts Ecp3Regs.mask m (ws.flatMap MemReq.stores) := by
  induction ws generalizing m with
  | nil => rfl
  | cons w ws ih =>
    rw [List.forall_mem_cons] at hws
    have hcons : accessesOf e (w :: ws) = w.accesses e ++ accessesOf e ws := List.flatMap_cons
    rw [hcons, List.flatMap_append, puts_append, MemReq.puts_accesses hws.1, List.flatMap_cons,
      puts_append, ih hws.2]

theorem flatMap_written (b : SlvBus) :
    b.written.flatMap Ecp3Regs.busStores = Ecp3Regs.busStores b := by
  unfold SlvBus.written
  by_cases h : (b.ce && b.we) = true
  · rw [if_pos h, List.flatMap_singleton]
  · have hnone : Ecp3Regs.writesBar0 b = false := by
      unfold Ecp3Regs.writesBar0
      rw [Bool.and_assoc, Bool.eq_false_of_not_eq_true h, Bool.and_false]
    unfold Ecp3Regs.busStores
    rw [if_neg h, hnone]
    rfl

/-- Once the read has been accepted no request is left. -/
theorem rs_of_pending (h : Serves e (ws ++ [r]) φ left pending rs s.host cs)
    (hws : ∀ w ∈ ws, w.write = true) (hread : r.write = false) (hp : pending ≠ []) : rs = [] := by
  have hlen := congrArg List.length h.asks
  rw [asksOf_writes hws hread, List.length_append, List.length_append,
    List.length_singleton] at hlen
  have hpos := List.length_pos_of_ne_nil hp
  rcases List.eq_nil_or_concat rs with hnil | ⟨rs', x, hx⟩
  · exact hnil
  · obtain ⟨pre, hpre⟩ := h.suffix
    rw [hx, List.concat_eq_append, ← List.append_assoc] at hpre
    have hxr : x = r := by
      have := (List.append_inj' hpre rfl).2
      exact List.singleton_inj.1 this
    rw [hx, List.concat_eq_append, hxr] at hlen
    unfold asksOf at hlen
    rw [List.flatMap_append, List.flatMap_singleton, List.length_append, MemReq.asks, hread] at hlen
    change 1 = _ + (_ + (_ + 1)) at hlen
    omega

/-- Writes and one read after them always find the slave sequencer idle. -/
theorem accepting_of_keeps (h : Serves e (ws ++ [r]) φ left pending rs s.host cs)
    (hws : ∀ w ∈ ws, w.write = true) (hread : r.write = false) : s.host.Accepting := by
  intro hv
  have hrs := rs_of_pending h hws hread
  have hnone : s.host.Inbox rs → rs = [] → s.host.tlp.slv.slvStatus = .idle := by
    rintro (hbetween | ⟨x, n, -, -, -, as, -, has⟩) hnil
    · exact absurd (hbetween.valid.symm.trans hv) Bool.false_ne_true
    · rw [hnil] at has
      cases has
  cases h.place with
  | idle hst => exact hst
  | mreadh hst _ _ _ hin => exact hnone hin (hrs (List.cons_ne_nil _ _))
  | mreadd hst hin => exact hnone hin (hrs (List.cons_ne_nil _ _))
  | mwriteh hst hbar hin => exact absurd (hin.valid.symm.trans hv) Bool.false_ne_true
  | mwrited hw hj hd hend hh hin =>
    split at hin
    · exact absurd (hin.valid.symm.trans hv) Bool.false_ne_true
    · exact absurd (hin.valid.symm.trans hv) Bool.false_ne_true

variable {left' : List SlvBus} {pending' : List (BitVec 16 × BitVec 8)} {rs' : List MemReq}
  {ps : List (List TxWord)}

theorem owed_step (h : Keeps e ws r φ left pending rs s cs)
    (hpays : left ++ accessesOf e rs =
      (s.step i).host.tlp.slv.bus.written ++ (left' ++ accessesOf e rs')) :
    puts Ecp3Regs.mask (s.step i).regs.byteAt
      (((s.step i).host.tlp.slv.bus.written ++ (left' ++ accessesOf e rs')).flatMap
        Ecp3Regs.busStores) = memory ws := by
  have howed := h.owed
  rw [List.flatMap_append, flatMap_written, hpays, puts_append, ← Ecp3Regs.byteAt_step] at howed
  exact howed

/-- A read that is accepted is the one after the writes. -/
theorem mreadh_step (h : Keeps e ws r φ left pending rs s cs) (hws : ∀ w ∈ ws, w.write = true)
    (hbar : r.barHit = 0b0000001#7) (hst : (s.step i).host.tlp.slv.slvStatus = .mreadh) :
    (s.step i).host.tlp.rx.Holds r r.headLen ∧
      (s.step i).host.tlp.slv.bus.bar = 0b0000001#7 := by
  obtain ⟨hidle, hv⟩ := TlpSlave.idle_of_mreadh hst
  obtain ⟨-, -, hin⟩ := h.serves.place.of_idle hidle
  rcases hin with hbetween | ⟨x, n, hheader⟩
  · exact absurd (hbetween.valid.symm.trans hv) Bool.false_ne_true
  · have hn : n + 1 = x.headLen := of_decide_eq_true (hheader.inside.valid.symm.trans hv)
    obtain ⟨hst', hbar'⟩ := slv_accepts (i := s.pcieIn i) hidle hheader hn
    obtain ⟨hhit, hholds, rs', hrs, -⟩ := header_last (i := s.pcieIn i) hheader hn
    have hx : x ∈ ws ++ [r] := h.serves.suffix.subset (by rw [hrs]; exact List.mem_cons_self)
    have hread : x.write = false := by
      cases hwrite : x.write with
      | false => rfl
      | true =>
        rw [hwrite] at hst'
        exact absurd (hst.symm.trans hst') (by decide)
    have hxr : x = r := by
      rcases List.mem_append.1 hx with hmem | hmem
      · exact absurd (hread.symm.trans (hws x hmem)) Bool.false_ne_true
      · exact List.mem_singleton.1 hmem
    subst hxr
    rw [hhit, hbar] at hbar'
    exact ⟨hholds, hbar'.trans (TlpSlave.barOf_of_ne (by decide) _)⟩

/-- While a completion is owed all writes are in the registers. -/
theorem memory_of_pending (h : Keeps e ws r φ left pending rs s cs) (hws : ∀ w ∈ ws, w.write = true)
    (hread : r.write = false) (hst : s.host.tlp.slv.slvStatus = .mreadd)
    (hwe : s.host.tlp.slv.bus.we = false) : s.regs.byteAt = memory ws := by
  have hrs := rs_of_pending h.serves hws hread
  have howed := h.owed
  have hwritten : s.host.tlp.slv.bus.written = [] := by
    unfold SlvBus.written
    rw [hwe, Bool.and_false]
    rfl
  obtain ⟨rfl, rfl⟩ := h.serves.place.of_mreadd hst
  rw [hwritten, hrs (List.cons_ne_nil _ _)] at howed
  exact howed

theorem toNat_length (hdws : r.dws < 1023) : r.length.toNat = r.dws := by
  have hdef : r.dws = if r.length = 0 then 1024 else r.length.toNat := rfl
  by_cases hzero : r.length = 0
  · rw [if_pos hzero] at hdef
    omega
  · rw [hdef, if_neg hzero]

/-- The pipeline at the start of a read. -/
theorem reading_start {part : Option (List TxWord)} (hst : s.host.tlp.slv.slvStatus = .mreadh)
    (hholds : s.host.tlp.rx.Holds r r.headLen) (hbar : s.host.tlp.slv.bus.bar = 0b0000001#7)
    (hdws : r.dws < 1023) : Reading r m (s.step i) φ part 0 := by
  have hlen := r.six_le_headLen
  have hslv : (s.step i).host.tlp.slv =
      TlpSlave.mreadh s.host.tlp.slv.always s.host.tlp.rx := by
    rw [slv_step, TlpSlave.step_mreadh hst]
  have hbusy : (s.step i).host.tlp.slv.Busy r.dws 0 := by
    rw [hslv, ← toNat_length hdws, ← hholds.length (by omega)]
    exact TlpSlave.busy_mreadh rfl
  refine ⟨hbusy, fun hk => absurd rfl hk, ?_, ?_, fun hk => absurd rfl hk, ?_, by omega, by omega,
    fun hk => absurd rfl hk⟩
  · rw [hslv]
    exact hbar
  · rw [hslv]
    rfl
  · rw [hslv]
    change TlpSlave.startAdr _ = _
    rw [TlpSlave.startAdr_of_holds hholds, Nat.zero_min]
    congr 1
    exact (BitVec.add_zero _).symm

/-- The pipeline goes on as long as the sequencer is in `SLV_MREADD`. -/
theorem mreadd_step (h : Keeps e ws r φ left pending rs s cs) (hws : ∀ w ∈ ws, w.write = true)
    (hread : r.write = false) (hdws : r.dws < 1023) (hfollows : Follows φ φ')
    (hst : (s.step i).host.tlp.slv.slvStatus = .mreadd) :
    ∃ k, Reading r (memory ws) (s.step i) φ'
      ((s.step i).host.tlp.readTo ((cs ++ cycle s i).map HostCycle.wire)).part k := by
  have hreadTo : (s.step i).host.tlp.readTo ((cs ++ cycle s i).map HostCycle.wire) =
      readWire (s.host.tlp.readTo (cs.map HostCycle.wire)) (s.step i).host.tlp.wire :=
    readTo_cycle s.host (s.pcieIn i) cs
  rw [hreadTo]
  rcases TlpSlave.mreadh_of_mreadd hst with hmreadh | hmreadd
  · obtain ⟨hholds, hbar⟩ := h.mreadh hmreadh
    exact ⟨0, reading_start hmreadh hholds hbar hdws⟩
  · obtain ⟨k, hreading⟩ := h.mreadd hmreadd
    have hmem := memory_of_pending h hws hread hmreadd hreading.we
    have hframed := h.serves.framed
    cases hr : s.host.tlp.tx.tx1TlpdReady with
    | false => exact ⟨0, hreading.wait_step hframed.phase hr⟩
    | true =>
      have hφ := hreading.phase_of_ready hframed.phase h.serves.whole hr
      have hend := TlpSlave.cplEnd_of_ne (n := r.dws) (by omega)
      have hle := hreading.busy.le
      have hne : k ≠ 2 * r.dws + 2 := by
        intro hlast
        have hending : (s.step i).host.tlp.slv.Ending := by
          rw [slv_step, hr]
          exact TlpSlave.busy_last hreading.busy (by omega)
        exact absurd (hst.symm.trans hending.status) (by decide)
      exact ⟨k + 1, hreading.data_step hmem hdws hframed hr hφ (by omega) hfollows⟩

/-- The completion that ends carries the memory. -/
theorem returns_of_completes (h : Keeps e ws r φ left pending rs s cs) (hdws : r.dws < 1023)
    (hcompl : Completes s.host.tlp (s.host.pcieIn (s.pcieIn i))
      (s.host.tlp.readTo (cs.map HostCycle.wire)).part ps φ) {p : List TxWord} (hp : p ∈ ps)
    (hc : isCompletion p = true) : Returns r (memory ws) p := by
  have hframed := h.serves.framed
  have hend := TlpSlave.cplEnd_of_ne (n := r.dws) (by omega)
  by_cases hno : ∀ n, φ ≠ .cpl n (TlpSlave.cplEnd n)
  · have hnone := answers_of_completes hcompl hno
    unfold answers at hnone
    rw [List.map_eq_nil_iff, List.filter_eq_nil_iff] at hnone
    exact absurd hc (hnone p hp)
  · obtain ⟨n, hφ⟩ : ∃ n, φ = .cpl n (TlpSlave.cplEnd n) := by
      by_contra hnot
      exact hno fun n hn => hnot ⟨n, hn⟩
    have hphase := hframed.phase
    rw [hφ] at hphase
    obtain ⟨-, hr, -, -, hb, -⟩ := hphase
    have h3 := TlpSlave.le_cplEnd n
    obtain ⟨k, hreading⟩ := h.mreadd hb.status
    have hφ' := hreading.phase_of_ready hframed.phase h.serves.whole
      (hr.trans (decide_eq_true h3))
    rw [hφ'] at hφ
    obtain ⟨rfl, hk⟩ := LinkPhase.cpl.inj hφ
    obtain ⟨ws', hws', hlen, hdrop⟩ := hreading.words_step (i := i) hframed hφ' (by omega)
    rw [hφ', completes_cpl, if_pos (by omega)] at hcompl
    obtain ⟨ws'', hws'', -, -, rfl⟩ := hcompl
    rw [hws'] at hws''
    cases hws''
    rw [List.mem_singleton.1 hp]
    refine ⟨?_, hdrop.trans (List.take_of_length_le ?_)⟩
    · rw [List.length_append, hlen, List.length_singleton]
      omega
    · unfold MemReq.payload
      rw [List.length_map, List.length_range]
      omega

theorem keeps_step (h : Keeps e ws r φ left pending rs s cs) (hws : ∀ w ∈ ws, w.write = true)
    (hread : r.write = false) (hbar : r.barHit = 0b0000001#7) (hdws : r.dws < 1023) :
    ∃ φ' left' pending' rs', Keeps e ws r φ' left' pending' rs' (s.step i) (cs ++ cycle s i) := by
  have hfit : ∀ x ∈ ws ++ [r], Answerable x := by
    intro x hx hx'
    rcases List.mem_append.1 hx with hmem | hmem
    · exact absurd (hx'.symm.trans (hws x hmem)) Bool.false_ne_true
    · rw [List.mem_singleton.1 hmem]
      intro heq
      have hlen := toNat_length hdws
      rw [heq] at hlen
      change 1023 = _ at hlen
      omega
  have hacc := accepting_of_keeps h.serves hws hread
  obtain ⟨φ', left', pending', rs', ps, hserves, hfollows, hpays, hdone, hcompl⟩ :=
    serves_step (i := s.pcieIn i) h.serves hfit hacc
  refine ⟨φ', left', pending', rs', hserves, owed_step h hpays, mreadh_step h hws hbar,
    mreadd_step h hws hread hdws hfollows, ?_⟩
  intro p hp hc
  have hp' : p ∈ (s.host.tlp.readTo (cs.map HostCycle.wire)).done ++ ps := by
    rw [← hdone]
    exact hp
  rcases List.mem_append.1 hp' with hold | hnew
  · exact h.sent p hold hc
  · exact returns_of_completes h hdws hcompl hnew hc

theorem keeps_start (t : PcieTlp) {as : List Arrival} {a : Arrival}
    (hws : ∀ x ∈ as, x.req.write = true ∧ x.req.barHit = 0b0000001#7)
    (hread : a.req.write = false) :
    Keeps t.rx.expRom (as.map Arrival.req) a.req .idle [] [] (as.map Arrival.req ++ [a.req])
      (start t (as ++ [a])) [] := by
  have hserves := serves_start t (as ++ [a])
  rw [List.map_append] at hserves
  have hbar : ∀ w ∈ as.map Arrival.req, w.barHit.getLsbD 0 = true := by
    intro w hw
    obtain ⟨x, hx, rfl⟩ := List.mem_map.1 hw
    rw [(hws x hx).2]
    rfl
  refine ⟨hserves, ?_, fun h => (by cases h), fun h => (by cases h), fun p hp => (by cases hp)⟩
  change puts _ _ ((accessesOf t.rx.expRom (as.map Arrival.req ++ [a.req])).flatMap _) = _
  rw [accessesOf_writes hread]
  exact puts_accessesOf hbar _

/-- The byte most recently written to an offset with its byte enable set; zero where no register is.
-/
def latestByte (ws : List MemReq) (o : ℕ) : BitVec 8 :=
  if (Ecp3Regs.addrMap.locate o).isSome then
    (latest (ws.flatMap MemReq.stores) o).getD (Ecp3Regs.reset.byteAt o)
  else 0

theorem memory_apply (ws : List MemReq) (o : ℕ) : memory ws o = latestByte ws o := by
  unfold memory latestByte
  rw [puts_apply]
  unfold Ecp3Regs.mask
  cases hloc : Ecp3Regs.addrMap.locate o with
  | none =>
    cases latest (ws.flatMap MemReq.stores) o with
    | none => exact Bar0.byteAt_of_locate hloc
    | some b => exact BitVec.and_zero
  | some f =>
    cases latest (ws.flatMap MemReq.stores) o with
    | none => rfl
    | some b => exact BitVec.and_allOnes

theorem Returns.byte {p : List TxWord} (h : Returns r (memory ws) p) {b : ℕ} (hb : b < 4 * r.dws) :
    octet (p.getD (6 + b / 2) default).txData (1 - b % 2) = latestByte ws (r.offset b) := by
  have hget := congrArg (fun l => l[b / 2]?) h.data
  simp only [List.getElem?_drop, List.getElem?_map] at hget
  rw [MemReq.payload_getElem (by omega)] at hget
  obtain ⟨w, hw, hdata⟩ := Option.map_eq_some_iff.1 hget
  rw [List.getD_eq_getElem?_getD, hw, Option.getD_some, hdata, MemReq.octet_readWord, memory_apply]

/-- **BAR0 is a byte-addressable register file**: after any writes that hit only BAR0 the completion
of a read has, in every byte, what was last written to its offset. -/
theorem registerFile_read {t : PcieTlp} {as : List Arrival} {a : Arrival} {is : List PcieIn}
    (hws : ∀ x ∈ as, x.req.write = true ∧ x.req.barHit = 0b0000001#7)
    (hread : a.req.write = false) (hbar : a.req.barHit = 0b0000001#7) (hdws : a.req.dws < 1023) :
    (∀ p ∈ (sent (start t (as ++ [a])) is).filter isCompletion,
      p.length = 6 + 2 * a.req.dws ∧ ∀ b < 4 * a.req.dws,
        octet (p.getD (6 + b / 2) default).txData (1 - b % 2) =
          latestByte (as.map Arrival.req) (a.req.offset b)) ∧
      (2190 < elapsed (start t (as ++ [a])) is →
        ((sent (start t (as ++ [a])) is).filter isCompletion).length = 1) := by
  have hws' : ∀ w ∈ as.map Arrival.req, w.write = true := by
    intro w hw
    obtain ⟨x, hx, rfl⟩ := List.mem_map.1 hw
    exact (hws x hx).1
  have hkeeps : ∃ φ left pending rs, Keeps t.rx.expRom (as.map Arrival.req) a.req φ left pending rs
      (run step (start t (as ++ [a])) is) (log step cycle (start t (as ++ [a])) is) := by
    refine log_induction (J := fun s cs => ∃ φ left pending rs,
      Keeps t.rx.expRom (as.map Arrival.req) a.req φ left pending rs s cs)
      ⟨_, _, _, _, keeps_start t hws hread⟩ ?_ is (along_true step is)
    rintro s i cs ⟨φ, left, pending, rs, hs⟩ -
    exact keeps_step hs hws' hread hbar hdws
  obtain ⟨φ, left, pending, rs, hs⟩ := hkeeps
  refine ⟨fun p hp => ?_, fun hlt => ?_⟩
  · obtain ⟨hmem, hc⟩ := List.mem_filter.1 hp
    have hreturns := hs.sent p hmem hc
    exact ⟨hreturns.length, fun b hb => hreturns.byte hb⟩
  · have hanswers := congrArg List.length (hs.serves.finished hlt).1
    rw [asksOf_writes hws' hread] at hanswers
    unfold answers at hanswers
    rw [List.length_map] at hanswers
    exact hanswers

/-- A write of the IPv4 address and a read of it right behind. -/
theorem registerFile_read_writeDw :
    (∀ p ∈ (sent (start default ([after 0 writeDw] ++ [after 0 readDw])) (ready 60)).filter
        isCompletion,
      p.length = 6 + 2 * readDw.dws ∧ ∀ b < 4 * readDw.dws,
        octet (p.getD (6 + b / 2) default).txData (1 - b % 2) =
          latestByte [writeDw] (readDw.offset b)) ∧
      (2190 < elapsed (start default ([after 0 writeDw] ++ [after 0 readDw])) (ready 60) →
        ((sent (start default ([after 0 writeDw] ++ [after 0 readDw])) (ready 60)).filter
          isCompletion).length = 1) :=
  registerFile_read
    (by
      intro x hx
      rw [List.mem_singleton.1 hx]
      exact ⟨rfl, rfl⟩)
    rfl rfl (by decide)

/-- Both words come back. -/
example : ((sent (start default [after 0 writeDw, after 0 readDw]) (ready 60)).map fun p =>
    (p.map TxWord.txData).drop 6) = [writeDw.data] := by
  decide +kernel

end SlaveSide

end IpNuma
