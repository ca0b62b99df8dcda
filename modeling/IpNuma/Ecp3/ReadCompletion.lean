import IpNuma.Ecp3.ByteEnables
import IpNuma.Ecp3.RegisterFile
import IpNuma.Ecp3.TxGrammar

/-!
# The completion of a read

`DevSide` is the endpoint with any device on its slave bus that has the word of an enabled access
one cycle later.  A read is followed from the word with which it has been received: the fields of
the header are in the registers before the transmitter takes them, and `Fetching` is the pipeline of
address, device, data register and wire, `k` cycles of the data being over.  `read_answered` is the
statement about the completion, whatever is received behind the read.
-/

namespace IpNuma

open Clocked PcieTlp

/-- What a slave device has for each BAR and each address. -/
abbrev SlvMem := BitVec 7 → BitVec 19 → BitVec 16

/-- A device on the slave bus. -/
structure SlvDevice where
  mem : SlvMem
  datO : BitVec 16

/-- One edge: a write leaves the device with any content, a read has its word at the output, and
otherwise the output is any word. -/
def SlvDevice.step (d : SlvDevice) (b : SlvBus) (mem : SlvMem) (dat : BitVec 16) : SlvDevice where
  mem := if b.ce && b.we then mem else d.mem
  datO := if b.ce && !b.we then d.mem b.bar b.adr else dat

/-- A cycle of the endpoint; `slv_dat_o` is what the device shows when it is not read, and `mem`
what it has when it is written. -/
structure DevIn where
  pcie : PcieIn
  mem : SlvMem

/-- `pcie_tlp` and the device. -/
structure DevSide where
  tlp : PcieTlp
  dev : SlvDevice

namespace MemReq

/-- Word `j` that a read is for. -/
def slvWord (r : MemReq) (expRom : Bool) (m : SlvMem) (j : ℕ) : BitVec 16 :=
  m (r.slvBar expRom) (r.adr + BitVec.ofNat 19 j)

/-- The words that a read is for. -/
def slvWords (r : MemReq) (expRom : Bool) (m : SlvMem) : List (BitVec 16) :=
  (List.range (2 * r.dws)).map (r.slvWord expRom m)

/-- The header of the completion; `none` for the word with the ID of the completer. -/
def cplHead (r : MemReq) : ℕ → Option (BitVec 16)
  | 0 => some 0x4a00#16
  | 1 => some (0#6 ++ BitVec.ofNat 10 r.dws)
  | 3 => some (0#3 ++ 0#1 ++ BitVec.ofNat 12 r.byteCount)
  | 4 => some r.reqid
  | 5 => some (r.tag ++ 0#1 ++ BitVec.ofNat 7 r.byteAddr)
  | _ => none

/-- A packet is the completion that a read asks for: format and type, length, byte count, requester
ID, tag, lower address and data. -/
structure Answers (r : MemReq) (expRom : Bool) (m : SlvMem) (p : List TxWord) : Prop where
  size : p.length = 6 + 2 * r.dws
  cplD : (p.getD 0 default).txData = 0x4a00#16
  length : (p.getD 1 default).txData.extractLsb' 0 10 = r.length
  bcount : (p.getD 3 default).txData.extractLsb' 0 12 = BitVec.ofNat 12 r.byteCount
  reqid : (p.getD 4 default).txData = r.reqid
  tag : (p.getD 5 default).txData.extractLsb' 8 8 = r.tag
  lowaddr : (p.getD 5 default).txData.extractLsb' 0 7 = BitVec.ofNat 7 r.byteAddr
  data : (p.map TxWord.txData).drop 6 = r.slvWords expRom m

end MemReq

namespace DevSide

/-- The inputs of `pcie_tlp`. -/
def pcieIn (s : DevSide) (i : DevIn) : PcieIn := { i.pcie with slvDatO := s.dev.datO }

/-- One edge of `pcie_clk`. -/
def step (s : DevSide) (i : DevIn) : DevSide where
  tlp := s.tlp.step (s.pcieIn i)
  dev := s.dev.step s.tlp.slv.bus i.mem i.pcie.slvDatO

/-- After reset. -/
def start (t : PcieTlp) (d : SlvDevice) : DevSide := ⟨t.reset, d⟩

/-- What is on the wire after the edge. -/
def wire (s : DevSide) (i : DevIn) : List TxWord := [(s.step i).tlp.wire]

/-- The reader of the wire after a run. -/
def reader (s : DevSide) (is : List DevIn) : Scan TxWord :=
  scan TxWord.txSt TxWord.txEnd (log step wire s is)

/-- The completions among the packets of a run, but for the first `n` packets. -/
def fresh (n : ℕ) (sc : Scan TxWord) : List (List TxWord) :=
  (sc.done.drop n).filter HostSide.isCompletion

/-- The completions that end in the cycles `is` of a run, behind the cycles `before`. -/
def completions (s : DevSide) (before is : List DevIn) : List (List TxWord) :=
  fresh (s.reader before).done.length (s.reader (before ++ is))

/-- In `SLV_MREADH` the request is not one of 1023 DW. -/
def Short (s : DevSide) (i : DevIn) : Prop := s.tlp.Short (s.pcieIn i)

instance (s : DevSide) (i : DevIn) : Decidable (s.Short i) :=
  inferInstanceAs (Decidable (s.tlp.Short (s.pcieIn i)))

/-- A cycle in which the transmitter does not wait for `tx_rdy`. -/
def counts (s : DevSide) (i : DevIn) : List Unit :=
  if s.tlp.Stalled (s.pcieIn i) then [] else [()]

end DevSide

/-! ### The transmit side -/

namespace PcieTlp

/-- The blocks and the reader are in a phase, without a completion of 1023 DW. -/
structure Sending (φ : LinkPhase) (s : PcieTlp) (part : Option (List TxWord)) : Prop where
  framed : Framed s φ part
  whole : Whole φ
  fits : s.Fits

variable {s : PcieTlp} {i : PcieIn} {φ : LinkPhase} {sc : Scan TxWord} {r : MemReq} {n : ℕ}

theorem sending_reset (s : PcieTlp) : Sending .idle s.reset none :=
  ⟨framed_reset s, trivial, fun h => (by cases h)⟩

theorem sending_step (h : Sending φ s sc.part) (hc : s.Short i) :
    ∃ φ', Follows φ φ' ∧ Sending φ' (s.step i) (readWire sc (s.step i).wire).part ∧
      ∃ ps, (readWire sc (s.step i).wire).done = sc.done ++ ps ∧ Completes s i sc.part ps φ := by
  have hfits := fits_step (i := i) h.framed.phase h.whole h.fits hc
  obtain ⟨⟨φ', hfollows, hframed⟩, hdone⟩ := framed_step (i := i) h.framed
  exact ⟨φ', hfollows, ⟨hframed, whole_step h.whole hfollows hframed.phase hfits, hfits⟩, hdone⟩

end PcieTlp

/-! ### The slave sequencer -/

namespace TlpSlave

variable {s : TlpSlave} {rx : TlpRx} {r : MemReq}

/-- `SLV_MREADH` prepares the header of the completion. -/
theorem head_mreadh (h : rx.Holds r r.headLen) (hbe : r.Enables) (hzero : r.length ≠ 0) :
    (mreadh s rx).head r.dws = r.cplHead := by
  have hlen := r.six_le_headLen
  have hreqid := h.reqid (by omega)
  obtain ⟨htag, -, -⟩ := h.bytes (by omega)
  funext p
  match p with
  | 0 => rfl
  | 1 => rfl
  | 2 => rfl
  | 3 =>
    change some (0#3 ++ 0#1 ++ byteCount s rx) = some (0#3 ++ 0#1 ++ BitVec.ofNat 12 r.byteCount)
    rw [byteCount_eq h hbe hzero]
  | 4 => exact congrArg some hreqid
  | 5 =>
    change some (rx.rxTag ++ 0#1 ++ (lowerAddress rx).extractLsb' 0 7) =
      some (r.tag ++ 0#1 ++ BitVec.ofNat 7 r.byteAddr)
    rw [htag, lowerAddress_eq h hbe]
  | _ + 6 => rfl

end TlpSlave

namespace DevSide

variable {e : Bool} {s : DevSide} {i : DevIn} {r : MemReq} {m : SlvMem} {φ φ' : LinkPhase}
  {sc : Scan TxWord} {n k c : ℕ}

theorem slv_step (s : DevSide) (i : DevIn) : (s.step i).tlp.slv =
    s.tlp.slv.step s.tlp.rx i.pcie.rx.rxBarHit s.tlp.tx.tx1TlpdReady s.dev.datO := rfl

/-- The read has been received and accepted. -/
structure Accepted (e : Bool) (r : MemReq) (m : SlvMem) (s : DevSide) : Prop where
  status : s.tlp.slv.slvStatus = .mreadh
  holds : s.tlp.rx.Holds r r.headLen
  bar : s.tlp.slv.bus.bar = r.slvBar e
  ce : s.tlp.slv.bus.ce = false
  mem : s.dev.mem = m

/-- The pipeline of a read, `k` cycles of its data being over. -/
structure Fetching (e : Bool) (r : MemReq) (m : SlvMem) (s : DevSide) (φ : LinkPhase)
    (part : Option (List TxWord)) (k : ℕ) : Prop where
  busy : s.tlp.slv.Busy r.dws k
  phase : k ≠ 0 → φ = .cpl r.dws (k + 3)
  head : s.tlp.slv.head r.dws = r.cplHead
  bar : s.tlp.slv.bus.bar = r.slvBar e
  we : s.tlp.slv.bus.we = false
  ce : k ≠ 0 → s.tlp.slv.bus.ce = true
  adr : s.tlp.slv.bus.adr = r.adr + BitVec.ofNat 19 (min k (2 * r.dws)) - 1
  mem : s.dev.mem = m
  datO : 2 ≤ k → k < 2 * r.dws + 2 → s.dev.datO = r.slvWord e m (k - 2)
  data : 3 ≤ k → s.tlp.slv.tx1Data = r.slvWord e m (k - 3)
  part : k ≠ 0 → ∃ ws, part = some ws ∧
    (ws.map TxWord.txData).drop 6 = (r.slvWords e m).take (k - 3)

theorem slvWords_getElem {j : ℕ} (hj : j < 2 * r.dws) :
    (r.slvWords e m)[j]? = some (r.slvWord e m j) := by
  unfold MemReq.slvWords
  rw [List.getElem?_map, List.getElem?_range hj]
  rfl

/-- Without a write the device keeps what it has. -/
theorem mem_step (h : s.tlp.slv.bus.we = false) : (s.step i).dev.mem = s.dev.mem := by
  change (if s.tlp.slv.bus.ce && s.tlp.slv.bus.we then _ else s.dev.mem) = _
  rw [h, Bool.and_false]
  exact if_neg Bool.false_ne_true

/-- The last word of the header of a read, with the sequencer idle. -/
theorem accepted_step (he : s.tlp.rx.expRom = e) (hin : s.tlp.rx.Inside r n)
    (hn : n + 1 = r.headLen) (hst : s.tlp.slv.slvStatus = .idle) (hread : r.write = false)
    (hw : r.words[n]? = some i.pcie.rx) : Accepted e r (s.step i).dev.mem (s.step i) := by
  have hlen := r.six_le_headLen
  obtain ⟨n, rfl⟩ : ∃ n', n = n' + 1 := ⟨n - 1, by omega⟩
  obtain ⟨hholds, -, -⟩ := TlpRx.holds_req7 hn.symm hin hw
  obtain ⟨-, -, -, hbar⟩ := MemReq.words_getElem hw
  obtain ⟨hcomm, hfmt, -⟩ := hin.holds.head (by omega)
  have hslv : (s.step i).tlp.slv = { s.tlp.slv.always with
      tx1TlphValid := false
      bus := { s.tlp.slv.always.bus with bar := r.slvBar e }
      slvStatus := .mreadh } := by
    rw [slv_step]
    unfold TlpSlave.step TlpSlave.idle
    rw [hst, hcomm, hfmt, TlpRx.fmt_write, hin.valid, hread, hbar, he, hn]
    simp [MemReq.slvBar]
  exact ⟨by rw [hslv], hholds, by rw [hslv], by rw [hslv]; rfl, rfl⟩

/-- In `SLV_MREADH`. -/
theorem Accepted.step {part : Option (List TxWord)} (h : Accepted e r m s) (hbe : r.Enables)
    (hzero : r.length ≠ 0) : Fetching e r m (s.step i) φ part 0 := by
  have hlen := r.six_le_headLen
  have hdws : r.dws = r.length.toNat := if_neg hzero
  have hslv : (s.step i).tlp.slv = TlpSlave.mreadh s.tlp.slv.always s.tlp.rx := by
    rw [slv_step, TlpSlave.step_mreadh h.status]
  have hmem : (s.step i).dev.mem = m := by
    change (if s.tlp.slv.bus.ce && s.tlp.slv.bus.we then _ else s.dev.mem) = m
    rw [h.ce, h.mem]
    rfl
  refine ⟨?_, fun hk => absurd rfl hk, ?_, ?_, ?_, fun hk => absurd rfl hk, ?_, hmem, by omega,
    by omega, fun hk => absurd rfl hk⟩
  · rw [hslv, hdws, ← h.holds.length (by omega)]
    exact TlpSlave.busy_mreadh rfl
  · rw [hslv]
    exact TlpSlave.head_mreadh h.holds hbe hzero
  · rw [hslv]
    exact h.bar
  · rw [hslv]
    rfl
  · rw [hslv]
    change TlpSlave.startAdr s.tlp.rx = _
    rw [TlpSlave.startAdr_of_holds h.holds, Nat.zero_min]
    congr 1
    exact (BitVec.add_zero _).symm

/-- When the transmitter is ready for data it is at the word of the completion that the pipeline has
reached. -/
theorem Fetching.phase_of_ready {part : Option (List TxWord)} (h : Fetching e r m s φ part k)
    (hsend : Sending φ s.tlp part) (hr : s.tlp.tx.tx1TlpdReady = true) :
    φ = .cpl r.dws (k + 3) := by
  by_cases hk : k = 0
  · obtain ⟨n, p, rfl, h3⟩ := cpl_of_ready hsend.framed.phase hsend.whole h.busy.status hr
    have hb := hsend.framed.phase.cpl_busy
    have hvalid := h.busy.valid.symm.trans hb.valid
    rw [decide_eq_true hk] at hvalid
    have hp : p - 3 = 0 := of_decide_eq_true hvalid.symm
    have hlen := h.busy.length
    have hlen' := hb.length
    obtain rfl : n = r.dws := by omega
    obtain rfl : p = k + 3 := by omega
    rfl
  · exact h.phase hk

/-- The words of the completion with the next one. -/
theorem Fetching.words_step (h : Fetching e r m s φ sc.part k) (hframed : Framed s.tlp φ sc.part)
    (hφ : φ = .cpl r.dws (k + 3)) (hk : k < 2 * r.dws + 3) :
    ∃ ws, sc.part = some ws ∧ ws.length = k + 3 ∧
      ((ws ++ [(s.step i).tlp.wire]).map TxWord.txData).drop 6 =
        (r.slvWords e m).take (k + 1 - 3) := by
  obtain ⟨hphase, htaken⟩ := hframed
  rw [hφ] at hphase htaken
  obtain ⟨ws, hws, hlen, -⟩ := Taken.words htaken (by omega)
  have hdrop : (ws.map TxWord.txData).drop 6 = (r.slvWords e m).take (k - 3) := by
    by_cases hk0 : k = 0
    · rw [hk0, List.drop_eq_nil_of_le (by rw [List.length_map]; omega)]
      rfl
    · obtain ⟨ws', hws', hdrop⟩ := h.part hk0
      rw [hws] at hws'
      cases hws'
      exact hdrop
  obtain ⟨-, -, -, hdata⟩ := cpl_wire (i := s.pcieIn i) hphase
  refine ⟨ws, hws, hlen, drop_concat (by omega) hdrop fun h3 => ?_⟩
  rw [slvWords_getElem (by omega), ← h.data h3]
  exact congrArg some (hdata (by omega)).symm

/-- A cycle before the transmitter is ready. -/
theorem Fetching.wait_step {part part' : Option (List TxWord)} (h : Fetching e r m s φ part k)
    (hphase : s.tlp.InPhase φ) (hr : s.tlp.tx.tx1TlpdReady = false) :
    Fetching e r m (s.step i) φ' part' 0 := by
  have hk : k = 0 := by
    by_contra hk
    rw [h.phase hk] at hphase
    exact absurd (hr.symm.trans (hphase.2.1.trans (decide_eq_true (by omega)))) (by decide)
  subst hk
  have hslv : (s.step i).tlp.slv = s.tlp.slv.always := by
    rw [slv_step, TlpSlave.step_mreadd h.busy.status, hr]
    rfl
  have hwait : (s.step i).tlp.slv.Busy r.dws 0 ∧
      (s.step i).tlp.slv.head r.dws = s.tlp.slv.head r.dws := by
    rw [slv_step, hr]
    exact TlpSlave.busy_wait h.busy
  obtain ⟨hbusy, hhead⟩ := hwait
  refine ⟨hbusy, fun hk => absurd rfl hk, hhead.trans h.head, ?_, ?_, fun hk => absurd rfl hk, ?_,
    (mem_step h.we).trans h.mem, by omega, by omega, fun hk => absurd rfl hk⟩
  · rw [hslv]
    exact h.bar
  · rw [hslv]
    rfl
  · rw [hslv]
    exact h.adr

/-- **A cycle of the pipeline.** -/
theorem Fetching.data_step (h : Fetching e r m s φ sc.part k) (hne : r.dws ≠ 1023)
    (hframed : Framed s.tlp φ sc.part) (hr : s.tlp.tx.tx1TlpdReady = true)
    (hφ : φ = .cpl r.dws (k + 3)) (hk : k < 2 * r.dws + 2) (hfollows : Follows φ φ') :
    Fetching e r m (s.step i) φ' (readWire sc (s.step i).tlp.wire).part (k + 1) := by
  have hend := TlpSlave.cplEnd_of_ne hne
  have hphase := hframed.phase
  rw [hφ] at hphase hfollows
  obtain ⟨ws, hws, -, hdrop⟩ := h.words_step (i := i) hframed hφ (by omega)
  obtain ⟨-, hwire, -, -⟩ := cpl_wire (i := s.pcieIn i) hphase
  have htake : readWire sc (s.step i).tlp.wire = ⟨some (ws ++ [(s.step i).tlp.wire]), sc.done⟩ :=
    readWire_take hws (hwire.trans (decide_eq_false (by omega)))
  have hslv := slv_step s i
  rw [hr] at hslv
  obtain ⟨hbusy, hhead, hdata⟩ := TlpSlave.busy_step s.tlp.rx i.pcie.rx.rxBarHit s.dev.datO h.busy
    (by omega)
  have hbus : (s.step i).tlp.slv.bus = { s.tlp.slv.bus with
      adr := if k < 2 * r.dws then s.tlp.slv.bus.adr + 1 else s.tlp.slv.bus.adr
      ce := true
      we := false } := by
    rw [hslv]
    exact TlpSlave.bus_step h.busy hne hk
  rw [← hslv] at hbusy hhead hdata
  refine ⟨hbusy, fun _ => hfollows.trans (if_neg (by omega)), hhead.trans h.head, ?_, ?_,
    fun _ => ?_, ?_, (mem_step h.we).trans h.mem, fun h2 hk' => ?_, fun h3 => ?_, fun _ => ?_⟩
  · rw [hbus]
    exact h.bar
  · rw [hbus]
  · rw [hbus]
  · rw [hbus]
    change (if k < 2 * r.dws then s.tlp.slv.bus.adr + 1 else s.tlp.slv.bus.adr) = _
    rw [h.adr]
    by_cases hlast : k < 2 * r.dws
    · rw [if_pos hlast, Nat.min_eq_left (by omega), Nat.min_eq_left (by omega),
        SlaveSide.adr_succ _ (show 1 ≤ k + 1 by omega), Nat.add_sub_cancel]
      exact BitVec.sub_add_cancel _ _
    · rw [if_neg hlast, Nat.min_eq_right (by omega), Nat.min_eq_right (by omega)]
  · -- the device shows the word of the address that was on the bus
    change (if s.tlp.slv.bus.ce && !s.tlp.slv.bus.we then s.dev.mem s.tlp.slv.bus.bar
      s.tlp.slv.bus.adr else _) = _
    rw [h.ce (by omega), h.we, h.mem, h.bar, h.adr, Nat.min_eq_left (by omega),
      SlaveSide.adr_succ _ (by omega), show k + 1 - 2 = k - 1 by omega]
    rfl
  · rw [hdata, h.datO (by omega) hk, show k + 1 - 3 = k - 2 by omega]
  · rw [htake]
    exact ⟨_, rfl, hdrop⟩

/-- The fields of a packet with the header and the words. -/
theorem answers_of_head {p : List TxWord} (hzero : r.length ≠ 0) (hsize : p.length = 6 + 2 * r.dws)
    (hhead : HeadOf r.cplHead p) (hdata : (p.map TxWord.txData).drop 6 = r.slvWords e m) :
    r.Answers e m p := by
  have hdws : r.dws = r.length.toNat := if_neg hzero
  have hget : ∀ k < 6, ∀ w, r.cplHead k = some w → (p.getD k default).txData = w := by
    intro k hk w hw
    have hlt : k < p.length := by omega
    refine hhead k w _ hw ?_
    rw [List.getD_eq_getElem?_getD, List.getElem?_eq_getElem hlt]
    rfl
  have h1 := hget 1 (by decide) _ rfl
  have h3 := hget 3 (by decide) _ rfl
  have h5 := hget 5 (by decide) _ rfl
  refine ⟨hsize, hget 0 (by decide) _ rfl, ?_, ?_, hget 4 (by decide) _ rfl, ?_, ?_, hdata⟩
  · rw [h1, hdws, BitVec.ofNat_toNat, BitVec.setWidth_eq, extractLsb'_append_low _ _ _ _ (by omega)]
    exact BitVec.extractLsb'_eq_self
  · rw [h3, extractLsb'_append_low _ _ _ _ (by omega)]
    exact BitVec.extractLsb'_eq_self
  · rw [h5, extractLsb'_append_high _ _ _ _ (by omega), extractLsb'_append_high _ _ _ _ (by omega)]
    exact BitVec.extractLsb'_eq_self
  · rw [h5, extractLsb'_append_low _ _ _ _ (by omega)]
    exact BitVec.extractLsb'_eq_self

/-- The last cycle of the pipeline completes the answer. -/
theorem Fetching.last_step (h : Fetching e r m s φ sc.part k) (hzero : r.length ≠ 0)
    (hne : r.dws ≠ 1023) (hframed : Framed s.tlp φ sc.part) (hφ : φ = .cpl r.dws (k + 3))
    (hk : k = 2 * r.dws + 2) {ps : List (List TxWord)}
    (hcompl : Completes s.tlp (s.pcieIn i) sc.part ps φ) :
    ∃ p, ps.filter HostSide.isCompletion = [p] ∧ r.Answers e m p := by
  have hend := TlpSlave.cplEnd_of_ne hne
  obtain ⟨ws, hws, hlen, hdrop⟩ := h.words_step (i := i) hframed hφ (by omega)
  rw [hφ, completes_cpl, if_pos (by omega)] at hcompl
  have hfilter := hcompl.filter (x := 0x4a00#16) rfl 0x4a00#16
  rw [if_pos rfl] at hfilter
  obtain ⟨ws', hws', -, hhead, rfl⟩ := hcompl
  rw [hws] at hws'
  cases hws'
  rw [h.head] at hhead
  refine ⟨_, hfilter, answers_of_head hzero ?_ hhead (hdrop.trans (List.take_of_length_le ?_))⟩
  · change (ws ++ [(s.step i).tlp.wire]).length = _
    rw [List.length_append, hlen, List.length_singleton]
    omega
  · unfold MemReq.slvWords
    rw [List.length_map, List.length_range]
    omega

/-! ### Runs -/

/-- The read is being answered: `n` packets had been sent when it was accepted, and `c` cycles have
counted since then. -/
structure Underway (e : Bool) (r : MemReq) (m : SlvMem) (n : ℕ) (φ : LinkPhase) (s : DevSide)
    (sc : Scan TxWord) (c : ℕ) : Prop where
  sending : Sending φ s.tlp sc.part
  le : n ≤ sc.done.length
  none : fresh n sc = []
  stage : Accepted e r m s ∧ c = 0 ∨
    ∃ k, Fetching e r m s φ sc.part k ∧ rank s.tlp.mst.tx2TlphValid φ + c ≤ 2190

/-- The first completion since then is the answer. -/
def Answered (e : Bool) (r : MemReq) (m : SlvMem) (n : ℕ) (sc : Scan TxWord) : Prop :=
  n ≤ sc.done.length ∧ ∃ p ps, fresh n sc = p :: ps ∧ r.Answers e m p

theorem fresh_append {sc' : Scan TxWord} {ps : List (List TxWord)} (hle : n ≤ sc.done.length)
    (hdone : sc'.done = sc.done ++ ps) :
    n ≤ sc'.done.length ∧ fresh n sc' = fresh n sc ++ ps.filter HostSide.isCompletion := by
  unfold fresh
  rw [hdone, List.drop_append_of_le_length hle, List.filter_append, List.length_append]
  exact ⟨by omega, rfl⟩

/-- The packets that have been read stay. -/
theorem Answered.step (h : Answered e r m n sc) (w : TxWord) :
    Answered e r m n (readWire sc w) := by
  obtain ⟨hle, p, ps, hfresh, hans⟩ := h
  have hdone : ∃ qs, (readWire sc w).done = sc.done ++ qs := by
    unfold readWire Scan.next
    split
    · split <;> exact ⟨[], (List.append_nil _).symm⟩
    · split
      · exact ⟨_, rfl⟩
      · exact ⟨[], (List.append_nil _).symm⟩
  obtain ⟨qs, hqs⟩ := hdone
  obtain ⟨hle', hfresh'⟩ := fresh_append hle hqs
  exact ⟨hle', p, ps ++ qs.filter HostSide.isCompletion, by rw [hfresh', hfresh]; rfl, hans⟩

/-- A cycle that counts brings the end of the completion nearer. -/
theorem rank_counts (hsend : Sending φ s.tlp sc.part) (hst : s.tlp.slv.slvStatus = .mreadd)
    (hfollows : Follows φ φ') (hphase' : (s.step i).tlp.InPhase φ')
    (hst' : (s.step i).tlp.slv.slvStatus = .mreadd) :
    rank (s.step i).tlp.mst.tx2TlphValid φ' + (counts s i).length ≤
      rank s.tlp.mst.tx2TlphValid φ := by
  have hdown := rank_step (i := s.pcieIn i) hsend.framed.phase hsend.whole hst hfollows hphase' hst'
  unfold counts
  split at hdown
  · rw [if_pos ‹_›]
    exact hdown
  · rw [if_neg ‹_›]
    exact hdown

/-- **A cycle of the answer.** -/
theorem Underway.step (h : Underway e r m n φ s sc c) (hbe : r.Enables) (hzero : r.length ≠ 0)
    (hlong : r.length ≠ 0x3ff#10) :
    (∃ φ', Underway e r m n φ' (s.step i) (readWire sc (s.step i).tlp.wire)
        (c + (counts s i).length)) ∨
      Answered e r m n (readWire sc (s.step i).tlp.wire) := by
  obtain ⟨hsend, hle, hnone, hstage⟩ := h
  have hlen := r.six_le_headLen
  have hdws : r.dws = r.length.toNat := if_neg hzero
  have hne : r.dws ≠ 1023 := fun heq => hlong (BitVec.eq_of_toNat_eq (hdws.symm.trans heq))
  have hend := TlpSlave.cplEnd_of_ne hne
  have hshort : s.tlp.Short (s.pcieIn i) := by
    intro hst
    rcases hstage with ⟨hacc, -⟩ | ⟨k, hfetch, -⟩
    · rw [hacc.holds.length (by omega)]
      exact hlong
    · exact absurd (hst.symm.trans hfetch.busy.status) (by decide)
  obtain ⟨φ', hfollows, hsend', ps, hdone, hcompl⟩ := sending_step hsend hshort
  obtain ⟨hle', hfresh⟩ := fresh_append hle hdone
  rw [hnone, List.nil_append] at hfresh
  have hgo : ∀ k, (∀ n, φ ≠ .cpl n (TlpSlave.cplEnd n)) →
      Fetching e r m (s.step i) φ' (readWire sc (s.step i).tlp.wire).part k →
      rank (s.step i).tlp.mst.tx2TlphValid φ' + (c + (counts s i).length) ≤ 2190 →
      ∃ φ', Underway e r m n φ' (s.step i) (readWire sc (s.step i).tlp.wire)
        (c + (counts s i).length) := fun k hno hfetch hrank =>
    ⟨φ', hsend', hle', hfresh.trans (HostSide.filter_of_completes hcompl hno),
      .inr ⟨k, hfetch, hrank⟩⟩
  rcases hstage with ⟨hacc, rfl⟩ | ⟨k, hfetch, hrank⟩
  · -- `SLV_MREADH`
    have hno : ∀ n, φ ≠ .cpl n (TlpSlave.cplEnd n) := by
      rintro n rfl
      exact absurd (hacc.status.symm.trans hsend.framed.phase.cpl_busy.status) (by decide)
    have hrank := rank_le hsend'.framed.phase (s.step i).tlp.mst.tx2TlphValid
    have hcount : (counts s i).length ≤ 1 := by
      unfold counts
      split <;> decide
    exact .inl (hgo 0 hno (hacc.step hbe hzero) (by omega))
  · have hdown : ∀ k', Fetching e r m (s.step i) φ' (readWire sc (s.step i).tlp.wire).part k' →
        rank (s.step i).tlp.mst.tx2TlphValid φ' + (c + (counts s i).length) ≤ 2190 := by
      intro k' hfetch'
      have hcounts := rank_counts hsend hfetch.busy.status hfollows hsend'.framed.phase
        hfetch'.busy.status
      omega
    cases hr : s.tlp.tx.tx1TlpdReady with
    | false =>
      -- the transmitter has not reached the data
      have hfetch' : Fetching e r m (s.step i) φ' (readWire sc (s.step i).tlp.wire).part 0 :=
        hfetch.wait_step hsend.framed.phase hr
      refine .inl (hgo 0 ?_ hfetch' (hdown 0 hfetch'))
      rintro n rfl
      have h3 := TlpSlave.le_cplEnd n
      have hready := hsend.framed.phase.2.1.trans (decide_eq_true h3)
      exact absurd (hr.symm.trans hready) Bool.false_ne_true
    | true =>
      have hφ := hfetch.phase_of_ready hsend hr
      have hkle := hfetch.busy.le
      by_cases hk : k = 2 * r.dws + 2
      · right
        obtain ⟨p, hp, hans⟩ := hfetch.last_step hzero hne hsend.framed hφ hk hcompl
        exact ⟨hle', p, [], hfresh.trans hp, hans⟩
      · have hfetch' := hfetch.data_step (i := i) hne hsend.framed hr hφ (by omega) hfollows
        refine .inl (hgo (k + 1) ?_ hfetch' (hdown _ hfetch'))
        rintro n heq
        rw [hφ] at heq
        obtain ⟨rfl, hlast⟩ := LinkPhase.cpl.inj heq
        omega

theorem reader_concat (s : DevSide) (is : List DevIn) (i : DevIn) :
    s.reader (is ++ [i]) = readWire (s.reader is) ((run step s is).step i).tlp.wire := by
  unfold reader
  rw [log_concat]
  exact scan_concat _ _ _ _

/-- The transmit side after a run from reset. -/
theorem sending_run (t : PcieTlp) (d : SlvDevice) {is : List DevIn}
    (h : Along step Short (start t d) is) :
    ∃ φ, Sending φ (run step (start t d) is).tlp ((start t d).reader is).part := by
  induction is using List.reverseRecOn with
  | nil => exact ⟨.idle, sending_reset t⟩
  | append_singleton is i ih =>
    obtain ⟨hpre, hshort⟩ := (along_concat step Short _ is i).1 h
    obtain ⟨φ, hsend⟩ := ih hpre
    obtain ⟨φ', -, hsend', -⟩ := sending_step hsend hshort
    refine ⟨φ', ?_⟩
    rw [run_concat, reader_concat]
    exact hsend'

/-- The receiver sees the words of the inputs. -/
theorem rx_run (s : DevSide) (is : List DevIn) :
    (run step s is).tlp.rx = run TlpRx.step s.tlp.rx (is.map fun i => i.pcie.rx) :=
  run_part (f := fun s => s.tlp.rx) step (fun _ _ => rfl) s is

/-- A read that finds the sequencer idle is accepted. -/
theorem accepted_run {words : List DevIn} (he : s.tlp.rx.expRom = e)
    (hst : s.tlp.rx.rxStatus = .head0)
    (hread : r.write = false) (hwords : (words.map fun i => i.pcie.rx) = r.words)
    (hidle : (run step s words.dropLast).tlp.slv.slvStatus = .idle) :
    Accepted e r (run step s words).dev.mem (run step s words) := by
  have hlen := r.six_le_headLen
  have hlength : words.length = r.headLen := by
    rw [← List.length_map (f := fun i => i.pcie.rx), hwords, MemReq.length_words,
      MemReq.length_body, MemReq.data_of_read hread]
    rfl
  rcases List.eq_nil_or_concat words with rfl | ⟨init, i, rfl⟩
  · rw [List.length_nil] at hlength
    omega
  · rw [List.concat_eq_append] at hidle hwords hlength ⊢
    rw [List.dropLast_concat] at hidle
    rw [List.length_append, List.length_singleton] at hlength
    rw [List.map_append] at hwords
    have hinit : (init.map fun i => i.pcie.rx) = r.words.take init.length := by
      rw [← hwords, List.take_left' (List.length_map _)]
    have hlast : r.words[init.length]? = some i.pcie.rx := by
      rw [← hwords, List.getElem?_append_right (by rw [List.length_map]), List.length_map,
        Nat.sub_self]
      rfl
    have hin : (run step s init).tlp.rx.Inside r init.length := by
      rw [rx_run, hinit]
      exact TlpRx.inside_run hst (by omega) (by omega)
    rw [run_concat]
    exact accepted_step (by rw [rx_run, TlpRx.expRom_run, he]) hin hlength hidle hread hlast

/-- An accepted read, any cycles later. -/
theorem answered_run {s₀ : DevSide} {pre : List DevIn} (after : List DevIn) (hbe : r.Enables)
    (hzero : r.length ≠ 0) (hlong : r.length ≠ 0x3ff#10)
    (hsend : ∃ φ, Sending φ (run step s₀ pre).tlp (s₀.reader pre).part)
    (hacc : Accepted e r m (run step s₀ pre)) :
    (∃ φ, Underway e r m (s₀.reader pre).done.length φ (run step s₀ (pre ++ after))
        (s₀.reader (pre ++ after)) (log step counts (run step s₀ pre) after).length) ∨
      Answered e r m (s₀.reader pre).done.length (s₀.reader (pre ++ after)) := by
  induction after using List.reverseRecOn with
  | nil =>
    obtain ⟨φ, hφ⟩ := hsend
    rw [List.append_nil]
    have hnone : fresh (s₀.reader pre).done.length (s₀.reader pre) = [] := by
      unfold fresh
      rw [List.drop_length]
      rfl
    exact .inl ⟨φ, hφ, le_refl _, hnone, .inl ⟨hacc, rfl⟩⟩
  | append_singleton after i ih =>
    rw [← List.append_assoc, run_concat, reader_concat, log_concat, ← run_append,
      List.length_append]
    rcases ih with ⟨φ, hunder⟩ | hans
    · exact hunder.step hbe hzero hlong
    · exact .inr (hans.step _)

/-- **The completion of a read**: the first completion behind a read that finds the slave sequencer
idle has its header and the words of the device, and after 2191 cycles that count it has been sent,
if the read is not one of 1023 DW and none of 1023 DW has been answered before. -/
theorem read_answered {t : PcieTlp} {d : SlvDevice} {before words after : List DevIn}
    (hread : r.write = false) (hbe : r.Enables) (hzero : r.length ≠ 0) (hlong : r.length ≠ 0x3ff#10)
    (hshort : Along step Short (start t d) (before ++ words))
    (hrx : (run step (start t d) before).tlp.rx.rxStatus = .head0)
    (hwords : (words.map fun i => i.pcie.rx) = r.words)
    (hidle : (run step (start t d) (before ++ words.dropLast)).tlp.slv.slvStatus = .idle) :
    (∀ p ∈ ((start t d).completions (before ++ words) after).head?,
        r.Answers t.rx.expRom (run step (start t d) (before ++ words)).dev.mem p) ∧
      (2190 < (log step counts (run step (start t d) (before ++ words)) after).length →
        (start t d).completions (before ++ words) after ≠ []) := by
  rw [run_append] at hidle
  have hacc := accepted_run (e := t.rx.expRom)
    (by rw [rx_run, TlpRx.expRom_run]; rfl) hrx hread hwords hidle
  rw [← run_append] at hacc
  rcases answered_run after hbe hzero hlong (sending_run t d hshort) hacc with
    ⟨φ, hunder⟩ | ⟨-, p, ps, hfresh, hans⟩
  · have hnone : (start t d).completions (before ++ words) after = [] := hunder.none
    rw [hnone]
    refine ⟨fun p hp => (by cases hp), fun hlt => ?_⟩
    rcases hunder.stage with ⟨-, hc⟩ | ⟨k, -, hrank⟩ <;> omega
  · have hsome : (start t d).completions (before ++ words) after = p :: ps := hfresh
    rw [hsome]
    refine ⟨fun q hq => ?_, fun _ => List.cons_ne_nil _ _⟩
    cases hq
    exact hans

/-- Quiet cycles with `tx_rdy`. -/
def quiet (n : ℕ) : List DevIn :=
  List.replicate n ⟨⟨⟨false, false, 0, 0⟩, true, 0, 0, 0, 0, true, 0⟩, fun _ _ => 0⟩

/-- The cycles of a request. -/
def cyclesOf (r : MemReq) : List DevIn :=
  r.words.map fun w => ⟨⟨w, true, 0, 0, 0, 0, true, 0⟩, fun _ _ => 0⟩

/-- A read of `n` DW with a part of the first and of the last one. -/
def readOf (n : BitVec 10) : MemReq where
  write := false
  long := false
  length := n
  reqid := 0x0008#16
  tag := 5
  lastbe := 0b0111#4
  firstbe := 0b1100#4
  addr := 0x104#64
  data := []
  barHit := 0b0000001#7
  reserved := false
  traffic := 0
  attr := 0
  length_data := MemReq.length_data_read n

/-- A device that has the address in every word. -/
def addresses : SlvDevice := ⟨fun _ a => a.setWidth 16, 0⟩

theorem read_answered_two :
    (∀ p ∈ ((start default addresses).completions ([] ++ cyclesOf (readOf 2)) (quiet 20)).head?,
        (readOf 2).Answers false
          (run step (start default addresses) ([] ++ cyclesOf (readOf 2))).dev.mem p) ∧
      (2190 < (log step counts (run step (start default addresses)
          ([] ++ cyclesOf (readOf 2))) (quiet 20)).length →
        (start default addresses).completions ([] ++ cyclesOf (readOf 2)) (quiet 20) ≠ []) :=
  read_answered rfl ⟨by decide, by decide⟩ (by decide) (by decide) (by decide +kernel) rfl rfl
    (by decide +kernel)

/-- Five bytes from address 0x106 on, and the four words of the two DW. -/
example : ((start default addresses).completions (cyclesOf (readOf 2)) (quiet 20)).map
    (fun p => p.map TxWord.txData) =
      [[0x4a00#16, 2, 0, 5, 8, 0x0506#16, 0x82#16, 0x83#16, 0x84#16, 0x85#16]] := by
  decide +kernel

/-- The completion of 1023 DW ends with its fourth word. -/
theorem readOf_cut : (readOf 0x3ff#10).write = false ∧ (readOf 0x3ff#10).Enables ∧
    (run step (start default addresses) (cyclesOf (readOf 0x3ff#10)).dropLast).tlp.slv.slvStatus =
      .idle ∧
    ∃ p, ((start default addresses).completions (cyclesOf (readOf 0x3ff#10)) (quiet 20)).head? =
        some p ∧ p.length = 4 ∧
      ∀ e m, ¬ (readOf 0x3ff#10).Answers e m p := by
  have hcut : ((start default addresses).completions (cyclesOf (readOf 0x3ff#10))
      (quiet 20)).head?.map List.length = some 4 := by decide +kernel
  obtain ⟨p, hp, hlen⟩ := Option.map_eq_some_iff.1 hcut
  refine ⟨rfl, ⟨by decide, by decide⟩, by decide +kernel, p, hp, hlen, fun e m hans => ?_⟩
  have hsize : 4 = 6 + 2 * 1023 := hlen.symm.trans hans.size
  omega

end DevSide

end IpNuma
