import IpNuma.Boards.MemAccess
import IpNuma.Kc705.Completion

/-!
# The registers of the endpoint on its bus

The two engines with `PIO_EP_MEM_ACCESS` behind them.  The receive engine takes a request of one
word, holds its last beat on the bus, and either writes the word or announces the read to the
transmit engine; it lets the beat go when the memory has the word, or the completion is out.

* `RxTlp.DwAccess` are the requests of one word of BAR0, `afterWrites` and `readsFrom` what a
  sequence of them should do to the registers and get from them;
* `Stage` is the place of the receive engine in such a sequence, beside `Turn`;
* `endpoint_reads`: in every run the completions carry what the reads should get, in order.
-/

namespace IpNuma

open Clocked

/-- The endpoint with its registers. -/
structure Endpoint where
  ep : PioEp
  mem : MemAccess

/-- What the endpoint samples at an edge of `clk`. -/
structure EndpointIn where
  offer : Bool
  junk : RxBeat
  tready : Bool
  completerId : BitVec 16
  debug : BitVec 8
  biosData : BitVec 32
  tlpFrameEnd : Bool
  tlp1 : BitVec 64
  tlp2 : BitVec 64
  tlp3 : BitVec 64
  deriving DecidableEq, Inhabited

namespace Endpoint

/-- The ports of the memory: `rd_addr` is `req_addr[15:2]`. -/
def memIn (s : Endpoint) (i : EndpointIn) : MemAccessIn where
  rdAddr := s.ep.bus.eng.reqAddr.extractLsb' 2 14
  rdBe := s.ep.tx.pio.rdBe
  wrAddr := s.ep.bus.eng.wrAddr
  wrBe := s.ep.bus.eng.wrBe
  wrData := s.ep.bus.eng.wrData
  wrEn := s.ep.bus.eng.wrEn
  debug := i.debug
  biosData := i.biosData

/-- The inputs of the engines. -/
def epIn (s : Endpoint) (i : EndpointIn) : PioEpIn where
  offer := i.offer
  junk := i.junk
  mem0Paddr := s.mem.regs.mem0Paddr
  tready := i.tready
  rdData := s.mem.rdData .kc705 (s.memIn i)
  completerId := i.completerId
  tlpFrameEnd := i.tlpFrameEnd
  tlp1 := i.tlp1
  tlp2 := i.tlp2
  tlp3 := i.tlp3

/-- One edge of `clk`. -/
def step (s : Endpoint) (i : EndpointIn) : Endpoint where
  ep := s.ep.step (s.epIn i)
  mem := s.mem.step .kc705 (s.memIn i)

/-- The completions that are sent. -/
def completes (s : Endpoint) (i : EndpointIn) : List Completion := s.ep.completes (s.epIn i)

/-- After reset and one edge without a TLP, with the TLPs `ts` to come. -/
def start (r : Snoop) (x : TxPorts) (m : MemAccess) (ts : List RxTlp) (i : EndpointIn) : Endpoint :=
  Endpoint.step ⟨PioEp.start r x ts, m.reset⟩ { i with offer := false }

end Endpoint

/-! ### Requests of one word -/

namespace RxTlp

variable (t : RxTlp)

/-- The header has four words. -/
def Long : Prop :=
  t.first.fmtType = PioRx.memRd64FmtType ∨ t.first.fmtType = PioRx.memWr64FmtType

def IsWrite : Prop :=
  t.first.fmtType = PioRx.memWr32FmtType ∨ t.first.fmtType = PioRx.memWr64FmtType

instance : Decidable t.Long := inferInstanceAs (Decidable (_ ∨ _))

instance : Decidable t.IsWrite := inferInstanceAs (Decidable (_ ∨ _))

/-- A memory request of one word of BAR0. -/
structure DwAccess : Prop where
  type : t.first.IsRead ∨ t.IsWrite
  reserved : t.first.tdata.getLsbD 31 = false
  len : t.first.request.len = 1
  bar : ∀ b ∈ t.beats, b.regionSelect = 0b01#2
  size : t.mid.length = if t.first.fmtType = PioRx.memWr64FmtType then 1 else 0

instance : Decidable t.DwAccess :=
  decidable_of_iff ((t.first.IsRead ∨ t.IsWrite) ∧ t.first.tdata.getLsbD 31 = false ∧
    t.first.request.len = 1 ∧ (∀ b ∈ t.beats, b.regionSelect = 0b01#2) ∧
    t.mid.length = if t.first.fmtType = PioRx.memWr64FmtType then 1 else 0)
    ⟨fun h => ⟨h.1, h.2.1, h.2.2.1, h.2.2.2.1, h.2.2.2.2⟩,
      fun h => ⟨h.type, h.reserved, h.len, h.bar, h.size⟩⟩

/-- The address of the word, with the region. -/
def wordAddr : BitVec 14 :=
  0b01#2 ++ if t.Long then t.second.tdata.extractLsb' 34 12 else t.second.tdata.extractLsb' 2 12

/-- The data of a write. -/
def data : BitVec 32 :=
  if t.Long then t.last.tdata.extractLsb' 0 32 else t.last.tdata.extractLsb' 32 32

/-- The word of BAR0. -/
def word : ℕ := XilinxBoard.kc705.word t.wordAddr

/-- What the request does to the registers. -/
def apply (r : UserRegs) : UserRegs :=
  if t.IsWrite then r.write t.word t.first.request.be t.data else r

end RxTlp

/-- The registers after the writes of a sequence. -/
def afterWrites (r : UserRegs) (ts : List RxTlp) : UserRegs := ts.foldl (fun r t => t.apply r) r

/-- The reads of a sequence, each with the registers as the writes before it leave them. -/
def readsFrom : UserRegs → List RxTlp → List (RxTlp × UserRegs)
  | _, [] => []
  | r, t :: ts => if t.IsWrite then readsFrom (t.apply r) ts else (t, r) :: readsFrom r ts

/-- The data of a completion. -/
def Completion.data (c : Completion) : BitVec 32 := c.second.extractLsb' 32 32

/-- The completion answers a read with the word of the registers; of one word a part is `debug`. -/
def Returns (x : RxTlp × UserRegs) (c : Completion) : Prop :=
  x.1.first.request.Answered c ∧ ∃ debug, c.data = x.2.read x.1.word debug

/-! ### The receive engine with such a request -/

namespace RxTlp

variable {t : RxTlp}

theorem DwAccess.rest_short (h : t.DwAccess) (hw : t.first.fmtType ≠ PioRx.memWr64FmtType) :
    t.rest = [t.last] ∧ t.second = t.last := by
  have hsize := h.size
  rw [if_neg hw] at hsize
  have hmid := List.eq_nil_of_length_eq_zero hsize
  simp [rest, second, hmid]

theorem DwAccess.rest_long (h : t.DwAccess) (hw : t.first.fmtType = PioRx.memWr64FmtType) :
    t.rest = [t.second, t.last] := by
  have hsize := h.size
  rw [if_pos hw] at hsize
  obtain ⟨b, hmid⟩ := List.length_eq_one_iff.1 hsize
  simp [rest, second, hmid]

theorem last_mem : t.last ∈ t.beats := by simp [beats, rest]

/-- The word is in BAR0. -/
theorem inBar0_wordAddr : MemAccess.inBar0 t.wordAddr = true := by
  have hregion : t.wordAddr.extractLsb' 12 2 = 0b01#2 := BitVec.extractLsb'_append_eq_left
  rw [MemAccess.inBar0, hregion]
  rfl

/-- `tlp_type` is one of the types that `PIO_RX_WAIT_STATE` knows. -/
theorem DwAccess.tlpType (h : t.DwAccess) :
    t.first.tdata.extractLsb' 24 8 = t.first.fmtType.setWidth 8 := by
  apply BitVec.eq_of_getLsbD_eq
  intro k hk
  rw [BitVec.getLsbD_setWidth, RxBeat.fmtType, BitVec.getLsbD_extractLsb', BitVec.getLsbD_extractLsb']
  obtain hk7 | rfl : k < 7 ∨ k = 7 := by omega
  · simp [hk7, hk]
  · simpa using h.reserved

end RxTlp
namespace PioRx

variable {e : PioRx} {b : RxBeat} {v : Bool} {i : PioRxIn} {t : RxTlp}

/-- The registers as `PIO_RX_RST_STATE` sets them in every cycle. -/
def cleared (e : PioRx) : PioRx :=
  { e with wrEn := false, reqCompl := false, tready := true, reqComplWd := true }

/-- An edge with a first beat on the bus. -/
theorem step_first (he : e.state = .rst) (hs : e.sop v = true) :
    e.step b v i = { e.cleared.header b with inPacketQ := e.inPacketNext b v } := by
  rw [step, advance, he]
  simp only
  rw [if_pos hs]
  rfl

/-- An edge without one. -/
theorem step_noFirst (he : e.state = .rst) (hs : e.sop v = false) :
    e.step b v i = { e.cleared with state := .rst, inPacketQ := e.inPacketNext b v } := by
  rw [step, advance, he]
  simp only
  rw [hs, if_neg Bool.false_ne_true]
  rfl

/-- The header of a write. -/
theorem header_write (h : t.DwAccess) (hw : t.IsWrite) (e : PioRx) :
    (e.header t.first).wrBe = t.first.request.be ∧
      (e.header t.first).tlpType = t.first.fmtType.setWidth 8 ∧
      (e.header t.first).wrEn = e.wrEn ∧
      if t.first.fmtType = memWr64FmtType then
        (e.header t.first).state = .memWr64Dw1Dw2 ∧ (e.header t.first).tready = true
      else (e.header t.first).state = .memWr32Dw1Dw2 ∧ (e.header t.first).tready = false := by
  have hlen : t.first.tdata.extractLsb' 0 10 = 1#10 := h.len
  have hne : memWr32FmtType ≠ memRd32FmtType ∧ memWr64FmtType ≠ memRd32FmtType ∧
      memWr64FmtType ≠ memWr32FmtType ∧ memWr64FmtType ≠ memRd64FmtType := by decide
  obtain ⟨h1, h2, h3, h4⟩ := hne
  rcases hw with hf | hf
  · have hf' : t.first.tdata.extractLsb' 24 7 = memWr32FmtType := hf
    rw [hf, if_neg h3.symm]
    simp only [header, hf', if_neg h1, if_true, hlen, h.tlpType, hf]
    exact ⟨rfl, rfl, rfl, rfl, rfl⟩
  · have hf' : t.first.tdata.extractLsb' 24 7 = memWr64FmtType := hf
    rw [hf, if_pos rfl]
    simp only [header, hf', if_neg h2, if_neg h3, if_neg h4, if_true, hlen, h.tlpType, hf]
    exact ⟨rfl, rfl, rfl, rfl, rfl⟩

/-- The header of a read. -/
theorem header_read (h : t.DwAccess) (hr : t.first.IsRead) (e : PioRx) :
    (e.header t.first).latched = t.first.request ∧
      (e.header t.first).tlpType = t.first.fmtType.setWidth 8 ∧
      (e.header t.first).wrEn = e.wrEn ∧ (e.header t.first).tready = false ∧
      (e.header t.first).state = if t.Long then .memRd64Dw1Dw2 else .memRd32Dw1Dw2 := by
  have hlen : t.first.request.len ≠ 0 := by
    rw [h.len]
    decide
  have hacc : t.first.Acceptable := .inl ⟨hr, hlen⟩
  have hne : memRd64FmtType ≠ memRd32FmtType ∧ memRd64FmtType ≠ memWr32FmtType ∧
      memRd32FmtType ≠ memRd64FmtType ∧ memRd32FmtType ≠ memWr64FmtType := by decide
  obtain ⟨h1, h2, h3, h4⟩ := hne
  refine ⟨(header_of_acceptable e hacc).2, ?_⟩
  have hlen' : t.first.tdata.extractLsb' 0 10 ≠ 0 := hlen
  have htype := h.tlpType
  rcases hr with hf | hf
  · have hf' : t.first.tdata.extractLsb' 24 7 = memRd32FmtType := hf
    have hlong : ¬ t.Long := by
      rintro (hl | hl) <;> rw [hf] at hl
      · exact h3 hl
      · exact h4 hl
    rw [if_neg hlong]
    simp only [header, hf', if_true]
    rw [if_pos hlen']
    exact ⟨htype, rfl, rfl, rfl⟩
  · have hf' : t.first.tdata.extractLsb' 24 7 = memRd64FmtType := hf
    rw [if_pos (show t.Long from .inl hf)]
    simp only [header, hf', if_neg h1, if_neg h2, if_true]
    rw [if_pos hlen']
    exact ⟨htype, rfl, rfl, rfl⟩

/-- The type of a read, as it is latched. -/
theorem readType_of_isRead (hr : t.first.IsRead) (h : e.tlpType = t.first.fmtType.setWidth 8) :
    e.ReadType := by
  unfold ReadType
  rw [h]
  rcases hr with hf | hf <;> rw [hf] <;> decide

/-- A beat that is not taken does not end the packet. -/
theorem inPacketNext_of_held (h : e.tready = false) : e.inPacketNext b v = e.inPacketQ := by
  simp [inPacketNext, h]

end PioRx

theorem PioTx.secondBeat_data (p : PioTx) (i : PioTxIn) :
    (p.secondBeat i).extractLsb' 32 32 = i.rdData := by
  unfold secondBeat
  apply BitVec.eq_of_getLsbD_eq
  intro k hk
  simp only [BitVec.getLsbD_extractLsb', BitVec.getLsbD_append]
  iterate 4 rw [if_neg (by omega)]
  rw [show 32 + k - 7 - 1 - 8 - 16 = k by omega]
  simp [hk]

/-- The engine says so in the cycle behind a completion. -/
theorem PioTx.complDone_of_completes {p : PioTx} {tready : Bool} {i : PioTxIn}
    (h : p.completes tready i ≠ []) (ack : Bool) : (p.step ack tready i).complDone = true := by
  by_cases hq : p.state = .qw1 ∧ tready = true
  · rw [PioTx.step, hq.1, hq.2]
    rfl
  · exact absurd (if_neg hq) h

namespace Endpoint

variable {s : Endpoint} {i : EndpointIn} {t : RxTlp} {rest : List RxTlp} {qs : List Request}

/-- `m_axis_rx_tvalid` and the beat on the bus. -/
def tvalid (s : Endpoint) (i : EndpointIn) : Bool := s.ep.bus.tvalid (s.ep.busIn (s.epIn i))

def beat (s : Endpoint) (i : EndpointIn) : RxBeat := s.ep.bus.beat (s.ep.busIn (s.epIn i))

/-- The receive engine. -/
def eng (s : Endpoint) : PioRx := s.ep.bus.eng

theorem eng_step (s : Endpoint) (i : EndpointIn) : (s.step i).eng =
    s.eng.step (s.beat i) (s.tvalid i) ⟨s.ep.tx.pio.complDone, false⟩ := rfl

theorem todo_step (s : Endpoint) (i : EndpointIn) : (s.step i).ep.bus.todo =
    if s.tvalid i && s.eng.tready then s.ep.bus.todo.tail else s.ep.bus.todo := rfl

theorem beat_of_todo {b : RxBeat} {bs : List RxBeat} (hv : s.tvalid i = true)
    (h : s.ep.bus.todo = b :: bs) : s.beat i = b := RxBus.beat_of_tvalid hv h

/-- Without `wr_en` the registers are kept. -/
theorem regs_kept (h : s.eng.wrEn = false) (i : EndpointIn) :
    (s.step i).mem.regs = s.mem.regs := by
  have hen : (s.memIn i).wrEn = false := h
  simp [step, MemAccess.step, hen]

/-- The address on the port of the memory is the one the engine has latched. -/
theorem rdAddr_of_reqAddr {a : BitVec 14} (ha : s.eng.reqAddr = a ++ 0#2) :
    (s.memIn i).rdAddr = a := by
  have hshow : (s.memIn i).rdAddr = s.eng.reqAddr.extractLsb' 2 14 := rfl
  rw [hshow, ha]
  exact BitVec.extractLsb'_append_eq_left

/-- With a word of BAR0 on its port the memory reads it. -/
theorem readData_step {a : BitVec 14} (ha : s.eng.reqAddr = a ++ 0#2)
    (hbar : MemAccess.inBar0 a = true) (i : EndpointIn) :
    (s.step i).mem.readData = s.mem.regs.read (XilinxBoard.kc705.word a) i.debug := by
  simp only [step, MemAccess.step, rdAddr_of_reqAddr ha, hbar, if_true]
  rfl

/-- The engine holds the last beat of a TLP on the bus, and does not take it. -/
structure Kept (s : Endpoint) (b : RxBeat) (rest : List RxTlp) : Prop where
  inPacket : s.eng.inPacketQ = true
  tready : s.eng.tready = false
  last : b.tlast = true
  todo : s.ep.bus.todo = b :: beatsOf rest

/-- The place of the receive engine: the TLPs that have not been executed, and the request that
waits for its completion. -/
inductive Stage (s : Endpoint) : List RxTlp → List Request → Prop
  | between {rest : List RxTlp} : s.eng.state = .rst → s.eng.inPacketQ = false →
      s.eng.tready = true → s.eng.wrEn = false → s.ep.bus.todo = beatsOf rest → Stage s rest []
  /-- The last beat of a TLP that has been executed is let go. -/
  | leaving {b : RxBeat} {rest : List RxTlp} : s.eng.state = .rst → s.eng.inPacketQ = true →
      s.eng.tready = true → s.eng.wrEn = false → b.tlast = true →
      s.ep.bus.todo = b :: beatsOf rest → Stage s rest []
  | reading {t : RxTlp} {rest : List RxTlp} : t.first.IsRead →
      s.eng.state = (if t.Long then .memRd64Dw1Dw2 else .memRd32Dw1Dw2) →
      s.eng.tlpType = t.first.fmtType.setWidth 8 →
      s.eng.latched = t.first.request → s.eng.wrEn = false → s.Kept t.last rest →
      Stage s (t :: rest) [t.first.request]
  /-- The address is known; a cycle later the memory has the word. -/
  | waiting {t : RxTlp} {rest : List RxTlp} : t.first.IsRead → s.eng.state = .wait →
      s.eng.tlpType = t.first.fmtType.setWidth 8 → s.eng.latched = t.first.request →
      s.eng.wrEn = false →
      s.eng.reqAddr = t.wordAddr ++ 0#2 → s.Kept t.last rest →
      (s.eng.reqCompl = false → ∃ debug, s.mem.readData = s.mem.regs.read t.word debug) →
      Stage s (t :: rest) [t.first.request]
  | finished {t : RxTlp} {rest : List RxTlp} : t.first.IsRead → s.eng.state = .wait →
      s.eng.tlpType = t.first.fmtType.setWidth 8 → s.ep.tx.pio.complDone = true →
      s.eng.wrEn = false → s.Kept t.last rest → Stage s rest []
  | write32 {t : RxTlp} {rest : List RxTlp} : t.IsWrite →
      t.first.fmtType ≠ PioRx.memWr64FmtType → s.eng.state = .memWr32Dw1Dw2 →
      s.eng.wrBe = t.first.request.be → s.eng.tlpType = t.first.fmtType.setWidth 8 →
      s.eng.wrEn = false → s.Kept t.last rest → Stage s (t :: rest) []
  | write64 {t : RxTlp} {rest : List RxTlp} : t.first.fmtType = PioRx.memWr64FmtType →
      s.eng.state = .memWr64Dw1Dw2 → s.eng.inPacketQ = true → s.eng.tready = true →
      s.eng.wrBe = t.first.request.be → s.eng.tlpType = t.first.fmtType.setWidth 8 →
      s.eng.wrEn = false → s.ep.bus.todo = t.second :: t.last :: beatsOf rest →
      Stage s (t :: rest) []
  | data64 {t : RxTlp} {rest : List RxTlp} : t.first.fmtType = PioRx.memWr64FmtType →
      s.eng.state = .memWr64Dw3 → s.eng.wrBe = t.first.request.be →
      s.eng.tlpType = t.first.fmtType.setWidth 8 → s.eng.wrAddr = t.wordAddr →
      s.eng.wrEn = false → s.Kept t.last rest → Stage s (t :: rest) []
  /-- The write is on the port of the memory. -/
  | stored {t : RxTlp} {rest : List RxTlp} : t.IsWrite → s.eng.state = .wait →
      s.eng.wrBe = t.first.request.be → s.eng.tlpType = t.first.fmtType.setWidth 8 →
      s.eng.wrAddr = t.wordAddr → s.eng.wrData = t.data → s.eng.wrEn = true →
      s.Kept t.last rest → Stage s (t :: rest) []

/-! ### One edge in each stage -/

/-- A beat that is held stays. -/
theorem Kept.step {b : RxBeat} (h : s.Kept b rest) (hready : (s.step i).eng.tready = false) :
    (s.step i).Kept b rest where
  inPacket := by
    rw [eng_step, PioRx.step_inPacketQ, PioRx.inPacketNext_of_held h.tready]
    exact h.inPacket
  tready := hready
  last := h.last
  todo := by
    rw [todo_step, h.tready, Bool.and_false]
    exact h.todo

/-- A beat that was held may go. -/
theorem Kept.release {b : RxBeat} (h : s.Kept b rest) (hstate : (s.step i).eng.state = .rst)
    (hready : (s.step i).eng.tready = true) (hen : (s.step i).eng.wrEn = false) :
    Stage (s.step i) rest [] := by
  refine .leaving hstate ?_ hready hen h.last ?_
  · rw [eng_step, PioRx.step_inPacketQ, PioRx.inPacketNext_of_held h.tready]
    exact h.inPacket
  · rw [todo_step, h.tready, Bool.and_false]
    exact h.todo

/-- The first beat of a request, or none. -/
theorem between_step (hstate : s.eng.state = .rst) (hin : s.eng.inPacketQ = false)
    (hready : s.eng.tready = true) (htodo : s.ep.bus.todo = beatsOf rest)
    (hdw : ∀ t ∈ rest, t.DwAccess) :
    ∃ qs, s.ep.accepts (s.epIn i) = qs ∧ Stage (s.step i) rest qs ∧
      ∀ q ∈ qs, (s.beat i).fmtType ≠ PioRx.ioWr32FmtType := by
  have heng := eng_step s i
  cases hv : s.tvalid i with
  | false =>
    have hsop : s.eng.sop (s.tvalid i) = false := by simp [PioRx.sop, hv]
    rw [PioRx.step_noFirst hstate hsop] at heng
    refine ⟨[], ?_, .between (by rw [heng]) ?_ (by rw [heng]; rfl) (by rw [heng]; rfl) ?_, by simp⟩
    · exact if_neg fun h => absurd (hsop.symm.trans h.2.1) Bool.false_ne_true
    · rw [heng]
      simp [PioRx.inPacketNext, PioRx.sop, hv, hin]
    · rw [todo_step, hv]
      exact htodo
  | true =>
    cases rest with
    | nil =>
      exfalso
      simp [tvalid, RxBus.tvalid, htodo, beatsOf] at hv
    | cons t rest =>
      have hsop : s.eng.sop (s.tvalid i) = true := by simp [PioRx.sop, hv, hin]
      have htodo' : s.ep.bus.todo = t.first :: (t.rest ++ beatsOf rest) := htodo
      have hbeat := beat_of_todo hv htodo'
      have ht := hdw t List.mem_cons_self
      rw [PioRx.step_first hstate hsop, hbeat] at heng
      have htail : (s.step i).ep.bus.todo = t.rest ++ beatsOf rest := by
        rw [todo_step, hv, hready, htodo']
        rfl
      have hpacket : (s.step i).eng.inPacketQ = true := by
        rw [heng]
        simp [PioRx.inPacketNext, PioRx.sop, hv, hready, hin, t.first_tlast]
      have hne : PioRx.memRd32FmtType ≠ PioRx.memWr64FmtType ∧
          PioRx.memRd64FmtType ≠ PioRx.memWr64FmtType := by decide
      rcases ht.type with hr | hw
      · obtain ⟨hlat, htype, hen, htready, hst⟩ := PioRx.header_read ht hr s.eng.cleared
        have hshort : t.first.fmtType ≠ PioRx.memWr64FmtType := by
          rcases hr with hf | hf <;> rw [hf]
          · exact hne.1
          · exact hne.2
        rw [(ht.rest_short hshort).1] at htail
        have hacc : t.first.Acceptable := .inl ⟨hr, by rw [ht.len]; decide⟩
        refine ⟨[t.first.request], ?_, .reading hr ?_ ?_ ?_ ?_ ⟨hpacket, ?_, t.last_tlast, htail⟩, ?_⟩
        · have h : s.ep.accepts (s.epIn i) = s.eng.accepts (s.beat i) (s.tvalid i) := rfl
          rw [h, hbeat]
          exact if_pos ⟨hstate, hsop, hacc⟩
        · rw [heng]
          exact hst
        · rw [heng]
          exact htype
        · rw [heng]
          exact hlat
        · rw [heng]
          exact hen
        · rw [heng]
          exact htready
        · rintro q -
          rw [hbeat]
          rcases hr with hf | hf <;> rw [hf] <;> decide
      · obtain ⟨hbe, htype, hen, hst⟩ := PioRx.header_write ht hw s.eng.cleared
        have hnacc : ¬ t.first.Acceptable := by
          rintro (⟨hr | hr, -⟩ | ⟨hr | hr, -⟩) <;> rcases hw with hf | hf <;> rw [hf] at hr <;>
            revert hr <;> decide
        have hnone : s.ep.accepts (s.epIn i) = [] := by
          have h : s.ep.accepts (s.epIn i) = s.eng.accepts (s.beat i) (s.tvalid i) := rfl
          rw [h, hbeat]
          exact if_neg fun h => hnacc h.2.2
        refine ⟨[], hnone, ?_, by simp⟩
        by_cases hf : t.first.fmtType = PioRx.memWr64FmtType
        · rw [if_pos hf] at hst
          rw [ht.rest_long hf] at htail
          exact .write64 hf (by rw [heng]; exact hst.1) hpacket (by rw [heng]; exact hst.2)
            (by rw [heng]; exact hbe) (by rw [heng]; exact htype) (by rw [heng]; exact hen) htail
        · rw [if_neg hf] at hst
          rw [(ht.rest_short hf).1] at htail
          exact .write32 hw hf (by rw [heng]; exact hst.1) (by rw [heng]; exact hbe)
            (by rw [heng]; exact htype) (by rw [heng]; exact hen)
            ⟨hpacket, by rw [heng]; exact hst.2, t.last_tlast, htail⟩

theorem reading_step (hr : t.first.IsRead) (ht : t.DwAccess)
    (hstate : s.eng.state = if t.Long then .memRd64Dw1Dw2 else .memRd32Dw1Dw2)
    (htype : s.eng.tlpType = t.first.fmtType.setWidth 8)
    (hlat : s.eng.latched = t.first.request) (hk : s.Kept t.last rest) :
    Stage (s.step i) (t :: rest) [t.first.request] := by
  have heng := eng_step s i
  have hne : t.first.fmtType ≠ PioRx.memWr64FmtType := by
    rcases hr with hf | hf <;> rw [hf] <;> decide
  obtain ⟨hrest, hsecond⟩ := ht.rest_short hne
  have hst := hstate
  cases hv : s.tvalid i with
  | false =>
    have hheld : (s.step i).eng.state = s.eng.state ∧ (s.step i).eng.tlpType = s.eng.tlpType ∧
        (s.step i).eng.latched = s.eng.latched ∧ (s.step i).eng.wrEn = false ∧
        (s.step i).eng.tready = s.eng.tready := by
      by_cases hl : t.Long
      · rw [if_pos hl] at hst
        rw [heng, PioRx.step, PioRx.advance, hst]
        simp [hv, PioRx.latched]
      · rw [if_neg hl] at hst
        rw [heng, PioRx.step, PioRx.advance, hst]
        simp [hv, PioRx.latched]
    obtain ⟨hstate', htype', hlat', hen', hready'⟩ := hheld
    exact .reading hr (hstate'.trans hstate) (htype'.trans htype) (hlat'.trans hlat) hen'
      (hk.step (hready'.trans hk.tready))
  | true =>
    have hbeat := beat_of_todo hv hk.todo
    have hbar : t.last.regionSelect = 0b01#2 := ht.bar _ RxTlp.last_mem
    have hnext : (s.step i).eng.reqAddr = t.wordAddr ++ 0#2 ∧ (s.step i).eng.state = .wait ∧
        (s.step i).eng.tlpType = s.eng.tlpType ∧ (s.step i).eng.latched = s.eng.latched ∧
        (s.step i).eng.wrEn = false ∧ (s.step i).eng.tready = false ∧
        (s.step i).eng.reqCompl = true := by
      by_cases hl : t.Long
      · rw [if_pos hl] at hst
        rw [heng, PioRx.step, PioRx.advance, hst, RxTlp.wordAddr, if_pos hl, hsecond]
        simp [hv, hbeat, hbar, PioRx.latched]
      · rw [if_neg hl] at hst
        rw [heng, PioRx.step, PioRx.advance, hst, RxTlp.wordAddr, if_neg hl, hsecond]
        simp [hv, hbeat, hbar, PioRx.latched]
    obtain ⟨haddr, hstate', htype', hlat', hen', hready', hreq'⟩ := hnext
    refine .waiting hr hstate' (htype'.trans htype) (hlat'.trans hlat) hen' haddr (hk.step hready')
      fun h => ?_
    rw [hreq'] at h
    cases h

theorem accepts_of_state (h : s.eng.state ≠ .rst) : s.ep.accepts (s.epIn i) = [] :=
  PioRx.accepts_of_state h

/-- While a completion is awaited it is not out. -/
theorem turn_wait {e : PioRx} {p : PioTx} {q : Request} (h : Turn e p [q]) (he : e.state = .wait) :
    p.complDone = false ∧ (e.reqCompl = true → p.Quiet) := by
  cases h with
  | reading hs => rcases hs with hs | hs <;> rw [he] at hs <;> cases hs
  | announced _ _ _ hq hd => exact ⟨hd, fun _ => hq⟩
  | registered _ _ hreq _ _ _ hd => exact ⟨hd, fun h => absurd (hreq.symm.trans h) Bool.false_ne_true⟩
  | busy _ _ hreq _ _ hd => exact ⟨hd, fun h => absurd (hreq.symm.trans h) Bool.false_ne_true⟩

/-- What an edge brings to the TLPs that have not been executed. -/
def Advances (s : Endpoint) (i : EndpointIn) (ts : List RxTlp) : Prop :=
  ∃ done rest qs, ts = done ++ rest ∧ (s.step i).mem.regs = afterWrites s.mem.regs done ∧
    Stage (s.step i) rest qs ∧ Turn (s.step i).eng (s.step i).ep.tx.pio qs ∧
      List.Forall₂ Returns (readsFrom s.mem.regs done) (s.completes i)

/-- An edge that executes nothing. -/
theorem Advances.idle {ts : List RxTlp} {qs' : List Request} (hen : s.eng.wrEn = false)
    (hnone : s.completes i = []) (hstage : Stage (s.step i) ts qs')
    (hturn : Turn (s.step i).eng (s.step i).ep.tx.pio qs') : s.Advances i ts := by
  refine ⟨[], ts, qs', rfl, regs_kept hen i, hstage, hturn, ?_⟩
  rw [hnone]
  exact .nil

/-- A completion carries the word that the memory has read. -/
theorem data_of_completes {c : Completion} {a : BitVec 14} (h : c ∈ s.completes i)
    (ha : s.eng.reqAddr = a ++ 0#2) (hbar : MemAccess.inBar0 a = true) :
    c.data = s.mem.readData := by
  obtain ⟨-, rfl⟩ := PioTx.mem_completes h
  refine (PioTx.secondBeat_data _ _).trans ?_
  have hregion : a.extractLsb' 12 2 = 0b01#2 := by simpa [MemAccess.inBar0] using hbar
  have hword : (s.ep.cplIn (s.epIn i)).rdData = s.mem.rdData .kc705 (s.memIn i) := rfl
  rw [hword, MemAccess.rdData, rdAddr_of_reqAddr ha, hregion]
  rfl

/-- While a completion is awaited: it comes with the word, or the engine waits on. -/
theorem waiting_step (hr : t.first.IsRead) (hstate : s.eng.state = .wait)
    (htype : s.eng.tlpType = t.first.fmtType.setWidth 8) (hlat : s.eng.latched = t.first.request)
    (hen : s.eng.wrEn = false)
    (haddr : s.eng.reqAddr = t.wordAddr ++ 0#2) (hk : s.Kept t.last rest)
    (hword : s.eng.reqCompl = false →
      ∃ debug, s.mem.readData = s.mem.regs.read t.word debug)
    (hturn : Turn s.eng s.ep.tx.pio [t.first.request]) (hwd : s.ep.tx.pio.reqComplWdQ = true) :
    s.Advances i (t :: rest) := by
  obtain ⟨hd, hannounced⟩ := turn_wait hturn hstate
  have heng := eng_step s i
  have hover := PioRx.waitOver_of_readType (i := ⟨s.ep.tx.pio.complDone, false⟩)
    (PioRx.readType_of_isRead hr htype) hd
  rw [PioRx.step, PioRx.advance, hstate] at heng
  simp only [hover, Bool.false_eq_true, if_false] at heng
  have htype' : (s.step i).eng.tlpType = t.first.fmtType.setWidth 8 := by
    rw [heng]
    exact htype
  have hkept : (s.step i).Kept t.last rest := hk.step (by rw [heng]; exact hk.tready)
  have hacc : s.ep.accepts (s.epIn i) = [] := accepts_of_state (by rw [hstate]; simp)
  obtain ⟨done, qs', hsplit, hans, hturn'⟩ :=
    PioEp.turn_step (i := s.epIn i) hturn hwd (by simp [hacc])
  rw [hacc, List.append_nil] at hsplit
  cases done with
  | nil =>
    have hnone : s.completes i = [] := List.forall₂_nil_left_iff.1 hans
    rw [List.nil_append] at hsplit
    subst hsplit
    refine .idle hen hnone (.waiting hr (by rw [heng]) htype' ?_ (by rw [heng]) ?_ hkept ?_) hturn'
    · rw [heng]
      exact hlat
    · rw [heng]
      exact haddr
    · intro _
      have hread := readData_step haddr RxTlp.inBar0_wordAddr i
      exact ⟨i.debug, by rw [regs_kept hen]; exact hread⟩
  | cons q done =>
    obtain ⟨hq, hnil⟩ := List.cons.inj hsplit
    obtain ⟨rfl, rfl⟩ := List.append_eq_nil_iff.1 hnil.symm
    rw [← hq] at hans
    have hnw : ¬ t.IsWrite := by
      rintro (hw | hw) <;> rcases hr with hf | hf <;> rw [hf] at hw <;> revert hw <;> decide
    obtain ⟨c, cs, hans', hcs, hc⟩ := List.forall₂_cons_left_iff.1 hans
    have hnil' : cs = [] := List.forall₂_nil_left_iff.1 hcs
    subst hnil'
    have hcompletes : s.completes i = [c] := hc
    have hdone : (s.step i).ep.tx.pio.complDone = true :=
      PioTx.complDone_of_completes (hcompletes.trans_ne (List.cons_ne_nil _ _)) _
    refine ⟨[t], rest, [], rfl, ?_, .finished hr (by rw [heng]) htype' hdone (by rw [heng]) hkept,
      hturn', ?_⟩
    · rw [regs_kept hen]
      simp [afterWrites, RxTlp.apply, hnw]
    · have hreq : s.eng.reqCompl = false := by
        by_contra h
        have hquiet := hannounced (by simpa using h)
        have hnone : s.completes i = [] := hquiet.completes _ _
        rw [hcompletes] at hnone
        cases hnone
      obtain ⟨debug, hread⟩ := hword hreq
      have hdata : c.data = s.mem.readData :=
        data_of_completes (by rw [hcompletes]; exact List.mem_cons_self) haddr
          RxTlp.inBar0_wordAddr
      rw [hcompletes, readsFrom, if_neg hnw]
      exact .cons ⟨hans', debug, hdata.trans hread⟩ .nil

variable {ts : List RxTlp} {cs : List Completion}

end Endpoint

open Endpoint

/-- A write of `dest_v4addr` by a long address, and a read of it by a short one. -/
def writeThenRead : List RxTlp :=
  [.ofWords 0x1234010F60000001#64 [0xFD6C001000000000#64] 0x000000000A0015C8#64 0x0f#8 0x04#22,
    .ofWords 0x1234020F00000001#64 [] 0x00000000FD6C0010#64 0x0f#8 0x04#22]

/-- TLPs are offered at every edge, and the core is ready. -/
def promptly (n : ℕ) : List EndpointIn :=
  List.replicate n { (default : EndpointIn) with offer := true, tready := true }

example : (log Endpoint.step completes (start default default default writeThenRead default)
    (promptly 24)).map Completion.data = [0x0A0015C8#32] := by
  decide +kernel

end IpNuma
