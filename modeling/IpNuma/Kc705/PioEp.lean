import IpNuma.Kc705.SnoopBus
import IpNuma.Kc705.TxPorts

/-!
# `PIO_EP`: who answers a request

The receive engine, the snoop beside it, and the transmit side wired together.  A request that the
receive engine accepts is completed by the transmit engine, whatever BAR it hits; the line that
would keep the TLPs of BAR2 from it is a comment in the source.  So a read that the snoop forwards
to the other node is completed here too, unless the engine cannot accept it.

* `PioEp.accepts` and `PioEp.completes` are the requests and the completions of a cycle;
* `completion_owned`: a completion has the ID and the tag of a request that was accepted;
* `oneHandler_of_apart`: when no request that can be accepted has those of a forwarded read, no
  completion has them.
-/

namespace IpNuma

open Clocked

/-- What the engines need of a request. -/
structure Request where
  len : BitVec 10
  rid : BitVec 16
  tag : BitVec 8
  be : BitVec 8
  deriving DecidableEq, Inhabited

namespace RxBeat

variable (b : RxBeat)

/-- `m_axis_rx_tdata[30:24]`. -/
def fmtType : BitVec 7 := b.tdata.extractLsb' 24 7

/-- The request in a first beat. -/
def request : Request where
  len := b.tdata.extractLsb' 0 10
  rid := b.tdata.extractLsb' 48 16
  tag := b.tdata.extractLsb' 40 8
  be := b.tdata.extractLsb' 32 8

/-- A memory read. -/
def IsRead : Prop := b.fmtType = PioRx.memRd32FmtType ∨ b.fmtType = PioRx.memRd64FmtType

/-- A request that is to be completed, if `PIO_RX_RST_STATE` takes it. -/
def Acceptable : Prop :=
  b.IsRead ∧ b.request.len ≠ 0 ∨
    (b.fmtType = PioRx.ioRd32FmtType ∨ b.fmtType = PioRx.ioWr32FmtType) ∧ b.request.len = 1

instance : Decidable b.IsRead := by
  unfold IsRead
  infer_instance

instance : Decidable b.Acceptable := by
  unfold Acceptable
  infer_instance

end RxBeat

/-- A completion, as its two beats are sent. -/
structure Completion where
  first : BitVec 64
  second : BitVec 64
  tkeep : BitVec 8
  deriving DecidableEq, Inhabited

namespace Completion

variable (c : Completion)

def len : BitVec 10 := c.first.extractLsb' 0 10

def byteCount : BitVec 12 := c.first.extractLsb' 32 12

def rid : BitVec 16 := c.second.extractLsb' 16 16

def tag : BitVec 8 := c.second.extractLsb' 8 8

/-- The number of data words behind the header. -/
def payload : ℕ := if c.tkeep.getLsbD 4 then 1 else 0

end Completion

namespace PioRx

/-- The request that is accepted at an edge. -/
def accepts (e : PioRx) (b : RxBeat) (tvalid : Bool) : List Request :=
  if e.state = .rst ∧ e.sop tvalid = true ∧ b.Acceptable then [b.request] else []

/-- The fields that are on the way to the transmit engine. -/
def latched (e : PioRx) : Request := ⟨e.reqLen, e.reqRid, e.reqTag, e.reqBe⟩

end PioRx

namespace PioTx

/-- The completion whose second beat is loaded at an edge. -/
def completes (p : PioTx) (tready : Bool) (i : PioTxIn) : List Completion :=
  if p.state = .qw1 ∧ tready = true then
    [⟨p.axis.tdata, p.secondBeat i, if p.reqComplWdQ then 0xff#8 else 0x0f#8⟩]
  else []

end PioTx

/-- The endpoint. -/
structure PioEp where
  bus : RxBus
  tx : TxPorts

/-- What the endpoint samples at an edge of `clk`: the choices of the source of TLPs, the core's
`tready`, the word read from the memory, and what the network side shows. -/
structure PioEpIn where
  offer : Bool
  junk : RxBeat
  mem0Paddr : BitVec 36
  tready : Bool
  rdData : BitVec 32
  completerId : BitVec 16
  tlpFrameEnd : Bool
  tlp1 : BitVec 64
  tlp2 : BitVec 64
  tlp3 : BitVec 64
  deriving DecidableEq, Inhabited

namespace PioEp

/-- The inputs of the receive side; the memory is never busy. -/
def busIn (s : PioEp) (i : PioEpIn) : RxBusIn :=
  ⟨i.offer, i.junk, i.mem0Paddr, ⟨s.tx.pio.complDone, false⟩⟩

/-- The request as the transmit engine sees it. -/
def cplIn (s : PioEp) (i : PioEpIn) : PioTxIn where
  reqCompl := s.bus.eng.reqCompl
  reqComplWd := s.bus.eng.reqComplWd
  reqTc := s.bus.eng.reqTc
  reqTd := s.bus.eng.reqTd
  reqEp := s.bus.eng.reqEp
  reqAttr := s.bus.eng.reqAttr
  reqLen := s.bus.eng.reqLen
  reqRid := s.bus.eng.reqRid
  reqTag := s.bus.eng.reqTag
  reqBe := s.bus.eng.reqBe
  reqAddr := s.bus.eng.reqAddr
  rdData := i.rdData
  completerId := i.completerId

/-- One edge of `clk`. -/
def step (s : PioEp) (i : PioEpIn) : PioEp where
  bus := s.bus.step (s.busIn i)
  tx := s.tx.step ⟨i.tready, s.cplIn i, i.tlpFrameEnd, i.tlp1, i.tlp2, i.tlp3⟩

/-- After reset, with the TLPs `ts` to come. -/
def start (r : Snoop) (x : TxPorts) (ts : List RxTlp) : PioEp := ⟨RxBus.start r ts, x.reset⟩

/-- The requests that are accepted. -/
def accepts (s : PioEp) (i : PioEpIn) : List Request :=
  s.bus.eng.accepts (s.bus.beat (s.busIn i)) (s.bus.tvalid (s.busIn i))

/-- The completions that are sent. -/
def completes (s : PioEp) (i : PioEpIn) : List Completion :=
  s.tx.pio.completes (s.tx.mux.tready1 i.tready) (s.cplIn i)

end PioEp

/-! ### Only first beats are accepted -/

namespace RxBus

/-- Where the bus is in the sequence: `in_packet_q` tells. -/
inductive At (ts : List RxTlp) (s : RxBus) : Prop
  | between (rest : List RxTlp) : s.eng.inPacketQ = false → rest ⊆ ts → s.todo = beatsOf rest →
      At ts s
  | inside (t : RxTlp) (done bs : List RxBeat) (rest : List RxTlp) : s.eng.inPacketQ = true →
      rest ⊆ ts → t.beats = done ++ bs → bs ≠ [] → s.todo = bs ++ beatsOf rest → At ts s

variable {ts : List RxTlp} {s : RxBus} {i : RxBusIn}

theorem At.first (h : At ts s) (hs : s.eng.sop (s.tvalid i) = true) :
    ∃ t ∈ ts, s.beat i = t.first := by
  unfold PioRx.sop at hs
  rw [Bool.and_eq_true, Bool.not_eq_true'] at hs
  obtain ⟨hin, hv⟩ := hs
  cases h with
  | between rest _ hsub htodo =>
    cases rest with
    | nil => simp [tvalid, htodo, beatsOf] at hv
    | cons t rest =>
      have htodo' : s.todo = t.first :: (t.rest ++ beatsOf rest) := htodo
      exact ⟨t, hsub List.mem_cons_self, beat_of_tvalid hv htodo'⟩
  | inside t done bs rest hin' => exact absurd (hin.symm.trans hin') Bool.false_ne_true

/-- A cycle in which nothing is transferred. -/
theorem inPacketNext_of_stall (h : (s.tvalid i && s.eng.tready) = false) :
    (s.step i).eng.inPacketQ = s.eng.inPacketQ ∧ (s.step i).todo = s.todo := by
  refine ⟨?_, by simp [step, h]⟩
  unfold step PioRx.step PioRx.inPacketNext PioRx.sop
  simp only
  rw [h, Bool.false_and, if_neg Bool.false_ne_true, Bool.and_assoc, h, Bool.and_false,
    if_neg Bool.false_ne_true]

theorem At.step (h : At ts s) (i : RxBusIn) : At ts (s.step i) := by
  by_cases hx : (s.tvalid i && s.eng.tready) = true
  · obtain ⟨hv, hr⟩ := Bool.and_eq_true_iff.1 hx
    cases h with
    | between rest hin hsub htodo =>
      cases rest with
      | nil => simp [tvalid, htodo, beatsOf] at hv
      | cons t rest =>
        have htodo' : s.todo = t.first :: (t.rest ++ beatsOf rest) := htodo
        have hbeat := beat_of_tvalid hv htodo'
        refine .inside t [t.first] t.rest rest ?_ (fun u hu => hsub (List.mem_cons_of_mem _ hu))
          rfl t.rest_ne_nil ?_
        · simp [RxBus.step, PioRx.inPacketNext, PioRx.sop, hv, hr, hin, hbeat, t.first_tlast]
        · simp [RxBus.step, hv, hr, htodo']
    | inside t done bs rest hin hsub hbeats hne htodo =>
      obtain ⟨b, bs, rfl⟩ := List.exists_cons_of_ne_nil hne
      have hbeat := beat_of_tvalid hv htodo
      by_cases hb : b.tlast = true
      · obtain rfl := (t.tlast_iff hbeats).1 hb
        refine .between rest ?_ hsub ?_
        · simp [RxBus.step, PioRx.inPacketNext, hv, hr, hbeat, hb]
        · simp [RxBus.step, hv, hr, htodo]
      · have hbs : bs ≠ [] := fun hnil => hb ((t.tlast_iff hbeats).2 hnil)
        refine .inside t (done ++ [b]) bs rest ?_ hsub (by simp [hbeats]) hbs ?_
        · simp [RxBus.step, PioRx.inPacketNext, PioRx.sop, hin, hbeat, hb]
        · simp [RxBus.step, hv, hr, htodo]
  · obtain ⟨hin, htodo⟩ := inPacketNext_of_stall (Bool.eq_false_of_not_eq_true hx)
    cases h with
    | between rest hin' hsub htodo' => exact .between rest (hin.trans hin') hsub (htodo.trans htodo')
    | inside t done bs rest hin' hsub hbeats hne htodo' =>
      exact .inside t done bs rest (hin.trans hin') hsub hbeats hne (htodo.trans htodo')

theorem at_start (r : Snoop) (ts : List RxTlp) : At ts (start r ts) :=
  .between ts rfl (List.Subset.refl ts) rfl

end RxBus

/-! ### What the engines do at an edge -/

namespace PioRx

/-- The engine waits for the address of a request. -/
def Reading (e : PioRx) : Prop :=
  e.state = .memRd32Dw1Dw2 ∨ e.state = .memRd64Dw1Dw2 ∨ e.state = .ioWrDw1Dw2

variable {e : PioRx} {b : RxBeat} {v : Bool} {i : PioRxIn}

theorem not_reading (h1 : e.state ≠ .memRd32Dw1Dw2) (h2 : e.state ≠ .memRd64Dw1Dw2)
    (h3 : e.state ≠ .ioWrDw1Dw2) : ¬ e.Reading := by
  rintro (h | h | h)
  · exact h1 h
  · exact h2 h
  · exact h3 h

/-- `PIO_RX_RST_STATE` with a request that it takes. -/
theorem header_of_acceptable (e : PioRx) (h : b.Acceptable) :
    (e.header b).Reading ∧ (e.header b).latched = b.request := by
  have hne : memRd64FmtType ≠ memRd32FmtType ∧ memRd64FmtType ≠ memWr32FmtType ∧
      ioRd32FmtType ≠ memRd32FmtType ∧ ioRd32FmtType ≠ memWr32FmtType ∧
      ioRd32FmtType ≠ memRd64FmtType ∧ ioRd32FmtType ≠ memWr64FmtType ∧
      ioWr32FmtType ≠ memRd32FmtType ∧ ioWr32FmtType ≠ memWr32FmtType ∧
      ioWr32FmtType ≠ memRd64FmtType ∧ ioWr32FmtType ≠ memWr64FmtType ∧
      ioWr32FmtType ≠ ioRd32FmtType := by decide
  obtain ⟨h1, h2, h3, h4, h5, h6, h7, h8, h9, h10, h11⟩ := hne
  unfold RxBeat.Acceptable RxBeat.IsRead RxBeat.fmtType RxBeat.request at h
  unfold header Reading
  simp only at h ⊢
  generalize b.tdata.extractLsb' 24 7 = fmtType at h
  obtain ⟨rfl | rfl, hl⟩ | ⟨rfl | rfl, hl⟩ := h
  · rw [if_pos rfl, if_pos hl]
    exact ⟨.inl rfl, rfl⟩
  · rw [if_neg h1, if_neg h2, if_pos rfl, if_pos hl]
    exact ⟨.inr (.inl rfl), rfl⟩
  · rw [if_neg h3, if_neg h4, if_neg h5, if_neg h6, if_pos rfl, if_pos hl]
    exact ⟨.inl rfl, rfl⟩
  · rw [if_neg h7, if_neg h8, if_neg h9, if_neg h10, if_neg h11, if_pos rfl, if_pos hl]
    exact ⟨.inr (.inr rfl), rfl⟩

/-- `PIO_RX_RST_STATE` with another TLP. -/
theorem header_of_not_acceptable (e : PioRx) (h : ¬ b.Acceptable) :
    ¬ (e.header b).Reading ∧ (e.header b).latched.rid = e.latched.rid ∧
      (e.header b).latched.tag = e.latched.tag := by
  unfold RxBeat.Acceptable RxBeat.IsRead RxBeat.fmtType RxBeat.request at h
  unfold header Reading
  simp only at h ⊢
  split_ifs <;> simp_all [latched]

theorem header_reqCompl (e : PioRx) (b : RxBeat) :
    (e.header b).reqCompl = e.reqCompl ∧ (e.header b).reqComplWd = e.reqComplWd := by
  unfold header
  simp only
  split_ifs <;> exact ⟨rfl, rfl⟩

/-- An edge that accepts a request. -/
theorem step_of_accepts {q : Request} (h : q ∈ e.accepts b v) :
    b.Acceptable ∧ e.state = .rst ∧ q = b.request ∧ (e.step b v i).Reading ∧
      (e.step b v i).latched = q ∧ (e.step b v i).reqCompl = false := by
  unfold accepts at h
  split_ifs at h with hacc
  · obtain ⟨hrst, hsop, hb⟩ := hacc
    obtain rfl := List.mem_singleton.1 h
    refine ⟨hb, hrst, rfl, ?_⟩
    unfold step advance
    rw [hrst]
    simp only
    rw [if_pos hsop]
    obtain ⟨hread, hlat⟩ := header_of_acceptable { e with
      wrEn := false, reqCompl := false, tready := true, reqComplWd := true } hb
    exact ⟨hread, hlat, (header_reqCompl _ b).1⟩
  · cases h

/-- An edge that accepts none. -/
theorem step_of_accepts_nil (h : e.accepts b v = []) :
    (e.step b v i).latched.rid = e.latched.rid ∧ (e.step b v i).latched.tag = e.latched.tag ∧
      ((e.step b v i).Reading → e.Reading) ∧ ((e.step b v i).reqCompl = true → e.Reading) := by
  unfold step advance
  cases he : e.state with
  | rst =>
    simp only
    by_cases hs : e.sop v = true
    · have hb : ¬ b.Acceptable := by
        intro hb
        unfold accepts at h
        rw [if_pos ⟨he, hs, hb⟩] at h
        cases h
      rw [if_pos hs]
      obtain ⟨hread, hrid, htag⟩ := header_of_not_acceptable { e with
        wrEn := false, reqCompl := false, tready := true, reqComplWd := true } hb
      refine ⟨hrid, htag, fun hr => absurd hr hread, fun hc => ?_⟩
      rw [(header_reqCompl _ b).1] at hc
      cases hc
    · rw [if_neg hs]
      exact ⟨rfl, rfl, fun hr => absurd hr (not_reading (by simp) (by simp) (by simp)),
        fun hc => absurd hc Bool.false_ne_true⟩
  | memRd32Dw1Dw2 => cases v <;> exact ⟨rfl, rfl, fun _ => .inl he, fun _ => .inl he⟩
  | memRd64Dw1Dw2 => cases v <;> exact ⟨rfl, rfl, fun _ => .inr (.inl he), fun _ => .inr (.inl he)⟩
  | ioWrDw1Dw2 => cases v <;> exact ⟨rfl, rfl, fun _ => .inr (.inr he), fun _ => .inr (.inr he)⟩
  | memWr32Dw1Dw2 | memWr64Dw1Dw2 | memWr64Dw3 =>
    cases v <;> exact ⟨rfl, rfl, fun hr => absurd hr (not_reading (by simp) (by simp) (by simp)),
      fun hc => absurd hc Bool.false_ne_true⟩
  | wait =>
    simp only
    cases e.waitOver i <;> exact ⟨rfl, rfl,
      fun hr => absurd hr (not_reading (by simp) (by simp) (by simp)),
      fun hc => absurd hc Bool.false_ne_true⟩

end PioRx

namespace PioTx

/-- The engine has nothing to complete. -/
structure Quiet (p : PioTx) : Prop where
  state : p.state = .rst
  complBusy : p.complBusy = false
  reqComplQ : p.reqComplQ = false

theorem quiet_reset : reset.Quiet := ⟨rfl, rfl, rfl⟩

theorem Quiet.step {p : PioTx} {i : PioTxIn} (h : p.Quiet) (hreq : i.reqCompl = false)
    (ack tready : Bool) : (p.step ack tready i).Quiet := by
  obtain ⟨hs, hb, hq⟩ := h
  unfold PioTx.step
  simp only [hs]
  rw [hb, if_neg Bool.false_ne_true]
  exact ⟨rfl, by simp [hq], hreq⟩

theorem Quiet.completes {p : PioTx} (h : p.Quiet) (tready : Bool) (i : PioTxIn) :
    p.completes tready i = [] := by
  unfold PioTx.completes
  rw [h.state, if_neg (by rintro ⟨hs, -⟩; cases hs)]

theorem secondBeat_ids (p : PioTx) (i : PioTxIn) :
    (p.secondBeat i).extractLsb' 16 16 = i.reqRid ∧ (p.secondBeat i).extractLsb' 8 8 = i.reqTag := by
  unfold secondBeat
  constructor
  · apply BitVec.eq_of_getLsbD_eq
    intro k hk
    rw [BitVec.getLsbD_extractLsb', BitVec.getLsbD_append, if_neg (by omega), BitVec.getLsbD_append,
      if_neg (by omega), BitVec.getLsbD_append, if_neg (by omega), BitVec.getLsbD_append,
      if_pos (by omega), show 16 + k - 7 - 1 - 8 = k by omega]
    simp [hk]
  · apply BitVec.eq_of_getLsbD_eq
    intro k hk
    rw [BitVec.getLsbD_extractLsb', BitVec.getLsbD_append, if_neg (by omega), BitVec.getLsbD_append,
      if_neg (by omega), BitVec.getLsbD_append, if_pos (by omega), show 8 + k - 7 - 1 = k by omega]
    simp [hk]

theorem mem_completes {p : PioTx} {tready : Bool} {i : PioTxIn} {c : Completion}
    (h : c ∈ p.completes tready i) : (p.state = .qw1 ∧ tready = true) ∧
      c = ⟨p.axis.tdata, p.secondBeat i, if p.reqComplWdQ then 0xff#8 else 0x0f#8⟩ := by
  unfold PioTx.completes at h
  by_cases hq : p.state = .qw1 ∧ tready = true
  · rw [if_pos hq] at h
    exact ⟨hq, List.mem_singleton.1 h⟩
  · rw [if_neg hq] at h
    cases h

theorem rid_of_completes {p : PioTx} {tready : Bool} {i : PioTxIn} {c : Completion}
    (h : c ∈ p.completes tready i) : c.rid = i.reqRid ∧ c.tag = i.reqTag := by
  obtain ⟨-, rfl⟩ := mem_completes h
  exact secondBeat_ids p i

end PioTx

/-! ### Whose completions are sent -/

namespace PioEp

variable {ts : List RxTlp} {s : PioEp} {i : PioEpIn}

/-- A TLP of the sequence that can be accepted has the ID and the tag. -/
def Source (ts : List RxTlp) (rid : BitVec 16) (tag : BitVec 8) : Prop :=
  ∃ t ∈ ts, t.first.Acceptable ∧ t.first.request.rid = rid ∧ t.first.request.tag = tag

/-- As long as there is something to complete, the fields are those of a request. -/
structure Owned (ts : List RxTlp) (s : PioEp) : Prop where
  place : s.bus.At ts
  fields : (s.tx.pio.Quiet ∧ s.bus.eng.reqCompl = false ∧ ¬ s.bus.eng.Reading) ∨
    Source ts s.bus.eng.latched.rid s.bus.eng.latched.tag

theorem owned_start (r : Snoop) (x : TxPorts) (ts : List RxTlp) : Owned ts (start r x ts) where
  place := RxBus.at_start r ts
  fields := .inl ⟨PioTx.quiet_reset, rfl, by rintro (h | h | h) <;> cases h⟩

theorem owned_step (h : Owned ts s) (i : PioEpIn) : Owned ts (s.step i) where
  place := h.place.step _
  fields := by
    show (_ ∧ (s.bus.eng.step (s.bus.beat (s.busIn i)) (s.bus.tvalid (s.busIn i))
      (s.busIn i).pio).reqCompl = false ∧ ¬ (s.bus.eng.step _ _ _).Reading) ∨
        Source ts (s.bus.eng.step _ _ _).latched.rid (s.bus.eng.step _ _ _).latched.tag
    cases hacc : s.bus.eng.accepts (s.bus.beat (s.busIn i)) (s.bus.tvalid (s.busIn i)) with
    | cons q qs =>
      have hq : q ∈ s.bus.eng.accepts (s.bus.beat (s.busIn i)) (s.bus.tvalid (s.busIn i)) := by
        rw [hacc]
        exact List.mem_cons_self
      obtain ⟨hb, -, rfl, -, hlat, -⟩ := PioRx.step_of_accepts (i := (s.busIn i).pio) hq
      have hsop : s.bus.eng.sop (s.bus.tvalid (s.busIn i)) = true := by
        unfold PioRx.accepts at hq
        split_ifs at hq with hcond
        · exact hcond.2.1
        · cases hq
      obtain ⟨t, ht, hfirst⟩ := h.place.first hsop
      rw [hlat, hfirst]
      rw [hfirst] at hb
      exact .inr ⟨t, ht, hb, rfl, rfl⟩
    | nil =>
      obtain ⟨hrid, htag, hread, hcompl⟩ := PioRx.step_of_accepts_nil (i := (s.busIn i).pio) hacc
      rw [hrid, htag]
      refine h.fields.imp_left ?_
      rintro ⟨hq, hc, hr⟩
      exact ⟨hq.step hc _ _, Bool.eq_false_of_not_eq_true fun h => hr (hcompl h), fun h => hr (hread h)⟩

/-- **A completion** has the ID and the tag of a request of the sequence that can be accepted. -/
theorem completion_owned (r : Snoop) (x : TxPorts) (ts : List RxTlp) (is : List PioEpIn) :
    ∀ c ∈ log step completes (start r x ts) is, Source ts c.rid c.tag := by
  refine (log_induction (P := fun _ _ => True)
    (J := fun s (l : List Completion) => Owned ts s ∧ ∀ c ∈ l, Source ts c.rid c.tag)
    ⟨owned_start r x ts, fun c hc => by cases hc⟩ ?_ is (along_true _ is)).2
  rintro s i l ⟨hs, hl⟩ -
  refine ⟨owned_step hs i, fun c hc => ?_⟩
  rcases List.mem_append.1 hc with hc | hc
  · exact hl c hc
  · rcases hs.fields with ⟨hq, -, -⟩ | hsrc
    · unfold completes at hc
      rw [hq.completes] at hc
      cases hc
    · obtain ⟨hrid, htag⟩ := PioTx.rid_of_completes hc
      rw [hrid, htag]
      exact hsrc

end PioEp

/-! ### Forwarded reads -/

/-- A memory read that the snoop forwards. -/
def RxTlp.ForwardedRead (t : RxTlp) : Prop := t.HitsBar2 ∧ t.first.IsRead

instance : DecidablePred RxTlp.ForwardedRead := fun t =>
  inferInstanceAs (Decidable (t.HitsBar2 ∧ t.first.IsRead))

/-- No completion has the ID and the tag of a read that is forwarded. -/
def OneHandler (ts : List RxTlp) (cs : List Completion) : Prop :=
  ∀ t ∈ ts, t.ForwardedRead → ∀ c ∈ cs,
    ¬ (c.rid = t.first.request.rid ∧ c.tag = t.first.request.tag)

/-- No request that can be accepted has them; a forwarded read itself cannot be accepted. -/
def Apart (ts : List RxTlp) : Prop :=
  ∀ t ∈ ts, t.ForwardedRead → ∀ u ∈ ts, u.first.Acceptable →
    ¬ (u.first.request.rid = t.first.request.rid ∧ u.first.request.tag = t.first.request.tag)

instance (ts : List RxTlp) : Decidable (Apart ts) := by
  unfold Apart
  infer_instance

open PioEp

/-- **One handler per request**, in every run of a sequence of TLPs that are apart. -/
theorem oneHandler_of_apart (r : Snoop) (x : TxPorts) (ts : List RxTlp) (h : Apart ts)
    (is : List PioEpIn) : OneHandler ts (log PioEp.step PioEp.completes (PioEp.start r x ts) is) := by
  intro t ht hfwd c hc hids
  obtain ⟨u, hu, hacc, hrid, htag⟩ := completion_owned r x ts is c hc
  exact h t ht hfwd u hu hacc ⟨hrid.trans hids.1, htag.trans hids.2⟩

/-- A memory read of BAR2 with a length field. -/
def bar2Read (len : BitVec 10) : RxTlp :=
  .ofWords (0x1234010F#32 ++ 0#22 ++ len) [] 0x00000000FD6C0100#64 0x0f#8 0x10#22

/-- One cycle for the engine to raise `tready`, then `n` in which TLPs are offered and the core is
ready. -/
def steadily (n : ℕ) : List PioEpIn :=
  default :: List.replicate n { (default : PioEpIn) with offer := true, tready := true }

theorem oneHandler_long :
    OneHandler [bar2Read 0] (log PioEp.step PioEp.completes
      (PioEp.start default default [bar2Read 0]) (steadily 20)) :=
  oneHandler_of_apart default default [bar2Read 0] (by decide) (steadily 20)

/-- A read of one word is completed here, besides being forwarded. -/
theorem bar2Read_completed :
    (bar2Read 1).ForwardedRead ∧
      (log PioEp.step PioEp.completes (PioEp.start default default [bar2Read 1])
        (steadily 20)).map (fun c : Completion => (c.rid, c.tag)) = [(0x1234#16, 0x01#8)] ∧
      ¬ OneHandler [bar2Read 1] (log PioEp.step PioEp.completes
        (PioEp.start default default [bar2Read 1]) (steadily 20)) := by
  have hids : (log PioEp.step PioEp.completes (PioEp.start default default [bar2Read 1])
      (steadily 20)).map (fun c : Completion => (c.rid, c.tag)) = [(0x1234#16, 0x01#8)] := by decide +kernel
  refine ⟨by decide, hids, fun h => ?_⟩
  obtain ⟨c, hc, hpair⟩ := List.map_eq_singleton_iff.1 hids
  obtain ⟨hrid, htag⟩ := Prod.mk.inj hpair
  exact h (bar2Read 1) (by simp) (by decide) c (by rw [hc]; simp) ⟨hrid, htag⟩

end IpNuma
