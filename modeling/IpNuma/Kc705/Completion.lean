import IpNuma.Kc705.PioEp

/-!
# Completions and what they claim

A request keeps the receive engine in `PIO_RX_WAIT_STATE` until its completion is sent, so the
completions answer the accepted requests one by one.  The length field is that of the request, but
there is one word of data; the byte count is taken from the first byte enables alone.

* `Turn` is the place of a request between the two engines;
* `served`: the completions sent are those of the requests accepted, in order;
* `completions_fit_iff`: they are as long as they claim exactly when all lengths are one.

A write to I/O space does not wait for its completion.  The endpoint has no BAR there, so the core
delivers none.
-/

namespace IpNuma

open Clocked

namespace Request

variable (q : Request)

/-- `first_be` and `last_be`. -/
def firstBe : BitVec 4 := q.be.extractLsb' 0 4

def lastBe : BitVec 4 := q.be.extractLsb' 4 4

/-- The lowest enabled byte of a word. -/
def lowest (be : BitVec 4) : ℕ :=
  if be.getLsbD 0 then 0 else if be.getLsbD 1 then 1 else if be.getLsbD 2 then 2 else 3

/-- The highest enabled byte of a word. -/
def highest (be : BitVec 4) : ℕ :=
  if be.getLsbD 3 then 3 else if be.getLsbD 2 then 2 else if be.getLsbD 1 then 1 else 0

/-- The number of bytes from the first to the last enabled one.  A read with no byte enabled, of
one word, counts one. -/
def byteSpan : ℕ :=
  if q.len = 1 then
    if q.firstBe = 0 then 1 else highest q.firstBe - lowest q.firstBe + 1
  else 4 * q.len.toNat - lowest q.firstBe - (3 - highest q.lastBe)

/-- The completion answers the request. -/
def Serves (c : Completion) : Prop := c.rid = q.rid ∧ c.tag = q.tag ∧ c.len = q.len

/-- It has as many words as it says, and its byte count is that of the request. -/
def Fits (c : Completion) : Prop := c.payload = c.len.toNat ∧ c.byteCount.toNat = q.byteSpan

end Request

namespace PioRx

variable {e : PioRx} {b : RxBeat} {v : Bool} {i : PioRxIn}

/-- The latched request is one that waits for its completion. -/
def ReadType (e : PioRx) : Prop :=
  e.tlpType.extractLsb' 0 7 = memRd32FmtType ∨ e.tlpType.extractLsb' 0 7 = memRd64FmtType ∨
    e.tlpType.extractLsb' 0 7 = ioRd32FmtType

/-- A read in `PIO_RX_RST_STATE`. -/
theorem header_of_read (e : PioRx) (h : b.Acceptable) (hio : b.fmtType ≠ ioWr32FmtType) :
    ((e.header b).state = .memRd32Dw1Dw2 ∨ (e.header b).state = .memRd64Dw1Dw2) ∧
      (e.header b).ReadType := by
  have hne : memRd64FmtType ≠ memRd32FmtType ∧ memRd64FmtType ≠ memWr32FmtType ∧
      ioRd32FmtType ≠ memRd32FmtType ∧ ioRd32FmtType ≠ memWr32FmtType ∧
      ioRd32FmtType ≠ memRd64FmtType ∧ ioRd32FmtType ≠ memWr64FmtType := by decide
  obtain ⟨h1, h2, h3, h4, h5, h6⟩ := hne
  have htype : (b.tdata.extractLsb' 24 8).extractLsb' 0 7 = b.tdata.extractLsb' 24 7 := by
    apply BitVec.eq_of_getLsbD_eq
    intro k hk
    simp [hk, show k < 8 by omega]
  unfold RxBeat.Acceptable RxBeat.IsRead RxBeat.fmtType RxBeat.request at h
  unfold RxBeat.fmtType at hio
  unfold header ReadType
  simp only at h ⊢
  generalize b.tdata.extractLsb' 24 7 = fmtType at h hio htype
  obtain ⟨rfl | rfl, hl⟩ | ⟨rfl | rfl, hl⟩ := h
  · rw [if_pos rfl, if_pos hl]
    exact ⟨.inl rfl, .inl htype⟩
  · rw [if_neg h1, if_neg h2, if_pos rfl, if_pos hl]
    exact ⟨.inr rfl, .inr (.inl htype)⟩
  · rw [if_neg h3, if_neg h4, if_neg h5, if_neg h6, if_pos rfl, if_pos hl]
    exact ⟨.inl rfl, .inr (.inr htype)⟩
  · exact absurd rfl hio

/-- A read waits for its completion. -/
theorem waitOver_of_readType (h : e.ReadType) (hi : i.complDone = false) :
    e.waitOver i = false := by
  have hne : ∀ f : BitVec 7, e.tlpType.extractLsb' 0 7 ≠ f → (e.tlpType == f.setWidth 8) = false := by
    intro f hf
    rw [beq_eq_false_iff_ne]
    intro heq
    apply hf
    rw [heq]
    apply BitVec.eq_of_getLsbD_eq
    intro k hk
    simp [hk, show k < 8 by omega]
  have h32 : e.tlpType.extractLsb' 0 7 ≠ memWr32FmtType := by
    rcases h with h | h | h <;> rw [h] <;> decide
  have h64 : e.tlpType.extractLsb' 0 7 ≠ memWr64FmtType := by
    rcases h with h | h | h <;> rw [h] <;> decide
  have hio : e.tlpType.extractLsb' 0 7 ≠ ioWr32FmtType := by
    rcases h with h | h | h <;> rw [h] <;> decide
  unfold waitOver
  simp only
  rw [hne _ h32, hne _ h64, hne _ hio, hi]
  simp

end PioRx

/-- `byte_count` is the span of one word. -/
theorem byteCount_toNat (be : BitVec 4) : (PioTx.byteCount be).toNat =
    if be = 0 then 1 else Request.highest be - Request.lowest be + 1 := by
  revert be
  decide

namespace PioRx

variable {e : PioRx} {b : RxBeat} {v : Bool} {i : PioRxIn}

/-- A read is latched. -/
theorem step_of_read {q : Request} (h : q ∈ e.accepts b v) (hio : b.fmtType ≠ ioWr32FmtType) :
    ((e.step b v i).state = .memRd32Dw1Dw2 ∨ (e.step b v i).state = .memRd64Dw1Dw2) ∧
      (e.step b v i).ReadType := by
  obtain ⟨hb, hrst, -⟩ := step_of_accepts (i := i) h
  have hsop : e.sop v = true := by
    unfold accepts at h
    by_cases hc : e.state = .rst ∧ e.sop v = true ∧ b.Acceptable
    · exact hc.2.1
    · rw [if_neg hc] at h
      cases h
  unfold step advance
  rw [hrst]
  simp only
  rw [if_pos hsop]
  exact header_of_read _ hb hio

theorem accepts_of_state (h : e.state ≠ .rst) : e.accepts b v = [] :=
  if_neg fun hc => h hc.1

/-- While the address of a read is awaited. -/
theorem step_reading (h : e.state = .memRd32Dw1Dw2 ∨ e.state = .memRd64Dw1Dw2) :
    (e.step b v i).latched = e.latched ∧ (e.step b v i).tlpType = e.tlpType ∧
      (if v then (e.step b v i).state = .wait ∧ (e.step b v i).reqCompl = true
        else (e.step b v i).state = e.state ∧ (e.step b v i).reqCompl = false) := by
  unfold step advance
  rcases h with h | h <;> rw [h] <;> cases v <;> exact ⟨rfl, rfl, rfl, rfl⟩

/-- While a completion is awaited. -/
theorem step_wait (h : e.state = .wait) (hover : e.waitOver i = false) :
    (e.step b v i).state = .wait ∧ (e.step b v i).latched = e.latched ∧
      (e.step b v i).tlpType = e.tlpType ∧ (e.step b v i).reqCompl = false := by
  unfold step advance
  rw [h]
  simp only [hover]
  exact ⟨rfl, rfl, rfl, rfl⟩

/-- Only a write to I/O space is completed without data. -/
theorem step_reqComplWd (h : e.reqComplWd = true) (hio : e.state ≠ .ioWrDw1Dw2) :
    (e.step b v i).reqComplWd = true := by
  unfold step advance
  cases hs : e.state with
  | rst =>
    simp only
    by_cases hsop : e.sop v = true
    · rw [if_pos hsop]
      exact (header_reqCompl _ b).2
    · rw [if_neg hsop]
  | ioWrDw1Dw2 => exact absurd hs hio
  | memRd32Dw1Dw2 | memRd64Dw1Dw2 => cases v <;> first | exact h | rfl
  | memWr32Dw1Dw2 | memWr64Dw1Dw2 | memWr64Dw3 => cases v <;> exact h
  | wait =>
    simp only
    cases e.waitOver i <;> exact h

end PioRx

namespace PioTx

theorem firstBeat_fields (p : PioTx) (i : PioTxIn) :
    (p.firstBeat i).extractLsb' 0 10 = i.reqLen ∧
      (p.firstBeat i).extractLsb' 32 12 = byteCount p.rdBe := by
  unfold firstBeat
  constructor
  · apply BitVec.eq_of_getLsbD_eq
    intro k hk
    rw [BitVec.getLsbD_extractLsb', BitVec.getLsbD_append, if_pos (by omega), Nat.zero_add]
    simp [hk]
  · apply BitVec.eq_of_getLsbD_eq
    intro k hk
    simp only [BitVec.getLsbD_extractLsb', BitVec.getLsbD_append]
    iterate 10 rw [if_neg (by omega)]
    rw [if_pos (by omega), show 32 + k - 10 - 2 - 2 - 1 - 1 - 4 - 3 - 1 - 7 - 1 = k by omega]
    simp [hk]

/-- The engine with something to complete: it keeps at it, or it sends the second beat. -/
theorem step_busy {p : PioTx} (hb : p.complBusy = true) (ack tready : Bool) (i : PioTxIn) :
    (p.completes tready i = [] ∧ (p.step ack tready i).complBusy = true ∧
      (p.step ack tready i).complDone = false ∧
        ((p.step ack tready i).state = .qw1Temp ∨ (p.step ack tready i).state = .qw1 →
          (p.step ack tready i).axis.tdata = p.firstBeat i ∨
            (p.state = .qw1Temp ∨ p.state = .qw1) ∧
              (p.step ack tready i).axis.tdata = p.axis.tdata)) ∨
      (p.state = .qw1 ∧ tready = true ∧ (p.step ack tready i).state = .rst ∧
        (p.step ack tready i).complBusy = false) := by
  unfold PioTx.completes step
  cases hs : p.state with
  | rst =>
    refine .inl ⟨if_neg (by simp), ?_⟩
    simp only
    rw [if_pos hb, hb]
    refine ⟨rfl, rfl, fun h => ?_⟩
    split_ifs at h <;> rcases h with h | h <;> cases h
  | qw1First =>
    refine .inl ⟨if_neg (by simp), ?_⟩
    cases tready with
    | true => exact ⟨by simp [hb], rfl, fun _ => .inl rfl⟩
    | false => exact ⟨by simp [hb], rfl, fun h => by rcases h with h | h <;> cases h⟩
  | qw1Temp => exact .inl ⟨if_neg (by simp), by simp [hb], rfl, fun _ => .inr ⟨.inl rfl, rfl⟩⟩
  | qw1 =>
    cases tready with
    | true => exact .inr ⟨rfl, rfl, rfl, rfl⟩
    | false => exact .inl ⟨if_neg (by simp), by simp [hb], rfl, fun _ => .inr ⟨.inr rfl, rfl⟩⟩

/-- The registers that follow their inputs. -/
theorem step_follows (p : PioTx) (ack tready : Bool) (i : PioTxIn) :
    (p.step ack tready i).reqComplQ = i.reqCompl ∧ (p.step ack tready i).reqComplWdQ = i.reqComplWd ∧
      (p.step ack tready i).rdBe = i.reqBe.extractLsb' 0 4 := by
  unfold step
  cases p.state with
  | rst =>
    simp only
    split <;> exact ⟨rfl, rfl, rfl⟩
  | qw1Temp => exact ⟨rfl, rfl, rfl⟩
  | qw1First | qw1 => cases tready <;> exact ⟨rfl, rfl, rfl⟩

end PioTx

/-! ### Between the engines -/

/-- The request that is accepted and not completed, with its place between the two engines. -/
inductive Turn (e : PioRx) (p : PioTx) : List Request → Prop
  /-- None. -/
  | none : ¬ e.Reading → e.reqCompl = false → p.Quiet → Turn e p []
  /-- Its address is to come. -/
  | reading : (e.state = .memRd32Dw1Dw2 ∨ e.state = .memRd64Dw1Dw2) → e.ReadType →
      e.reqCompl = false → p.Quiet → Turn e p [e.latched]
  /-- It is announced to the transmit engine. -/
  | announced : e.state = .wait → e.ReadType → e.reqCompl = true → p.Quiet → p.complDone = false →
      Turn e p [e.latched]
  /-- It is registered there. -/
  | registered : e.state = .wait → e.ReadType → e.reqCompl = false → p.state = .rst →
      p.reqComplQ = true → p.complBusy = false → p.complDone = false → Turn e p [e.latched]
  /-- It is being completed. -/
  | busy : e.state = .wait → e.ReadType → e.reqCompl = false → p.reqComplQ = false →
      p.complBusy = true → p.complDone = false → p.rdBe = e.latched.firstBe →
      (p.state = .qw1Temp ∨ p.state = .qw1 → p.axis.tdata.extractLsb' 0 10 = e.latched.len ∧
        p.axis.tdata.extractLsb' 32 12 = PioTx.byteCount e.latched.firstBe) → Turn e p [e.latched]

/-- The completion answers the request, with the fields the engine gives it. -/
def Request.Answered (q : Request) (c : Completion) : Prop :=
  q.Serves c ∧ c.payload = 1 ∧ c.byteCount = PioTx.byteCount q.firstBe

namespace PioEp

variable {s : PioEp} {i : PioEpIn} {qs : List Request}

/-- The receive engine at an edge. -/
theorem step_eng (s : PioEp) (i : PioEpIn) : (s.step i).bus.eng =
    s.bus.eng.step (s.bus.beat (s.busIn i)) (s.bus.tvalid (s.busIn i)) ⟨s.tx.pio.complDone, false⟩ :=
  rfl

/-- The transmit engine at an edge. -/
theorem step_pio (s : PioEp) (i : PioEpIn) : (s.step i).tx.pio =
    s.tx.pio.step s.tx.mux.ack1 (s.tx.mux.tready1 i.tready) (s.cplIn i) := rfl

/-- While a completion is awaited nothing is accepted, and the request stays. -/
theorem wait_step (he : s.bus.eng.state = .wait) (hr : s.bus.eng.ReadType)
    (hd : s.tx.pio.complDone = false) (i : PioEpIn) :
    accepts s i = [] ∧ (s.step i).bus.eng.state = .wait ∧
      (s.step i).bus.eng.latched = s.bus.eng.latched ∧ (s.step i).bus.eng.ReadType ∧
        (s.step i).bus.eng.reqCompl = false := by
  rw [step_eng]
  obtain ⟨hs, hl, ht, hc⟩ := PioRx.step_wait (b := s.bus.beat (s.busIn i))
    (v := s.bus.tvalid (s.busIn i)) he
    (PioRx.waitOver_of_readType (i := ⟨s.tx.pio.complDone, false⟩) hr hd)
  refine ⟨PioRx.accepts_of_state (by rw [he]; simp), hs, hl, ?_, hc⟩
  unfold PioRx.ReadType
  rw [ht]
  exact hr

/-- The fields of the completion that is sent. -/
theorem answered_completes (hwd : s.tx.pio.reqComplWdQ = true)
    (hdata : s.tx.pio.axis.tdata.extractLsb' 0 10 = s.bus.eng.latched.len ∧
      s.tx.pio.axis.tdata.extractLsb' 32 12 = PioTx.byteCount s.bus.eng.latched.firstBe) :
    s.bus.eng.latched.Answered
      ⟨s.tx.pio.axis.tdata, s.tx.pio.secondBeat (s.cplIn i),
        if s.tx.pio.reqComplWdQ then 0xff#8 else 0x0f#8⟩ := by
  obtain ⟨hrid, htag⟩ := PioTx.secondBeat_ids s.tx.pio (s.cplIn i)
  have hkeep : (0xff#8).getLsbD 4 = true := by decide
  refine ⟨⟨hrid, htag, hdata.1⟩, ?_, hdata.2⟩
  rw [hwd]
  exact if_pos hkeep

/-- **One edge**: the requests waiting, with those accepted, are those completed and those still
waiting. -/
theorem turn_step (h : Turn s.bus.eng s.tx.pio qs) (hwd : s.tx.pio.reqComplWdQ = true)
    (hio : ∀ q ∈ accepts s i, (s.bus.beat (s.busIn i)).fmtType ≠ PioRx.ioWr32FmtType) :
    ∃ done qs', qs ++ accepts s i = done ++ qs' ∧
      List.Forall₂ Request.Answered done (completes s i) ∧
        Turn (s.step i).bus.eng (s.step i).tx.pio qs' := by
  cases h with
  | none hread hreq hq =>
    have hq' : (s.step i).tx.pio.Quiet := hq.step hreq _ _
    refine ⟨[], accepts s i, rfl, ?_, ?_⟩
    · unfold completes
      rw [hq.completes]
      exact .nil
    · cases hacc : accepts s i with
      | nil =>
        obtain ⟨-, -, hread', hreq'⟩ := PioRx.step_of_accepts_nil
          (i := ⟨s.tx.pio.complDone, false⟩) hacc
        exact .none (fun h => hread (hread' h))
          (Bool.eq_false_of_not_eq_true fun h => hread (hreq' h)) hq'
      | cons q rest =>
        have hmem : q ∈ accepts s i := by
          rw [hacc]
          exact List.mem_cons_self
        obtain ⟨hstate, htype⟩ := PioRx.step_of_read (i := ⟨s.tx.pio.complDone, false⟩) hmem
          (hio q hmem)
        obtain ⟨hb, hrst, hq1, -, hlat, hreq'⟩ :=
          PioRx.step_of_accepts (i := ⟨s.tx.pio.complDone, false⟩) hmem
        have hrest : rest = [] := by
          unfold accepts PioRx.accepts at hacc
          split_ifs at hacc with hc
          · exact (List.cons.inj hacc).2.symm
        rw [hrest, ← hlat]
        exact .reading hstate htype hreq' hq'
  | reading hstate htype hreq hq =>
    have hacc : accepts s i = [] := PioRx.accepts_of_state (by
      rcases hstate with h | h <;> rw [h] <;> simp)
    obtain ⟨hlat, hty, hnext⟩ := PioRx.step_reading (b := s.bus.beat (s.busIn i))
      (v := s.bus.tvalid (s.busIn i)) (i := ⟨s.tx.pio.complDone, false⟩) hstate
    rw [← step_eng] at hlat hty hnext
    have htype' : (s.step i).bus.eng.ReadType := by
      unfold PioRx.ReadType
      rw [hty]
      exact htype
    have hq' : (s.step i).tx.pio.Quiet := hq.step hreq _ _
    have hdone : (s.step i).tx.pio.complDone = false := by
      rw [step_pio]
      unfold PioTx.step
      rw [hq.state]
      simp only
      rw [hq.complBusy, if_neg Bool.false_ne_true]
    refine ⟨[], [s.bus.eng.latched], by rw [hacc]; rfl, ?_, ?_⟩
    · unfold completes
      rw [hq.completes]
      exact .nil
    · rw [← hlat]
      cases hv : s.bus.tvalid (s.busIn i) with
      | true =>
        rw [hv, if_pos rfl] at hnext
        exact .announced hnext.1 htype' hnext.2 hq' hdone
      | false =>
        rw [hv, if_neg Bool.false_ne_true] at hnext
        refine .reading ?_ htype' hnext.2 hq'
        rw [hnext.1]
        exact hstate
  | announced he hr hreq hq hd =>
    obtain ⟨hacc, he', hlat, hr', hreq'⟩ := wait_step he hr hd i
    refine ⟨[], [s.bus.eng.latched], by rw [hacc]; rfl, ?_, ?_⟩
    · unfold completes
      rw [hq.completes]
      exact .nil
    · rw [← hlat]
      have hpio : (s.step i).tx.pio.state = .rst ∧ (s.step i).tx.pio.reqComplQ = true ∧
          (s.step i).tx.pio.complBusy = false ∧ (s.step i).tx.pio.complDone = false := by
        rw [step_pio]
        unfold PioTx.step
        rw [hq.state]
        simp only
        rw [hq.complBusy, if_neg Bool.false_ne_true, hq.reqComplQ]
        exact ⟨rfl, hreq, rfl, rfl⟩
      exact .registered he' hr' hreq' hpio.1 hpio.2.1 hpio.2.2.1 hpio.2.2.2
  | registered he hr hreq hst hregq hbusy hd =>
    obtain ⟨hacc, he', hlat, hr', hreq'⟩ := wait_step he hr hd i
    refine ⟨[], [s.bus.eng.latched], by rw [hacc]; rfl, ?_, ?_⟩
    · unfold completes PioTx.completes
      rw [hst, if_neg (by simp)]
      exact .nil
    · rw [← hlat]
      have hpio : (s.step i).tx.pio.state = .rst ∧ (s.step i).tx.pio.reqComplQ = false ∧
          (s.step i).tx.pio.complBusy = true ∧ (s.step i).tx.pio.complDone = false ∧
            (s.step i).tx.pio.rdBe = s.bus.eng.latched.firstBe := by
        rw [step_pio]
        unfold PioTx.step
        rw [hst]
        simp only
        rw [hbusy, if_neg Bool.false_ne_true, hregq]
        exact ⟨rfl, hreq, rfl, rfl, rfl⟩
      refine .busy he' hr' hreq' hpio.2.1 hpio.2.2.1 hpio.2.2.2.1 ?_ fun h => ?_
      · rw [hpio.2.2.2.2, hlat]
      · rw [hpio.1] at h
        rcases h with h | h <;> cases h
  | busy he hr hreq hregq hbusy hd hbe hdata =>
    obtain ⟨hacc, he', hlat, hr', hreq'⟩ := wait_step he hr hd i
    rw [hacc, List.append_nil]
    obtain ⟨hreqQ, -, hbe'⟩ := PioTx.step_follows s.tx.pio s.tx.mux.ack1
      (s.tx.mux.tready1 i.tready) (s.cplIn i)
    obtain ⟨hlen, hcount⟩ := PioTx.firstBeat_fields s.tx.pio (s.cplIn i)
    rw [hbe] at hcount
    rcases PioTx.step_busy hbusy s.tx.mux.ack1 (s.tx.mux.tready1 i.tready) (s.cplIn i) with
      ⟨hnone, hbusy', hdone', htdata⟩ | ⟨hst, hready, hst', hbusy'⟩
    · refine ⟨[], [s.bus.eng.latched], rfl, ?_, ?_⟩
      · unfold completes
        rw [hnone]
        exact .nil
      · rw [← hlat]
        refine .busy he' hr' hreq' (hreqQ.trans hreq) hbusy' hdone' ?_ fun h => ?_
        · rw [hlat]
          exact hbe'
        · rw [hlat]
          rcases htdata h with h1 | ⟨hold, h1⟩
          · rw [step_pio, h1]
            exact ⟨hlen, hcount⟩
          · rw [step_pio, h1]
            exact hdata hold
    · refine ⟨[s.bus.eng.latched], [], rfl, ?_, ?_⟩
      · unfold completes PioTx.completes
        rw [if_pos ⟨hst, hready⟩]
        exact .cons (answered_completes hwd (hdata (.inr hst))) .nil
      · refine .none (PioRx.not_reading ?_ ?_ ?_) hreq' ⟨hst', hbusy', hreqQ.trans hreq⟩ <;>
          rw [he'] <;> simp

/-- The requests without a write to I/O space, the place of the one that waits, and what has been
answered. -/
structure Serving (ts : List RxTlp) (s : PioEp) (rs : List Request) (cs : List Completion) :
    Prop where
  place : s.bus.At ts
  wd : s.bus.eng.reqComplWd = true ∧ s.tx.pio.reqComplWdQ = true
  turn : ∃ done qs, rs = done ++ qs ∧ List.Forall₂ Request.Answered done cs ∧
    Turn s.bus.eng s.tx.pio qs

/-- A TLP that is no write to I/O space. -/
def NoIoWrite (t : RxTlp) : Prop := t.first.fmtType ≠ PioRx.ioWr32FmtType

instance : DecidablePred NoIoWrite := fun t =>
  inferInstanceAs (Decidable (t.first.fmtType ≠ PioRx.ioWr32FmtType))

variable {ts : List RxTlp} {rs : List Request} {cs : List Completion}

theorem serving_start (r : Snoop) (x : TxPorts) (ts : List RxTlp) :
    Serving ts (start r x ts) [] [] where
  place := RxBus.at_start r ts
  wd := ⟨rfl, rfl⟩
  turn := ⟨[], [], rfl, .nil, .none (PioRx.not_reading (by simp [start, RxBus.start, PioRx.reset])
    (by simp [start, RxBus.start, PioRx.reset]) (by simp [start, RxBus.start, PioRx.reset])) rfl
    PioTx.quiet_reset⟩

theorem turn_state {e : PioRx} {p : PioTx} (h : Turn e p qs) : e.state ≠ .ioWrDw1Dw2 := by
  intro he
  cases h with
  | none hread => exact hread (.inr (.inr he))
  | reading hstate => rcases hstate with h | h <;> rw [he] at h <;> cases h
  | announced hw => rw [he] at hw; cases hw
  | registered hw => rw [he] at hw; cases hw
  | busy hw => rw [he] at hw; cases hw

/-- The TLPs decide what is accepted. -/
theorem fmtType_of_accepts (hts : ∀ t ∈ ts, NoIoWrite t) (h : s.bus.At ts) :
    ∀ q ∈ accepts s i, (s.bus.beat (s.busIn i)).fmtType ≠ PioRx.ioWr32FmtType := by
  intro q hq
  have hsop : s.bus.eng.sop (s.bus.tvalid (s.busIn i)) = true := by
    unfold accepts PioRx.accepts at hq
    split_ifs at hq with hcond
    · exact hcond.2.1
    · cases hq
  obtain ⟨t, ht, hfirst⟩ := h.first hsop
  rw [hfirst]
  exact hts t ht

theorem serving_step (hts : ∀ t ∈ ts, NoIoWrite t) (h : Serving ts s rs cs) (i : PioEpIn) :
    Serving ts (s.step i) (rs ++ accepts s i) (cs ++ completes s i) := by
  obtain ⟨done, qs, rfl, hdone, hturn⟩ := h.turn
  obtain ⟨done', qs', hsplit, hans, hturn'⟩ :=
    turn_step hturn h.wd.2 (fmtType_of_accepts hts h.place)
  refine ⟨h.place.step _, ⟨PioRx.step_reqComplWd h.wd.1 (turn_state hturn), ?_⟩,
    done ++ done', qs', ?_, List.rel_append hdone hans, hturn'⟩
  · exact (PioTx.step_follows _ _ _ _).2.1.trans h.wd.1
  · rw [List.append_assoc, hsplit, List.append_assoc]

end PioEp

open PioEp

/-- At most one request waits. -/
theorem Turn.length_le {e : PioRx} {p : PioTx} {qs : List Request} (h : Turn e p qs) :
    qs.length ≤ 1 := by
  cases h <;> simp

/-- **The completions answer the requests accepted**, in order, and at most one is outstanding. -/
theorem served (r : Snoop) (x : TxPorts) {ts : List RxTlp} (hts : ∀ t ∈ ts, NoIoWrite t)
    (is : List PioEpIn) :
    ∃ done qs, log PioEp.step accepts (PioEp.start r x ts) is = done ++ qs ∧ qs.length ≤ 1 ∧
      List.Forall₂ Request.Answered done (log PioEp.step completes (PioEp.start r x ts) is) := by
  have h := log_induction₂ (P := fun _ _ => True)
    (J := fun s (rs : List Request) (cs : List Completion) => Serving ts s rs cs)
    (serving_start r x ts) (fun s i rs cs h _ => serving_step hts h i) is (along_true _ is)
  obtain ⟨done, qs, hsplit, hans, hturn⟩ := h.turn
  exact ⟨done, qs, hsplit, hturn.length_le, hans⟩

/-- An answer fits a request of one word and no other. -/
theorem Request.Answered.fits_iff {q : Request} {c : Completion} (h : q.Answered c) :
    q.Fits c ↔ q.len = 1 := by
  obtain ⟨⟨-, -, hlen⟩, hpay, hcount⟩ := h
  unfold Request.Fits
  rw [hpay, hlen, hcount, byteCount_toNat]
  constructor
  · rintro ⟨h1, -⟩
    exact BitVec.eq_of_toNat_eq h1.symm
  · intro h1
    unfold Request.byteSpan
    rw [h1, if_pos rfl]
    exact ⟨rfl, rfl⟩

theorem forall₂_fits_iff {qs : List Request} {cs : List Completion}
    (h : List.Forall₂ Request.Answered qs cs) :
    List.Forall₂ Request.Fits qs cs ↔ ∀ q ∈ qs, q.len = 1 := by
  induction h with
  | nil => simp
  | cons ha _ ih => rw [List.forall₂_cons, List.forall_mem_cons, ih, ha.fits_iff]

/-- **Completions are as long as they claim** exactly when every request that is completed is of one
word.  In every run the completions are those of the first requests accepted, in order. -/
theorem completions_fit_iff (r : Snoop) (x : TxPorts) (ts : List RxTlp)
    (hts : ∀ t ∈ ts, NoIoWrite t) (is : List PioEpIn) :
    ∃ done qs, log PioEp.step accepts (PioEp.start r x ts) is = done ++ qs ∧ qs.length ≤ 1 ∧
      List.Forall₂ Request.Serves done (log PioEp.step completes (PioEp.start r x ts) is) ∧
      (List.Forall₂ Request.Fits done (log PioEp.step completes (PioEp.start r x ts) is) ↔
        ∀ q ∈ done, q.len = 1) := by
  obtain ⟨done, qs, hsplit, hlen, hans⟩ := served r x hts is
  exact ⟨done, qs, hsplit, hlen, hans.imp fun _ _ h => h.1, forall₂_fits_iff hans⟩

/-- A read of two words of BAR0. -/
def bar0Read : RxTlp :=
  .ofWords 0x123401FF00000002#64 [] 0x00000000FD6C0100#64 0x0f#8 0x04#22

theorem completions_fit_bar0Read :
    ∃ done qs, log PioEp.step accepts (PioEp.start default default [bar0Read]) (steadily 20) =
        done ++ qs ∧ qs.length ≤ 1 ∧
      List.Forall₂ Request.Serves done
        (log PioEp.step completes (PioEp.start default default [bar0Read]) (steadily 20)) ∧
      (List.Forall₂ Request.Fits done
        (log PioEp.step completes (PioEp.start default default [bar0Read]) (steadily 20)) ↔
          ∀ q ∈ done, q.len = 1) :=
  completions_fit_iff default default [bar0Read] (by decide) (steadily 20)

/-- It is completed with one word and half the byte count. -/
theorem bar0Read_short :
    (log PioEp.step accepts (PioEp.start default default [bar0Read]) (steadily 20)).map
        (fun q : Request => (q.len.toNat, q.byteSpan)) = [(2, 8)] ∧
      (log PioEp.step completes (PioEp.start default default [bar0Read]) (steadily 20)).map
        (fun c : Completion => (c.payload, c.len.toNat, c.byteCount.toNat)) = [(1, 2, 4)] ∧
      ¬ List.Forall₂ Request.Fits
        (log PioEp.step accepts (PioEp.start default default [bar0Read]) (steadily 20))
        (log PioEp.step completes (PioEp.start default default [bar0Read]) (steadily 20)) := by
  have hcpl : (log PioEp.step completes (PioEp.start default default [bar0Read]) (steadily 20)).map
      (fun c : Completion => (c.payload, c.len.toNat, c.byteCount.toNat)) = [(1, 2, 4)] := by
    decide +kernel
  refine ⟨by decide +kernel, hcpl, fun h => ?_⟩
  obtain ⟨c, hc, hfields⟩ := List.map_eq_singleton_iff.1 hcpl
  rw [hc] at h
  obtain ⟨hpay, hrest⟩ := Prod.mk.inj hfields
  obtain ⟨hlen, -⟩ := Prod.mk.inj hrest
  cases h with
  | cons hfit _ =>
    have h1 := hfit.1
    rw [hpay, hlen] at h1
    cases h1

end IpNuma
