import IpNuma.Ecp3.Requests

/-!
# All requests are served

`requests_served` is the statement for whole runs.  The order of accesses and completions comes from
`pays_step`; that all of them come in the end from `rank`, a bound on the cycles until the
completion has been sent: at most one write of the master sequencer is sent before it.
-/

namespace IpNuma

open Clocked PcieTlp

namespace PcieTlp

/-- The transmitter waits for `tx_rdy`. -/
def Stalled (s : PcieTlp) (i : PcieIn) : Prop := s.tx.txStatus = .wait ∧ i.txRdy = false

instance (s : PcieTlp) (i : PcieIn) : Decidable (s.Stalled i) :=
  inferInstanceAs (Decidable (s.tx.txStatus = .wait ∧ i.txRdy = false))

/-- A bound on the cycles, those of `Stalled` not counted, until the completion that is to be sent
has been sent; `ch` says whether the master sequencer has something to send too. -/
def rank (ch : Bool) : LinkPhase → ℕ
  | .cpl n p => TlpSlave.cplEnd n + 1 - p
  | .wait false => 2051
  | .idle => if ch then 2189 else 2052
  | .mwrLast => 2053
  | .mwr n p => 2053 + (2 * n + 8 - p)
  | .wait true => 2188
  | .cplLast => 0
  | .adrift => 0

variable {s : PcieTlp} {i : PcieIn} {φ φ' : LinkPhase} {n p : ℕ} {ch : Bool}

theorem cplEnd_lt (hn : n < 1024) : TlpSlave.cplEnd n < 2050 := by
  unfold TlpSlave.cplEnd
  split <;> omega

theorem rank_le (h : s.InPhase φ) (ch : Bool) : rank ch φ ≤ 2189 := by
  cases φ with
  | idle => cases ch <;> simp [rank]
  | wait c => cases c <;> simp only [rank] <;> omega
  | cpl n p =>
    have hend := cplEnd_lt h.cpl_busy.size
    simp only [rank]
    omega
  | cplLast => exact Nat.zero_le _
  | adrift => exact Nat.zero_le _
  | mwr n p =>
    have hsize := h.mwr_busy.size
    simp only [rank]
    omega
  | mwrLast => simp only [rank]; omega

/-- In `TX_IDLE` a completion that is to be sent, or a write of the master, is taken up. -/
theorem tx_idle (hst : s.tx.txStatus = .idle) (hv : s.slv.tx1TlphValid = true) :
    (s.step i).tx.txStatus = .wait ∧ (s.step i).tx.txLastch = s.mst.tx2TlphValid := by
  have htx : (s.step i).tx = { s.tx.always with
      txLastch := s.mst.tx2TlphValid
      txReq := true
      txStatus := .wait } := by
    change s.tx.step _ _ _ _ = _
    unfold TlpTx.step
    rw [hst, hv]
    rfl
  rw [htx]
  exact ⟨rfl, rfl⟩

theorem tx_wait (hst : s.tx.txStatus = .wait) :
    (s.step i).tx.txStatus = .wait ↔ i.txRdy = false := by
  have htx : (s.step i).tx = if i.txRdy then { s.tx.always with
      txReq := false
      txStatus := if s.tx.txLastch then .tx2Head0 else .tx1Head0 } else s.tx.always := by
    change s.tx.step _ _ _ _ = _
    unfold TlpTx.step
    rw [hst]
  rw [htx]
  cases i.txRdy with
  | false => exact ⟨fun _ => rfl, fun _ => hst⟩
  | true =>
    refine ⟨fun h => ?_, fun h => by cases h⟩
    rw [if_pos rfl] at h
    change (if s.tx.txLastch then TlpTxState.tx2Head0 else .tx1Head0) = _ at h
    split at h <;> cases h

/-- **A cycle with a completion to be sent** brings its end nearer, unless it waits for `tx_rdy`. -/
theorem rank_step (h : s.InPhase φ) (hw : Whole φ) (hst : s.slv.slvStatus = .mreadd)
    (hfollows : Follows φ φ') (h' : (s.step i).InPhase φ')
    (hst' : (s.step i).slv.slvStatus = .mreadd) :
    if s.Stalled i then rank (s.step i).mst.tx2TlphValid φ' ≤ rank s.mst.tx2TlphValid φ
    else rank (s.step i).mst.tx2TlphValid φ' < rank s.mst.tx2TlphValid φ := by
  have hunstalled : s.tx.txStatus ≠ .wait →
      rank (s.step i).mst.tx2TlphValid φ' < rank s.mst.tx2TlphValid φ →
      if s.Stalled i then rank (s.step i).mst.tx2TlphValid φ' ≤ rank s.mst.tx2TlphValid φ
      else rank (s.step i).mst.tx2TlphValid φ' < rank s.mst.tx2TlphValid φ := by
    intro hne hlt
    rw [if_neg fun hs => hne hs.1]
    exact hlt
  cases φ with
  | idle =>
    obtain ⟨htx, -, -, hslv, -⟩ := h
    have hv : s.slv.tx1TlphValid = true := by
      rcases hslv with hoff | ⟨n, hb⟩
      · exact absurd hst hoff.status
      · exact hb.valid
    obtain ⟨hwait, hlast⟩ := tx_idle (i := i) htx hv
    apply hunstalled (by rw [htx]; decide)
    rcases hfollows with rfl | ⟨ch, rfl⟩
    · exact absurd (hwait.symm.trans h'.1) (by decide)
    · rw [← hlast, h'.2.1]
      cases ch <;> simp [rank]
  | wait ch =>
    have hwait := tx_wait (i := i) h.1
    cases hrdy : i.txRdy with
    | false =>
      rw [if_pos ⟨h.1, hrdy⟩]
      have htx := hwait.2 hrdy
      rcases hfollows with rfl | ⟨n, rfl⟩
      · cases ch <;> exact le_refl _
      · cases ch <;> exact absurd (htx.symm.trans h'.1) (by decide)
    | true =>
      rw [if_neg fun hs => absurd (hrdy.symm.trans hs.2) (by decide)]
      rcases hfollows with rfl | ⟨n, rfl⟩
      · exact absurd (hrdy.symm.trans (hwait.1 h'.1)) (by decide)
      · cases ch with
        | false =>
          have hend := cplEnd_lt h'.cpl_busy.size
          change TlpSlave.cplEnd n + 1 - 0 < 2051
          omega
        | true =>
          have hsize := h'.mwr_busy.size
          change 2053 + (2 * n + 8 - 0) < 2188
          omega
  | cpl n p =>
    have hle := h.cpl_le
    have hne : p ≠ TlpSlave.cplEnd n := by
      intro hlast
      have hending := ((cpl_slv (i := i) h).2 hlast).status
      exact absurd (hst'.symm.trans hending) (by decide)
    have hφ' : φ' = .cpl n (p + 1) := Eq.trans hfollows (if_neg hne)
    have htx : s.tx.txStatus ≠ .wait := by
      rw [h.1]
      unfold TlpTx.cplState
      split <;> decide
    refine hunstalled htx ?_
    rw [hφ']
    simp only [rank]
    omega
  | cplLast => exact absurd (hst.symm.trans h.cplLast_ending.status) (by decide)
  | adrift => exact absurd hw not_false
  | mwr n p =>
    have hle := h.mwr_le
    have htx : s.tx.txStatus ≠ .wait := by
      rw [h.1]
      unfold TlpTx.mwrState
      split <;> decide
    have hφ' : φ' = if p = 2 * n + 7 then .mwrLast else .mwr n (p + 1) := hfollows
    refine hunstalled htx ?_
    rw [hφ']
    split <;> simp only [rank] <;> omega
  | mwrLast =>
    have hφ' : φ' = .idle := hfollows
    have hmst : (s.step i).mst.tx2TlphValid = false :=
      (TlpMaster.ending_step h.mwrLast_ending).valid
    refine hunstalled (by rw [h.1]; decide) ?_
    rw [hφ', hmst]
    simp [rank]

end PcieTlp

/-- A cycle as it is seen from outside; `counts` if all requests have been received and the
transmitter does not wait for `tx_rdy`. -/
structure HostCycle where
  wire : TxWord
  bus : SlvBus
  counts : Bool
  deriving DecidableEq

namespace HostSide

def cycle (s : HostSide) (i : PcieIn) : List HostCycle :=
  [⟨s.tlp.wire, s.tlp.slv.bus, s.todo.isEmpty && !decide (s.tlp.Stalled i)⟩]

/-- The packets sent in a run. -/
def sent (s : HostSide) (is : List PcieIn) : List (List TxWord) :=
  ((run step s is).tlp.readTo ((log step cycle s is).map HostCycle.wire)).done

/-- The write accesses in some cycles of the slave bus. -/
def writtenIn (cs : List HostCycle) : List SlvBus := cs.flatMap fun c => c.bus.written

/-- The write accesses in a run. -/
def written (s : HostSide) (is : List PcieIn) : List SlvBus :=
  writtenIn (log step cycle s is) ++ (run step s is).tlp.slv.bus.written

/-- The cycles of a run that count. -/
def elapsed (s : HostSide) (is : List PcieIn) : ℕ := (log step cycle s is).countP HostCycle.counts

/-- A bound on the cycles that count until nothing is owed. -/
def work (s : HostSide) (φ : LinkPhase) : ℕ :=
  match s.tlp.slv.slvStatus with
  | .idle => 0
  | .mreadh => 2190
  | .mreadd => rank s.tlp.mst.tx2TlphValid φ
  | .mwriteh => 2
  | .mwrited => 1

variable {e : Bool} {s : HostSide} {i : PcieIn} {rs rs₀ : List MemReq} {φ φ' : LinkPhase}
  {left : List SlvBus} {pending : List (BitVec 16 × BitVec 8)}

theorem words_ne_nil (r : MemReq) : r.words ≠ [] := by
  intro h
  have hlen := congrArg List.length h
  have hpos := r.six_le_headLen
  rw [MemReq.length_words, MemReq.length_body, List.length_nil] at hlen
  omega

/-- After all words no request is left. -/
theorem between_of_nil (h : s.Inbox rs) (htodo : s.todo = []) : s.Between [] ∧ rs = [] := by
  rcases h with hbetween | ⟨r, n, hheader⟩
  · obtain ⟨hst, hv, as, has, rfl⟩ := hbetween
    cases as with
    | nil => exact ⟨⟨hst, hv, [], has, rfl⟩, rfl⟩
    | cons a as =>
      have hnil := has.symm.trans htodo
      unfold traffic at hnil
      rw [List.flatMap_cons, List.append_eq_nil_iff, List.append_eq_nil_iff] at hnil
      exact absurd hnil.1.2 (words_ne_nil a.req)
  · obtain ⟨-, hlt, -, as, has, -⟩ := hheader
    have hnil := has.symm.trans htodo
    rw [List.append_eq_nil_iff, List.drop_eq_nil_iff, MemReq.length_words,
      MemReq.length_body] at hnil
    exact absurd hnil.1 (by omega)

theorem not_body_of_nil {r : MemReq} {j : ℕ} (htodo : s.todo = []) : ¬ s.Body r j rs := by
  rintro ⟨hwrite, hlt, -, -, -, as, has, -⟩
  have hnil := has.symm.trans htodo
  have hdata := MemReq.data_of_write hwrite
  rw [List.append_eq_nil_iff, List.drop_eq_nil_iff, MemReq.length_words, MemReq.length_body] at hnil
  omega

theorem work_le (h : s.tlp.InPhase φ) : s.work φ ≤ 2190 := by
  have hrank := rank_le h s.tlp.mst.tx2TlphValid
  unfold work
  split <;> omega

/-- **A cycle after all words** lowers the bound. -/
theorem work_step (hplace : s.Place e left pending rs) (htodo : s.todo = []) (h : s.tlp.InPhase φ)
    (hw : Whole φ) (hfollows : Follows φ φ') (h' : (s.step i).tlp.InPhase φ')
    (hst : (s.step i).tlp.slv.slvStatus ≠ .idle) :
    if s.tlp.Stalled i then (s.step i).work φ' ≤ s.work φ else (s.step i).work φ' < s.work φ := by
  cases hplace with
  | idle hidle hin =>
    have hv := (between_of_nil hin htodo).1.valid
    exact absurd (slv_idle hidle hv) hst
  | mreadh hmreadh =>
    have hmreadd : (s.step i).tlp.slv.slvStatus = .mreadd := by
      rw [slv_step, TlpSlave.step_mreadh hmreadh]
      rfl
    have hrank := rank_le h' (s.step i).tlp.mst.tx2TlphValid
    unfold work
    rw [hmreadh, hmreadd]
    simp only
    split <;> omega
  | mreadd hmreadd =>
    have hmreadd' : (s.step i).tlp.slv.slvStatus = .mreadd := by
      rw [slv_step, TlpSlave.status_step, hmreadd] at hst ⊢
      simp only at hst ⊢
      split at hst
      · exact absurd rfl hst
      · exact if_neg ‹_›
    unfold work
    rw [hmreadd, hmreadd']
    exact rank_step (i := s.pcieIn i) h hw hmreadd hfollows h' hmreadd'
  | mwriteh hmwriteh hbar hin => exact absurd hin (not_body_of_nil htodo)
  | mwrited hwriting hj hd hend hh hin =>
    split at hin
    · obtain ⟨-, hnext⟩ := writing_step (i := i) hwriting hj hh hend
      rw [if_pos ‹_›] at hnext
      exact absurd hnext hst
    · exact absurd hin (not_body_of_nil htodo)

/-- After all words what is owed is paid within 2190 cycles that count. -/
structure Timely (s : HostSide) (φ : LinkPhase) (n : ℕ) : Prop where
  le : s.todo = [] → s.tlp.slv.slvStatus ≠ .idle → n + s.work φ ≤ 2190
  zero : s.todo ≠ [] → n = 0

theorem timely_step {n : ℕ} (ht : s.Timely φ n) (hplace : s.Place e left pending rs)
    (h : s.tlp.InPhase φ) (hw : Whole φ) (hfollows : Follows φ φ')
    (h' : (s.step i).tlp.InPhase φ') :
    (s.step i).Timely φ' (n + (cycle s i).countP HostCycle.counts) := by
  have hcount : (cycle s i).countP HostCycle.counts =
      if s.todo = [] ∧ ¬ s.tlp.Stalled i then 1 else 0 := by
    unfold cycle
    rw [List.countP_singleton]
    simp only [Bool.and_eq_true, List.isEmpty_iff, Bool.not_eq_true', decide_eq_false_iff_not]
  rw [hcount]
  by_cases htodo : s.todo = []
  · have htodo' : (s.step i).todo = [] := by
      change s.todo.tail = []
      rw [htodo]
      rfl
    refine ⟨fun _ hst => ?_, fun hne => absurd htodo' hne⟩
    have hstep := work_step hplace htodo h hw hfollows h' hst
    have hidle : s.tlp.slv.slvStatus ≠ .idle := fun hidle =>
      hst (slv_idle hidle (between_of_nil (hplace.of_idle hidle).2.2 htodo).1.valid)
    have hle := ht.le htodo hidle
    by_cases hs : s.tlp.Stalled i
    · rw [if_pos hs] at hstep
      rw [if_neg fun h => h.2 hs]
      omega
    · rw [if_neg hs] at hstep
      rw [if_pos ⟨htodo, hs⟩]
      omega
  · have hzero := ht.zero htodo
    have hle := work_le h'
    rw [hzero, if_neg fun h => htodo h.1]
    exact ⟨fun _ _ => by omega, fun _ => rfl⟩

/-- The requests `rs₀` are being served: what is seen in the cycles `cs` and what is owed together
is what they ask for. -/
structure Serves (e : Bool) (rs₀ : List MemReq) (φ : LinkPhase) (left : List SlvBus)
    (pending : List (BitVec 16 × BitVec 8)) (rs : List MemReq) (s : HostSide)
    (cs : List HostCycle) : Prop where
  build : s.tlp.rx.expRom = e
  framed : Framed s.tlp φ (s.tlp.readTo (cs.map HostCycle.wire)).part
  whole : Whole φ
  fits : s.tlp.Fits
  place : s.Place e left pending rs
  suffix : rs <:+ rs₀
  asks : asksOf rs₀ =
    answers (s.tlp.readTo (cs.map HostCycle.wire)).done ++ (pending ++ asksOf rs)
  accesses : accessesOf e rs₀ = writtenIn cs ++ s.tlp.slv.bus.written ++ (left ++ accessesOf e rs)
  timely : s.Timely φ (cs.countP HostCycle.counts)

theorem serves_start (t : PcieTlp) (as : List Arrival) :
    Serves t.rx.expRom (as.map Arrival.req) .idle [] [] (as.map Arrival.req) (start t as) [] := by
  have hbetween : (start t as).Between (as.map Arrival.req) := ⟨rfl, rfl, as, rfl, rfl⟩
  refine ⟨rfl, framed_reset t, trivial, ?_, .idle rfl (.inl hbetween), List.suffix_refl _, rfl, rfl,
    fun _ h => absurd rfl h, fun _ => rfl⟩
  intro h
  cases h

theorem answers_append (ps qs : List (List TxWord)) :
    answers (ps ++ qs) = answers ps ++ answers qs := by
  unfold answers
  rw [List.filter_append, List.map_append]

/-- In `SLV_MREADH` the request is one that can be answered. -/
theorem rxLength_of_place (hplace : s.Place e left pending rs)
    (hst : s.tlp.slv.slvStatus = .mreadh) : s.tlp.rx.rxLength ≠ 0x3ff#10 := by
  obtain ⟨r, hr, hread, hh⟩ := hplace.of_mreadh hst
  have hlen := r.six_le_headLen
  rw [hh.length (by omega)]
  exact hr hread

theorem readTo_cycle (s : HostSide) (i : PcieIn) (cs : List HostCycle) :
    (s.step i).tlp.readTo ((cs ++ cycle s i).map HostCycle.wire) =
      readWire (s.tlp.readTo (cs.map HostCycle.wire)) (s.step i).tlp.wire := by
  rw [List.map_append]
  exact readTo_step _ _ _

/-- **A cycle of the service.** -/
theorem serves_step {cs : List HostCycle} (h : Serves e rs₀ φ left pending rs s cs)
    (hfit : ∀ r ∈ rs₀, Answerable r) (hacc : s.Accepting) :
    ∃ φ' left' pending' rs' ps, Serves e rs₀ φ' left' pending' rs' (s.step i) (cs ++ cycle s i) ∧
      Follows φ φ' ∧
      left ++ accessesOf e rs = (s.step i).tlp.slv.bus.written ++ (left' ++ accessesOf e rs') ∧
      ((s.step i).tlp.readTo ((cs ++ cycle s i).map HostCycle.wire)).done =
        (s.tlp.readTo (cs.map HostCycle.wire)).done ++ ps ∧
      Completes s.tlp (s.pcieIn i) (s.tlp.readTo (cs.map HostCycle.wire)).part ps φ := by
  obtain ⟨hbuild, hframed, hwhole, hfits, hplace, hsuffix, hasks, haccesses, htimely⟩ := h
  obtain ⟨⟨φ', hfollows, hframed'⟩, ps, hdone, hcompl⟩ := framed_step (i := s.pcieIn i) hframed
  have hfits' : (s.step i).tlp.Fits :=
    fits_step hframed.phase hwhole hfits (rxLength_of_place hplace)
  have hwhole' : Whole φ' := whole_step hwhole hfollows hframed'.phase hfits'
  obtain ⟨left', pending', rs', hplace', hsuffix', hasks', haccesses'⟩ :=
    pays_step (i := i) hbuild hplace hacc (fun r hr => hfit r (hsuffix.subset hr)) hframed.phase
      hwhole hcompl
  have hdone' : ((s.step i).tlp.readTo ((cs ++ cycle s i).map HostCycle.wire)).done =
      (s.tlp.readTo (cs.map HostCycle.wire)).done ++ ps := by
    rw [readTo_cycle]
    exact hdone
  have hwritten : writtenIn (cs ++ cycle s i) = writtenIn cs ++ s.tlp.slv.bus.written := by
    unfold writtenIn cycle
    rw [List.flatMap_append, List.flatMap_singleton]
  refine ⟨φ', left', pending', rs', ps,
    ⟨(TlpRx.expRom_step _ _).trans hbuild, ?_, hwhole', hfits', hplace', hsuffix'.trans hsuffix,
      ?_, ?_, ?_⟩, hfollows, haccesses', hdone', hcompl⟩
  · rw [readTo_cycle]
    exact hframed'
  · rw [hdone', answers_append, hasks, hasks', List.append_assoc]
  · rw [hwritten, haccesses, haccesses', List.append_assoc, List.append_assoc, List.append_assoc]
  · rw [List.countP_append]
    exact timely_step htimely hplace hframed.phase hwhole hfollows hframed'.phase

/-- After 2191 cycles that count all completions and accesses have been made. -/
theorem Serves.finished {cs : List HostCycle} (h : Serves e rs₀ φ left pending rs s cs)
    (hlt : 2190 < cs.countP HostCycle.counts) :
    answers (s.tlp.readTo (cs.map HostCycle.wire)).done = asksOf rs₀ ∧
      writtenIn cs ++ s.tlp.slv.bus.written = accessesOf e rs₀ := by
  have htodo : s.todo = [] := by
    by_contra hne
    have hzero := h.timely.zero hne
    omega
  have hidle : s.tlp.slv.slvStatus = .idle := by
    by_contra hne
    have hle := h.timely.le htodo hne
    omega
  obtain ⟨rfl, rfl, hin⟩ := h.place.of_idle hidle
  obtain ⟨-, rfl⟩ := between_of_nil hin htodo
  rw [h.asks, h.accesses]
  exact ⟨(List.append_nil _).symm, (List.append_nil _).symm⟩

/-- **Requests are served**, in order and each once, if every request that is announced finds the
slave sequencer idle and none is a read of 1023 DW: at any time the completions and the accesses so
far are the first of those that the requests ask for, and after 2191 cycles that count they are all.
-/
theorem requests_served {t : PcieTlp} {as : List Arrival} {is : List PcieIn}
    (hfit : ∀ a ∈ as, Answerable a.req)
    (h : Along step (fun s _ => s.Accepting) (start t as) is) :
    answers (sent (start t as) is) <+: asksOf (as.map Arrival.req) ∧
      written (start t as) is <+: accessesOf t.rx.expRom (as.map Arrival.req) ∧
        (2190 < elapsed (start t as) is →
          answers (sent (start t as) is) = asksOf (as.map Arrival.req) ∧
            written (start t as) is = accessesOf t.rx.expRom (as.map Arrival.req)) := by
  have hfit' : ∀ r ∈ as.map Arrival.req, Answerable r := by
    intro r hr
    obtain ⟨a, ha, rfl⟩ := List.mem_map.1 hr
    exact hfit a ha
  have hserves : ∃ φ left pending rs, Serves t.rx.expRom (as.map Arrival.req) φ left pending rs
      (run step (start t as) is) (log step cycle (start t as) is) := by
    refine log_induction (J := fun s cs => ∃ φ left pending rs,
      Serves t.rx.expRom (as.map Arrival.req) φ left pending rs s cs)
      ⟨_, _, _, _, serves_start t as⟩ ?_ is h
    rintro s i cs ⟨φ, left, pending, rs, hs⟩ hacc
    obtain ⟨φ', left', pending', rs', -, hs', -⟩ := serves_step (i := i) hs hfit' hacc
    exact ⟨φ', left', pending', rs', hs'⟩
  obtain ⟨φ, left, pending, rs, hs⟩ := hserves
  exact ⟨⟨_, hs.asks.symm⟩, ⟨_, hs.accesses.symm⟩, hs.finished⟩

/-- A read of the first DW behind BAR0. -/
def readDw : MemReq where
  write := false
  long := false
  length := 1
  reqid := 0x0008#16
  tag := 0x05#8
  lastbe := 0
  firstbe := 0b1111#4
  addr := 0xd0000000#64
  data := []
  barHit := 0b0000001#7
  reserved := false
  traffic := 0
  attr := 0
  length_data := MemReq.length_data_read 1

/-- A write of the first DW behind BAR0. -/
def writeDw : MemReq where
  write := true
  long := false
  length := 1
  reqid := 0x0008#16
  tag := 0x06#8
  lastbe := 0
  firstbe := 0b1111#4
  addr := 0xd0000000#64
  data := [0x0a00#16, 0x15c8#16]
  barHit := 0b0000001#7
  reserved := false
  traffic := 0
  attr := 0
  length_data := rfl

/-- Cycles with `tx_rdy` high. -/
def ready (n : ℕ) : List PcieIn := List.replicate n ⟨⟨false, false, 0, 0⟩, true, 0, 0, 0, 0, true, 0⟩

/-- A write that comes when the read before it has been answered. -/
theorem requests_served_apart :
    answers (sent (start default [after 0 readDw, after 30 writeDw]) (ready 60)) <+:
        asksOf [readDw, writeDw] ∧
      written (start default [after 0 readDw, after 30 writeDw]) (ready 60) <+:
        accessesOf false [readDw, writeDw] ∧
        (2190 < elapsed (start default [after 0 readDw, after 30 writeDw]) (ready 60) →
          answers (sent (start default [after 0 readDw, after 30 writeDw]) (ready 60)) =
              asksOf [readDw, writeDw] ∧
            written (start default [after 0 readDw, after 30 writeDw]) (ready 60) =
              accessesOf false [readDw, writeDw]) :=
  requests_served
    (by
      intro a ha
      rcases List.mem_cons.1 ha with rfl | ha
      · exact fun _ => by decide
      · rw [List.mem_singleton.1 ha]
        exact fun h => by cases h)
    (by decide +kernel)

/-- A write right behind a read is lost: both are received and the endpoint is idle again, but
nothing has been written. -/
theorem write_lost :
    (run step (start default [after 0 readDw, after 0 writeDw]) (ready 60)).todo = [] ∧
      (run step (start default [after 0 readDw, after 0 writeDw]) (ready 60)).tlp.slv.slvStatus =
        .idle ∧
      (run step (start default [after 0 readDw, after 0 writeDw]) (ready 60)).tlp.tx.txStatus =
        .idle ∧
      written (start default [after 0 readDw, after 0 writeDw]) (ready 60) ≠
        accessesOf false [readDw, writeDw] := by
  decide +kernel

end HostSide

end IpNuma
