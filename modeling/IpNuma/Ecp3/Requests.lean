import IpNuma.Ecp3.SlaveWrites

/-!
# Requests are served

The pulse that announces a request is seen only by an idle slave sequencer (`Accepting`).  `Place`
says which accesses and which completion the sequencer still owes, next to the requests that it has
not accepted; `pays_step` is that a cycle moves what it pays to the bus and to the wire.
-/

namespace IpNuma

open Clocked PcieTlp

namespace HostSide

/-- A request that is announced is seen by the slave sequencer. -/
def Accepting (s : HostSide) : Prop :=
  s.tlp.rx.rxTlphValid = true → s.tlp.slv.slvStatus = .idle

instance : DecidablePred Accepting := fun s =>
  inferInstanceAs (Decidable (s.tlp.rx.rxTlphValid = true → s.tlp.slv.slvStatus = .idle))

/-- No read of 1023 DW. -/
def Answerable (r : MemReq) : Prop := r.write = false → r.length ≠ 0x3ff#10

/-- The packet is a completion with data. -/
def isCompletion (ws : List TxWord) : Bool := ws.head?.map TxWord.txData == some 0x4a00#16

/-- The requester ID and the tag of a completion. -/
def answer (ws : List TxWord) : BitVec 16 × BitVec 8 :=
  ((ws.getD 4 default).txData, (ws.getD 5 default).txData.extractLsb' 8 8)

def answers (ps : List (List TxWord)) : List (BitVec 16 × BitVec 8) :=
  (ps.filter isCompletion).map answer

/-- The completions that some requests ask for. -/
def asksOf (rs : List MemReq) : List (BitVec 16 × BitVec 8) := rs.flatMap MemReq.asks

/-- The write accesses of some requests. -/
def accessesOf (expRom : Bool) (rs : List MemReq) : List SlvBus :=
  rs.flatMap fun r => r.accesses expRom

/-- The receiver is between two requests or in a header. -/
def Inbox (s : HostSide) (rs : List MemReq) : Prop := s.Between rs ∨ ∃ r n, s.Header r n rs

/-- What the slave sequencer owes, in a build with or without `ENABLE_EXPROM`: accesses of the bus,
a completion, and the requests that it has not accepted. -/
inductive Place (e : Bool) (s : HostSide) :
    List SlvBus → List (BitVec 16 × BitVec 8) → List MemReq → Prop
  | idle {rs : List MemReq} (hst : s.tlp.slv.slvStatus = .idle) (hin : s.Inbox rs) :
      Place e s [] [] rs
  | mreadh {r : MemReq} {rs : List MemReq} (hst : s.tlp.slv.slvStatus = .mreadh)
      (hr : Answerable r) (hread : r.write = false) (hh : s.tlp.rx.Holds r r.headLen)
      (hin : s.Inbox rs) : Place e s [] [r.id] rs
  | mreadd {rs : List MemReq} (hst : s.tlp.slv.slvStatus = .mreadd) (hin : s.Inbox rs) :
      Place e s [] [(s.tlp.slv.tx1Reqid, s.tlp.slv.tx1Tag)] rs
  | mwriteh {r : MemReq} {rs : List MemReq} (hst : s.tlp.slv.slvStatus = .mwriteh)
      (hbar : s.tlp.slv.bus.bar = r.slvBar e) (hin : s.Body r 0 rs) : Place e s (r.accesses e) [] rs
  | mwrited {r : MemReq} {rs : List MemReq} {j : ℕ} (hw : s.tlp.slv.Writing e r j)
      (hj : j < 2 * r.dws) (hd : r.data[j]? = some s.tlp.rx.rxData2)
      (hend : s.tlp.rx.rxEnd2 = decide (j + 1 = 2 * r.dws)) (hh : s.tlp.rx.Holds r r.headLen)
      (hin : if j + 1 = 2 * r.dws then s.Between rs else s.Body r (j + 1) rs) :
      Place e s ((r.accesses e).drop j) [] rs

/-- A cycle pays some of what is owed. -/
def Pays (e : Bool) (s : HostSide) (left : List SlvBus) (pending : List (BitVec 16 × BitVec 8))
    (rs : List MemReq) (ps : List (List TxWord)) : Prop :=
  ∃ left' pending' rs', Place e s left' pending' rs' ∧ rs' <:+ rs ∧
    pending ++ asksOf rs = answers ps ++ (pending' ++ asksOf rs') ∧
    left ++ accessesOf e rs = s.tlp.slv.bus.written ++ (left' ++ accessesOf e rs')

variable {e : Bool} {s : HostSide} {i : PcieIn} {r : MemReq} {rs : List MemReq} {n j : ℕ}
  {φ : LinkPhase} {part : Option (List TxWord)} {ps : List (List TxWord)}

theorem slv_step (s : HostSide) (i : PcieIn) : (s.step i).tlp.slv =
    s.tlp.slv.step s.tlp.rx (s.rxWord i).rxBarHit s.tlp.tx.tx1TlpdReady i.slvDatO := rfl

theorem asksOf_read (e : Bool) (hr : r.write = false) (rs : List MemReq) :
    asksOf (r :: rs) = r.id :: asksOf rs ∧ accessesOf e (r :: rs) = accessesOf e rs := by
  unfold asksOf accessesOf
  rw [List.flatMap_cons, List.flatMap_cons, MemReq.asks, MemReq.accesses, MemReq.data_of_read hr,
    hr]
  exact ⟨rfl, rfl⟩

theorem asksOf_write (e : Bool) (hr : r.write = true) (rs : List MemReq) :
    asksOf (r :: rs) = asksOf rs ∧ accessesOf e (r :: rs) = r.accesses e ++ accessesOf e rs := by
  unfold asksOf accessesOf
  rw [List.flatMap_cons, List.flatMap_cons, MemReq.asks, hr]
  exact ⟨rfl, rfl⟩

theorem Place.of_idle {left : List SlvBus} {pending : List (BitVec 16 × BitVec 8)}
    (hplace : s.Place e left pending rs) (h : s.tlp.slv.slvStatus = .idle) :
    left = [] ∧ pending = [] ∧ s.Inbox rs := by
  cases hplace with
  | idle _ hin => exact ⟨rfl, rfl, hin⟩
  | mreadh hst => exact absurd (h.symm.trans hst) (by decide)
  | mreadd hst => exact absurd (h.symm.trans hst) (by decide)
  | mwriteh hst => exact absurd (h.symm.trans hst) (by decide)
  | mwrited hw => exact absurd (h.symm.trans hw.status) (by decide)

theorem Place.of_mreadh {left : List SlvBus} {pending : List (BitVec 16 × BitVec 8)}
    (hplace : s.Place e left pending rs) (h : s.tlp.slv.slvStatus = .mreadh) :
    ∃ r, Answerable r ∧ r.write = false ∧ s.tlp.rx.Holds r r.headLen := by
  cases hplace with
  | idle hst => exact absurd (h.symm.trans hst) (by decide)
  | mreadh _ hr hread hh => exact ⟨_, hr, hread, hh⟩
  | mreadd hst => exact absurd (h.symm.trans hst) (by decide)
  | mwriteh hst => exact absurd (h.symm.trans hst) (by decide)
  | mwrited hw => exact absurd (h.symm.trans hw.status) (by decide)

theorem Place.of_mreadd {left : List SlvBus} {pending : List (BitVec 16 × BitVec 8)}
    (hplace : s.Place e left pending rs) (h : s.tlp.slv.slvStatus = .mreadd) :
    left = [] ∧ pending = [(s.tlp.slv.tx1Reqid, s.tlp.slv.tx1Tag)] := by
  cases hplace with
  | idle hst => exact absurd (h.symm.trans hst) (by decide)
  | mreadh hst => exact absurd (h.symm.trans hst) (by decide)
  | mreadd => exact ⟨rfl, rfl⟩
  | mwriteh hst => exact absurd (h.symm.trans hst) (by decide)
  | mwrited hw => exact absurd (h.symm.trans hw.status) (by decide)

/-! ### Completions -/

/-- A cycle that ends no completion. -/
theorem filter_of_completes {t : PcieTlp} {e : PcieIn} (h : Completes t e part ps φ)
    (hno : ∀ n, φ ≠ .cpl n (TlpSlave.cplEnd n)) : ps.filter isCompletion = [] := by
  cases φ with
  | mwr n p =>
    rw [completes_mwr] at h
    by_cases hlast : p = 2 * n + 7
    · rw [if_pos hlast] at h
      exact (h.filter rfl 0x4a00#16).trans (if_neg (by decide))
    · rw [if_neg hlast] at h
      rw [h]
      rfl
  | cpl n p =>
    have hlast : p ≠ TlpSlave.cplEnd n := fun hlast => hno n (by rw [hlast])
    rw [completes_cpl, if_neg hlast] at h
    rw [h]
    rfl
  | _ =>
    rw [show ps = [] from h]
    rfl

theorem answers_of_completes (h : Completes s.tlp (s.pcieIn i) part ps φ)
    (hno : ∀ n, φ ≠ .cpl n (TlpSlave.cplEnd n)) : answers ps = [] :=
  congrArg (List.map answer) (filter_of_completes h hno)

/-- The completion that a cycle ends has the identifiers of the sequencer. -/
theorem answers_of_cpl (h : Completes s.tlp (s.pcieIn i) part ps (.cpl n (TlpSlave.cplEnd n)))
    (hn : n ≠ 1023) : answers ps = [(s.tlp.slv.tx1Reqid, s.tlp.slv.tx1Tag)] := by
  rw [completes_cpl, if_pos rfl] at h
  have hfilter : ps.filter isCompletion = ps := (h.filter rfl 0x4a00#16).trans (if_pos rfl)
  obtain ⟨ws, -, hlen, hhead, rfl⟩ := h
  rw [TlpSlave.cplEnd_of_ne hn] at hlen
  have hget : ∀ k < 6, (ws ++ [(s.tlp.step (s.pcieIn i)).wire])[k]? =
      some ((ws ++ [(s.tlp.step (s.pcieIn i)).wire]).getD k default) := by
    intro k hk
    have hlt : k < (ws ++ [(s.tlp.step (s.pcieIn i)).wire]).length := by
      rw [List.length_append, hlen, List.length_singleton]
      omega
    rw [List.getD_eq_getElem?_getD, List.getElem?_eq_getElem hlt]
    rfl
  have h4 := hhead 4 _ _ rfl (hget 4 (by omega))
  have h5 := hhead 5 _ _ rfl (hget 5 (by omega))
  unfold answers
  rw [hfilter]
  change [answer _] = _
  unfold answer
  rw [h4, h5, extractLsb'_append_high _ _ _ _ (by omega),
    extractLsb'_append_high _ _ _ _ (by omega)]
  exact congrArg (fun t => [(s.tlp.slv.tx1Reqid, t)]) BitVec.extractLsb'_eq_self

/-- Outside `SLV_MREADD` no completion ends. -/
theorem answers_of_ne (hphase : s.tlp.InPhase φ) (h : Completes s.tlp (s.pcieIn i) part ps φ)
    (hst : s.tlp.slv.slvStatus ≠ .mreadd) : answers ps = [] := by
  refine answers_of_completes h ?_
  rintro n rfl
  exact hst hphase.cpl_busy.status

/-! ### The slave sequencer -/

theorem inbox_of_between (h : s.Between rs) : (s.step i).Inbox rs :=
  (between_step h).imp id fun ⟨r, hr⟩ => ⟨r, 1, hr⟩

/-- Without a pulse the receiver stays where it takes requests. -/
theorem inbox_step (h : s.Inbox rs) (hv : s.tlp.rx.rxTlphValid = false) : (s.step i).Inbox rs := by
  rcases h with hbetween | ⟨r, n, hheader⟩
  · exact inbox_of_between hbetween
  · have hvalid := hheader.inside.valid
    rw [hv] at hvalid
    have hne : n + 1 ≠ r.headLen := of_decide_eq_false hvalid.symm
    have hlt := hheader.lt
    exact .inr ⟨r, n + 1, header_step hheader (by omega)⟩

theorem valid_of_accepting (h : s.Accepting) (hst : s.tlp.slv.slvStatus ≠ .idle) :
    s.tlp.rx.rxTlphValid = false := by
  cases hv : s.tlp.rx.rxTlphValid with
  | false => rfl
  | true => exact absurd (h hv) hst

/-- In `SLV_IDLE` without a pulse. -/
theorem slv_idle (hst : s.tlp.slv.slvStatus = .idle) (hv : s.tlp.rx.rxTlphValid = false) :
    (s.step i).tlp.slv.slvStatus = .idle := by
  rw [slv_step, TlpSlave.status_step, hst, hv]
  rfl

/-- In `SLV_IDLE` with a pulse. -/
theorem slv_accepts (hst : s.tlp.slv.slvStatus = .idle) (hheader : s.Header r n rs)
    (hn : n + 1 = r.headLen) :
    (s.step i).tlp.slv.slvStatus = (if r.write then .mwriteh else .mreadh) ∧
      (s.step i).tlp.slv.bus.bar = TlpSlave.barOf s.tlp.rx.expRom (s.rxWord i).rxBarHit := by
  have hv := hheader.inside.valid.trans (decide_eq_true hn)
  obtain ⟨hcomm, hfmt, -⟩ := hheader.inside.holds.head hheader.pos
  rw [slv_step]
  unfold TlpSlave.step TlpSlave.idle
  rw [hst, hcomm, hfmt, TlpRx.fmt_write, hv]
  exact ⟨rfl, rfl⟩

/-- What is owed stays so in a cycle that answers nothing and writes nothing. -/
theorem pays_nothing {left : List SlvBus} {pending : List (BitVec 16 × BitVec 8)}
    (hplace : s.Place e left pending rs) (hans : answers ps = [])
    (hwr : s.tlp.slv.bus.written = []) : s.Pays e left pending rs ps := by
  refine ⟨left, pending, rs, hplace, List.suffix_refl rs, ?_, ?_⟩
  · rw [hans]
    rfl
  · rw [hwr]
    rfl

theorem pays_idle (he : s.tlp.rx.expRom = e) (hst : s.tlp.slv.slvStatus = .idle) (hin : s.Inbox rs)
    (hfit : ∀ r ∈ rs, Answerable r) (hphase : s.tlp.InPhase φ)
    (h : Completes s.tlp (s.pcieIn i) part ps φ) : (s.step i).Pays e [] [] rs ps := by
  have hans := answers_of_ne hphase h (by rw [hst]; decide)
  have hwr : (s.step i).tlp.slv.bus.written = [] := TlpSlave.written_step (by rw [hst]; decide)
  cases hv : s.tlp.rx.rxTlphValid with
  | false => exact pays_nothing (.idle (slv_idle hst hv) (inbox_step hin hv)) hans hwr
  | true =>
    unfold Pays
    rw [hans, hwr]
    rcases hin with hbetween | ⟨r, n, hheader⟩
    · exact absurd (hbetween.valid.symm.trans hv) Bool.false_ne_true
    · have hn : n + 1 = r.headLen := of_decide_eq_true (hheader.inside.valid.symm.trans hv)
      obtain ⟨hst', hbar⟩ := slv_accepts (i := i) hst hheader hn
      obtain ⟨hhit, hholds, rs', rfl, hin'⟩ := header_last (i := i) hheader hn
      refine ⟨if r.write then r.accesses e else [], if r.write then [] else [r.id], rs', ?_,
        List.suffix_cons r rs', ?_, ?_⟩
      · cases hwrite : r.write with
        | true =>
          rw [hwrite] at hst' hin'
          exact .mwriteh hst' (by rw [hbar, hhit, he, MemReq.slvBar]) hin'
        | false =>
          rw [hwrite] at hst' hin'
          exact .mreadh hst' (hfit r List.mem_cons_self) hwrite hholds (.inl hin')
      · cases hwrite : r.write with
        | true => exact (asksOf_write e hwrite rs').1
        | false => exact (asksOf_read e hwrite rs').1
      · cases hwrite : r.write with
        | true => exact (asksOf_write e hwrite rs').2
        | false => exact (asksOf_read e hwrite rs').2

theorem pays_mreadh (hst : s.tlp.slv.slvStatus = .mreadh) (hh : s.tlp.rx.Holds r r.headLen)
    (hin : s.Inbox rs) (hacc : s.Accepting) (hphase : s.tlp.InPhase φ)
    (h : Completes s.tlp (s.pcieIn i) part ps φ) : (s.step i).Pays e [] [r.id] rs ps := by
  have hans := answers_of_ne hphase h (by rw [hst]; decide)
  have hwr : (s.step i).tlp.slv.bus.written = [] := TlpSlave.written_step (by rw [hst]; decide)
  have hv := valid_of_accepting hacc (by rw [hst]; decide)
  have hlen := r.six_le_headLen
  have hslv : (s.step i).tlp.slv = TlpSlave.mreadh s.tlp.slv.always s.tlp.rx := by
    rw [slv_step, TlpSlave.step_mreadh hst]
  have hid : r.id = ((s.step i).tlp.slv.tx1Reqid, (s.step i).tlp.slv.tx1Tag) := by
    rw [hslv, MemReq.id, ← hh.reqid (by omega), ← (hh.bytes (by omega)).1]
    rfl
  rw [hid]
  exact pays_nothing (.mreadd (by rw [hslv]; rfl) (inbox_step hin hv)) hans hwr

/-- In `SLV_MREADD` the identifiers stay. -/
theorem ids_mreadd (hst : s.tlp.slv.slvStatus = .mreadd) :
    (s.step i).tlp.slv.tx1Reqid = s.tlp.slv.tx1Reqid ∧
      (s.step i).tlp.slv.tx1Tag = s.tlp.slv.tx1Tag := by
  rw [slv_step, TlpSlave.step_mreadd hst]
  unfold TlpSlave.mreadd
  split <;> exact ⟨rfl, rfl⟩

/-- `SLV_MREADD` ends with the completion. -/
theorem mreadd_step (hst : s.tlp.slv.slvStatus = .mreadd) (hphase : s.tlp.InPhase φ)
    (hwhole : Whole φ) (h : Completes s.tlp (s.pcieIn i) part ps φ) :
    (s.step i).tlp.slv.slvStatus = .mreadd ∧ answers ps = [] ∨
      (s.step i).tlp.slv.slvStatus = .idle ∧
        answers ps = [(s.tlp.slv.tx1Reqid, s.tlp.slv.tx1Tag)] := by
  cases hr : s.tlp.tx.tx1TlpdReady with
  | false =>
    left
    have hst' : (s.step i).tlp.slv.slvStatus = .mreadd := by
      rw [slv_step, TlpSlave.step_mreadd hst, hr]
      exact hst
    refine ⟨hst', answers_of_completes h ?_⟩
    rintro n rfl
    have h3 := TlpSlave.le_cplEnd n
    exact absurd (hr.symm.trans (hphase.2.1.trans (decide_eq_true h3))) Bool.false_ne_true
  | true =>
    obtain ⟨n, p, rfl, -⟩ := cpl_of_ready hphase hwhole hst hr
    obtain ⟨hbusy, hending⟩ := cpl_slv (i := s.pcieIn i) hphase
    have hle := hphase.cpl_le
    by_cases hlast : p = TlpSlave.cplEnd n
    · right
      have hend : (s.step i).tlp.slv.Ending := hending hlast
      rw [hlast] at h
      exact ⟨hend.status, answers_of_cpl h hwhole⟩
    · left
      have hb : (s.step i).tlp.slv.Busy n (p + 1 - 3) := (hbusy (by omega)).1
      refine ⟨hb.status, answers_of_completes h ?_⟩
      rintro m hm
      cases hm
      exact hlast rfl

theorem pays_mreadd (hst : s.tlp.slv.slvStatus = .mreadd) (hin : s.Inbox rs) (hacc : s.Accepting)
    (hphase : s.tlp.InPhase φ) (hwhole : Whole φ) (h : Completes s.tlp (s.pcieIn i) part ps φ) :
    (s.step i).Pays e [] [(s.tlp.slv.tx1Reqid, s.tlp.slv.tx1Tag)] rs ps := by
  have hwr : (s.step i).tlp.slv.bus.written = [] := TlpSlave.written_step (by rw [hst]; decide)
  have hv := valid_of_accepting hacc (by rw [hst]; decide)
  obtain ⟨hreqid, htag⟩ := ids_mreadd (i := i) hst
  rcases mreadd_step hst hphase hwhole h with ⟨hst', hans⟩ | ⟨hst', hans⟩
  · rw [← hreqid, ← htag]
    exact pays_nothing (.mreadd hst' (inbox_step hin hv)) hans hwr
  · unfold Pays
    rw [hans, hwr]
    exact ⟨[], [], rs, .idle hst' (inbox_step hin hv), List.suffix_refl rs, rfl, rfl⟩

/-- The data word that the sequencer takes next. -/
theorem place_mwrited (hin : s.Body r j rs) (hw : (s.step i).tlp.slv.Writing e r j) :
    Place e (s.step i) ((r.accesses e).drop j) [] rs := by
  obtain ⟨hd, hend, hholds, hnext⟩ := body_step (i := i) hin
  exact .mwrited hw hin.lt hd hend hholds hnext

theorem pays_mwriteh (hst : s.tlp.slv.slvStatus = .mwriteh) (hbar : s.tlp.slv.bus.bar = r.slvBar e)
    (hin : s.Body r 0 rs) (hphase : s.tlp.InPhase φ)
    (h : Completes s.tlp (s.pcieIn i) part ps φ) : (s.step i).Pays e (r.accesses e) [] rs ps := by
  have hans := answers_of_ne hphase h (by rw [hst]; decide)
  have hwr : (s.step i).tlp.slv.bus.written = [] := TlpSlave.written_step (by rw [hst]; decide)
  have hw : (s.step i).tlp.slv.Writing e r 0 := TlpSlave.writing_mwriteh hst hbar hin.holds
  exact pays_nothing (place_mwrited hin hw) hans hwr

/-- A word of a write goes to the bus. -/
theorem writing_step (hw : s.tlp.slv.Writing e r j) (hj : j < 2 * r.dws)
    (hh : s.tlp.rx.Holds r r.headLen)
    (hend : s.tlp.rx.rxEnd2 = decide (j + 1 = 2 * r.dws)) :
    (s.step i).tlp.slv.bus = r.access e j s.tlp.rx.rxData2 ∧
      if j + 1 = 2 * r.dws then (s.step i).tlp.slv.slvStatus = .idle
      else (s.step i).tlp.slv.Writing e r (j + 1) :=
  TlpSlave.writing_step hw hj hh hend

theorem pays_mwrited (hw : s.tlp.slv.Writing e r j) (hj : j < 2 * r.dws)
    (hd : r.data[j]? = some s.tlp.rx.rxData2)
    (hend : s.tlp.rx.rxEnd2 = decide (j + 1 = 2 * r.dws)) (hh : s.tlp.rx.Holds r r.headLen)
    (hin : if j + 1 = 2 * r.dws then s.Between rs else s.Body r (j + 1) rs)
    (hphase : s.tlp.InPhase φ) (h : Completes s.tlp (s.pcieIn i) part ps φ) :
    (s.step i).Pays e ((r.accesses e).drop j) [] rs ps := by
  have hans := answers_of_ne hphase h (by rw [hw.status]; decide)
  obtain ⟨hbus, hnext⟩ := writing_step (i := i) hw hj hh hend
  have hwr : (s.step i).tlp.slv.bus.written = [r.access e j s.tlp.rx.rxData2] := by
    rw [hbus]
    rfl
  have haccess : (r.accesses e)[j]? = some (r.access e j s.tlp.rx.rxData2) := by
    unfold MemReq.accesses
    rw [List.getElem?_mapIdx, hd]
    rfl
  obtain ⟨hlt, hget⟩ := List.getElem?_eq_some_iff.1 haccess
  have hdrop : (r.accesses e).drop j =
      r.access e j s.tlp.rx.rxData2 :: (r.accesses e).drop (j + 1) := by
    rw [List.drop_eq_getElem_cons hlt, hget]
  unfold Pays
  rw [hans, hwr, hdrop]
  by_cases hlast : j + 1 = 2 * r.dws
  · rw [if_pos hlast] at hin hnext
    have hin' : (s.step i).Inbox rs := inbox_of_between hin
    have hnil : (r.accesses e).drop (j + 1) = [] := by
      apply List.drop_eq_nil_of_le
      unfold MemReq.accesses
      rw [List.length_mapIdx, r.length_data]
      change (if r.write then 2 * r.dws else 0) ≤ j + 1
      split <;> omega
    rw [hnil]
    exact ⟨[], [], rs, .idle hnext hin', List.suffix_refl rs, rfl, rfl⟩
  · rw [if_neg hlast] at hin hnext
    exact ⟨_, [], rs, place_mwrited hin hnext, List.suffix_refl rs, rfl, rfl⟩

/-- **A cycle pays what it owes.** -/
theorem pays_step {left : List SlvBus} {pending : List (BitVec 16 × BitVec 8)}
    (he : s.tlp.rx.expRom = e) (hplace : s.Place e left pending rs) (hacc : s.Accepting)
    (hfit : ∀ r ∈ rs, Answerable r)
    (hphase : s.tlp.InPhase φ) (hwhole : Whole φ) (h : Completes s.tlp (s.pcieIn i) part ps φ) :
    (s.step i).Pays e left pending rs ps := by
  cases hplace with
  | idle hst hin => exact pays_idle he hst hin hfit hphase h
  | mreadh hst hr hread hh hin => exact pays_mreadh hst hh hin hacc hphase h
  | mreadd hst hin => exact pays_mreadd hst hin hacc hphase hwhole h
  | mwriteh hst hbar hin => exact pays_mwriteh hst hbar hin hphase h
  | mwrited hw hj hd hend hh hin => exact pays_mwrited hw hj hd hend hh hin hphase h

end HostSide

end IpNuma
