import IpNuma.Ecp3.MemReq
import IpNuma.Ecp3.TxFraming

/-!
# Requests with any spacing

`HostSide` is `pcie_tlp` with the words of the requests that are still to come, each request after
any number of quiet cycles.  `Between`, `Header` and `Body` say where the receiver is in them.
-/

namespace IpNuma

open Clocked

/-- A request and the cycles before it. -/
structure Arrival where
  gap : List RxWord
  quiet : ∀ w ∈ gap, w.rxSt = false ∧ w.rxEnd = false
  req : MemReq

/-- The cycles at the receive side. -/
def traffic (as : List Arrival) : List RxWord := as.flatMap fun a => a.gap ++ a.req.words

/-- `pcie_tlp` and the cycles of the requests that are still to come. -/
structure HostSide where
  tlp : PcieTlp
  todo : List RxWord

namespace HostSide

/-- The word that is received; the input only says what a quiet cycle after all requests looks like.
-/
def rxWord (s : HostSide) (i : PcieIn) : RxWord :=
  s.todo.headD { i.rx with rxSt := false, rxEnd := false }

/-- The inputs of `pcie_tlp`. -/
def pcieIn (s : HostSide) (i : PcieIn) : PcieIn := { i with rx := s.rxWord i }

/-- One edge of `pcie_clk`. -/
def step (s : HostSide) (i : PcieIn) : HostSide := ⟨s.tlp.step (s.pcieIn i), s.todo.tail⟩

/-- After reset. -/
def start (t : PcieTlp) (as : List Arrival) : HostSide := ⟨t.reset, traffic as⟩

/-- The receiver is between two requests, and `rs` are still to come. -/
structure Between (s : HostSide) (rs : List MemReq) : Prop where
  status : s.tlp.rx.rxStatus = .head0
  valid : s.tlp.rx.rxTlphValid = false
  todo : ∃ as, s.todo = traffic as ∧ rs = as.map Arrival.req

/-- The receiver has taken `n` words of the header of the first of the requests `rs`. -/
structure Header (s : HostSide) (r : MemReq) (n : ℕ) (rs : List MemReq) : Prop where
  pos : 1 ≤ n
  lt : n < r.headLen
  inside : s.tlp.rx.Inside r n
  todo : ∃ as, s.todo = r.words.drop n ++ traffic as ∧ rs = r :: as.map Arrival.req

/-- The receiver has taken `j` words of the data of a write. -/
structure Body (s : HostSide) (r : MemReq) (j : ℕ) (rs : List MemReq) : Prop where
  write : r.write = true
  lt : j < 2 * r.dws
  status : s.tlp.rx.rxStatus = .req
  valid : s.tlp.rx.rxTlphValid = false
  holds : s.tlp.rx.Holds r r.headLen
  todo : ∃ as, s.todo = r.words.drop (r.headLen + j) ++ traffic as ∧ rs = as.map Arrival.req

variable {s : HostSide} {i : PcieIn} {r : MemReq} {rs : List MemReq} {n j : ℕ}

theorem rx_step (s : HostSide) (i : PcieIn) : (s.step i).tlp.rx = s.tlp.rx.step (s.rxWord i) := rfl

/-- The next word is one of a request. -/
theorem rxWord_of_drop {ws : List RxWord} (h : s.todo = r.words.drop n ++ ws)
    (hn : n < r.words.length) :
    r.words[n]? = some (s.rxWord i) ∧ (s.step i).todo = r.words.drop (n + 1) ++ ws := by
  unfold rxWord step
  rw [h, List.drop_eq_getElem_cons hn]
  exact ⟨List.getElem?_eq_getElem hn, rfl⟩

/-- A quiet cycle or the first word of a request. -/
theorem between_step (h : s.Between rs) :
    (s.step i).Between rs ∨ ∃ r, (s.step i).Header r 1 rs := by
  obtain ⟨hst, hv, as, htodo, hrs⟩ := h
  cases as with
  | nil =>
    left
    have hw : s.rxWord i = { i.rx with rxSt := false, rxEnd := false } := by
      unfold rxWord
      rw [htodo]
      rfl
    have hrx : (s.step i).tlp.rx = s.tlp.rx.always (s.rxWord i) := by
      rw [rx_step, TlpRx.step_quiet hst (by rw [hw])]
    refine ⟨?_, by rw [hrx]; rfl, [], ?_, hrs⟩
    · rw [hrx, hw]
      exact hst
    · change s.todo.tail = _
      rw [htodo]
      rfl
  | cons a as =>
    obtain ⟨gap, hquiet, r⟩ := a
    cases gap with
    | nil =>
      right
      have hpos : 0 < r.words.length := by
        have := r.six_le_headLen
        rw [MemReq.length_words, MemReq.length_body]
        omega
      have hfirst : s.todo = r.words.drop 0 ++ traffic as := htodo
      obtain ⟨hw, hnext⟩ := rxWord_of_drop (i := i) hfirst hpos
      have hinside : (s.step i).tlp.rx.Inside r 1 := TlpRx.inside_head0 hst hw
      have hlt : 1 < r.headLen := Nat.lt_of_lt_of_le (by decide) r.six_le_headLen
      exact ⟨r, le_refl 1, hlt, hinside, as, hnext, hrs⟩
    | cons w gap =>
      left
      have hw : s.rxWord i = w := by
        unfold rxWord
        rw [htodo]
        rfl
      obtain ⟨hstart, hend⟩ := hquiet w List.mem_cons_self
      have hrx : (s.step i).tlp.rx = s.tlp.rx.always w := by
        rw [rx_step, hw, TlpRx.step_quiet hst hstart]
      have htail : ∀ x ∈ gap, x.rxSt = false ∧ x.rxEnd = false :=
        fun x hx => hquiet x (List.mem_cons_of_mem w hx)
      refine ⟨?_, by rw [hrx]; rfl, ⟨gap, htail, r⟩ :: as, ?_, hrs⟩
      · rw [hrx]
        change (if w.rxEnd then _ else _) = _
        rw [hend]
        exact hst
      · change s.todo.tail = _
        rw [htodo]
        rfl

/-- A word of the header but the last one. -/
theorem header_step (h : s.Header r n rs) (hn : n + 1 < r.headLen) :
    (s.step i).Header r (n + 1) rs := by
  obtain ⟨hpos, hlt, hinside, as, htodo, hrs⟩ := h
  obtain ⟨hw, hnext⟩ := rxWord_of_drop (i := i) htodo (by
    rw [MemReq.length_words, MemReq.length_body]
    omega)
  have hinside' : (s.step i).tlp.rx.Inside r (n + 1) := TlpRx.inside_step hpos hn hinside hw
  exact ⟨by omega, hn, hinside', as, hnext, hrs⟩

/-- The last word of the header, in whose cycle the request is announced. -/
theorem header_last (h : s.Header r n rs) (hn : n + 1 = r.headLen) :
    (s.rxWord i).rxBarHit = r.barHit ∧ (s.step i).tlp.rx.Holds r r.headLen ∧
      ∃ rs', rs = r :: rs' ∧
        if r.write then (s.step i).Body r 0 rs' else (s.step i).Between rs' := by
  obtain ⟨hpos, hlt, hinside, as, htodo, hrs⟩ := h
  obtain ⟨hw, hnext⟩ := rxWord_of_drop (i := i) htodo (by
    rw [MemReq.length_words, MemReq.length_body]
    omega)
  obtain ⟨-, hend, -, hbar⟩ := MemReq.words_getElem hw
  obtain ⟨m, rfl⟩ : ∃ m, n = m + 1 := ⟨n - 1, by omega⟩
  obtain ⟨hholds, hst, hv⟩ := TlpRx.holds_req7 hn.symm hinside hw
  refine ⟨hbar, hholds, as.map Arrival.req, hrs, ?_⟩
  have hlen := r.length_body
  have hdws := r.dws_pos
  cases hwrite : r.write with
  | true =>
    have hdata := MemReq.data_of_write hwrite
    rw [hend, decide_eq_false (by omega)] at hst
    refine ⟨hwrite, by omega, hst, hv, hholds, as, ?_, rfl⟩
    rw [hnext, hn]
    rfl
  | false =>
    have hdata := congrArg List.length (MemReq.data_of_read hwrite)
    rw [List.length_nil] at hdata
    rw [hend, decide_eq_true (by omega)] at hst
    refine ⟨hst, hv, as, ?_, rfl⟩
    rw [hnext, List.drop_eq_nil_of_le (by rw [MemReq.length_words]; omega)]
    rfl

/-- A word of the data. -/
theorem body_step (h : s.Body r j rs) :
    r.data[j]? = some (s.step i).tlp.rx.rxData2 ∧
      (s.step i).tlp.rx.rxEnd2 = decide (j + 1 = 2 * r.dws) ∧
      (s.step i).tlp.rx.Holds r r.headLen ∧
        if j + 1 = 2 * r.dws then (s.step i).Between rs else (s.step i).Body r (j + 1) rs := by
  obtain ⟨hwrite, hlt, hst, hv, hholds, as, htodo, hrs⟩ := h
  have hlen := r.length_body
  have hdata := MemReq.data_of_write hwrite
  obtain ⟨hw, hnext⟩ := rxWord_of_drop (i := i) htodo (by
    rw [MemReq.length_words]
    omega)
  obtain ⟨-, hend, hd, -⟩ := MemReq.words_getElem hw
  have hrx : (s.step i).tlp.rx = s.tlp.rx.always (s.rxWord i) := by
    rw [rx_step, TlpRx.step_req hst]
  have hst' : (s.step i).tlp.rx.rxStatus = if (s.rxWord i).rxEnd then .head0 else .req := by
    rw [hrx]
    change (if _ then _ else s.tlp.rx.rxStatus) = _
    rw [hst]
  have hv' : (s.step i).tlp.rx.rxTlphValid = false := by
    rw [hrx]
    rfl
  have hholds' : (s.step i).tlp.rx.Holds r r.headLen := by
    rw [hrx]
    exact TlpRx.holds_always hholds
  refine ⟨?_, ?_, hholds', ?_⟩
  · rw [← MemReq.data_getElem, hd, hrx]
    rfl
  · rw [hrx]
    change (s.rxWord i).rxEnd = _
    rw [hend]
    exact decide_eq_decide.2 (by omega)
  · by_cases hlast : j + 1 = 2 * r.dws
    · rw [if_pos hlast]
      rw [hend, decide_eq_true (by omega)] at hst'
      refine ⟨hst', hv', as, ?_, hrs⟩
      rw [hnext, List.drop_eq_nil_of_le (by rw [MemReq.length_words]; omega)]
      rfl
    · rw [if_neg hlast]
      rw [hend, decide_eq_false (by omega)] at hst'
      exact ⟨hwrite, by omega, hst', hv', hholds', as, hnext, hrs⟩

/-- A request after `n` quiet cycles. -/
def after (n : ℕ) (r : MemReq) : Arrival where
  gap := List.replicate n ⟨false, false, 0, 0⟩
  quiet := fun w hw => by
    rw [List.eq_of_mem_replicate hw]
    exact ⟨rfl, rfl⟩
  req := r

end HostSide

end IpNuma
