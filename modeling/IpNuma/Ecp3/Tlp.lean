import IpNuma.Clocked.Run
import IpNuma.Ecp3.TlpRx

/-!
# TLPs and the receiver

A TLP of any type is a header of six or eight words and what follows it.  `Amid t n` is what the
receiver knows of the TLP `t` after `n` of its words: the first two words are decoded for every
type, the rest of the header only for requests, which are announced by `rx_tlph_valid` after all but
the last word of the header.
-/

namespace IpNuma

open Clocked

/-- A TLP.  The third to the last word of the header are called as in a request. -/
structure Tlp where
  /-- The TLP has data. -/
  dataFmt : Bool
  /-- The header has four DW. -/
  long : Bool
  type : BitVec 5
  length : BitVec 10
  reqid : BitVec 16
  tag : BitVec 8
  lastbe : BitVec 4
  firstbe : BitVec 4
  addr : BitVec 64
  /-- The data and the digest. -/
  data : List (BitVec 16)
  barHit : BitVec 7
  /-- Bits of the first two words that the receiver does not look at. -/
  reserved : Bool
  traffic : BitVec 8
  attr : BitVec 6

namespace Tlp

variable (t : Tlp)

def fmt : BitVec 2 := BitVec.ofBool t.dataFmt ++ BitVec.ofBool t.long

/-- A completion, whose header is not decoded beyond its length. -/
def isCpl : Bool := t.type.getLsbD 3

/-- The upper part of the address, which only a long header has. -/
def high : BitVec 16 := if t.long then t.addr.extractLsb' 32 16 else 0

def mid : BitVec 16 := t.addr.extractLsb' 16 16

def low : BitVec 16 := t.addr.extractLsb' 0 16

def addrWords : List (BitVec 16) :=
  if t.long then [t.addr.extractLsb' 48 16, t.high, t.mid, t.low] else [t.mid, t.low]

def word0 : BitVec 16 := BitVec.ofBool t.reserved ++ t.fmt ++ t.type ++ t.traffic

def header : List (BitVec 16) :=
  t.word0 :: (t.attr ++ t.length) :: t.reqid :: (t.tag ++ t.lastbe ++ t.firstbe) :: t.addrWords

def headLen : ℕ := if t.long then 8 else 6

def body : List (BitVec 16) := t.header ++ t.data

/-- The cycles in which the TLP is received. -/
def words : List RxWord :=
  t.body.mapIdx fun j d => ⟨decide (j = 0), decide (j + 1 = t.body.length), d, t.barHit⟩

variable {t} {n : ℕ} {w : RxWord}

theorem six_le_headLen : 6 ≤ t.headLen := by
  unfold headLen
  split <;> omega

theorem length_header : t.header.length = t.headLen := by
  unfold header addrWords headLen
  cases t.long <;> rfl

theorem length_body : t.body.length = t.headLen + t.data.length := by
  unfold body
  rw [List.length_append, length_header]

theorem length_words : t.words.length = t.body.length := List.length_mapIdx

/-- A word of a TLP. -/
theorem words_getElem (h : t.words[n]? = some w) :
    w.rxSt = decide (n = 0) ∧ w.rxEnd = decide (n + 1 = t.body.length) ∧
      t.body[n]? = some w.rxData ∧ w.rxBarHit = t.barHit := by
  unfold words at h
  rw [List.getElem?_mapIdx] at h
  obtain ⟨d, hd, rfl⟩ := Option.map_eq_some_iff.1 h
  exact ⟨rfl, rfl, hd, rfl⟩

theorem header_getElem (hn : n < t.headLen) : t.body[n]? = t.header[n]? :=
  List.getElem?_append_left (by rw [length_header]; exact hn)

theorem fmt_long (t : Tlp) : t.fmt.getLsbD 0 = t.long := by
  unfold fmt
  cases t.dataFmt <;> cases t.long <;> rfl

theorem fmt_dataFmt (t : Tlp) : t.fmt.getLsbD 1 = t.dataFmt := by
  unfold fmt
  cases t.dataFmt <;> cases t.long <;> rfl

theorem headLen_long (h : t.long = true) : t.headLen = 8 := if_pos h

theorem headLen_short (h : t.long = false) : t.headLen = 6 := by
  unfold headLen
  rw [h]
  rfl

theorem headLen_cases (hn : t.headLen = n + 2) :
    t.long = false ∧ n = 4 ∨ t.long = true ∧ n = 6 := by
  cases hlong : t.long with
  | false =>
    rw [headLen_short hlong] at hn
    exact .inl ⟨rfl, by omega⟩
  | true =>
    rw [headLen_long hlong] at hn
    exact .inr ⟨rfl, by omega⟩

theorem addrWords_getElem (hn : t.headLen = n + 2) :
    t.header[n]? = some t.mid ∧ t.header[n + 1]? = some t.low := by
  unfold header addrWords
  rcases headLen_cases hn with ⟨hlong, rfl⟩ | ⟨hlong, rfl⟩ <;> rw [hlong] <;> exact ⟨rfl, rfl⟩

end Tlp

/-! ### The receiver -/

namespace TlpRx

/-- The state in which word `n` of a request is received. -/
def stateAt (long : Bool) : ℕ → TlpRxState
  | 0 => .head0
  | 1 => .head1
  | 2 => .req2
  | 3 => .req3
  | 4 => if long then .req4 else .req6
  | 5 => if long then .req5 else .req7
  | 6 => if long then .req6 else .req
  | 7 => if long then .req7 else .req
  | _ => .req

/-- The state in which word `n` of a TLP is received. -/
def statusAt (t : Tlp) (n : ℕ) : TlpRxState :=
  if t.isCpl ∧ 2 ≤ n then .comp2 else stateAt t.long n

/-- The registers have the fields in the first `n` words of a TLP. -/
structure Has (t : Tlp) (n : ℕ) (s : TlpRx) : Prop where
  head : 1 ≤ n → s.rxComm = commOf t.word0 ∧ s.rxFmt = t.fmt ∧ s.rxType = t.type
  length : 2 ≤ n → s.rxLength = t.length
  reqid : 3 ≤ n → t.isCpl = false → s.rxReqid = t.reqid
  bytes : 4 ≤ n → t.isCpl = false →
    s.rxTag = t.tag ∧ s.rxLastbe = t.lastbe ∧ s.rxFirstbe = t.firstbe
  high : t.headLen ≤ n + 2 → t.isCpl = false → s.rxAddr.extractLsb' 30 16 = t.high
  mid : t.headLen ≤ n + 1 → t.isCpl = false → s.rxAddr.extractLsb' 14 16 = t.mid
  low : t.headLen ≤ n → t.isCpl = false → s.rxAddr.extractLsb' 0 14 = t.low.extractLsb' 2 14

/-- The receiver after `n` words of a TLP. -/
structure Amid (t : Tlp) (n : ℕ) (s : TlpRx) : Prop where
  status : s.rxStatus = statusAt t n
  valid : s.rxTlphValid = decide (t.isCpl = false ∧ n + 1 = t.headLen)
  has : s.Has t n

/-- What a word leads to: the next one of the TLP, or `RX_HEAD0` with its end. -/
structure Takes (t : Tlp) (n : ℕ) (w : RxWord) (s : TlpRx) : Prop where
  status : s.rxStatus = if w.rxEnd then .head0 else statusAt t (n + 1)
  valid : s.rxTlphValid = decide (t.isCpl = false ∧ n + 2 = t.headLen)
  has : s.Has t (n + 1)

variable {t : Tlp} {s : TlpRx} {w : RxWord} {n : ℕ}

theorem rxEnd_of_lt (hw : t.words[n]? = some w) (hn : n + 1 < t.headLen) : w.rxEnd = false := by
  obtain ⟨-, hend, -, -⟩ := Tlp.words_getElem hw
  have hlen := t.length_body
  exact hend.trans (decide_eq_false (by omega))

/-- The first word of a TLP. -/
theorem takes_head0 (hst : s.rxStatus = .head0) (hw : t.words[0]? = some w) :
    (s.step w).Takes t 0 w := by
  obtain ⟨hstart, -, hd, -⟩ := Tlp.words_getElem hw
  have hdata : w.rxData = t.word0 := (Option.some.inj hd).symm
  have hlen := t.six_le_headLen
  have hend := rxEnd_of_lt hw (by omega)
  have hstep : s.step w = { always s w with
      rxFmt := w.rxData.extractLsb' 13 2
      rxType := w.rxData.extractLsb' 8 5
      rxComm := commOf w.rxData
      rxStatus := .head1 } := by
    unfold step
    rw [hst]
    exact if_pos hstart
  rw [hstep]
  refine ⟨?_, (decide_eq_false (by omega)).symm, ⟨fun _ => ⟨?_, ?_, ?_⟩, ?_, ?_, ?_, ?_, ?_, ?_⟩⟩
  · rw [hend, if_neg Bool.false_ne_true]
    unfold statusAt
    rw [if_neg (by omega)]
    rfl
  · exact congrArg commOf hdata
  · change w.rxData.extractLsb' 13 2 = _
    rw [hdata]
    unfold Tlp.word0
    rw [extractLsb'_append_high _ _ _ _ (by omega), extractLsb'_append_high _ _ _ _ (by omega),
      extractLsb'_append_low _ _ _ _ (by omega)]
    exact BitVec.extractLsb'_eq_self
  · change w.rxData.extractLsb' 8 5 = _
    rw [hdata]
    unfold Tlp.word0
    rw [extractLsb'_append_high _ _ _ _ (by omega), extractLsb'_append_low _ _ _ _ (by omega)]
    exact BitVec.extractLsb'_eq_self
  all_goals
    intro h
    omega

theorem statusAt_head1 (t : Tlp) : statusAt t 1 = .head1 := by
  unfold statusAt
  rw [if_neg (by omega)]
  rfl

theorem statusAt_cpl (h : t.isCpl = true) (hn : 2 ≤ n) : statusAt t n = .comp2 := by
  unfold statusAt
  rw [if_pos ⟨h, hn⟩]

theorem statusAt_req (h : t.isCpl = false) : statusAt t n = stateAt t.long n := by
  unfold statusAt
  rw [if_neg (by rw [h]; exact fun h => Bool.false_ne_true h.1)]

/-- The second word of a TLP. -/
theorem takes_head1 (h : s.Amid t 1) (hw : t.words[1]? = some w) : (s.step w).Takes t 1 w := by
  obtain ⟨-, -, hd, -⟩ := Tlp.words_getElem hw
  have hdata : w.rxData = t.attr ++ t.length := (Option.some.inj hd).symm
  have hlen := t.six_le_headLen
  have hend := rxEnd_of_lt hw (by omega)
  obtain ⟨hcomm, hfmt, htype⟩ := h.has.head (le_refl 1)
  have hstep : s.step w = { always s w with
      rxLength := w.rxData.extractLsb' 0 10
      rxStatus := if s.rxType.getLsbD 3 then .comp2 else .req2 } := by
    unfold step
    rw [h.status, statusAt_head1]
  rw [hstep]
  refine ⟨?_, (decide_eq_false (by omega)).symm,
    ⟨fun _ => ⟨hcomm, hfmt, htype⟩, fun _ => ?_, ?_, ?_, ?_, ?_, ?_⟩⟩
  · change (if s.rxType.getLsbD 3 then TlpRxState.comp2 else .req2) = _
    rw [hend, if_neg Bool.false_ne_true, htype]
    cases hcpl : t.isCpl with
    | true =>
      rw [statusAt_cpl hcpl (le_refl 2)]
      exact if_pos hcpl
    | false =>
      rw [statusAt_req hcpl]
      exact if_neg (by rw [show t.type.getLsbD 3 = false from hcpl]; exact Bool.false_ne_true)
  · change w.rxData.extractLsb' 0 10 = _
    rw [hdata, extractLsb'_append_low _ _ _ _ (by omega)]
    exact BitVec.extractLsb'_eq_self
  all_goals
    intro h
    omega

/-- A word of a completion after the first two. -/
theorem takes_comp2 (hcpl : t.isCpl = true) (hn : 2 ≤ n) (h : s.Amid t n) :
    (s.step w).Takes t n w := by
  have hst : s.rxStatus = .comp2 := h.status.trans (statusAt_cpl hcpl hn)
  have hstep : s.step w = always s w := by
    unfold step
    rw [hst]
  have hno : t.isCpl ≠ false := by
    rw [hcpl]
    decide
  have hvalid : decide (t.isCpl = false ∧ n + 2 = t.headLen) = false :=
    decide_eq_false fun h => hno h.1
  rw [hstep]
  refine ⟨?_, hvalid.symm, ⟨fun _ => h.has.head (by omega), fun _ => h.has.length hn,
    fun _ hreq => absurd hreq hno, fun _ hreq => absurd hreq hno, fun _ hreq => absurd hreq hno,
    fun _ hreq => absurd hreq hno, fun _ hreq => absurd hreq hno⟩⟩
  change (if w.rxEnd then TlpRxState.head0 else s.rxStatus) = _
  rw [hst, statusAt_cpl hcpl (by omega)]

/-! #### The header of a request -/

/-- Nothing is announced. -/
theorem not_announced (hn : n + 2 ≠ t.headLen) :
    decide (t.isCpl = false ∧ n + 2 = t.headLen) = false :=
  decide_eq_false fun h => hn h.2

section Request

variable (hreq : t.isCpl = false)
include hreq

theorem Amid.status_req (h : s.Amid t n) : s.rxStatus = stateAt t.long n :=
  h.status.trans (statusAt_req hreq)

theorem takes_req2 (h : s.Amid t 2) (hw : t.words[2]? = some w) : (s.step w).Takes t 2 w := by
  obtain ⟨-, -, hd, -⟩ := Tlp.words_getElem hw
  have hlen := t.six_le_headLen
  have hend := rxEnd_of_lt hw (by omega)
  have hstep : s.step w = { always s w with rxReqid := w.rxData, rxStatus := .req3 } := by
    unfold step
    rw [h.status_req hreq]
    rfl
  rw [hstep]
  refine ⟨?_, (not_announced (by omega)).symm, ⟨fun _ => h.has.head (by omega),
    fun _ => h.has.length (by omega), fun _ _ => (Option.some.inj hd).symm, ?_, ?_, ?_, ?_⟩⟩
  · rw [hend, if_neg Bool.false_ne_true, statusAt_req hreq]
    rfl
  all_goals
    intro h
    omega

theorem takes_req3 (h : s.Amid t 3) (hw : t.words[3]? = some w) : (s.step w).Takes t 3 w := by
  obtain ⟨-, -, hd, -⟩ := Tlp.words_getElem hw
  have hdata : w.rxData = t.tag ++ t.lastbe ++ t.firstbe := (Option.some.inj hd).symm
  have hlen := t.six_le_headLen
  have hend := rxEnd_of_lt hw (by omega)
  have hhead := h.has.head (by omega)
  have hstep : s.step w = { always s w with
      rxTag := w.rxData.extractLsb' 8 8
      rxLastbe := w.rxData.extractLsb' 4 4
      rxFirstbe := w.rxData.extractLsb' 0 4
      rxAddr := if t.long then s.rxAddr else setSlice s.rxAddr 30 0#16
      rxStatus := stateAt t.long 4 } := by
    unfold step
    rw [h.status_req hreq, hhead.2.1, Tlp.fmt_long]
    rfl
  rw [hstep]
  refine ⟨?_, (not_announced (by omega)).symm, ⟨fun _ => hhead,
    fun _ => h.has.length (by omega), fun _ => h.has.reqid (by omega), fun _ _ => ⟨?_, ?_, ?_⟩,
    fun hle _ => ?_, ?_, ?_⟩⟩
  · rw [hend, if_neg Bool.false_ne_true, statusAt_req hreq]
  · change w.rxData.extractLsb' 8 8 = _
    rw [hdata, extractLsb'_append_high _ _ _ _ (by omega),
      extractLsb'_append_high _ _ _ _ (by omega)]
    exact BitVec.extractLsb'_eq_self
  · change w.rxData.extractLsb' 4 4 = _
    rw [hdata, extractLsb'_append_high _ _ _ _ (by omega),
      extractLsb'_append_low _ _ _ _ (by omega)]
    exact BitVec.extractLsb'_eq_self
  · change w.rxData.extractLsb' 0 4 = _
    rw [hdata, extractLsb'_append_low _ _ _ _ (by omega)]
    exact BitVec.extractLsb'_eq_self
  · have hshort : t.long = false := by
      by_contra hlong
      rw [Tlp.headLen_long (Bool.eq_true_of_not_eq_false hlong)] at hle
      omega
    unfold Tlp.high
    rw [hshort]
    change (setSlice s.rxAddr 30 0#16).extractLsb' 30 16 = 0
    exact extractLsb'_setSlice_self _ _ (by decide)
  all_goals
    intro h
    omega

theorem takes_req4 (hlong : t.long = true) (h : s.Amid t 4) (hw : t.words[4]? = some w) :
    (s.step w).Takes t 4 w := by
  have hlen := Tlp.headLen_long hlong
  have hend := rxEnd_of_lt hw (by omega)
  have hst := h.status_req hreq
  rw [hlong] at hst
  have hstep : s.step w = { always s w with rxStatus := .req5 } := by
    unfold step
    rw [hst]
    rfl
  rw [hstep]
  refine ⟨?_, (not_announced (by omega)).symm, ⟨fun _ => h.has.head (by omega),
    fun _ => h.has.length (by omega), fun _ => h.has.reqid (by omega),
    fun _ => h.has.bytes (by omega), ?_, ?_, ?_⟩⟩
  · rw [hend, if_neg Bool.false_ne_true, statusAt_req hreq, hlong]
    rfl
  all_goals
    intro h
    omega

theorem takes_req5 (hlong : t.long = true) (h : s.Amid t 5) (hw : t.words[5]? = some w) :
    (s.step w).Takes t 5 w := by
  obtain ⟨-, -, hd, -⟩ := Tlp.words_getElem hw
  have hlen := Tlp.headLen_long hlong
  have hend := rxEnd_of_lt hw (by omega)
  have hdata : w.rxData = t.high := by
    rw [Tlp.header_getElem (by omega)] at hd
    unfold Tlp.header Tlp.addrWords at hd
    rw [hlong] at hd
    exact (Option.some.inj hd).symm
  have hst := h.status_req hreq
  rw [hlong] at hst
  have hstep : s.step w = { always s w with
      rxAddr := setSlice s.rxAddr 30 w.rxData
      rxStatus := .req6 } := by
    unfold step
    rw [hst]
    rfl
  rw [hstep]
  refine ⟨?_, (not_announced (by omega)).symm, ⟨fun _ => h.has.head (by omega),
    fun _ => h.has.length (by omega), fun _ => h.has.reqid (by omega),
    fun _ => h.has.bytes (by omega), fun _ _ => ?_, ?_, ?_⟩⟩
  · rw [hend, if_neg Bool.false_ne_true, statusAt_req hreq, hlong]
    rfl
  · change (setSlice s.rxAddr 30 w.rxData).extractLsb' 30 16 = _
    rw [extractLsb'_setSlice_self _ _ (by decide), hdata]
  all_goals
    intro h
    omega

omit hreq in
theorem stateAt_req6 (hn : t.headLen = n + 2) :
    stateAt t.long n = .req6 ∧ stateAt t.long (n + 1) = .req7 ∧ stateAt t.long (n + 2) = .req := by
  rcases Tlp.headLen_cases hn with ⟨hlong, rfl⟩ | ⟨hlong, rfl⟩ <;> rw [hlong] <;>
    exact ⟨rfl, rfl, rfl⟩

/-- The last but one word of the header, with which the request is announced. -/
theorem takes_req6 (hn : t.headLen = n + 2) (h : s.Amid t n) (hw : t.words[n]? = some w) :
    (s.step w).Takes t n w := by
  obtain ⟨-, -, hd, -⟩ := Tlp.words_getElem hw
  have hlen := t.six_le_headLen
  have hend := rxEnd_of_lt hw (by omega)
  have hdata : w.rxData = t.mid := by
    rw [Tlp.header_getElem (by omega), (Tlp.addrWords_getElem hn).1] at hd
    exact (Option.some.inj hd).symm
  obtain ⟨hst, hst', -⟩ := stateAt_req6 hn
  have hstep : s.step w = { always s w with
      rxAddr := setSlice s.rxAddr 14 w.rxData
      rxTlphValid := true
      rxStatus := .req7 } := by
    unfold step
    rw [h.status_req hreq, hst]
  rw [hstep]
  refine ⟨?_, (decide_eq_true ⟨hreq, hn.symm⟩).symm, ⟨fun _ => h.has.head (by omega),
    fun _ => h.has.length (by omega), fun _ => h.has.reqid (by omega),
    fun _ => h.has.bytes (by omega), fun _ _ => ?_, fun _ _ => ?_, ?_⟩⟩
  · rw [hend, if_neg Bool.false_ne_true, statusAt_req hreq, hst']
  · change (setSlice s.rxAddr 14 w.rxData).extractLsb' 30 16 = _
    rw [extractLsb'_setSlice_of_apart _ _ (by decide) (by decide)]
    exact h.has.high (by omega) hreq
  · change (setSlice s.rxAddr 14 w.rxData).extractLsb' 14 16 = _
    rw [extractLsb'_setSlice_self _ _ (by decide), hdata]
  all_goals
    intro h
    omega

/-- The last word of the header. -/
theorem takes_req7 (hn : t.headLen = n + 2) (h : s.Amid t (n + 1))
    (hw : t.words[n + 1]? = some w) : (s.step w).Takes t (n + 1) w := by
  obtain ⟨-, -, hd, -⟩ := Tlp.words_getElem hw
  have hlen := t.six_le_headLen
  have hdata : w.rxData = t.low := by
    rw [Tlp.header_getElem (by omega), (Tlp.addrWords_getElem hn).2] at hd
    exact (Option.some.inj hd).symm
  obtain ⟨-, hst, hst'⟩ := stateAt_req6 hn
  have hstep : s.step w = { always s w with
      rxAddr := setSlice s.rxAddr 0 (w.rxData.extractLsb' 2 14)
      rxStatus := if w.rxEnd then .head0 else .req } := by
    unfold step
    rw [h.status_req hreq, hst]
  rw [hstep]
  refine ⟨?_, (not_announced (by omega)).symm, ⟨fun _ => h.has.head (by omega),
    fun _ => h.has.length (by omega), fun _ => h.has.reqid (by omega),
    fun _ => h.has.bytes (by omega), fun _ _ => ?_, fun _ _ => ?_, fun _ _ => ?_⟩⟩
  · rw [statusAt_req hreq, hst']
  · change (setSlice s.rxAddr 0 _).extractLsb' 30 16 = _
    rw [extractLsb'_setSlice_of_apart _ _ (by decide) (by decide)]
    exact h.has.high (by omega) hreq
  · change (setSlice s.rxAddr 0 _).extractLsb' 14 16 = _
    rw [extractLsb'_setSlice_of_apart _ _ (by decide) (by decide)]
    exact h.has.mid (by omega) hreq
  · change (setSlice s.rxAddr 0 (w.rxData.extractLsb' 2 14)).extractLsb' 0 14 = _
    rw [extractLsb'_setSlice_self _ _ (by decide), hdata]

omit hreq in
theorem stateAt_req (hn : t.headLen ≤ n) : stateAt t.long n = .req := by
  cases hlong : t.long with
  | false =>
    rw [Tlp.headLen_short hlong] at hn
    match n, hn with
    | 6, _ => rfl
    | 7, _ => rfl
    | _ + 8, _ => rfl
  | true =>
    rw [Tlp.headLen_long hlong] at hn
    match n, hn with
    | _ + 8, _ => rfl

/-- A word behind the header. -/
theorem takes_req (hn : t.headLen ≤ n) (h : s.Amid t n) : (s.step w).Takes t n w := by
  have hlen := t.six_le_headLen
  have hst : s.rxStatus = .req := (h.status_req hreq).trans (stateAt_req hn)
  have hstep : s.step w = always s w := by
    unfold step
    rw [hst]
  rw [hstep]
  refine ⟨?_, (not_announced (by omega)).symm, ⟨fun _ => h.has.head (by omega),
    fun _ => h.has.length (by omega), fun _ => h.has.reqid (by omega),
    fun _ => h.has.bytes (by omega), fun _ => h.has.high (by omega), fun _ => h.has.mid (by omega),
    fun _ => h.has.low hn⟩⟩
  change (if w.rxEnd then TlpRxState.head0 else s.rxStatus) = _
  rw [hst, statusAt_req hreq, stateAt_req (by omega)]

end Request

/-! #### A whole TLP -/

/-- **A word of a TLP.** -/
theorem takes_step (hn : 1 ≤ n) (h : s.Amid t n) (hw : t.words[n]? = some w) :
    (s.step w).Takes t n w := by
  have hlen := t.six_le_headLen
  by_cases h1 : n = 1
  · subst h1
    exact takes_head1 h hw
  · cases hcpl : t.isCpl with
    | true => exact takes_comp2 hcpl (by omega) h
    | false =>
      by_cases hrest : t.headLen ≤ n
      · exact takes_req hcpl hrest h
      · have hle : t.headLen ≤ 8 := by
          unfold Tlp.headLen
          split <;> omega
        by_cases h6 : t.headLen = n + 2
        · exact takes_req6 hcpl h6 h hw
        · by_cases h7 : t.headLen = n + 1
          · obtain ⟨m, rfl⟩ : ∃ m, n = m + 1 := ⟨n - 1, by omega⟩
            exact takes_req7 hcpl h7 h hw
          · have hcase : n = 2 ∨ n = 3 ∨ n = 4 ∨ n = 5 := by omega
            have hlong : 4 ≤ n → t.long = true := by
              intro h4
              by_contra hshort
              rw [Tlp.headLen_short (Bool.eq_false_of_not_eq_true hshort)] at hrest h6 h7
              omega
            rcases hcase with rfl | rfl | rfl | rfl
            · exact takes_req2 hcpl h hw
            · exact takes_req3 hcpl h hw
            · exact takes_req4 hcpl (hlong (by omega)) h hw
            · exact takes_req5 hcpl (hlong (by omega)) h hw

/-- A word that is not the last one. -/
theorem Takes.amid (h : s.Takes t n w) (hend : w.rxEnd = false) : s.Amid t (n + 1) :=
  ⟨h.status.trans (by rw [hend, if_neg Bool.false_ne_true]), h.valid, h.has⟩

/-- The receiver in the words of a TLP. -/
theorem takes_run (hst : s.rxStatus = .head0) (hn : n < t.body.length) :
    ∃ w, t.words[n]? = some w ∧ (run step s (t.words.take (n + 1))).Takes t n w := by
  induction n with
  | zero =>
    obtain ⟨w, hw⟩ : ∃ w, t.words[0]? = some w :=
      ⟨_, List.getElem?_eq_getElem (by rw [Tlp.length_words]; exact hn)⟩
    rw [List.take_add_one, hw]
    exact ⟨w, rfl, takes_head0 hst hw⟩
  | succ n ih =>
    obtain ⟨w, hw, htakes⟩ := ih (by omega)
    obtain ⟨w', hw'⟩ : ∃ w, t.words[n + 1]? = some w :=
      ⟨_, List.getElem?_eq_getElem (by rw [Tlp.length_words]; exact hn)⟩
    obtain ⟨-, hend, -, -⟩ := Tlp.words_getElem hw
    have hamid := htakes.amid (hend.trans (decide_eq_false (by omega)))
    rw [List.take_add_one, hw', Option.toList_some, run_concat]
    exact ⟨w', rfl, takes_step (by omega) hamid hw'⟩

/-- Quiet cycles change nothing in `RX_HEAD0`. -/
theorem status_quiet {gap : List RxWord} (hst : s.rxStatus = .head0)
    (hgap : ∀ w ∈ gap, w.rxSt = false) : (run step s gap).rxStatus = .head0 := by
  induction gap generalizing s with
  | nil => exact hst
  | cons w gap ih =>
    rw [List.forall_mem_cons] at hgap
    have hstep : s.step w = always s w := by
      unfold step
      rw [hst]
      exact if_neg (by rw [hgap.1]; exact Bool.false_ne_true)
    refine ih ?_ hgap.2
    rw [hstep]
    change (if w.rxEnd then TlpRxState.head0 else s.rxStatus) = _
    rw [hst, ite_self]

/-- The receiver after a TLP. -/
theorem takes_words (hst : s.rxStatus = .head0) :
    (run step s t.words).rxStatus = .head0 ∧ (run step s t.words).Has t t.body.length := by
  have hpos : 0 < t.body.length := by
    have := t.six_le_headLen
    rw [Tlp.length_body]
    omega
  obtain ⟨n, hn⟩ : ∃ n, t.body.length = n + 1 := ⟨t.body.length - 1, by omega⟩
  obtain ⟨w, hw, htakes⟩ := takes_run hst (show n < t.body.length by omega)
  obtain ⟨-, hend, -, -⟩ := Tlp.words_getElem hw
  rw [List.take_of_length_le (by rw [Tlp.length_words]; omega)] at htakes
  rw [hn]
  exact ⟨htakes.status.trans (if_pos (hend.trans (decide_eq_true hn.symm))), htakes.has⟩

end TlpRx

end IpNuma
