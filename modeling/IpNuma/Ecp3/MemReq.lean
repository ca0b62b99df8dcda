import IpNuma.Ecp3.Tlp
import IpNuma.Ecp3.TlpSlave

/-!
# Memory requests and the receiver

A request is a header of six or eight words and, for a write, its data.  `Inside r n` is what the
receiver knows of the request `r` after `n` of its words; the pulse of `rx_tlph_valid` is there
after all but the last word of the header.
-/

namespace IpNuma

open Clocked

/-- A memory read or write, without digest. -/
structure MemReq where
  write : Bool
  /-- The header has four DW. -/
  long : Bool
  /-- The length field; zero stands for 1024 DW. -/
  length : BitVec 10
  reqid : BitVec 16
  tag : BitVec 8
  lastbe : BitVec 4
  firstbe : BitVec 4
  addr : BitVec 64
  data : List (BitVec 16)
  barHit : BitVec 7
  /-- Bits of the first two words that the receiver does not look at. -/
  reserved : Bool
  traffic : BitVec 8
  attr : BitVec 6
  length_data : data.length =
    if write then 2 * (if length = 0 then 1024 else length.toNat) else 0

namespace MemReq

theorem length_data_read (length : BitVec 10) : ([] : List (BitVec 16)).length =
    if false then 2 * (if length = 0 then 1024 else length.toNat) else 0 := rfl

variable (r : MemReq)

def dws : ℕ := if r.length = 0 then 1024 else r.length.toNat

def fmt : BitVec 2 := BitVec.ofBool r.write ++ BitVec.ofBool r.long

/-- The upper part of the address, which only a long header has. -/
def high : BitVec 16 := if r.long then r.addr.extractLsb' 32 16 else 0

def mid : BitVec 16 := r.addr.extractLsb' 16 16

def low : BitVec 16 := r.addr.extractLsb' 0 16

def addrWords : List (BitVec 16) :=
  if r.long then [r.addr.extractLsb' 48 16, r.high, r.mid, r.low] else [r.mid, r.low]

def header : List (BitVec 16) :=
  (BitVec.ofBool r.reserved ++ r.fmt ++ 0#5 ++ r.traffic) :: (r.attr ++ r.length) :: r.reqid ::
    (r.tag ++ r.lastbe ++ r.firstbe) :: r.addrWords

def headLen : ℕ := if r.long then 8 else 6

def body : List (BitVec 16) := r.header ++ r.data

/-- The cycles in which the request is received. -/
def words : List RxWord :=
  r.body.mapIdx fun j d => ⟨decide (j = 0), decide (j + 1 = r.body.length), d, r.barHit⟩

/-- The request as a TLP. -/
def tlp : Tlp where
  dataFmt := r.write
  long := r.long
  type := 0#5
  length := r.length
  reqid := r.reqid
  tag := r.tag
  lastbe := r.lastbe
  firstbe := r.firstbe
  addr := r.addr
  data := r.data
  barHit := r.barHit
  reserved := r.reserved
  traffic := r.traffic
  attr := r.attr

/-- What identifies the completion of a read. -/
def id : BitVec 16 × BitVec 8 := (r.reqid, r.tag)

/-- `slv_adr_i` of the first word. -/
def adr : BitVec 19 := r.addr.extractLsb' 2 18 ++ 0#1

/-- The select bits of a word from the byte enables of its DW. -/
def lanes (be : BitVec 4) (odd : Bool) : BitVec 2 :=
  if odd then BitVec.ofBool (be.getLsbD 2) ++ BitVec.ofBool (be.getLsbD 3)
  else BitVec.ofBool (be.getLsbD 0) ++ BitVec.ofBool (be.getLsbD 1)

/-- The select bits of word `j` of the data. -/
def select (j : ℕ) : BitVec 2 :=
  if j / 2 = 0 then lanes r.firstbe (decide (j % 2 = 1))
  else if j / 2 + 1 = r.dws then lanes r.lastbe (decide (j % 2 = 1))
  else 0b11#2

/-- `slv_bar_i`: the BAR hit, or the BAR of the BIOS ROM where a request that hits none has it. -/
def slvBar (expRom : Bool) : BitVec 7 := TlpSlave.barOf expRom r.barHit

/-- The cycle of the slave bus for word `j` of the data. -/
def access (expRom : Bool) (j : ℕ) (d : BitVec 16) : SlvBus :=
  ⟨r.slvBar expRom, true, true, r.adr + BitVec.ofNat 19 j, d, r.select j⟩

/-- The cycles of the slave bus for a write. -/
def accesses (expRom : Bool) : List SlvBus := r.data.mapIdx (r.access expRom)

/-- The completion that a read asks for. -/
def asks : List (BitVec 16 × BitVec 8) := if r.write then [] else [r.id]

variable {r}

theorem dws_pos : 0 < r.dws := by
  unfold dws
  split
  · omega
  · exact Nat.pos_of_ne_zero fun h => ‹¬ r.length = 0› (BitVec.eq_of_toNat_eq h)

theorem dws_le : r.dws ≤ 1024 := by
  unfold dws
  split <;> have := r.length.isLt <;> omega

theorem six_le_headLen : 6 ≤ r.headLen := Tlp.six_le_headLen (t := r.tlp)

theorem length_header : r.header.length = r.headLen := Tlp.length_header (t := r.tlp)

theorem length_body : r.body.length = r.headLen + r.data.length := Tlp.length_body (t := r.tlp)

theorem length_words : r.words.length = r.body.length := List.length_mapIdx

theorem data_of_write (h : r.write = true) : r.data.length = 2 * r.dws := by
  rw [r.length_data, if_pos h]
  rfl

theorem data_of_read (h : r.write = false) : r.data = [] := by
  apply List.eq_nil_of_length_eq_zero
  rw [r.length_data, if_neg (by rw [h]; exact Bool.false_ne_true)]

/-- A word of a request. -/
theorem words_getElem {n : ℕ} {w : RxWord} (h : r.words[n]? = some w) :
    w.rxSt = decide (n = 0) ∧ w.rxEnd = decide (n + 1 = r.body.length) ∧
      r.body[n]? = some w.rxData ∧ w.rxBarHit = r.barHit :=
  Tlp.words_getElem (t := r.tlp) h

theorem header_getElem {n : ℕ} (hn : n < r.headLen) : r.body[n]? = r.header[n]? :=
  Tlp.header_getElem (t := r.tlp) hn

theorem data_getElem (n : ℕ) : r.body[r.headLen + n]? = r.data[n]? := by
  unfold body
  rw [List.getElem?_append_right (by rw [length_header]; omega), length_header,
    Nat.add_sub_cancel_left]

end MemReq

/-! ### The receiver -/

namespace TlpRx

variable {r : MemReq} {s : TlpRx} {w : RxWord} {n : ℕ}

/-- The registers have the fields in the first `n` words of a request. -/
structure Holds (r : MemReq) (n : ℕ) (s : TlpRx) : Prop where
  head : 1 ≤ n → s.rxComm = .mr ∧ s.rxFmt = r.fmt ∧ s.rxType = 0
  length : 2 ≤ n → s.rxLength = r.length
  reqid : 3 ≤ n → s.rxReqid = r.reqid
  bytes : 4 ≤ n → s.rxTag = r.tag ∧ s.rxLastbe = r.lastbe ∧ s.rxFirstbe = r.firstbe
  high : r.headLen ≤ n + 2 → s.rxAddr.extractLsb' 30 16 = r.high
  mid : r.headLen ≤ n + 1 → s.rxAddr.extractLsb' 14 16 = r.mid
  low : r.headLen ≤ n → s.rxAddr.extractLsb' 0 14 = r.low.extractLsb' 2 14

/-- The receiver after `n` words of a request. -/
structure Inside (r : MemReq) (n : ℕ) (s : TlpRx) : Prop where
  status : s.rxStatus = stateAt r.long n
  valid : s.rxTlphValid = decide (n + 1 = r.headLen)
  holds : s.Holds r n

theorem commOf_header (r : MemReq) :
    commOf (BitVec.ofBool r.reserved ++ r.fmt ++ 0#5 ++ r.traffic) = .mr := by
  have h12 : (BitVec.ofBool r.reserved ++ r.fmt ++ 0#5 ++ r.traffic).getLsbD 12 = false := by
    rw [BitVec.getLsbD_append, if_neg (by omega), BitVec.getLsbD_append]
    rfl
  have h11 : (BitVec.ofBool r.reserved ++ r.fmt ++ 0#5 ++ r.traffic).getLsbD 11 = false := by
    rw [BitVec.getLsbD_append, if_neg (by omega), BitVec.getLsbD_append]
    rfl
  have h8 : (BitVec.ofBool r.reserved ++ r.fmt ++ 0#5 ++ r.traffic).extractLsb' 8 3 = 0 := by
    rw [extractLsb'_append_high _ _ _ _ (by omega), extractLsb'_append_low _ _ _ _ (by omega)]
    rfl
  unfold commOf
  rw [h12, h11, h8]
  rfl

theorem fmt_write (r : MemReq) : r.fmt.getLsbD 1 = r.write := Tlp.fmt_dataFmt r.tlp

theorem isCpl_tlp (r : MemReq) : r.tlp.isCpl = false := by
  change (0#5).getLsbD 3 = false
  decide

theorem holds_of_has (h : s.Has r.tlp n) : s.Holds r n where
  head h1 := ⟨(h.head h1).1.trans (commOf_header r), (h.head h1).2⟩
  length := h.length
  reqid h3 := h.reqid h3 (isCpl_tlp r)
  bytes h4 := h.bytes h4 (isCpl_tlp r)
  high hle := h.high hle (isCpl_tlp r)
  mid hle := h.mid hle (isCpl_tlp r)
  low hle := h.low hle (isCpl_tlp r)

theorem has_of_holds (h : s.Holds r n) : s.Has r.tlp n where
  head h1 := ⟨(h.head h1).1.trans (commOf_header r).symm, (h.head h1).2⟩
  length := h.length
  reqid h3 _ := h.reqid h3
  bytes h4 _ := h.bytes h4
  high hle _ := h.high hle
  mid hle _ := h.mid hle
  low hle _ := h.low hle

theorem announced_tlp (r : MemReq) (n : ℕ) :
    decide (r.tlp.isCpl = false ∧ n = r.tlp.headLen) = decide (n = r.headLen) :=
  decide_eq_decide.2 (and_iff_right (isCpl_tlp r))

/-- The registers in the header of a request are those in the header of its TLP. -/
theorem inside_iff : s.Inside r n ↔ s.Amid r.tlp n := by
  have hstatus : statusAt r.tlp n = stateAt r.long n := statusAt_req (isCpl_tlp r)
  have hvalid := announced_tlp r (n + 1)
  constructor
  · rintro ⟨hst, hv, hholds⟩
    exact ⟨hst.trans hstatus.symm, hv.trans hvalid.symm, has_of_holds hholds⟩
  · rintro ⟨hst, hv, hhas⟩
    exact ⟨hst.trans hstatus, hv.trans hvalid, holds_of_has hhas⟩

/-- The first word of a request. -/
theorem inside_head0 (hst : s.rxStatus = .head0) (hw : r.words[0]? = some w) :
    (s.step w).Inside r 1 := by
  have hlen := r.six_le_headLen
  have hw' : r.tlp.words[0]? = some w := hw
  have hend : w.rxEnd = false := rxEnd_of_lt hw' (show 0 + 1 < r.headLen by omega)
  exact inside_iff.2 ((takes_head0 hst hw').amid hend)

/-- A word of the header but the last one. -/
theorem inside_step (hn : 1 ≤ n) (hlt : n + 1 < r.headLen) (h : s.Inside r n)
    (hw : r.words[n]? = some w) : (s.step w).Inside r (n + 1) := by
  have hw' : r.tlp.words[n]? = some w := hw
  have hend : w.rxEnd = false := rxEnd_of_lt hw' hlt
  exact inside_iff.2 ((takes_step hn (inside_iff.1 h) hw').amid hend)

/-- The registers after a whole header. -/
theorem holds_req7 (hn : r.headLen = n + 2) (h : s.Inside r (n + 1))
    (hw : r.words[n + 1]? = some w) : (s.step w).Holds r r.headLen ∧
      (s.step w).rxStatus = (if w.rxEnd then .head0 else .req) ∧
      (s.step w).rxTlphValid = false := by
  have hw' : r.tlp.words[n + 1]? = some w := hw
  obtain ⟨hst, hv, hhas⟩ := takes_step (by omega) (inside_iff.1 h) hw'
  have hreq : statusAt r.tlp (n + 2) = .req :=
    (statusAt_req (isCpl_tlp r)).trans (stateAt_req (t := r.tlp) (le_of_eq hn))
  rw [hreq] at hst
  refine ⟨?_, hst, hv.trans ((announced_tlp r _).trans (decide_eq_false (by omega)))⟩
  rw [hn]
  exact holds_of_has hhas

/-- The receiver in the header of a request. -/
theorem inside_run (hst : s.rxStatus = .head0) (hpos : 1 ≤ n) (hn : n < r.headLen) :
    (run step s (r.words.take n)).Inside r n := by
  have hlen : ∀ k < n, k < r.words.length := by
    intro k hk
    rw [MemReq.length_words, MemReq.length_body]
    omega
  induction n, hpos using Nat.le_induction with
  | base =>
    have h0 := List.getElem?_eq_getElem (hlen 0 (by omega))
    have htake : r.words.take 1 = [r.words.get ⟨0, hlen 0 (by omega)⟩] := by
      rw [List.take_add_one, h0]
      rfl
    rw [htake]
    exact inside_head0 hst h0
  | succ n hpos ih =>
    have hget := List.getElem?_eq_getElem (hlen n (by omega))
    rw [List.take_add_one, hget, Option.toList_some, run_concat]
    exact inside_step hpos hn (ih (by omega) fun k hk => hlen k (by omega)) hget

/-- A word after the header. -/
theorem step_req (hst : s.rxStatus = .req) : s.step w = always s w := by
  unfold step
  rw [hst]

/-- A word between two requests. -/
theorem step_quiet (hst : s.rxStatus = .head0) (hw : w.rxSt = false) : s.step w = always s w := by
  unfold step
  rw [hst]
  exact if_neg (by rw [hw]; exact Bool.false_ne_true)

/-- The build stays. -/
theorem expRom_run (s : TlpRx) (ws : List RxWord) : (run step s ws).expRom = s.expRom := by
  induction ws generalizing s with
  | nil => rfl
  | cons w ws ih => rw [run_cons, ih, expRom_step]

theorem holds_always (h : s.Holds r n) : (s.always w).Holds r n :=
  ⟨h.head, h.length, h.reqid, h.bytes, h.high, h.mid, h.low⟩

end TlpRx

end IpNuma
