import IpNuma.Ecp3.Tlp
import IpNuma.Ecp3.TlpTx

/-!
# Flow-control credits

The credits that the receiver returns at the end of a TLP come from registers of its first two words
and from `rx_bar_hit`.  Over TLPs of all kinds, back to back or spaced, they are the credits that
the TLPs have consumed (`credits_conserved`), with one pulse behind the end of a TLP and none
elsewhere.
-/

namespace IpNuma

open Clocked

/-- The kinds of TLPs. -/
inductive TlpKind
  | mrd
  | mrdLk
  | mwr
  | io (write : Bool)
  | cfg0 (write : Bool)
  | cfg1 (write : Bool)
  | msg (routing : BitVec 3) (data : Bool)
  | cpl (data : Bool)
  | cplLk (data : Bool)

namespace TlpKind

/-- The type field. -/
def type : TlpKind → BitVec 5
  | mrd => 0b00000#5
  | mrdLk => 0b00001#5
  | mwr => 0b00000#5
  | io _ => 0b00010#5
  | cfg0 _ => 0b00100#5
  | cfg1 _ => 0b00101#5
  | msg routing _ => 0b10#2 ++ routing
  | cpl _ => 0b01010#5
  | cplLk _ => 0b01011#5

/-- The TLP has data. -/
def hasData : TlpKind → Bool
  | mrd => false
  | mrdLk => false
  | mwr => true
  | io write => write
  | cfg0 write => write
  | cfg1 write => write
  | msg _ data => data
  | cpl data => data
  | cplLk data => data

def isMem : TlpKind → Bool
  | mrd => true
  | mrdLk => true
  | mwr => true
  | _ => false

/-- An I/O or configuration request. -/
def isIoCfg : TlpKind → Bool
  | io _ => true
  | cfg0 _ => true
  | cfg1 _ => true
  | _ => false

def isMsg : TlpKind → Bool
  | msg _ _ => true
  | _ => false

/-- `rx_comm`. -/
def comm : TlpKind → TlpComm
  | mrd => .mr
  | mrdLk => .mrdLk
  | mwr => .mr
  | io _ => .io
  | cfg0 _ => .cfg0
  | cfg1 _ => .cfg1
  | msg _ _ => .msg
  | cpl _ => .cpl
  | cplLk _ => .cplLk

end TlpKind

/-- The kinds of credits: headers and data of posted and non-posted requests. -/
inductive Credit
  | ph
  | pd
  | nph
  | npd

/-- The credits that a TLP with `n` DW of data consumes. -/
def TlpKind.consumes (k : TlpKind) (n : ℕ) : Credit → ℕ
  | .ph => if k.isMsg ∨ k.isMem ∧ k.hasData then 1 else 0
  | .pd => if (k.isMsg ∨ k.isMem) ∧ k.hasData then (n + 3) / 4 else 0
  | .nph => if k.isIoCfg ∨ k.isMem ∧ ¬ k.hasData then 1 else 0
  | .npd => if k.isIoCfg ∧ k.hasData then 1 else 0

/-- The credits in a cycle. -/
def RxCredits.count (c : RxCredits) : Credit → ℕ
  | .ph => c.phCr.toNat
  | .pd => if c.pdCr then c.pdNum.toNat else 0
  | .nph => c.nphCr.toNat
  | .npd => c.npdCr.toNat

/-- No credit. -/
def RxCredits.none : RxCredits := ⟨0, false, false, false, false⟩

/-- The credits in the cycle behind a TLP. -/
def TlpKind.credits (k : TlpKind) (n : ℕ) : RxCredits where
  pdNum := BitVec.ofNat 8 (k.consumes n .pd)
  phCr := k.consumes n .ph = 1
  pdCr := (k.isMsg || k.isMem) && k.hasData
  nphCr := k.consumes n .nph = 1
  npdCr := k.consumes n .npd = 1

/-- A well-formed TLP of a kind: its payload has 1 to 1020 DW, a digest is there if the header says
so, only memory requests have the choice of the header, and these hit a BAR. -/
structure Tlp.WellFormed (t : Tlp) (k : TlpKind) : Prop where
  type : t.type = k.type
  fmt : t.dataFmt = k.hasData
  long : k.isMem = false → t.long = k.isMsg
  data : t.data.length =
    (if k.hasData then 2 * t.length.toNat else 0) + if t.attr.getLsbD 5 then 2 else 0
  payload : k.hasData = true → 1 ≤ t.length.toNat ∧ t.length.toNat ≤ 1020
  single : k.isIoCfg = true → t.length = 1
  bar : k.isMem = true → t.barHit ≠ 0

/-- A TLP and the cycles before it. -/
structure TlpArrival where
  gap : List RxWord
  quiet : ∀ w ∈ gap, w.rxSt = false ∧ w.rxEnd = false
  kind : TlpKind
  tlp : Tlp
  wellFormed : tlp.WellFormed kind

namespace TlpArrival

variable (a : TlpArrival)

/-- The cycles of the TLP and before it. -/
def words : List RxWord := a.gap ++ a.tlp.words

/-- The credits behind each of these cycles. -/
def credits : List RxCredits :=
  List.replicate (a.words.length - 1) .none ++ [a.kind.credits a.tlp.length.toNat]

end TlpArrival

namespace TlpRx

variable {t : Tlp} {k : TlpKind} {s : TlpRx} {w : RxWord} {n : ℕ}

/-- The credits of a run. -/
def creditLog (s : TlpRx) (ws : List RxWord) : List RxCredits :=
  log step (fun s w => [(s.step w).credits]) s ws

theorem credits_step (s : TlpRx) (w : RxWord) : (s.step w).credits = returned s w := by
  unfold step
  cases s.rxStatus with
  | head0 =>
    simp only
    split <;> rfl
  | _ => rfl

theorem returned_of_not (hw : w.rxEnd = false) : returned s w = .none := by
  unfold returned
  rw [hw]
  rfl

/-- `rx_comm` comes from the type field. -/
theorem commOf_word0 (h : t.type = k.type) : commOf t.word0 = k.comm := by
  have hbit : ∀ i < 5, t.word0.getLsbD (8 + i) = k.type.getLsbD i := by
    intro i hi
    unfold Tlp.word0
    rw [BitVec.getLsbD_append, if_neg (by omega), BitVec.getLsbD_append, if_pos (by omega), h,
      Nat.add_sub_cancel_left]
  have hlow : t.word0.extractLsb' 8 3 = k.type.extractLsb' 0 3 := by
    unfold Tlp.word0
    rw [extractLsb'_append_high _ _ _ _ (by omega), extractLsb'_append_low _ _ _ _ (by omega), h]
  unfold commOf
  rw [hbit 4 (by decide), hbit 3 (by decide), hbit 0 (by decide), hlow]
  cases k with
  | msg routing data =>
    have hmsg : (0b10#2 ++ routing).getLsbD 4 = true := by
      rw [BitVec.getLsbD_append, if_neg (by omega)]
      decide
    exact if_pos hmsg
  | io write => cases write <;> rfl
  | cfg0 write => cases write <;> rfl
  | cfg1 write => cases write <;> rfl
  | cpl data => cases data <;> rfl
  | cplLk data => cases data <;> rfl
  | _ => rfl

/-- The data credits of a payload. -/
theorem dataCredits_eq (hlen : s.rxLength = t.length) (hle : t.length.toNat ≤ 1020) :
    s.dataCredits = BitVec.ofNat 8 ((t.length.toNat + 3) / 4) := by
  have hlow : (t.length.extractLsb' 0 2).toNat = t.length.toNat % 4 := by
    rw [BitVec.extractLsb'_toNat, Nat.shiftRight_zero]
  have hhigh : (t.length.extractLsb' 2 8).toNat = t.length.toNat / 4 := by
    have hlt := t.length.isLt
    rw [BitVec.extractLsb'_toNat, Nat.shiftRight_eq_div_pow]
    omega
  have hzero : t.length.extractLsb' 0 2 = 0 ↔ t.length.toNat % 4 = 0 := by
    rw [← hlow]
    exact BitVec.toNat_inj.symm
  unfold dataCredits
  rw [hlen]
  apply BitVec.eq_of_toNat_eq
  by_cases h0 : t.length.toNat % 4 = 0
  · rw [if_pos (hzero.2 h0), hhigh, BitVec.toNat_ofNat]
    omega
  · rw [if_neg (mt hzero.1 h0), BitVec.toNat_add, hhigh, BitVec.toNat_ofNat]
    change (t.length.toNat / 4 + 1) % 256 = _
    omega

/-- **The credits at the end of a TLP.** -/
theorem returned_end (h : s.Has t n) (hn : 2 ≤ n) (hwf : t.WellFormed k) (hend : w.rxEnd = true)
    (hbar : w.rxBarHit = t.barHit) : returned s w = k.credits t.length.toNat := by
  obtain ⟨hcomm, hfmt, -⟩ := h.head (by omega)
  have hdata : s.rxFmt.getLsbD 1 = k.hasData := by
    rw [hfmt, Tlp.fmt_dataFmt, hwf.fmt]
  have hcredits : k.hasData = true →
      s.dataCredits = BitVec.ofNat 8 ((t.length.toNat + 3) / 4) := fun hk =>
    dataCredits_eq (h.length hn) (hwf.payload hk).2
  have hhit := hwf.bar
  unfold returned
  rw [hend, hcomm, commOf_word0 hwf.type, hdata, hbar]
  cases k with
  | mrd => exact if_pos (Or.inr (hhit rfl))
  | mrdLk => exact if_pos (Or.inr (hhit rfl))
  | mwr =>
    rw [hcredits rfl]
    exact if_pos (Or.inr (hhit rfl))
  | msg routing data =>
    cases data with
    | true =>
      rw [hcredits rfl]
      rfl
    | false => rfl
  | io write => cases write <;> rfl
  | cfg0 write => cases write <;> rfl
  | cfg1 write => cases write <;> rfl
  | cpl data => rfl
  | cplLk data => rfl

/-- Without the end of a TLP there are no credits. -/
theorem creditLog_quiet {ws : List RxWord} (h : ∀ w ∈ ws, w.rxEnd = false) :
    creditLog s ws = List.replicate ws.length .none := by
  induction ws generalizing s with
  | nil => rfl
  | cons w ws ih =>
    rw [List.forall_mem_cons] at h
    unfold creditLog at ih ⊢
    rw [log_cons, credits_step, returned_of_not h.1, ih h.2]
    rfl

theorem creditLog_append (s : TlpRx) (ws vs : List RxWord) :
    creditLog s (ws ++ vs) = creditLog s ws ++ creditLog (run step s ws) vs := log_append _ _ _ _ _

/-- The credits of a TLP. -/
theorem creditLog_words (hst : s.rxStatus = .head0) (hwf : t.WellFormed k) :
    creditLog s t.words =
      List.replicate (t.words.length - 1) .none ++ [k.credits t.length.toNat] := by
  have hlen := t.length_body
  have h6 := t.six_le_headLen
  have hwords := t.length_words
  obtain ⟨n, hn⟩ : ∃ n, t.body.length = n + 2 + 1 := ⟨t.body.length - 3, by omega⟩
  obtain ⟨w, hw, htakes⟩ := takes_run (t := t) hst (show n + 1 < t.body.length by omega)
  obtain ⟨w', hw'⟩ : ∃ w, t.words[n + 2]? = some w := ⟨_, List.getElem?_eq_getElem (by omega)⟩
  obtain ⟨-, hend, -, hbar⟩ := Tlp.words_getElem hw'
  have hinit : ∀ v ∈ t.words.take (n + 2), v.rxEnd = false := by
    intro v hv
    obtain ⟨j, hj⟩ := List.mem_iff_getElem?.1 hv
    have hlt : j < n + 2 := by
      have := (List.getElem?_eq_some_iff.1 hj).1
      rw [List.length_take] at this
      omega
    rw [List.getElem?_take_of_lt hlt] at hj
    exact (Tlp.words_getElem hj).2.1.trans (decide_eq_false (by omega))
  have hsplit : t.words = t.words.take (n + 2) ++ [w'] := by
    have htake := List.take_add_one (l := t.words) (i := n + 2)
    rw [hw', List.take_of_length_le (by omega)] at htake
    exact htake
  have hlast : creditLog (run step s (t.words.take (n + 2))) [w'] =
      [k.credits t.length.toNat] := by
    unfold creditLog
    rw [log_cons, log_nil, credits_step,
      returned_end htakes.has (by omega) hwf (hend.trans (decide_eq_true hn.symm)) hbar]
    rfl
  rw [hsplit, creditLog_append, creditLog_quiet hinit, hlast, ← hsplit, List.length_take]
  congr 2
  omega

/-- The credits of TLPs. -/
theorem creditLog_arrivals {as : List TlpArrival} (hst : s.rxStatus = .head0) :
    creditLog s (as.flatMap TlpArrival.words) = as.flatMap TlpArrival.credits := by
  induction as generalizing s with
  | nil => rfl
  | cons a as ih =>
    have hgap := status_quiet hst fun w hw => (a.quiet w hw).1
    have hnext := (takes_words (t := a.tlp) hgap).1
    have hpos : 0 < a.tlp.words.length := by
      have h6 := a.tlp.six_le_headLen
      rw [Tlp.length_words, Tlp.length_body]
      omega
    rw [List.flatMap_cons, List.flatMap_cons, creditLog_append]
    unfold TlpArrival.credits TlpArrival.words
    rw [creditLog_append, creditLog_quiet fun w hw => (a.quiet w hw).2,
      creditLog_words hgap a.wellFormed, run_append, ← List.append_assoc,
      List.replicate_append_replicate, List.length_append, show a.gap.length + a.tlp.words.length - 1 =
        a.gap.length + (a.tlp.words.length - 1) by omega]
    exact congrArg (_ ++ ·) (ih hnext)

end TlpRx

/-! ### Totals -/

theorem count_none (c : Credit) : RxCredits.none.count c = 0 := by
  cases c <;> rfl

theorem sum_none (n : ℕ) (c : Credit) :
    ((List.replicate n RxCredits.none).map (·.count c)).sum = 0 := by
  induction n with
  | zero => rfl
  | succ n ih =>
    rw [List.replicate_succ, List.map_cons, List.sum_cons, count_none, ih]

namespace TlpKind

variable {k : TlpKind} {n : ℕ}

/-- The credits behind a TLP are those that it consumes. -/
theorem count_credits (k : TlpKind) (hn : k.hasData = true → n ≤ 1020) (c : Credit) :
    (k.credits n).count c = k.consumes n c := by
  have hone : ∀ (p : Prop) [Decidable p], (decide ((if p then 1 else 0) = 1)).toNat =
      if p then 1 else 0 := by
    intro p hp
    split <;> rfl
  cases c with
  | ph => exact hone _
  | nph => exact hone _
  | npd => exact hone _
  | pd =>
    unfold RxCredits.count credits consumes
    simp only [Bool.and_eq_true, Bool.or_eq_true]
    by_cases hdata : (k.isMsg = true ∨ k.isMem = true) ∧ k.hasData = true
    · have hle := hn hdata.2
      rw [if_pos hdata, if_pos hdata, BitVec.toNat_ofNat]
      omega
    · rw [if_neg hdata, if_neg hdata]

end TlpKind

namespace TlpArrival

theorem sum_credits (a : TlpArrival) (c : Credit) :
    (a.credits.map (·.count c)).sum = a.kind.consumes a.tlp.length.toNat c := by
  unfold credits
  rw [List.map_append, List.sum_append, sum_none, Nat.zero_add, List.map_singleton,
    List.sum_singleton]
  exact TlpKind.count_credits _ (fun hdata => (a.wellFormed.payload hdata).2) c

/-- The credits of TLPs are what they consume. -/
theorem sum_flatMap (as : List TlpArrival) (c : Credit) :
    ((as.flatMap credits).map (·.count c)).sum =
      (as.map fun a => a.kind.consumes a.tlp.length.toNat c).sum := by
  induction as with
  | nil => rfl
  | cons a as ih =>
    rw [List.flatMap_cons, List.map_append, List.sum_append, sum_credits, ih, List.map_cons,
      List.sum_cons]

end TlpArrival

namespace PcieTlp

/-- The credits in the cycles behind the edges of a run. -/
def creditLog (s : PcieTlp) (is : List PcieIn) : List RxCredits :=
  log step (fun s i => [(s.step i).rx.credits]) s is

theorem creditLog_eq (s : PcieTlp) (is : List PcieIn) :
    s.creditLog is = s.rx.creditLog (is.map PcieIn.rx) := by
  induction is generalizing s with
  | nil => rfl
  | cons i is ih => exact congrArg ((s.step i).rx.credits :: ·) (ih (s.step i))

/-- **Credits are conserved** over TLPs of all kinds, and over the part of a TLP behind them: there
are credits only in the cycle behind the end of a TLP, and their totals are what the TLPs have
consumed. -/
theorem credits_conserved {s : PcieTlp} {is : List PcieIn} {as : List TlpArrival}
    {rest : List RxWord} (hst : s.rx.rxStatus = .head0) (hrest : ∀ w ∈ rest, w.rxEnd = false)
    (his : is.map PcieIn.rx = as.flatMap TlpArrival.words ++ rest) :
    s.creditLog is =
        as.flatMap TlpArrival.credits ++ List.replicate rest.length RxCredits.none ∧
      ∀ c, ((s.creditLog is).map (·.count c)).sum =
        (as.map fun a => a.kind.consumes a.tlp.length.toNat c).sum := by
  have hlog : s.creditLog is =
      as.flatMap TlpArrival.credits ++ List.replicate rest.length RxCredits.none := by
    rw [creditLog_eq, his, TlpRx.creditLog_append, TlpRx.creditLog_arrivals hst,
      TlpRx.creditLog_quiet hrest]
  refine ⟨hlog, fun c => ?_⟩
  rw [hlog, List.map_append, List.sum_append, sum_none, Nat.add_zero, TlpArrival.sum_flatMap]

/-- A message without data. -/
def message : TlpArrival where
  gap := []
  quiet := fun _ h => absurd h List.not_mem_nil
  kind := .msg 0b100#3 false
  tlp :=
    { dataFmt := false, long := true, type := 0b10100#5, length := 0, reqid := 8, tag := 0,
      lastbe := 0, firstbe := 0, addr := 0, data := [], barHit := 0, reserved := false,
      traffic := 0, attr := 0 }
  wellFormed := by constructor <;> decide

/-- A write of two DW after a quiet cycle. -/
def memoryWrite : TlpArrival where
  gap := [⟨false, false, 0, 0⟩]
  quiet := by decide
  kind := .mwr
  tlp :=
    { dataFmt := true, long := false, type := 0b00000#5, length := 2, reqid := 8, tag := 1,
      lastbe := 0b1111#4, firstbe := 0b1111#4, addr := 0x10, data := [1, 2, 3, 4], barHit := 1,
      reserved := false, traffic := 0, attr := 0 }
  wellFormed := by constructor <;> decide

/-- The cycles in which words are received. -/
def inputsOf (ws : List RxWord) : List PcieIn := ws.map fun w => ⟨w, true, 0, 0, 0, 0, true, 0⟩

theorem credits_conserved_two :
    (default : PcieTlp).reset.creditLog
        (inputsOf ([message, memoryWrite].flatMap TlpArrival.words ++ [⟨true, false, 0, 1⟩])) =
      [message, memoryWrite].flatMap TlpArrival.credits ++ List.replicate 1 RxCredits.none ∧
    ∀ c, (((default : PcieTlp).reset.creditLog (inputsOf
        ([message, memoryWrite].flatMap TlpArrival.words ++ [⟨true, false, 0, 1⟩]))).map
          (·.count c)).sum =
      ([message, memoryWrite].map fun a => a.kind.consumes a.tlp.length.toNat c).sum :=
  credits_conserved rfl
    (show ∀ w ∈ [(⟨true, false, 0, 1⟩ : RxWord)], w.rxEnd = false by decide) rfl

end PcieTlp

end IpNuma
