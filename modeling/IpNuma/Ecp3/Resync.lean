import IpNuma.Ecp3.Tlp

/-!
# The receiver after the end of a TLP

The end of a TLP leads to `RX_HEAD0` by an assignment in front of the `case`, which most of the
states of the header assign again.  `decode` is what the receiver makes of a TLP; from `RX_HEAD0` it
is always the same, and `resynced_iff` says which ends lead there.
-/

namespace IpNuma

open Clocked

/-- The fields of a request. -/
structure ReqFields where
  reqid : BitVec 16
  tag : BitVec 8
  lastbe : BitVec 4
  firstbe : BitVec 4
  addr : BitVec 46
  deriving DecidableEq

/-- What the receiver has decoded of a TLP, and how often it has announced a request. -/
structure Decoded where
  comm : TlpComm
  fmt : BitVec 2
  length : BitVec 10
  req : Option ReqFields
  pulses : ℕ
  deriving DecidableEq

/-- What is in the words of a TLP. -/
def Tlp.decoded (t : Tlp) : Decoded where
  comm := TlpRx.commOf t.word0
  fmt := t.fmt
  length := t.length
  req := if t.isCpl then none else
    some ⟨t.reqid, t.tag, t.lastbe, t.firstbe, t.high ++ t.mid ++ t.low.extractLsb' 2 14⟩
  pulses := if t.isCpl then 0 else 1

namespace TlpRx

/-- The pulses of `rx_tlph_valid` in a run. -/
def pulses (s : TlpRx) (ws : List RxWord) : ℕ :=
  (log step (fun s w => [(s.step w).rxTlphValid]) s ws).count true

/-- The registers behind a TLP. -/
def fields (t : Tlp) (s : TlpRx) : Decoded where
  comm := s.rxComm
  fmt := s.rxFmt
  length := s.rxLength
  req := if t.isCpl then none else
    some ⟨s.rxReqid, s.rxTag, s.rxLastbe, s.rxFirstbe, s.rxAddr⟩
  pulses := 0

/-- What the receiver makes of a TLP. -/
def decode (t : Tlp) (s : TlpRx) : Decoded :=
  { (run step s t.words).fields t with pulses := s.pulses t.words }

/-- The receiver is where it expects a TLP, and decodes any as the first one after a reset, after
any number of quiet cycles. -/
structure Resynced (s : TlpRx) : Prop where
  status : s.rxStatus = .head0
  decode : ∀ (t : Tlp) (gap : List RxWord) (u : TlpRx), (∀ w ∈ gap, w.rxSt = false) →
    decode t (run step s gap) = decode t u.reset

/-- The states in which the end of a TLP leads to `RX_HEAD0`. -/
def EndsWell (s : TlpRx) (w : RxWord) : Prop :=
  w.rxEnd = true → s.rxStatus = .req7 ∨ s.rxStatus = .req ∨ s.rxStatus = .comp2 ∨
    s.rxStatus = .head0 ∧ w.rxSt = false

variable {t : Tlp} {s : TlpRx} {w : RxWord} {n : ℕ}

/-- The address is put together from the words of the header. -/
theorem addr_eq {a : BitVec 46} {high mid : BitVec 16} {low : BitVec 14}
    (hhigh : a.extractLsb' 30 16 = high) (hmid : a.extractLsb' 14 16 = mid)
    (hlow : a.extractLsb' 0 14 = low) : a = high ++ mid ++ low := by
  rw [← hhigh, ← hmid, ← hlow]
  apply BitVec.eq_of_getLsbD_eq
  intro i hi
  simp only [BitVec.getLsbD_append, BitVec.getLsbD_extractLsb']
  by_cases h14 : i < 14
  · rw [if_pos h14, decide_eq_true h14, Bool.true_and, Nat.zero_add]
  · by_cases h16 : i - 14 < 16
    · rw [if_neg h14, if_pos h16, decide_eq_true h16, Bool.true_and,
        show 14 + (i - 14) = i by omega]
    · rw [if_neg h14, if_neg h16, decide_eq_true (by omega), Bool.true_and,
        show 30 + (i - 14 - 16) = i by omega]

/-- The registers behind a TLP are its fields. -/
theorem fields_eq (h : s.Has t t.body.length) :
    s.fields t = { t.decoded with pulses := 0 } := by
  have hlen := t.length_body
  have h6 := t.six_le_headLen
  obtain ⟨hcomm, hfmt, -⟩ := h.head (by omega)
  unfold fields Tlp.decoded
  rw [hcomm, hfmt, h.length (by omega)]
  cases hcpl : t.isCpl with
  | true => rfl
  | false =>
    obtain ⟨htag, hlast, hfirst⟩ := h.bytes (by omega) hcpl
    rw [h.reqid (by omega) hcpl, htag, hlast, hfirst, addr_eq (h.high (by omega) hcpl)
      (h.mid (by omega) hcpl) (h.low (by omega) hcpl)]

/-- The announcements in the first words of a TLP. -/
theorem pulses_take (hst : s.rxStatus = .head0) (hn : n ≤ t.body.length) :
    s.pulses (t.words.take n) = if t.isCpl = false ∧ t.headLen ≤ n + 1 then 1 else 0 := by
  have h6 := t.six_le_headLen
  induction n with
  | zero =>
    rw [if_neg (by omega)]
    rfl
  | succ n ih =>
    obtain ⟨w, hw, htakes⟩ := takes_run hst (show n < t.body.length by omega)
    have hrun := htakes.valid
    rw [List.take_add_one, hw, Option.toList_some] at hrun ⊢
    rw [run_concat] at hrun
    unfold pulses at ih ⊢
    rw [log_concat, List.count_append, ih (by omega), hrun]
    by_cases hreq : t.isCpl = false
    · rcases Nat.lt_trichotomy (n + 2) t.headLen with hlt | heq | hgt
      · rw [if_neg (by omega), if_neg (by omega), decide_eq_false (by omega)]
        rfl
      · rw [if_neg (by omega), if_pos ⟨hreq, by omega⟩, decide_eq_true ⟨hreq, heq⟩]
        rfl
      · rw [if_pos ⟨hreq, by omega⟩, if_pos ⟨hreq, by omega⟩, decide_eq_false (by omega)]
        rfl
    · rw [if_neg fun h => hreq h.1, if_neg fun h => hreq h.1, decide_eq_false fun h => hreq h.1]
      rfl

/-- **From `RX_HEAD0` a TLP is decoded as it is.** -/
theorem decode_eq (t : Tlp) (hst : s.rxStatus = .head0) : decode t s = t.decoded := by
  have hlen := t.length_body
  obtain ⟨-, hhas⟩ := takes_words (t := t) hst
  have hpulses := pulses_take (t := t) hst (le_refl _)
  rw [List.take_of_length_le (by rw [Tlp.length_words])] at hpulses
  unfold decode
  rw [fields_eq hhas, hpulses]
  unfold Tlp.decoded
  cases hcpl : t.isCpl with
  | true => simp
  | false => simp [show t.headLen ≤ t.body.length + 1 by omega]

theorem resynced_of_head0 (hst : s.rxStatus = .head0) : s.Resynced :=
  ⟨hst, fun t _ u hgap =>
    (decode_eq t (status_quiet hst hgap)).trans (decode_eq t (s := u.reset) rfl).symm⟩

/-- Which state comes after the end of a TLP. -/
theorem status_end (hend : w.rxEnd = true) :
    (s.step w).rxStatus = .head0 ↔ s.rxStatus = .req7 ∨ s.rxStatus = .req ∨ s.rxStatus = .comp2 ∨
      s.rxStatus = .head0 ∧ w.rxSt = false := by
  unfold step
  cases hst : s.rxStatus with
  | head0 =>
    cases hw : w.rxSt <;> simp [always, hend]
  | head1 => cases s.rxType.getLsbD 3 <;> simp
  | req3 => cases s.rxFmt.getLsbD 0 <;> simp
  | req7 => simp [hend]
  | req => simp [always, hend]
  | comp2 => simp [always, hend]
  | _ => simp

theorem resynced_iff (s : TlpRx) (w : RxWord) :
    (w.rxEnd = true → (s.step w).Resynced) ↔ s.EndsWell w := by
  constructor
  · intro h hend
    exact (status_end hend).1 (h hend).status
  · intro h hend
    exact resynced_of_head0 ((status_end hend).2 (h hend))

/-- **Resynchronisation.**  In a run from reset the receiver is resynchronised behind every end of a
TLP exactly if no TLP ends within its header, before its last word. -/
theorem resynced_run_iff (s : TlpRx) (ws : List RxWord) :
    Along step (fun s w => w.rxEnd = true → (s.step w).Resynced) s.reset ws ↔
      Along step EndsWell s.reset ws := by
  have hcongr : (fun (s : TlpRx) (w : RxWord) => w.rxEnd = true → (s.step w).Resynced) =
      EndsWell := by
    funext s w
    exact propext (resynced_iff s w)
  rw [hcongr]

/-- A read of one DW. -/
def readTlp : Tlp where
  dataFmt := false
  long := false
  type := 0
  length := 1
  reqid := 0x0008#16
  tag := 5
  lastbe := 0
  firstbe := 0b1111#4
  addr := 0xd0000010#64
  data := []
  barHit := 0b0000001#7
  reserved := false
  traffic := 0
  attr := 0

/-- The first two words of a TLP, the second one with `rx_end`. -/
def cutTlp : List RxWord := [⟨true, false, 0x0000#16, 0b0000001#7⟩, ⟨false, true, 1, 0b0000001#7⟩]

/-- After a TLP that ends with its second word the receiver takes the first word of the next one for
the requester ID. -/
theorem cutTlp_unsynced : (run step (default : TlpRx).reset cutTlp).rxStatus = .req2 ∧
    decode readTlp (run step (default : TlpRx).reset cutTlp) ≠
      decode readTlp (default : TlpRx).reset ∧
    ¬ Along step (fun s w => w.rxEnd = true → (s.step w).Resynced) (default : TlpRx).reset
      cutTlp := by
  have hst : (run step (default : TlpRx).reset cutTlp).rxStatus = .req2 := by decide +kernel
  refine ⟨hst, by decide +kernel, fun h => ?_⟩
  have hsync : (run step (default : TlpRx).reset cutTlp).Resynced := h.2.1 rfl
  exact absurd (hst.symm.trans hsync.status) (by decide)

end TlpRx

end IpNuma
