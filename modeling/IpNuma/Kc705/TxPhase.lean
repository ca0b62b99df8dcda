import IpNuma.Kc705.XgmiiTx
import Mathlib.Tactic.IntervalCases

/-!
# The phases of the transmitter

After reset the two blocks of `XGMII_TX_ENGINE` are never out of step: the pair of states,
`tx_counter` and `rd_en` are determined by one of the phases below.  `step_inPhase` says which
phase follows which, `step_out` which word each phase puts on the wire; no later proof looks at
the counter again.
-/

namespace IpNuma

/-- The joint state of the two blocks. -/
inductive Phase
  /-- Both idle. -/
  | idle
  /-- A first word is held, the transmit block has not noticed. -/
  | armed
  /-- The transmit block is about to drive word `k` of the preamble and the headers. -/
  | header (k : ℕ)
  /-- The last header word is on the wire. -/
  | first
  /-- At least one payload word is out. -/
  | data
  /-- The last word of the TLP has been read. -/
  | tail
  /-- The terminate word is on the wire. -/
  | term
  deriving DecidableEq

/-- The engine is in the phase. -/
def InPhase : Phase → XgmiiTx → Prop
  | .idle, s => s.fifo.state = .idle ∧ s.tx.state = .idle ∧ s.tx.txCounter = 0 ∧ s.out = idleWord
  | .armed, s => s.fifo.state = .wait ∧ s.fifo.rdEn = false ∧ s.tx.state = .idle ∧
      s.tx.txCounter = 0 ∧ s.out = idleWord
  | .header k, s => s.fifo.state = .wait ∧ s.fifo.rdEn = false ∧ s.tx.state = .header ∧
      s.tx.txCounter = BitVec.ofNat 32 (8 * k) ∧ k < 7 ∧ (k = 0 → s.out = idleWord)
  | .first, s => s.fifo.state = .data ∧ s.fifo.rdEn = false ∧ s.tx.state = .data
  | .data, s => s.fifo.state = .data ∧ s.tx.state = .data
  | .tail, s => s.fifo.state = .idle ∧ s.fifo.rdEn = false ∧ s.tx.state = .data
  | .term, s => s.fifo.state = .idle ∧ s.tx.state = .gap ∧ s.tx.txCounter = 0 ∧ s.tx.gapCount = 0

namespace Phase

/-- The phase after the next edge. -/
def next (p : Phase) (f : FifoSide) (dout : BitVec 72) : Phase :=
  match p with
  | .idle => if f.rdEn && isStart dout then .armed else .idle
  | .armed => .header 0
  | .header k => if k = 6 then .first else .header (k + 1)
  | .first => .data
  | .data => if f.rdEn && isLast dout then .tail else .data
  | .tail => .term
  | .term => if f.rdEn && isStart dout then .armed else .idle

/-- Word `k` of the preamble and the headers. -/
def headerWord (a : Addrs) (ipSum : BitVec 24) : ℕ → XgmiiWord
  | 0 => TxSide.preambleWord
  | 1 => TxSide.header08 a
  | 2 => TxSide.header10 a
  | 3 => TxSide.header18
  | 4 => TxSide.header20 a ipSum
  | 5 => TxSide.header28 a
  | _ => TxSide.header30

/-- The word driven at the next edge. -/
def drives (p : Phase) (s : XgmiiTx) (a : Addrs) : XgmiiWord :=
  match p with
  | .header k => headerWord a s.tx.ipSum k
  | .first | .data => TxSide.dataWord (payload s.fifo.dout2)
  | .tail => TxSide.termWord (XgmiiTx.fcsOf s.crc)
  | _ => idleWord

end Phase

theorem reset_inPhase (s : XgmiiTx) : InPhase .idle s.reset := ⟨rfl, rfl, rfl, rfl⟩

/-! ### One edge of each block -/

section Blocks

variable {f : FifoSide} {t : TxSide} (c : BitVec 32) (dout : BitVec 72) (empty : Bool)

theorem fifo_step_start (hs : f.state = .idle) (h : (f.rdEn && isStart dout) = true) :
    f.step c dout empty = ⟨.wait, false, dout⟩ := by
  rw [Bool.and_eq_true] at h
  simp [FifoSide.step, hs, h]

theorem fifo_step_idle (hs : f.state = .idle) (h : (f.rdEn && isStart dout) = false) :
    (f.step c dout empty).state = .idle ∧ (f.step c dout empty).rdEn = !empty := by
  rw [Bool.and_eq_false_iff] at h
  simp only [FifoSide.step, hs]
  split_ifs with h1 h2
  · simp [h1, h2] at h
  · exact ⟨rfl, rfl⟩
  · exact ⟨rfl, rfl⟩

theorem fifo_step_wait (hs : f.state = .wait) (hc : c.extractLsb' 0 16 ≠ 0x30#16) :
    f.step c dout empty = f := by
  simp [FifoSide.step, hs, hc]

theorem fifo_step_go (hs : f.state = .wait) (hc : c.extractLsb' 0 16 = 0x30#16) :
    f.step c dout empty = { f with state := .data } := by
  simp [FifoSide.step, hs, hc]

theorem fifo_step_last (hs : f.state = .data) (h : (f.rdEn && isLast dout) = true) :
    f.step c dout empty = ⟨.idle, false, dout⟩ := by
  simp [FifoSide.step, hs, h]

theorem fifo_step_data (hs : f.state = .data) (h : (f.rdEn && isLast dout) = false) :
    f.step c dout empty = ⟨.data, !empty, dout⟩ := by
  simp [FifoSide.step, hs, h]

/-- In `TX_HEADER` with the counter at `8k` the block drives word `k`, counts on, and leaves for
`TX_DATA` after the last one. -/
theorem headerStep_of_counter (a : Addrs) {k : ℕ} (hk : k < 7)
    (hc : t.txCounter = BitVec.ofNat 32 (8 * k)) (hs : t.state = .header) :
    (t.headerStep a).out = Phase.headerWord a t.ipSum k ∧
      (t.headerStep a).txCounter = BitVec.ofNat 32 (8 * (k + 1)) ∧
      (t.headerStep a).state = if k = 6 then .data else .header := by
  interval_cases k <;>
    simp [TxSide.headerStep, hc, hs, Phase.headerWord, TxSide.drive, TxSide.out]

end Blocks

/-! ### One edge of the engine -/

section Step

variable {s : XgmiiTx} {p : Phase} (a : Addrs) (dout : BitVec 72) (empty : Bool)

/-- While the FIFO block is in `FIFO_IDLE` it either arms or stays. -/
theorem idle_or_armed (hf : s.fifo.state = .idle)
    (htx : (s.step a dout empty).tx.state = .idle ∧ (s.step a dout empty).tx.txCounter = 0 ∧
      (s.step a dout empty).out = idleWord) :
    InPhase (if s.fifo.rdEn && isStart dout then .armed else .idle) (s.step a dout empty) := by
  cases h : s.fifo.rdEn && isStart dout with
  | true =>
    have hw := fifo_step_start s.tx.txCounter dout empty hf h
    exact ⟨by simp [XgmiiTx.step, hw], by simp [XgmiiTx.step, hw], htx⟩
  | false => exact ⟨(fifo_step_idle s.tx.txCounter dout empty hf h).1, htx⟩

theorem step_inPhase (h : InPhase p s) :
    InPhase (p.next s.fifo dout) (s.step a dout empty) := by
  cases p with
  | idle =>
    obtain ⟨hf, ht, hc, ho⟩ := h
    exact idle_or_armed a dout empty hf (by simp_all [XgmiiTx.step, TxSide.step, XgmiiTx.out])
  | armed =>
    obtain ⟨hf, hr, ht, hc, ho⟩ := h
    have hw := fifo_step_wait s.tx.txCounter dout empty hf (by rw [hc]; decide)
    simp_all [Phase.next, InPhase, XgmiiTx.step, XgmiiTx.out, TxSide.step, TxSide.out]
  | header k =>
    obtain ⟨hf, hr, ht, hc, hk, -⟩ := h
    obtain ⟨-, h2, h3⟩ := headerStep_of_counter a hk hc ht
    by_cases h6 : k = 6
    · subst h6
      have hw := fifo_step_go s.tx.txCounter dout empty hf (by rw [hc]; decide)
      simp_all [Phase.next, InPhase, XgmiiTx.step, TxSide.step]
    · have hw := fifo_step_wait s.tx.txCounter dout empty hf (by rw [hc]; interval_cases k <;> simp_all)
      simp only [h6, if_false] at h3
      simp only [Phase.next, h6, if_false, InPhase, XgmiiTx.step, TxSide.step, ht, hw]
      exact ⟨hf, hr, h3, h2, by omega, by omega⟩
  | first =>
    obtain ⟨hf, hr, ht⟩ := h
    have hw := fifo_step_data s.tx.txCounter dout empty hf (by simp [hr])
    simp [Phase.next, InPhase, XgmiiTx.step, TxSide.step, TxSide.drive, hf, ht, hw]
  | data =>
    obtain ⟨hf, ht⟩ := h
    cases hl : s.fifo.rdEn && isLast dout with
    | true =>
      have hw := fifo_step_last s.tx.txCounter dout empty hf hl
      simp [Phase.next, hl, InPhase, XgmiiTx.step, TxSide.step, TxSide.drive, hf, ht, hw]
    | false =>
      have hw := fifo_step_data s.tx.txCounter dout empty hf hl
      simp [Phase.next, hl, InPhase, XgmiiTx.step, TxSide.step, TxSide.drive, hf, ht, hw]
  | tail =>
    obtain ⟨hf, hr, ht⟩ := h
    have hw := fifo_step_idle s.tx.txCounter dout empty hf (by simp [hr])
    refine ⟨hw.1, ?_⟩
    simp [XgmiiTx.step, TxSide.step, hf, ht, TxSide.interFrameGap]
  | term =>
    obtain ⟨hf, ht, hc, hg⟩ := h
    exact idle_or_armed a dout empty hf
      (by simp [XgmiiTx.step, TxSide.step, ht, hg, XgmiiTx.out, TxSide.out, TxSide.drive, hc])

theorem step_out (h : InPhase p s) : (s.step a dout empty).out = p.drives s a := by
  cases p with
  | idle =>
    obtain ⟨hf, ht, -, ho⟩ := h
    simpa [XgmiiTx.step, TxSide.step, XgmiiTx.out, Phase.drives, hf, ht] using ho
  | armed =>
    obtain ⟨hf, -, ht, -, ho⟩ := h
    simpa [XgmiiTx.step, TxSide.step, XgmiiTx.out, TxSide.out, Phase.drives, hf, ht] using ho
  | header k =>
    obtain ⟨-, -, ht, hc, hk, -⟩ := h
    have hw := (headerStep_of_counter a hk hc ht).1
    simpa [XgmiiTx.step, TxSide.step, XgmiiTx.out, Phase.drives, ht] using hw
  | first =>
    obtain ⟨hf, -, ht⟩ := h
    simp [XgmiiTx.step, TxSide.step, XgmiiTx.out, TxSide.out, TxSide.drive, Phase.drives, hf, ht]
  | data =>
    obtain ⟨hf, ht⟩ := h
    simp [XgmiiTx.step, TxSide.step, XgmiiTx.out, TxSide.out, TxSide.drive, Phase.drives, hf, ht]
  | tail =>
    obtain ⟨hf, -, ht⟩ := h
    simp [XgmiiTx.step, TxSide.step, XgmiiTx.out, TxSide.out, TxSide.drive, Phase.drives, hf, ht]
  | term =>
    obtain ⟨-, ht, -, -⟩ := h
    simp [XgmiiTx.step, TxSide.step, XgmiiTx.out, TxSide.out, TxSide.drive, Phase.drives, ht]

end Step

end IpNuma
