import IpNuma.Ecp3.TlpTx
import IpNuma.Clocked.Framing
import Mathlib.Tactic.IntervalCases

/-!
# The phases of the transmit side

A sequencer that wants to send has put its header into its registers and waits; once the transmitter
has reached the data, sequencer and transmitter count in step, so that the sequencer announces the
end exactly when the last word is on the wire.  `InPhase` is this relation of the three blocks, with
the number of the word that the next edge drives; the lemmas `idle_step` to `adrift_step` say which
phase follows which.

A read of 1023 DW breaks it: the counter of the sequencer then starts at the value that means the
end, so the completion ends with its fourth word and leaves the transmitter adrift until a later
request brings it to an end.
-/

namespace IpNuma

open Clocked

/-! ### The slave sequencer -/

namespace TlpSlave

variable {s : TlpSlave} {rx : TlpRx} {hit : BitVec 7} {ready : Bool} {dat : BitVec 16} {n k : ℕ}

/-- The sequencer has nothing to send. -/
structure Off (s : TlpSlave) : Prop where
  status : s.slvStatus ≠ .mreadd
  valid : s.tx1TlphValid = false
  done : s.tx1TlpdDone = false

/-- The last word of a completion with `n` DW. -/
def cplEnd (n : ℕ) : ℕ := if n = 1023 then 3 else 2 * n + 5

/-- A completion with `n` DW is to be sent, and `k` cycles of its data are over. -/
structure Busy (n k : ℕ) (s : TlpSlave) : Prop where
  status : s.slvStatus = .mreadd
  valid : s.tx1TlphValid = decide (k = 0)
  done : s.tx1TlpdDone = false
  length : (s.tx1Length.toNat + k) % 2048 = 2 * n + 1
  size : n < 1024
  le : k + 3 ≤ cplEnd n
  word0 : 0#1 ++ s.tx1Fmt ++ s.tx1Type ++ 0#1 ++ s.tx1Tc ++ 0#4 = 0x4a00#16
  flags : BitVec.ofBool s.tx1Td ++ BitVec.ofBool s.tx1Ep ++ s.tx1Attr ++ 0#2 = 0#6

/-- The last word is on the wire. -/
structure Ending (s : TlpSlave) : Prop where
  status : s.slvStatus = .idle
  valid : s.tx1TlphValid = false
  done : s.tx1TlpdDone = true

/-- Nothing to send, or nothing of it sent yet. -/
def Settled (s : TlpSlave) : Prop := s.Off ∨ ∃ n, s.Busy n 0

/-- The sequencer announces an end only when it is idle again. -/
def Loose (s : TlpSlave) : Prop := s.tx1TlpdDone = true → s.Ending

/-- The header of the completion; `none` for the word that is not the sequencer's. -/
def head (s : TlpSlave) (n : ℕ) : ℕ → Option (BitVec 16)
  | 0 => some 0x4a00#16
  | 1 => some (0#6 ++ BitVec.ofNat 10 n)
  | 3 => some (s.tx1Cplst ++ BitVec.ofBool s.tx1Bcm ++ s.tx1Bcount)
  | 4 => some s.tx1Reqid
  | 5 => some (s.tx1Tag ++ 0#1 ++ s.tx1Lowaddr.extractLsb' 0 7)
  | _ => none

theorem off_reset (s : TlpSlave) : s.reset.Off :=
  ⟨fun h => (by cases h), rfl, rfl⟩

theorem step_mreadh (h : s.slvStatus = .mreadh) :
    s.step rx hit ready dat = mreadh (always s) rx := by
  unfold step
  rw [h]

theorem step_mreadd (h : s.slvStatus = .mreadd) :
    s.step rx hit ready dat = mreadd (always s) ready dat := by
  unfold step
  rw [h]

/-- Which state comes after which. -/
theorem status_step (s : TlpSlave) (rx : TlpRx) (hit : BitVec 7) (ready : Bool) (dat : BitVec 16) :
    (s.step rx hit ready dat).slvStatus =
      match s.slvStatus with
      | .idle =>
          if rx.rxTlphValid ∧ rx.rxComm = .mr then
            if rx.rxFmt.getLsbD 1 then .mwriteh else .mreadh
          else .idle
      | .mreadh => .mreadd
      | .mreadd => if ready ∧ s.tx1Length = 0x7ff#11 then .idle else .mreadd
      | .mwriteh => .mwrited
      | .mwrited => if lastWord s rx || rx.rxEnd2 then .idle else .mwrited := by
  unfold step
  cases hst : s.slvStatus with
  | idle =>
    unfold idle
    simp only
    split
    · rfl
    · exact hst
  | mreadd =>
    unfold mreadd
    cases ready with
    | false => exact hst
    | true =>
      simp only [true_and, if_true]
      rfl
  | _ => rfl

/-- `tx1_tlph_valid` is set in `SLV_MREADH` and stays until the transmitter is ready. -/
theorem valid_step (s : TlpSlave) (rx : TlpRx) (hit : BitVec 7) (ready : Bool) (dat : BitVec 16) :
    (s.step rx hit ready dat).tx1TlphValid =
      match s.slvStatus with
      | .idle => false
      | .mreadh => true
      | .mreadd => if ready then false else s.tx1TlphValid
      | .mwriteh => s.tx1TlphValid
      | .mwrited => s.tx1TlphValid := by
  unfold step
  cases hst : s.slvStatus with
  | idle =>
    unfold idle
    simp only
    split <;> rfl
  | mreadd =>
    unfold mreadd
    cases ready <;> rfl
  | _ => rfl

theorem cplEnd_of_ne (hn : n ≠ 1023) : cplEnd n = 2 * n + 5 := if_neg hn

theorem le_cplEnd (n : ℕ) : 3 ≤ cplEnd n := by
  unfold cplEnd
  split <;> omega

/-- The completion that `SLV_MREADH` prepares. -/
theorem busy_mreadh (hs : s.tx1TlpdDone = false) : (mreadh s rx).Busy rx.rxLength.toNat 0 := by
  have hword0 : 0#1 ++ 0b10#2 ++ 0b01010#5 ++ 0#1 ++ 0#3 ++ 0#4 = 0x4a00#16 := by decide
  have hflags : BitVec.ofBool false ++ BitVec.ofBool false ++ 0#2 ++ 0#2 = 0#6 := by decide
  have hlt := rx.rxLength.isLt
  refine ⟨rfl, rfl, hs, ?_, hlt, le_cplEnd _, hword0, hflags⟩
  change ((rx.rxLength ++ 1#1).toNat + 0) % 2048 = _
  rw [toNat_append_add]
  change (rx.rxLength.toNat * 2 + 1 + 0) % 2048 = _
  omega

theorem off_idle (hst : s.slvStatus = .idle) : (s.step rx hit ready dat).Off := by
  unfold step idle
  rw [hst]
  simp only
  split
  · split <;> exact ⟨fun h => (by cases h), rfl, rfl⟩
  · exact ⟨fun h => absurd (hst.symm.trans h) (by decide), rfl, rfl⟩

theorem off_step (h : s.Off) : (s.step rx hit ready dat).Settled := by
  obtain ⟨status, valid, done⟩ := h
  cases hst : s.slvStatus with
  | idle => exact .inl (off_idle hst)
  | mreadh =>
    right
    rw [step_mreadh hst]
    exact ⟨_, busy_mreadh rfl⟩
  | mreadd => exact absurd hst status
  | mwriteh =>
    left
    unfold step
    rw [hst]
    exact ⟨fun h => (by cases h), valid, rfl⟩
  | mwrited =>
    left
    unfold step mwrited
    rw [hst]
    refine ⟨fun h => ?_, valid, rfl⟩
    simp only at h
    split at h <;> cases h

theorem busy_wait (h : s.Busy n k) : (s.step rx hit false dat).Busy n k ∧
    (s.step rx hit false dat).head n = s.head n := by
  obtain ⟨status, valid, done, length, size, le, word0, flags⟩ := h
  rw [step_mreadd status]
  exact ⟨⟨status, valid, rfl, length, size, le, word0, flags⟩, rfl⟩

/-- The counter is at its last value. -/
theorem length_eq_iff (h : s.Busy n k) : s.tx1Length = 0x7ff#11 ↔ k + 3 = cplEnd n := by
  have hlt := s.tx1Length.isLt
  have hlength := h.length
  have hsize := h.size
  have hle := h.le
  unfold cplEnd at hle ⊢
  constructor
  · intro heq
    rw [heq] at hlength
    change (2047 + k) % 2048 = _ at hlength
    split at hle <;> split <;> omega
  · intro hk
    apply BitVec.eq_of_toNat_eq
    change _ = 2047
    split at hk <;> omega

theorem toNat_pred {x : BitVec 11} : (x - 1).toNat = (x.toNat + 2047) % 2048 := by
  rw [BitVec.toNat_sub]
  change (2 ^ 11 - 1 + x.toNat) % 2 ^ 11 = _
  omega

/-- A cycle of the data. -/
theorem busy_step (rx : TlpRx) (hit : BitVec 7) (dat : BitVec 16) (h : s.Busy n k)
    (hk : k + 3 < cplEnd n) :
    (s.step rx hit true dat).Busy n (k + 1) ∧ (s.step rx hit true dat).head n = s.head n ∧
      (s.step rx hit true dat).tx1Data = dat := by
  have hne : s.tx1Length ≠ 0x7ff#11 := fun heq => by
    have := (length_eq_iff h).1 heq
    omega
  obtain ⟨status, valid, done, length, size, le, word0, flags⟩ := h
  have hlt := s.tx1Length.isLt
  rw [step_mreadd status]
  unfold mreadd
  rw [if_pos rfl]
  refine ⟨⟨if_neg hne, ?_, decide_eq_false hne, ?_, size, by omega, word0, flags⟩, rfl, rfl⟩
  · exact (decide_eq_false (Nat.succ_ne_zero k)).symm
  · change ((s.tx1Length - 1).toNat + (k + 1)) % 2048 = _
    rw [toNat_pred]
    omega

/-- The last cycle of the data. -/
theorem busy_last (h : s.Busy n k) (hk : k + 3 = cplEnd n) : (s.step rx hit true dat).Ending := by
  have heq := (length_eq_iff h).2 hk
  rw [step_mreadd h.status]
  unfold mreadd
  rw [if_pos rfl]
  exact ⟨if_pos heq, rfl, decide_eq_true heq⟩

theorem loose_step (s : TlpSlave) (rx : TlpRx) (hit : BitVec 7) (ready : Bool) (dat : BitVec 16) :
    (s.step rx hit ready dat).Loose := by
  intro hdone
  cases hst : s.slvStatus with
  | mreadd =>
    rw [step_mreadd hst] at hdone ⊢
    unfold mreadd at hdone ⊢
    cases ready with
    | false => cases hdone
    | true =>
      rw [if_pos rfl] at hdone ⊢
      exact ⟨if_pos (of_decide_eq_true hdone), rfl, hdone⟩
  | idle =>
    unfold step idle at hdone
    rw [hst] at hdone
    simp only at hdone
    split at hdone <;> cases hdone
  | _ =>
    unfold step at hdone
    rw [hst] at hdone
    cases hdone

theorem ending_step (h : s.Ending) : (s.step rx hit ready dat).Off := off_idle h.status

theorem settled_step (h : s.Settled) : (s.step rx hit false dat).Settled := by
  rcases h with hoff | ⟨n, hbusy⟩
  · exact off_step hoff
  · exact .inr ⟨n, (busy_wait hbusy).1⟩

theorem settled_valid (h : s.Settled) (hv : s.tx1TlphValid = true) : ∃ n, s.Busy n 0 := by
  rcases h with hoff | hbusy
  · exact absurd (hoff.valid.symm.trans hv) Bool.false_ne_true
  · exact hbusy

theorem settled_done (h : s.Settled) : s.tx1TlpdDone = false := by
  rcases h with hoff | ⟨n, hbusy⟩
  · exact hoff.done
  · exact hbusy.done

end TlpSlave

/-! ### The master sequencer -/

namespace TlpMaster

variable {s : TlpMaster} {ready empty : Bool} {dout : BitVec 18} {n k : ℕ}

/-- The sequencer has nothing to send; the length of a command is in its register. -/
structure Off (s : TlpMaster) : Prop where
  status : s.mstStatus ≠ .mwrited
  valid : s.tx2TlphValid = false
  done : s.tx2TlpdDone = false
  length : s.mstStatus ≠ .idle → ∃ n < 64, s.tx2Length.toNat = 2 * n

/-- A write of `n` DW is to be sent, and `k` cycles of its data are over. -/
structure Busy (n k : ℕ) (s : TlpMaster) : Prop where
  status : s.mstStatus = .mwrited
  valid : s.tx2TlphValid = decide (k = 0)
  done : s.tx2TlpdDone = false
  length : (s.tx2Length.toNat + k) % 2048 = 2 * n
  size : n < 64
  le : k ≤ 2 * n + 2
  word0 : 0#1 ++ s.tx2Fmt ++ s.tx2Type ++ 0#1 ++ s.tx2Tc ++ 0#4 = 0x6000#16
  flags : BitVec.ofBool s.tx2Td ++ BitVec.ofBool s.tx2Ep ++ s.tx2Attr ++ 0#2 = 0#6
  fmt : s.tx2Fmt.getLsbD 0 = true

/-- The last word is on the wire. -/
structure Ending (s : TlpMaster) : Prop where
  status : s.mstStatus = .idle
  valid : s.tx2TlphValid = false
  done : s.tx2TlpdDone = true

/-- Nothing to send, or nothing of it sent yet. -/
def Settled (s : TlpMaster) : Prop := s.Off ∨ ∃ n, s.Busy n 0

/-- The header of the write; `none` for the word that is not the sequencer's. -/
def head (s : TlpMaster) (n : ℕ) : ℕ → Option (BitVec 16)
  | 0 => some 0x6000#16
  | 1 => some (0#6 ++ BitVec.ofNat 10 n)
  | 3 => some (s.tx2Tag ++ s.tx2Lastbe ++ s.tx2Firstbe)
  | 4 => some 0
  | 5 => some (s.tx2Addr.extractLsb' 30 16)
  | 6 => some (s.tx2Addr.extractLsb' 14 16)
  | 7 => some (s.tx2Addr.extractLsb' 0 14 ++ 0b00#2)
  | _ => none

theorem off_reset (s : TlpMaster) : s.reset.Off :=
  ⟨fun h => (by cases h), rfl, rfl, fun h => absurd rfl h⟩

theorem step_of_unread (hst : s.mstStatus ≠ .mwrited) (h : (s.mstRdEn && !empty) = false) :
    s.step ready empty dout = always s empty := by
  unfold step
  rw [if_neg hst, h]
  rfl

theorem step_of_read (hst : s.mstStatus ≠ .mwrited) (h : (s.mstRdEn && !empty) = true) :
    s.step ready empty dout = read (always s empty) dout := by
  unfold step
  rw [if_neg hst, if_pos h]

theorem step_mwrited (h : s.mstStatus = .mwrited) :
    s.step ready empty dout = mwrited (always s empty) ready dout := by
  unfold step
  rw [if_pos h]

/-- The write that `SLV_MWRITE16` prepares. -/
theorem busy_mwrite16 (hn : n < 64) (hlen : s.tx2Length.toNat = 2 * n)
    (hd : s.tx2TlpdDone = false) : (mwrite16 s dout).Busy n 0 := by
  have hword0 : 0#1 ++ 0b11#2 ++ 0#5 ++ 0#1 ++ 0#3 ++ 0#4 = 0x6000#16 := by decide
  have hflags : BitVec.ofBool false ++ BitVec.ofBool false ++ 0#2 ++ 0#2 = 0#6 := by decide
  have hfmt : (0b11#2).getLsbD 0 = true := by decide
  refine ⟨rfl, rfl, hd, ?_, hn, Nat.zero_le _, hword0, hflags, hfmt⟩
  change (s.tx2Length.toNat + 0) % 2048 = _
  omega

theorem toNat_length (x : BitVec 6) : (0b0000#4 ++ x ++ 0#1).toNat = 2 * x.toNat := by
  rw [toNat_append_add, toNat_append_add]
  change (0 * 2 ^ 6 + x.toNat) * 2 ^ 1 + 0 = _
  omega

/-- In `MST_IDLE` a word is skipped, or it is the first one of a command. -/
theorem off_idle (hst : s.mstStatus = .idle) (hd : s.tx2TlpdDone = false) : (idle s dout).Off := by
  unfold idle
  by_cases hhead : dout.getLsbD 17 = true
  · simp only [if_pos hhead]
    refine ⟨fun h => ?_, rfl, hd, fun _ => ?_⟩
    · simp only at h
      split at h <;> cases h
    · exact ⟨(dout.extractLsb' 8 6).toNat, (dout.extractLsb' 8 6).isLt, toNat_length _⟩
  · simp only [if_neg hhead]
    exact ⟨fun h => absurd (hst.symm.trans h) (by decide), rfl, hd, fun h => absurd hst h⟩

theorem off_step (h : s.Off) : (s.step ready empty dout).Settled := by
  obtain ⟨status, valid, done, length⟩ := h
  cases hr : s.mstRdEn && !empty with
  | false =>
    rw [step_of_unread status hr]
    exact .inl ⟨status, valid, rfl, length⟩
  | true =>
    rw [step_of_read status hr]
    unfold read
    cases hst : (always s empty).mstStatus with
    | idle => exact .inl (off_idle hst rfl)
    | mwrite16 =>
      obtain ⟨n, hn, hlen⟩ := length (ne_of_eq_of_ne hst (by decide))
      exact .inr ⟨n, busy_mwrite16 (s := always s empty) hn hlen rfl⟩
    | mwrited => exact absurd hst status
    | _ =>
      -- a word of the address
      have hlen := length (ne_of_eq_of_ne hst (by decide))
      exact .inl ⟨fun h => (by cases h), valid, rfl, fun _ => hlen⟩

theorem busy_wait (h : s.Busy n k) : (s.step false empty dout).Busy n k ∧
    (s.step false empty dout).head n = s.head n := by
  obtain ⟨status, valid, done, length, size, le, word0, flags, fmt⟩ := h
  rw [step_mwrited status]
  exact ⟨⟨status, valid, rfl, length, size, le, word0, flags, fmt⟩, rfl⟩

/-- The counter after `2 * n + j` cycles. -/
theorem toNat_length_iff (h : s.Busy n k) {j : ℕ} (h1 : 1 ≤ j) (h2 : j ≤ 2) :
    s.tx2Length.toNat = 2048 - j ↔ k = 2 * n + j := by
  have hlt := s.tx2Length.isLt
  have hlength := h.length
  have hsize := h.size
  have hle := h.le
  constructor <;> intro heq <;> omega

/-- The counter is one before its last value. -/
theorem length_eq_ff_iff (h : s.Busy n k) : s.tx2Length = 0x7ff#11 ↔ k = 2 * n + 1 :=
  BitVec.toNat_inj.symm.trans (toNat_length_iff h (le_refl 1) one_le_two)

/-- The counter is at its last value. -/
theorem length_eq_iff (h : s.Busy n k) : s.tx2Length = 0x7fe#11 ↔ k = 2 * n + 2 :=
  BitVec.toNat_inj.symm.trans (toNat_length_iff h one_le_two (le_refl 2))

/-- A cycle of the data. -/
theorem busy_step (empty : Bool) (dout : BitVec 18) (h : s.Busy n k) (hk : k < 2 * n + 2) :
    (s.step true empty dout).Busy n (k + 1) ∧ (s.step true empty dout).head n = s.head n ∧
      (s.step true empty dout).tx2Data = dout.extractLsb' 0 16 := by
  have hne : s.tx2Length ≠ 0x7fe#11 := fun heq => by
    have := (length_eq_iff h).1 heq
    omega
  obtain ⟨status, valid, done, length, size, le, word0, flags, fmt⟩ := h
  have hlt := s.tx2Length.isLt
  rw [step_mwrited status]
  unfold mwrited
  rw [if_pos rfl]
  refine ⟨⟨if_neg hne, ?_, decide_eq_false hne, ?_, size, by omega, word0, flags, fmt⟩, rfl, rfl⟩
  · exact (decide_eq_false (Nat.succ_ne_zero k)).symm
  · change ((s.tx2Length - 1).toNat + (k + 1)) % 2048 = _
    rw [TlpSlave.toNat_pred]
    omega

/-- The last cycle of the data. -/
theorem busy_last (h : s.Busy n (2 * n + 2)) : (s.step true empty dout).Ending := by
  have heq := (length_eq_iff h).2 rfl
  rw [step_mwrited h.status]
  unfold mwrited
  rw [if_pos rfl]
  exact ⟨if_pos heq, rfl, decide_eq_true heq⟩

theorem ending_step (h : s.Ending) : (s.step ready empty dout).Off := by
  have hst : s.mstStatus ≠ .mwrited := by
    rw [h.status]
    decide
  cases hr : s.mstRdEn && !empty with
  | false =>
    rw [step_of_unread hst hr]
    exact ⟨hst, h.valid, rfl, fun h' => absurd h.status h'⟩
  | true =>
    rw [step_of_read hst hr]
    unfold read
    rw [show (always s empty).mstStatus = .idle from h.status]
    exact off_idle h.status rfl

theorem settled_step (h : s.Settled) : (s.step false empty dout).Settled := by
  rcases h with hoff | ⟨n, hbusy⟩
  · exact off_step hoff
  · exact .inr ⟨n, (busy_wait hbusy).1⟩

theorem settled_valid (h : s.Settled) (hv : s.tx2TlphValid = true) : ∃ n, s.Busy n 0 := by
  rcases h with hoff | hbusy
  · exact absurd (hoff.valid.symm.trans hv) Bool.false_ne_true
  · exact hbusy

theorem settled_done (h : s.Settled) : s.tx2TlpdDone = false := by
  rcases h with hoff | ⟨n, hbusy⟩
  · exact hoff.done
  · exact hbusy.done

end TlpMaster

/-! ### The transmitter -/

namespace TlpTx

variable {s : TlpTx} (slv : TlpSlave) (mst : TlpMaster) (rdy : Bool) (ids : BitVec 16) {n p : ℕ}

/-- The state in which word `p` of a completion is driven. -/
def cplState : ℕ → TlpTxState
  | 0 => .tx1Head0
  | 1 => .tx1Head1
  | 2 => .tx1Comp2
  | 3 => .tx1Comp3
  | 4 => .tx1Comp4
  | 5 => .tx1Comp5
  | _ => .tx1Data

/-- The state in which word `p` of a write is driven. -/
def mwrState : ℕ → TlpTxState
  | 0 => .tx2Head0
  | 1 => .tx2Head1
  | 2 => .tx2Comp2
  | 3 => .tx2Comp3
  | 4 => .tx2Comp4
  | 5 => .tx2Comp5
  | 6 => .tx2Comp6
  | 7 => .tx2Comp7
  | _ => .tx2Data

theorem cplState_add (p : ℕ) : cplState (p + 6) = .tx1Data := rfl

theorem mwrState_add (p : ℕ) : mwrState (p + 8) = .tx2Data := rfl

/-- A word of the header of a completion. -/
theorem step_cplHead (hst : s.txStatus = cplState p) (hp : p < 6)
    (hr : s.tx1TlpdReady = decide (3 ≤ p)) :
    (s.step slv mst rdy ids).txStatus = cplState (p + 1) ∧
      (s.step slv mst rdy ids).txSt = decide (p = 0) ∧
      (s.step slv mst rdy ids).tx1TlpdReady = decide (3 ≤ p + 1) ∧
      (s.step slv mst rdy ids).tx2TlpdReady = s.tx2TlpdReady := by
  unfold step
  interval_cases p <;> rw [show s.txStatus = _ from hst] <;> simp_all [cplState]

/-- A word of a completion that is not the last one. -/
theorem step_cpl (hst : s.txStatus = cplState p) (hd : slv.tx1TlpdDone = false)
    (hr : s.tx1TlpdReady = decide (3 ≤ p)) :
    (s.step slv mst rdy ids).txStatus = cplState (p + 1) ∧
      (s.step slv mst rdy ids).txSt = decide (p = 0) ∧
      (s.step slv mst rdy ids).tx1TlpdReady = decide (3 ≤ p + 1) ∧
      (s.step slv mst rdy ids).tx2TlpdReady = s.tx2TlpdReady := by
  by_cases hp : p < 6
  · exact step_cplHead slv mst rdy ids hst hp hr
  · unfold step
    obtain ⟨q, rfl⟩ : ∃ q, p = q + 6 := ⟨p - 6, by omega⟩
    rw [cplState_add] at hst
    rw [hst]
    simp [hd, hr, cplState]

/-- The word is the sequencer's. -/
theorem data_cpl (hst : s.txStatus = cplState p) (hb : slv.Busy n (p - 3)) {w : BitVec 16}
    (hw : slv.head n p = some w) : (s.step slv mst rdy ids).txData = w := by
  have hp : p < 6 := by
    by_contra hge
    obtain ⟨q, rfl⟩ : ∃ q, p = q + 6 := ⟨p - 6, by omega⟩
    cases hw
  unfold step
  interval_cases p <;> rw [show s.txStatus = _ from hst]
  · exact hb.word0.trans (Option.some.inj hw)
  · have hlength : slv.tx1Length.extractLsb' 1 10 = BitVec.ofNat 10 n := by
      have hlen := hb.length
      have hlt := slv.tx1Length.isLt
      apply BitVec.eq_of_toNat_eq
      rw [BitVec.extractLsb'_toNat, BitVec.toNat_ofNat, Nat.shiftRight_eq_div_pow]
      omega
    change BitVec.ofBool slv.tx1Td ++ BitVec.ofBool slv.tx1Ep ++ slv.tx1Attr ++ 0#2 ++
      slv.tx1Length.extractLsb' 1 10 = w
    rw [hb.flags, hlength]
    exact Option.some.inj hw
  · cases hw
  · exact Option.some.inj hw
  · exact Option.some.inj hw
  · exact Option.some.inj hw

/-- The words after the header are the data register. -/
theorem data_cplData (hst : s.txStatus = cplState p) (hp : 6 ≤ p) :
    (s.step slv mst rdy ids).txData = slv.tx1Data := by
  obtain ⟨q, rfl⟩ : ∃ q, p = q + 6 := ⟨p - 6, by omega⟩
  unfold step
  rw [show s.txStatus = _ from hst]
  rfl

/-- The edge after the last word of a completion. -/
theorem step_cplLast (hst : s.txStatus = .tx1Data) (hd : slv.tx1TlpdDone = true) :
    (s.step slv mst rdy ids).txStatus = .idle ∧ (s.step slv mst rdy ids).txSt = false ∧
      (s.step slv mst rdy ids).tx1TlpdReady = false ∧
      (s.step slv mst rdy ids).tx2TlpdReady = s.tx2TlpdReady := by
  unfold step
  rw [hst]
  exact ⟨if_pos hd, rfl, if_pos hd, rfl⟩

/-- A word of a write that is not the last one. -/
theorem step_mwr (hst : s.txStatus = mwrState p) (hd : mst.tx2TlpdDone = false)
    (hf : mst.tx2Fmt.getLsbD 0 = true) (hr : s.tx2TlpdReady = decide (5 ≤ p)) :
    (s.step slv mst rdy ids).txStatus = mwrState (p + 1) ∧
      (s.step slv mst rdy ids).txSt = decide (p = 0) ∧
      (s.step slv mst rdy ids).tx2TlpdReady = decide (5 ≤ p + 1) ∧
      (s.step slv mst rdy ids).tx1TlpdReady = s.tx1TlpdReady := by
  unfold step
  by_cases hp : p < 8
  · interval_cases p <;> rw [show s.txStatus = _ from hst] <;> simp_all [mwrState]
  · obtain ⟨q, rfl⟩ : ∃ q, p = q + 8 := ⟨p - 8, by omega⟩
    rw [mwrState_add] at hst
    rw [hst]
    simp [hd, hr, mwrState]

/-- The word is the sequencer's. -/
theorem data_mwr (hst : s.txStatus = mwrState p) (hb : mst.Busy n (p - 5)) {w : BitVec 16}
    (hw : mst.head n p = some w) : (s.step slv mst rdy ids).txData = w := by
  have hp : p < 8 := by
    by_contra hge
    obtain ⟨q, rfl⟩ : ∃ q, p = q + 8 := ⟨p - 8, by omega⟩
    cases hw
  unfold step
  interval_cases p <;> rw [show s.txStatus = _ from hst]
  · exact hb.word0.trans (Option.some.inj hw)
  · have hlength : mst.tx2Length.extractLsb' 1 10 = BitVec.ofNat 10 n := by
      have hlen := hb.length
      have hlt := mst.tx2Length.isLt
      apply BitVec.eq_of_toNat_eq
      rw [BitVec.extractLsb'_toNat, BitVec.toNat_ofNat, Nat.shiftRight_eq_div_pow]
      omega
    change BitVec.ofBool mst.tx2Td ++ BitVec.ofBool mst.tx2Ep ++ mst.tx2Attr ++ 0#2 ++
      mst.tx2Length.extractLsb' 1 10 = w
    rw [hb.flags, hlength]
    exact Option.some.inj hw
  · cases hw
  · exact Option.some.inj hw
  · exact Option.some.inj hw
  · exact Option.some.inj hw
  · exact Option.some.inj hw
  · exact Option.some.inj hw

/-- The words after the header are the data register. -/
theorem data_mwrData (hst : s.txStatus = mwrState p) (hp : 8 ≤ p) :
    (s.step slv mst rdy ids).txData = mst.tx2Data := by
  obtain ⟨q, rfl⟩ : ∃ q, p = q + 8 := ⟨p - 8, by omega⟩
  unfold step
  rw [show s.txStatus = _ from hst]
  rfl

/-- The edge after the last word of a write. -/
theorem step_mwrLast (hst : s.txStatus = .tx2Data) (hd : mst.tx2TlpdDone = true) :
    (s.step slv mst rdy ids).txStatus = .idle ∧ (s.step slv mst rdy ids).txSt = false ∧
      (s.step slv mst rdy ids).tx2TlpdReady = false ∧
      (s.step slv mst rdy ids).tx1TlpdReady = s.tx1TlpdReady := by
  unfold step
  rw [hst]
  exact ⟨if_pos hd, rfl, if_pos hd, rfl⟩

end TlpTx

/-! ### The three blocks -/

/-- Where the transmit side is. -/
inductive LinkPhase
  | idle
  /-- Waiting for `tx_rdy`, for the sequencer of the master if `ch`. -/
  | wait (ch : Bool)
  /-- Word `p` of a completion with `n` DW is driven at the next edge. -/
  | cpl (n p : ℕ)
  /-- The last word of a completion is on the wire. -/
  | cplLast
  /-- A completion has ended early, and the transmitter is still in its data. -/
  | adrift
  /-- Word `p` of a write with `n` DW is driven at the next edge. -/
  | mwr (n p : ℕ)
  /-- The last word of a write is on the wire. -/
  | mwrLast

namespace PcieTlp

/-- The blocks are in the phase. -/
def InPhase (s : PcieTlp) : LinkPhase → Prop
  | .idle => s.tx.txStatus = .idle ∧ s.tx.tx1TlpdReady = false ∧ s.tx.tx2TlpdReady = false ∧
      s.slv.Settled ∧ s.mst.Settled
  | .wait ch => s.tx.txStatus = .wait ∧ s.tx.txLastch = ch ∧ s.tx.tx1TlpdReady = false ∧
      s.tx.tx2TlpdReady = false ∧ s.slv.Settled ∧ s.mst.Settled ∧
        if ch then ∃ n, s.mst.Busy n 0 else ∃ n, s.slv.Busy n 0
  | .cpl n p => s.tx.txStatus = TlpTx.cplState p ∧ s.tx.tx1TlpdReady = decide (3 ≤ p) ∧
      s.tx.tx2TlpdReady = false ∧ p ≤ TlpSlave.cplEnd n ∧ s.slv.Busy n (p - 3) ∧ s.mst.Settled
  | .cplLast => s.tx.txStatus = .tx1Data ∧ s.tx.tx1TlpdReady = true ∧ s.tx.tx2TlpdReady = false ∧
      s.slv.Ending ∧ s.mst.Settled
  | .adrift => (∃ p ≥ 3, s.tx.txStatus = TlpTx.cplState p) ∧ s.tx.tx1TlpdReady = true ∧
      s.tx.tx2TlpdReady = false ∧ s.slv.Loose ∧ s.mst.Settled
  | .mwr n p => s.tx.txStatus = TlpTx.mwrState p ∧ s.tx.tx2TlpdReady = decide (5 ≤ p) ∧
      s.tx.tx1TlpdReady = false ∧ p ≤ 2 * n + 7 ∧ s.mst.Busy n (p - 5) ∧ s.slv.Settled
  | .mwrLast => s.tx.txStatus = .tx2Data ∧ s.tx.tx2TlpdReady = true ∧ s.tx.tx1TlpdReady = false ∧
      s.mst.Ending ∧ s.slv.Settled

variable {s : PcieTlp} {i : PcieIn} {n p : ℕ} {ch : Bool}

theorem reset_inPhase (s : PcieTlp) : s.reset.InPhase .idle :=
  ⟨rfl, rfl, rfl, .inl (TlpSlave.off_reset _), .inl (TlpMaster.off_reset _)⟩

/-! #### What a phase says of a sequencer -/

theorem InPhase.cpl_busy (h : s.InPhase (.cpl n p)) : s.slv.Busy n (p - 3) := h.2.2.2.2.1

theorem InPhase.cpl_le (h : s.InPhase (.cpl n p)) : p ≤ TlpSlave.cplEnd n := h.2.2.2.1

theorem InPhase.cplLast_ending (h : s.InPhase .cplLast) : s.slv.Ending := h.2.2.2.1

theorem InPhase.mwr_busy (h : s.InPhase (.mwr n p)) : s.mst.Busy n (p - 5) := h.2.2.2.2.1

theorem InPhase.mwr_le (h : s.InPhase (.mwr n p)) : p ≤ 2 * n + 7 := h.2.2.2.1

theorem InPhase.mwrLast_ending (h : s.InPhase .mwrLast) : s.mst.Ending := h.2.2.2.1

/-- The transmitter takes words of the slave sequencer only in a completion. -/
theorem InPhase.of_ready1 {φ : LinkPhase} (h : s.InPhase φ) (hr : s.tx.tx1TlpdReady = true) :
    (∃ n p, φ = .cpl n p ∧ 3 ≤ p) ∨ φ = .cplLast ∨ φ = .adrift := by
  have hno : s.tx.tx1TlpdReady ≠ false := by
    rw [hr]
    decide
  cases φ with
  | idle => exact absurd h.2.1 hno
  | wait ch => exact absurd h.2.2.1 hno
  | cpl n p => exact .inl ⟨n, p, rfl, of_decide_eq_true (h.2.1.symm.trans hr)⟩
  | cplLast => exact .inr (.inl rfl)
  | adrift => exact .inr (.inr rfl)
  | mwr n p => exact absurd h.2.2.1 hno
  | mwrLast => exact absurd h.2.2.1 hno

/-- The transmitter takes words of the master sequencer only in a write. -/
theorem InPhase.of_ready2 {φ : LinkPhase} (h : s.InPhase φ) (hr : s.tx.tx2TlpdReady = true) :
    (∃ n p, φ = .mwr n p ∧ 5 ≤ p) ∨ φ = .mwrLast := by
  have hno : s.tx.tx2TlpdReady ≠ false := by
    rw [hr]
    decide
  cases φ with
  | idle => exact absurd h.2.2.1 hno
  | wait ch => exact absurd h.2.2.2.1 hno
  | cpl n p => exact absurd h.2.2.1 hno
  | cplLast => exact absurd h.2.2.1 hno
  | adrift => exact absurd h.2.2.1 hno
  | mwr n p => exact .inl ⟨n, p, rfl, of_decide_eq_true (h.2.1.symm.trans hr)⟩
  | mwrLast => exact .inr rfl

/-! #### One edge from each phase -/

theorem slv_step (s : PcieTlp) (i : PcieIn) :
    (s.step i).slv = s.slv.step s.rx i.rx.rxBarHit s.tx.tx1TlpdReady i.slvDatO := rfl

theorem mst_step (s : PcieTlp) (i : PcieIn) :
    (s.step i).mst = s.mst.step s.tx.tx2TlpdReady i.mstEmpty i.mstDout := rfl

theorem settled_slv (h : s.slv.Settled) (hr : s.tx.tx1TlpdReady = false) :
    (s.step i).slv.Settled := by
  rw [slv_step, hr]
  exact TlpSlave.settled_step h

theorem settled_mst (h : s.mst.Settled) (hr : s.tx.tx2TlpdReady = false) :
    (s.step i).mst.Settled := by
  rw [mst_step, hr]
  exact TlpMaster.settled_step h

theorem idle_step (h : s.InPhase .idle) :
    ((s.step i).InPhase .idle ∨ ∃ ch, (s.step i).InPhase (.wait ch)) ∧
      (s.step i).tx.txSt = false := by
  obtain ⟨hst, hr1, hr2, hslv, hmst⟩ := h
  have hslv' := settled_slv (i := i) hslv hr1
  have hmst' := settled_mst (i := i) hmst hr2
  have htx : (s.step i).tx =
      if s.slv.tx1TlphValid || s.mst.tx2TlphValid then
        { s.tx.always with txLastch := s.mst.tx2TlphValid, txReq := true, txStatus := .wait }
      else s.tx.always := by
    change s.tx.step _ _ _ _ = _
    unfold TlpTx.step
    rw [hst]
  cases hv : s.slv.tx1TlphValid || s.mst.tx2TlphValid with
  | false =>
    rw [hv, if_neg Bool.false_ne_true] at htx
    unfold InPhase
    rw [htx]
    exact ⟨.inl ⟨hst, hr1, hr2, hslv', hmst'⟩, rfl⟩
  | true =>
    rw [hv, if_pos rfl] at htx
    refine ⟨.inr ⟨s.mst.tx2TlphValid, ?_⟩, by rw [htx]; rfl⟩
    unfold InPhase
    rw [htx]
    refine ⟨rfl, rfl, hr1, hr2, hslv', hmst', ?_⟩
    cases hv2 : s.mst.tx2TlphValid with
    | true =>
      obtain ⟨n, hn⟩ := TlpMaster.settled_valid hmst hv2
      refine ⟨n, ?_⟩
      rw [mst_step, hr2]
      exact (TlpMaster.busy_wait hn).1
    | false =>
      rw [hv2, Bool.or_false] at hv
      obtain ⟨n, hn⟩ := TlpSlave.settled_valid hslv hv
      refine ⟨n, ?_⟩
      rw [slv_step, hr1]
      exact (TlpSlave.busy_wait hn).1

theorem wait_step (h : s.InPhase (.wait ch)) :
    ((s.step i).InPhase (.wait ch) ∨
        ∃ n, (s.step i).InPhase (if ch then .mwr n 0 else .cpl n 0)) ∧
      (s.step i).tx.txSt = false := by
  obtain ⟨hst, hch, hr1, hr2, hslv, hmst, hbusy⟩ := h
  have hslv' := settled_slv (i := i) hslv hr1
  have hmst' := settled_mst (i := i) hmst hr2
  have hbusy' : if ch then ∃ n, (s.step i).mst.Busy n 0 else ∃ n, (s.step i).slv.Busy n 0 := by
    rw [mst_step, hr2, slv_step, hr1]
    cases ch
    · exact hbusy.imp fun n hn => (TlpSlave.busy_wait hn).1
    · exact hbusy.imp fun n hn => (TlpMaster.busy_wait hn).1
  have htx : (s.step i).tx =
      if i.txRdy then
        { s.tx.always with txReq := false, txStatus := if ch then .tx2Head0 else .tx1Head0 }
      else s.tx.always := by
    change s.tx.step _ _ _ _ = _
    unfold TlpTx.step
    rw [hst, hch]
  cases hrdy : i.txRdy with
  | false =>
    rw [hrdy, if_neg Bool.false_ne_true] at htx
    refine ⟨.inl ?_, by rw [htx]; rfl⟩
    unfold InPhase
    rw [htx]
    exact ⟨hst, hch, hr1, hr2, hslv', hmst', hbusy'⟩
  | true =>
    rw [hrdy, if_pos rfl] at htx
    refine ⟨.inr ?_, by rw [htx]; rfl⟩
    cases ch with
    | true =>
      obtain ⟨n, hn⟩ := hbusy'
      refine ⟨n, ?_⟩
      simp only [if_pos, InPhase, htx]
      exact ⟨rfl, hr2, hr1, Nat.zero_le _, hn, hslv'⟩
    | false =>
      obtain ⟨n, hn⟩ := hbusy'
      refine ⟨n, ?_⟩
      simp only [Bool.false_eq_true, if_false, InPhase, htx]
      exact ⟨rfl, hr1, hr2, Nat.zero_le _, hn, hmst'⟩

/-- A word of a completion, the sequencer counting along from the fourth word on. -/
theorem cpl_slv (h : s.InPhase (.cpl n p)) :
    (p < TlpSlave.cplEnd n → (s.step i).slv.Busy n (p + 1 - 3) ∧
        (s.step i).slv.head n = s.slv.head n) ∧
      (p = TlpSlave.cplEnd n → (s.step i).slv.Ending) := by
  obtain ⟨-, hr1, -, hp, hslv, -⟩ := h
  have hend := TlpSlave.le_cplEnd n
  rw [slv_step, hr1]
  by_cases h3 : 3 ≤ p
  · rw [decide_eq_true h3]
    constructor
    · intro hlt
      obtain ⟨hbusy, hhead, -⟩ := TlpSlave.busy_step s.rx i.rx.rxBarHit i.slvDatO hslv (by omega)
      rw [show p - 3 + 1 = p + 1 - 3 by omega] at hbusy
      exact ⟨hbusy, hhead⟩
    · intro heq
      exact TlpSlave.busy_last hslv (by omega)
  · rw [decide_eq_false h3]
    refine ⟨fun _ => ?_, fun heq => by omega⟩
    rw [show p + 1 - 3 = p - 3 by omega]
    exact TlpSlave.busy_wait hslv

theorem cpl_step (h : s.InPhase (.cpl n p)) (hp : p < TlpSlave.cplEnd n) :
    (s.step i).InPhase (.cpl n (p + 1)) := by
  obtain ⟨hbusy, -⟩ := (cpl_slv (i := i) h).1 hp
  obtain ⟨hst, hr1, hr2, -, hslv, hmst⟩ := h
  obtain ⟨hst', -, hr1', hr2'⟩ := TlpTx.step_cpl s.slv s.mst i.txRdy i.ids hst hslv.done hr1
  exact ⟨hst', hr1', hr2'.trans hr2, by omega, hbusy, settled_mst hmst hr2⟩

theorem cpl_last (h : s.InPhase (.cpl n (TlpSlave.cplEnd n))) :
    (s.step i).InPhase (if n = 1023 then .adrift else .cplLast) := by
  have hending := (cpl_slv (i := i) h).2 rfl
  obtain ⟨hst, hr1, hr2, -, hslv, hmst⟩ := h
  obtain ⟨hst', -, hr1', hr2'⟩ := TlpTx.step_cpl s.slv s.mst i.txRdy i.ids hst hslv.done hr1
  have hend := TlpSlave.le_cplEnd n
  have hr1' := hr1'.trans (decide_eq_true (by omega))
  split
  · exact ⟨⟨_, by omega, hst'⟩, hr1', hr2'.trans hr2, fun _ => hending, settled_mst hmst hr2⟩
  · refine ⟨hst'.trans ?_, hr1', hr2'.trans hr2, hending, settled_mst hmst hr2⟩
    rw [TlpSlave.cplEnd_of_ne ‹_›, TlpTx.cplState_add]

/-- What is on the wire after word `p` of a completion. -/
theorem cpl_wire (h : s.InPhase (.cpl n p)) :
    (s.step i).wire.txSt = decide (p = 0) ∧
      (s.step i).wire.txEnd = decide (p = TlpSlave.cplEnd n) ∧
      (∀ w, s.slv.head n p = some w → (s.step i).wire.txData = w) ∧
      (6 ≤ p → (s.step i).wire.txData = s.slv.tx1Data) := by
  have hphase := h
  obtain ⟨hst, hr1, hr2, hp, hslv, hmst⟩ := h
  obtain ⟨-, htxSt, -, -⟩ := TlpTx.step_cpl s.slv s.mst i.txRdy i.ids hst hslv.done hr1
  have hmst' := TlpMaster.settled_done (settled_mst (i := i) hmst hr2)
  refine ⟨htxSt, ?_, fun w hw => TlpTx.data_cpl s.slv s.mst i.txRdy i.ids hst hslv hw,
    fun h6 => TlpTx.data_cplData s.slv s.mst i.txRdy i.ids hst h6⟩
  change ((s.step i).slv.tx1TlpdDone || (s.step i).mst.tx2TlpdDone) = _
  rw [hmst', Bool.or_false]
  by_cases hlast : p = TlpSlave.cplEnd n
  · rw [((cpl_slv (i := i) hphase).2 hlast).done, decide_eq_true hlast]
  · rw [((cpl_slv (i := i) hphase).1 (by omega)).1.done, decide_eq_false hlast]

theorem cplLast_step (h : s.InPhase .cplLast) :
    (s.step i).InPhase .idle ∧ (s.step i).tx.txSt = false := by
  obtain ⟨hst, hr1, hr2, hslv, hmst⟩ := h
  obtain ⟨hst', htxSt, hr1', hr2'⟩ := TlpTx.step_cplLast s.slv s.mst i.txRdy i.ids hst hslv.done
  have hslv' : (s.step i).slv.Settled := .inl (TlpSlave.ending_step hslv)
  exact ⟨⟨hst', hr1', hr2'.trans hr2, hslv', settled_mst hmst hr2⟩, htxSt⟩

/-- Adrift, the transmitter stops at the next end that it sees. -/
theorem adrift_step (h : s.InPhase .adrift) :
    ((s.step i).InPhase .adrift ∨ (s.step i).InPhase .idle) ∧ (s.step i).tx.txSt = false := by
  obtain ⟨⟨p, hp, hst⟩, hr1, hr2, hslv, hmst⟩ := h
  have hloose : (s.step i).slv.Loose := TlpSlave.loose_step _ _ _ _ _
  have hmst' := settled_mst (i := i) hmst hr2
  have hr1' : s.tx.tx1TlpdReady = decide (3 ≤ p) := hr1.trans (decide_eq_true hp).symm
  cases hd : s.slv.tx1TlpdDone with
  | false =>
    obtain ⟨hst', htxSt, hr, hr2'⟩ := TlpTx.step_cpl s.slv s.mst i.txRdy i.ids hst hd hr1'
    exact ⟨.inl ⟨⟨p + 1, by omega, hst'⟩, hr.trans (decide_eq_true (by omega)), hr2'.trans hr2,
      hloose, hmst'⟩, htxSt.trans (decide_eq_false (by omega))⟩
  | true =>
    by_cases h6 : 6 ≤ p
    · obtain ⟨q, rfl⟩ : ∃ q, p = q + 6 := ⟨p - 6, by omega⟩
      obtain ⟨hst', htxSt, hr, hr2'⟩ := TlpTx.step_cplLast s.slv s.mst i.txRdy i.ids hst hd
      exact ⟨.inr ⟨hst', hr, hr2'.trans hr2, .inl (TlpSlave.ending_step (hslv hd)), hmst'⟩, htxSt⟩
    · obtain ⟨hst', htxSt, hr, hr2'⟩ :=
        TlpTx.step_cplHead s.slv s.mst i.txRdy i.ids hst (by omega) hr1'
      exact ⟨.inl ⟨⟨p + 1, by omega, hst'⟩, hr.trans (decide_eq_true (by omega)), hr2'.trans hr2,
        hloose, hmst'⟩, htxSt.trans (decide_eq_false (by omega))⟩

/-- A word of a write, the sequencer counting along from the sixth word on. -/
theorem mwr_mst (h : s.InPhase (.mwr n p)) :
    (p < 2 * n + 7 → (s.step i).mst.Busy n (p + 1 - 5) ∧
        (s.step i).mst.head n = s.mst.head n) ∧
      (p = 2 * n + 7 → (s.step i).mst.Ending) := by
  obtain ⟨-, hr2, -, hp, hmst, -⟩ := h
  rw [mst_step, hr2]
  by_cases h5 : 5 ≤ p
  · rw [decide_eq_true h5]
    constructor
    · intro hlt
      obtain ⟨hbusy, hhead, -⟩ := TlpMaster.busy_step i.mstEmpty i.mstDout hmst (by omega)
      rw [show p - 5 + 1 = p + 1 - 5 by omega] at hbusy
      exact ⟨hbusy, hhead⟩
    · intro heq
      rw [show p - 5 = 2 * n + 2 by omega] at hmst
      exact TlpMaster.busy_last hmst
  · rw [decide_eq_false h5]
    refine ⟨fun _ => ?_, fun heq => by omega⟩
    rw [show p + 1 - 5 = p - 5 by omega]
    exact TlpMaster.busy_wait hmst

theorem mwr_step (h : s.InPhase (.mwr n p)) (hp : p < 2 * n + 7) :
    (s.step i).InPhase (.mwr n (p + 1)) := by
  obtain ⟨hbusy, -⟩ := (mwr_mst (i := i) h).1 hp
  obtain ⟨hst, hr2, hr1, -, hmst, hslv⟩ := h
  obtain ⟨hst', -, hr2', hr1'⟩ :=
    TlpTx.step_mwr s.slv s.mst i.txRdy i.ids hst hmst.done hmst.fmt hr2
  exact ⟨hst', hr2', hr1'.trans hr1, by omega, hbusy, settled_slv hslv hr1⟩

theorem mwr_last (h : s.InPhase (.mwr n (2 * n + 7))) :
    (s.step i).InPhase .mwrLast := by
  have hending := (mwr_mst (i := i) h).2 rfl
  obtain ⟨hst, hr2, hr1, -, hmst, hslv⟩ := h
  obtain ⟨hst', -, hr2', hr1'⟩ :=
    TlpTx.step_mwr s.slv s.mst i.txRdy i.ids hst hmst.done hmst.fmt hr2
  exact ⟨hst', hr2'.trans (decide_eq_true (by omega)), hr1'.trans hr1, hending,
    settled_slv hslv hr1⟩

/-- What is on the wire after word `p` of a write. -/
theorem mwr_wire (h : s.InPhase (.mwr n p)) :
    (s.step i).wire.txSt = decide (p = 0) ∧ (s.step i).wire.txEnd = decide (p = 2 * n + 7) ∧
      (∀ w, s.mst.head n p = some w → (s.step i).wire.txData = w) ∧
      (8 ≤ p → (s.step i).wire.txData = s.mst.tx2Data) := by
  have hphase := h
  obtain ⟨hst, hr2, hr1, hp, hmst, hslv⟩ := h
  obtain ⟨-, htxSt, -, -⟩ := TlpTx.step_mwr s.slv s.mst i.txRdy i.ids hst hmst.done hmst.fmt hr2
  have hslv' := TlpSlave.settled_done (settled_slv (i := i) hslv hr1)
  refine ⟨htxSt, ?_, fun w hw => TlpTx.data_mwr s.slv s.mst i.txRdy i.ids hst hmst hw,
    fun h8 => TlpTx.data_mwrData s.slv s.mst i.txRdy i.ids hst h8⟩
  change ((s.step i).slv.tx1TlpdDone || (s.step i).mst.tx2TlpdDone) = _
  rw [hslv', Bool.false_or]
  by_cases hlast : p = 2 * n + 7
  · rw [((mwr_mst (i := i) hphase).2 hlast).done, decide_eq_true hlast]
  · rw [((mwr_mst (i := i) hphase).1 (by omega)).1.done, decide_eq_false hlast]

theorem mwrLast_step (h : s.InPhase .mwrLast) :
    (s.step i).InPhase .idle ∧ (s.step i).tx.txSt = false := by
  obtain ⟨hst, hr2, hr1, hmst, hslv⟩ := h
  obtain ⟨hst', htxSt, hr2', hr1'⟩ := TlpTx.step_mwrLast s.slv s.mst i.txRdy i.ids hst hmst.done
  have hmst' : (s.step i).mst.Settled := .inl (TlpMaster.ending_step hmst)
  exact ⟨⟨hst', hr1'.trans hr1, hr2', settled_slv hslv hr1, hmst'⟩, htxSt⟩

end PcieTlp

end IpNuma
