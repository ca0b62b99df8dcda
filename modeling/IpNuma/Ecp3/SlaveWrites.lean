import IpNuma.Ecp3.Traffic

/-!
# The slave bus during a write

From `SLV_MWRITEH` on the sequencer takes a word of the data in every cycle and puts it on the bus,
at the next address and with the select bits of its byte enables.
-/

namespace IpNuma

/-- The access in a cycle of the slave bus, if it is a write. -/
def SlvBus.written (b : SlvBus) : List SlvBus := if b.ce && b.we then [b] else []

namespace TlpSlave

variable {s : TlpSlave} {rx : TlpRx} {r : MemReq} {hit : BitVec 7} {ready : Bool} {dat : BitVec 16}
  {j : ℕ} {e : Bool}

/-- Word `j` of a write is put on the bus at the next edge. -/
structure Writing (e : Bool) (r : MemReq) (j : ℕ) (s : TlpSlave) : Prop where
  status : s.slvStatus = .mwrited
  length : s.tx1Length.toNat = j
  adr : s.bus.adr = r.adr + BitVec.ofNat 19 j - 1
  bar : s.bus.bar = r.slvBar e

/-- The address of a request, as far as the slave bus has it. -/
theorem addr_of_holds (h : rx.Holds r r.headLen) :
    rx.rxAddr.extractLsb' 0 18 = r.addr.extractLsb' 2 18 := by
  apply BitVec.eq_of_getLsbD_eq
  intro i hi
  by_cases h14 : i < 14
  · have hlow := congrArg (fun x => x.getLsbD i) (h.low (le_refl _))
    simp only [MemReq.low, BitVec.getLsbD_extractLsb', h14, decide_true, Bool.true_and,
      show 2 + i < 16 by omega, Nat.zero_add] at hlow
    rw [BitVec.getLsbD_extractLsb', BitVec.getLsbD_extractLsb', Nat.zero_add, hlow]
  · have hmid := congrArg (fun x => x.getLsbD (i - 14)) (h.mid (by omega))
    simp only [MemReq.mid, BitVec.getLsbD_extractLsb', show i - 14 < 16 by omega, decide_true,
      Bool.true_and, show 14 + (i - 14) = i by omega, show 16 + (i - 14) = 2 + i by omega] at hmid
    rw [BitVec.getLsbD_extractLsb', BitVec.getLsbD_extractLsb', Nat.zero_add, hmid]

theorem startAdr_of_holds (h : rx.Holds r r.headLen) : startAdr rx = r.adr - 1 := by
  unfold startAdr MemReq.adr
  rw [addr_of_holds h]

theorem writing_mwriteh (hst : s.slvStatus = .mwriteh) (hbar : s.bus.bar = r.slvBar e)
    (h : rx.Holds r r.headLen) :
    (s.step rx hit ready dat).Writing e r 0 := by
  have hstep : s.step rx hit ready dat = mwriteh (always s) rx := by
    unfold step
    rw [hst]
  rw [hstep]
  refine ⟨rfl, rfl, ?_, hbar⟩
  change startAdr rx = _
  rw [startAdr_of_holds h]
  congr 1
  exact (BitVec.add_zero _).symm

theorem toNat_dw (x : BitVec 11) : (x.extractLsb' 1 10).toNat = x.toNat / 2 := by
  have hlt := x.isLt
  rw [BitVec.extractLsb'_toNat, Nat.shiftRight_eq_div_pow]
  omega

theorem dw_eq_zero_iff (x : BitVec 11) : x.extractLsb' 1 10 = 0 ↔ x.toNat / 2 = 0 := by
  rw [← toNat_dw]
  exact BitVec.toNat_inj.symm

/-- The last DW of a write. -/
theorem dw_eq_last_iff (x : BitVec 11) (r : MemReq) :
    x.extractLsb' 1 10 = r.length - 1 ↔ x.toNat / 2 + 1 = r.dws := by
  have hlt := r.length.isLt
  have hpos := r.dws_pos
  have hdws : r.dws = (if r.length = 0 then 1024 else r.length.toNat) := rfl
  have hlast : (r.length - 1).toNat = r.dws - 1 := by
    rw [BitVec.toNat_sub]
    change (2 ^ 10 - 1 + r.length.toNat) % 2 ^ 10 = _
    by_cases hzero : r.length = 0
    · rw [hdws, if_pos hzero, hzero]
      rfl
    · rw [if_neg hzero] at hdws
      omega
  rw [← BitVec.toNat_inj, toNat_dw, hlast]
  omega

theorem getLsbD_zero (x : BitVec 11) : x.getLsbD 0 = decide (x.toNat % 2 = 1) := by
  rw [BitVec.getLsbD, Nat.testBit_zero]

/-- The select bits are those of the word. -/
theorem select_eq (h : rx.Holds r r.headLen) (hlen : s.tx1Length.toNat = j) :
    select s rx = r.select j := by
  have hle := r.six_le_headLen
  obtain ⟨-, hlast, hfirst⟩ := h.bytes (by omega)
  have hlength := h.length (by omega)
  have hzero := dw_eq_zero_iff s.tx1Length
  have hend := dw_eq_last_iff s.tx1Length r
  have hodd := getLsbD_zero s.tx1Length
  rw [hlen] at hzero hend hodd
  unfold select MemReq.select MemReq.lanes
  rw [hlength, hlast, hfirst, hodd]
  by_cases h0 : j / 2 = 0
  · rw [if_pos h0, if_pos (hzero.2 h0)]
  · rw [if_neg h0, if_neg (mt hzero.1 h0)]
    by_cases h1 : j / 2 + 1 = r.dws
    · rw [if_pos h1, if_pos (hend.2 h1)]
    · rw [if_neg h1, if_neg (mt hend.1 h1)]

/-- The sequencer stops after the last word. -/
theorem stops_iff (h : rx.Holds r r.headLen) (hlen : s.tx1Length.toNat = j)
    (hend : rx.rxEnd2 = decide (j + 1 = 2 * r.dws)) :
    (lastWord s rx || rx.rxEnd2) = decide (j + 1 = 2 * r.dws) := by
  have hle := r.six_le_headLen
  have hlength := h.length (by omega)
  have hlast := dw_eq_last_iff s.tx1Length r
  have hodd := getLsbD_zero s.tx1Length
  rw [hlen] at hlast hodd
  rw [hend]
  by_cases hj' : j + 1 = 2 * r.dws
  · rw [decide_eq_true hj', Bool.or_true]
  · rw [decide_eq_false hj', Bool.or_false]
    unfold lastWord
    rw [hlength, hodd]
    apply decide_eq_false
    rintro ⟨-, hdw, h1⟩
    have h1' := of_decide_eq_true h1
    have := hlast.1 hdw
    omega

/-- A word of a write. -/
theorem writing_step (hw : s.Writing e r j) (hj : j < 2 * r.dws) (h : rx.Holds r r.headLen)
    (hend : rx.rxEnd2 = decide (j + 1 = 2 * r.dws)) :
    (s.step rx hit ready dat).bus = r.access e j rx.rxData2 ∧
      if j + 1 = 2 * r.dws then (s.step rx hit ready dat).slvStatus = .idle
      else (s.step rx hit ready dat).Writing e r (j + 1) := by
  obtain ⟨hst, hlen, hadr, hbar⟩ := hw
  have hstep : s.step rx hit ready dat = mwrited (always s) rx := by
    unfold step
    rw [hst]
  have hstop := stops_iff (s := always s) h hlen hend
  have hadr' : s.bus.adr + 1 = r.adr + BitVec.ofNat 19 j := by
    rw [hadr]
    exact BitVec.sub_add_cancel _ _
  rw [hstep]
  constructor
  · unfold mwrited MemReq.access
    rw [← select_eq (s := always s) h hlen]
    change SlvBus.mk s.bus.bar true true (s.bus.adr + 1) rx.rxData2 _ = _
    rw [hbar, hadr']
  · unfold mwrited
    rw [hstop]
    by_cases hlast : j + 1 = 2 * r.dws
    · rw [if_pos hlast, decide_eq_true hlast]
      rfl
    · rw [if_neg hlast, decide_eq_false hlast]
      refine ⟨rfl, ?_, ?_, hbar⟩
      · have hle := r.dws_le
        change (s.tx1Length + 1).toNat = _
        rw [BitVec.toNat_add, hlen]
        change (j + 1) % 2048 = _
        omega
      · change s.bus.adr + 1 = _
        rw [hadr', BitVec.ofNat_add, ← BitVec.add_assoc]
        exact (BitVec.add_sub_cancel _ _).symm

/-- No other state writes. -/
theorem written_step (hst : s.slvStatus ≠ .mwrited) :
    (s.step rx hit ready dat).bus.written = [] := by
  have hwe : (s.step rx hit ready dat).bus.we = false := by
    unfold step
    cases h : s.slvStatus with
    | idle =>
      unfold idle
      simp only
      split <;> rfl
    | mreadh => rfl
    | mreadd =>
      unfold mreadd
      simp only
      split <;> rfl
    | mwriteh => rfl
    | mwrited => exact absurd h hst
  unfold SlvBus.written
  rw [hwe, Bool.and_false]
  rfl

end TlpSlave

end IpNuma
