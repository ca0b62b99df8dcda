import IpNuma.Ecp3.MasterDrain

/-!
# A command that is written in time

The transmitter reads the first word of the data nine cycles after the last word of the address at
the earliest (`lead`).  A command whose data follow its address within eight cycles is then complete
in the FIFO, and the FIFO does not run empty while they are read (`along_fed`).
-/

namespace IpNuma

open Clocked PcieTlp

namespace MasterSide

/-- The reader of the wire and the sequencer are in step with the blocks, and there is room in the
FIFO. -/
structure InStep (s : MasterSide) (φ : LinkPhase) (sc : Scan TxWord) (cs : List Command) :
    Prop where
  framed : Framed s.tlp φ sc.part
  place : Place s φ sc.part cs
  room : s.queue.length < s.numwords

/-- The number of cycles before the transmitter is ready for data of the master sequencer. -/
def lead (s : MasterSide) : LinkPhase → ℕ
  | .wait true => 6
  | .mwr _ p => 5 - p
  | .mwrLast => 0
  | _ => if s.tlp.mst.mstStatus = .mwrited then 7 else 8

variable {s : MasterSide} {i : MasterIn} {φ φ' : LinkPhase} {sc : Scan TxWord} {c : Command}
  {cs : List Command}

theorem inStep_start (t : PcieTlp) {numwords : ℕ} (h : (wordsOf cs).length < numwords) :
    InStep (start t numwords cs) .idle ⟨none, []⟩ cs :=
  ⟨framed_reset t, .between rfl rfl, h⟩

theorem InStep.roomy (h : InStep s φ sc cs) (i : MasterIn) : s.Room i := by
  intro _
  have hroom := h.room
  rw [queue, List.length_append] at hroom
  omega

theorem inStep_step (h : InStep s φ sc cs) (hfed : s.Fed) (i : MasterIn) :
    ∃ φ' sc' cs', InStep (s.step i) φ' sc' cs' ∧ Follows φ φ' ∧
      (cs' = cs ∨ ∃ c, cs = c :: cs') := by
  have hroom := h.roomy i
  obtain ⟨φ', ps, hfollows, hframed, -, hadv⟩ := place_step h.framed h.place hfed hroom
  have hqueue := (length_queue_step hroom).1.trans_lt h.room
  rcases hadv with ⟨-, hplace⟩ | ⟨c, cs', ws, hcs, -, -, hplace⟩
  · exact ⟨φ', _, cs, ⟨hframed, hplace, hqueue⟩, hfollows, .inl rfl⟩
  · exact ⟨φ', _, cs', ⟨hframed, hplace, hqueue⟩, hfollows, .inr ⟨c, hcs⟩⟩

/-! ### Before the data -/

theorem fed_of_status (h : s.tlp.mst.mstStatus ≠ .mwrited) : s.Fed := fun hdata => absurd hdata.1 h

/-- While the last word of the address is still to come. -/
theorem status_of_todo (h : InStep s φ sc [c]) (htodo : 2 * c.len.toNat < s.todo.length) :
    s.tlp.mst.mstStatus ≠ .mwrited := by
  have hle : s.todo.length ≤ s.queue.length := by
    rw [queue, List.length_append]
    omega
  have hdata := c.length_dataWords
  intro hst
  cases h.place with
  | between hidle => exact absurd (hst.symm.trans hidle) (by decide)
  | reading hidle hne => exact hne hst
  | asked hb hh hrd hwait hq =>
    rw [hq, List.length_append] at hle
    simp only [wordsOf, List.flatMap_nil, List.length_nil] at hle
    omega
  | @sending c cs k hk hφ hh hrd hwait hq =>
    rw [hq, List.length_append, List.length_drop] at hle
    simp only [wordsOf, List.flatMap_nil, List.length_nil] at hle
    omega

/-- A word is written in each cycle with `push`. -/
theorem todo_run (s : MasterSide) (is : List MasterIn) :
    (run step s is).todo = s.todo.drop ((is.map MasterIn.push).count true) := by
  induction is generalizing s with
  | nil => rfl
  | cons i is ih =>
    have htodo : (s.step i).todo = if i.push then s.todo.drop 1 else s.todo := rfl
    rw [run_cons, ih, htodo, List.map_cons]
    cases i.push with
    | true => rw [if_pos rfl, List.drop_drop, List.count_cons_self, Nat.add_comm]
    | false => rw [if_neg Bool.false_ne_true, List.count_cons_of_ne (by decide)]

theorem length_todo_run (s : MasterSide) (is : List MasterIn) :
    (run step s is).todo.length ≤ s.todo.length := by
  rw [todo_run, List.length_drop]
  omega

/-- No write has been on the wire. -/
theorem ne_mwrLast (h : InStep s φ sc cs) (hst : s.tlp.mst.mstStatus ≠ .mwrited)
    (hfollows : Follows φ φ') : φ' ≠ .mwrLast := by
  rintro rfl
  cases φ with
  | mwr n p => exact hst h.framed.phase.mwr_busy.status
  | wait ch =>
    rcases hfollows with hwait | ⟨n, hn⟩
    · cases hwait
    · cases ch <;> cases hn
  | idle =>
    rcases hfollows with hidle | ⟨ch, hch⟩
    · cases hidle
    · cases hch
  | cpl n p =>
    have hcpl : LinkPhase.mwrLast = if p = TlpSlave.cplEnd n then
        if n = 1023 then .adrift else .cplLast else .cpl n (p + 1) := hfollows
    split_ifs at hcpl
  | cplLast => cases hfollows
  | adrift => rcases hfollows with h | h <;> cases h
  | mwrLast => cases hfollows

/-- **The address is read** with no look at the data. -/
theorem along_address (h : InStep s φ sc [c]) (hφ : φ ≠ .mwrLast) {is : List MasterIn}
    (htodo : 2 * c.len.toNat < (run step s is).todo.length) :
    Along step (fun s _ => s.Fed) s is ∧
      ∃ φ' sc', InStep (run step s is) φ' sc' [c] ∧ φ' ≠ .mwrLast := by
  induction is generalizing s φ sc with
  | nil => exact ⟨trivial, φ, sc, h, hφ⟩
  | cons i is ih =>
    have hle := length_todo_run (s.step i) is
    have hle' : (s.step i).todo.length ≤ s.todo.length := length_todo_run s [i]
    rw [run_cons] at htodo ⊢
    have hst := status_of_todo h (by omega)
    obtain ⟨φ', sc', cs', h', hfollows, hcs⟩ := inStep_step h (fed_of_status hst) i
    obtain rfl : cs' = [c] := by
      rcases hcs with hsame | ⟨d, hd⟩
      · exact hsame
      · -- a write that is sent would have taken all of the words
        obtain ⟨-, rfl⟩ := List.cons.inj hd
        have hplace := h'.place
        cases hplace with
        | between hidle hq =>
          have hnil := congrArg List.length hq
          rw [queue, List.length_append] at hnil
          simp only [wordsOf, List.flatMap_nil, List.length_nil] at hnil
          omega
    obtain ⟨halong, hrest⟩ := ih h' (ne_mwrLast h hst hfollows) htodo
    exact ⟨⟨fed_of_status hst, halong⟩, hrest⟩

/-! ### Until the transmitter is ready -/

theorem lead_of_status (hphase : s.tlp.InPhase φ) (hφ : φ ≠ .mwrLast)
    (hst : s.tlp.mst.mstStatus ≠ .mwrited) : s.lead φ = 8 := by
  cases φ with
  | wait ch =>
    cases ch with
    | true =>
      obtain ⟨n, hn⟩ := hphase.2.2.2.2.2.2
      exact absurd hn.status hst
    | false => exact if_neg hst
  | mwr n p => exact absurd hphase.mwr_busy.status hst
  | mwrLast => exact absurd rfl hφ
  | _ => exact if_neg hst

theorem fed_of_lead (hphase : s.tlp.InPhase φ) (h : 0 < s.lead φ) : s.Fed := by
  rintro ⟨-, hready, -⟩
  rcases hphase.of_ready2 hready with ⟨n, p, rfl, hp⟩ | rfl
  · have hlead : s.lead (.mwr n p) = 5 - p := rfl
    omega
  · exact absurd h (Nat.lt_irrefl 0)

/-- Where the sequencer has not asked yet. -/
theorem seven_le_lead (s : MasterSide) : 7 ≤ if s.tlp.mst.mstStatus = .mwrited then 7 else 8 := by
  split <;> omega

/-- In `TX_IDLE` the transmitter notes which sequencer asks. -/
theorem lastch_idle (hst : s.tlp.tx.txStatus = .idle) (hst' : (s.step i).tlp.tx.txStatus = .wait) :
    (s.step i).tlp.tx.txLastch = s.tlp.mst.tx2TlphValid := by
  change (s.tlp.tx.step s.tlp.slv s.tlp.mst _ _).txStatus = _ at hst'
  change (s.tlp.tx.step s.tlp.slv s.tlp.mst _ _).txLastch = _
  unfold TlpTx.step at hst' ⊢
  rw [hst] at hst' ⊢
  simp only at hst' ⊢
  split_ifs at hst' ⊢
  · rfl
  · exact absurd (hst'.symm.trans hst) (by decide)

/-- An edge takes one cycle of the lead. -/
theorem lead_step (hphase : s.tlp.InPhase φ) (hphase' : (s.step i).tlp.InPhase φ')
    (hfollows : Follows φ φ') : s.lead φ ≤ (s.step i).lead φ' + 1 := by
  have hmax : ∀ s : MasterSide, (if s.tlp.mst.mstStatus = .mwrited then 7 else 8) ≤ 8 := by
    intro s
    split <;> omega
  have hseven := seven_le_lead (s.step i)
  have height := hmax s
  cases φ with
  | idle =>
    rcases hfollows with rfl | ⟨ch, rfl⟩
    · exact height.trans (Nat.succ_le_succ hseven)
    · cases ch with
      | true =>
        have hvalid : s.tlp.mst.tx2TlphValid = true :=
          (lastch_idle hphase.1 hphase'.1).symm.trans hphase'.2.1
        obtain ⟨n, hn⟩ := TlpMaster.settled_valid hphase.2.2.2.2 hvalid
        exact (if_pos hn.status).le
      | false => exact height.trans (Nat.succ_le_succ hseven)
  | wait ch =>
    cases ch with
    | true =>
      rcases hfollows with rfl | ⟨n, rfl⟩
      · exact Nat.le_succ 6
      · exact le_rfl
    | false =>
      rcases hfollows with rfl | ⟨n, rfl⟩ <;> exact height.trans (Nat.succ_le_succ hseven)
  | cpl n p =>
    obtain rfl : φ' = _ := hfollows
    split_ifs <;> exact height.trans (Nat.succ_le_succ hseven)
  | cplLast =>
    obtain rfl : φ' = _ := hfollows
    exact height.trans (Nat.succ_le_succ hseven)
  | adrift =>
    rcases hfollows with rfl | rfl <;> exact height.trans (Nat.succ_le_succ hseven)
  | mwr n p =>
    obtain rfl : φ' = _ := hfollows
    split_ifs
    · change 5 - p ≤ 1
      omega
    · change 5 - p ≤ 5 - (p + 1) + 1
      omega
  | mwrLast => exact Nat.zero_le _

/-- **The data may take as many cycles as the lead.** -/
theorem along_lead (h : InStep s φ sc cs) (is : List MasterIn) (hlead : is.length ≤ s.lead φ) :
    Along step (fun s _ => s.Fed) s is ∧ ∃ φ' sc' cs', InStep (run step s is) φ' sc' cs' := by
  induction is generalizing s φ sc cs with
  | nil => exact ⟨trivial, φ, sc, cs, h⟩
  | cons i is ih =>
    rw [List.length_cons] at hlead
    have hfed := fed_of_lead h.framed.phase (by omega)
    obtain ⟨φ', sc', cs', h', hfollows, -⟩ := inStep_step h hfed i
    have hstep := lead_step h.framed.phase h'.framed.phase hfollows
    obtain ⟨halong, hrest⟩ := ih h' (by omega)
    exact ⟨⟨hfed, halong⟩, hrest⟩

/-! ### When all words are written -/

theorem fed_of_todo (h : InStep s φ sc cs) (htodo : s.todo = []) : s.Fed := by
  rintro ⟨hst, -, hrun, hend⟩
  cases h.place with
  | between hidle => exact absurd (hst.symm.trans hidle) (by decide)
  | reading hidle hne => exact absurd hst hne
  | asked hb hh hrd hwait => exact absurd (hrun.symm.trans hwait) Bool.false_ne_true
  | @sending c cs k hk hφ hh hrd hwait hq =>
    have hphase := h.framed.phase
    rw [hφ] at hphase
    have hb : s.tlp.mst.Busy c.len.toNat k := hphase.mwr_busy
    have hle := hb.le
    have hne := mt (TlpMaster.length_eq_iff hb).2 hend
    have hpos : 0 < c.len.toNat := Nat.pos_of_ne_zero fun h0 => c.len_ne (BitVec.eq_of_toNat_eq h0)
    rw [queue, htodo, List.append_nil] at hq
    apply List.ne_nil_of_length_pos
    rw [hq, List.length_append, List.length_drop, c.length_dataWords]
    omega

theorem along_written (h : InStep s φ sc cs) (htodo : s.todo = []) (is : List MasterIn) :
    Along step (fun s _ => s.Fed) s is := by
  refine along_of_invariant (J := fun s => ∃ φ sc cs, InStep s φ sc cs ∧ s.todo = [])
    (fun s _ ⟨_, _, _, h, htodo⟩ => fed_of_todo h htodo) ?_ ⟨φ, sc, cs, h, htodo⟩ is
  rintro s i ⟨φ, sc, cs, h, htodo⟩
  obtain ⟨φ', sc', cs', h', -⟩ := inStep_step h (fed_of_todo h htodo) i
  refine ⟨φ', sc', cs', h', ?_⟩
  rw [step, htodo, List.drop_nil, ite_self]

/-- **A command written in time** is always there: the last word of its address is still to come
after `is`, and all of its data are in the FIFO at most eight cycles later. -/
theorem along_fed {t : PcieTlp} {numwords : ℕ} {is ms js : List MasterIn}
    (hroom : (wordsOf [c]).length < numwords)
    (hlow : 2 * c.len.toNat < (run step (start t numwords [c]) is).todo.length)
    (hms : ms.length ≤ 8) (htodo : (run step (start t numwords [c]) (is ++ ms)).todo = []) :
    Along step (fun s _ => s.Fed) (start t numwords [c]) (is ++ ms ++ js) := by
  obtain ⟨his, φ, sc, h, hφ⟩ := along_address (inStep_start t hroom) (fun h => by cases h) hlow
  have hlead := lead_of_status h.framed.phase hφ (status_of_todo h hlow)
  obtain ⟨halong, φ', sc', cs', h'⟩ := along_lead h ms (by omega)
  rw [run_append] at htodo
  rw [along_append, along_append, run_append]
  exact ⟨⟨his, halong⟩, along_written h' htodo js⟩

end MasterSide

end IpNuma
