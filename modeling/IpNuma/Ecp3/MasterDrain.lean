import IpNuma.Ecp3.MasterWrites

/-!
# The writes are sent

While no packet is received there is no completion to send, so the transmitter is at the disposal of
the master sequencer.  The weight of a state is what is left to do: twenty for each word in the FIFO
and some for the place of the transmitter in a write.  With `tx_rdy` in every cycle each edge lowers
it, and `all_sent` bounds the time until the writes of all commands are on the wire.
-/

namespace IpNuma

open Clocked PcieTlp

/-- Only the last word of the address makes the sequencer wait. -/
theorem TlpMaster.rdWait_read (m : TlpMaster) (dout : BitVec 18) :
    (m.read dout).mstRdWait = m.mstRdWait ∨ (m.read dout).mstStatus = .mwrited := by
  unfold TlpMaster.read
  cases m.mstStatus with
  | idle =>
    left
    unfold TlpMaster.idle
    cases dout.getLsbD 17 <;> rfl
  | mwrite16 => exact .inr rfl
  | _ => exact .inl rfl

namespace MasterSide

/-- The slave sequencer has nothing to do, and outside of the data the master sequencer does not
wait. -/
structure Quiet (s : MasterSide) : Prop where
  rxStatus : s.tlp.rx.rxStatus = .head0
  rxTlphValid : s.tlp.rx.rxTlphValid = false
  slvStatus : s.tlp.slv.slvStatus = .idle
  tx1TlphValid : s.tlp.slv.tx1TlphValid = false
  tx1TlpdDone : s.tlp.slv.tx1TlpdDone = false
  mstRdWait : s.tlp.mst.mstStatus ≠ .mwrited → s.tlp.mst.mstRdWait = false

variable {s : MasterSide} {i : MasterIn} {φ φ' : LinkPhase} {part : Option (List TxWord)}
  {c : Command} {cs : List Command}

theorem quiet_start (t : PcieTlp) (numwords : ℕ) (cs : List Command) :
    (start t numwords cs).Quiet := ⟨rfl, rfl, rfl, rfl, rfl, fun _ => rfl⟩

/-- The master sequencer stops waiting before it leaves the data. -/
theorem rdWait_step (h : s.tlp.mst.mstStatus ≠ .mwrited → s.tlp.mst.mstRdWait = false)
    (hst : (s.step i).tlp.mst.mstStatus ≠ .mwrited) : (s.step i).tlp.mst.mstRdWait = false := by
  by_cases hdata : s.tlp.mst.mstStatus = .mwrited
  · cases hr : s.tlp.tx.tx2TlpdReady with
    | true =>
      rw [mst_of_ready hdata hr]
      rfl
    | false =>
      rw [mst_step, hr, TlpMaster.step_mwrited hdata] at hst
      exact absurd hdata hst
  · cases hpop : s.pop with
    | false =>
      rw [mst_of_unread hdata hpop]
      exact h hdata
    | true =>
      rw [mst_of_read hdata hpop] at hst ⊢
      exact (TlpMaster.rdWait_read _ _).elim (fun hsame => hsame.trans (h hdata))
        fun hlast => absurd hlast hst

theorem quiet_step (h : s.Quiet) (hi : i.pcie.rx.rxSt = false) : (s.step i).Quiet := by
  obtain ⟨hrx, hvalid, hslv, hvalid1, hdone1, hwait⟩ := h
  have hoff : (s.step i).tlp.slv.Off := TlpSlave.off_idle hslv
  have hrx' : (s.step i).tlp.rx = s.tlp.rx.always i.pcie.rx := by
    change s.tlp.rx.step i.pcie.rx = _
    unfold TlpRx.step
    rw [hrx]
    exact if_neg (by rw [hi]; exact Bool.false_ne_true)
  have hslv' : (s.step i).tlp.slv.slvStatus = .idle := by
    change (s.tlp.slv.step s.tlp.rx _ _ _).slvStatus = _
    rw [TlpSlave.status_step, hslv, hvalid]
    rfl
  refine ⟨?_, ?_, hslv', hoff.valid, hoff.done, rdWait_step hwait⟩
  · rw [hrx']
    change (if _ then _ else _) = _
    rw [hrx, ite_self]
  · rw [hrx']
    rfl

/-! ### One edge -/

/-- The phases without a completion. -/
inductive Plain : LinkPhase → Prop
  | idle : Plain .idle
  | wait : Plain (.wait true)
  | mwr (n p : ℕ) : Plain (.mwr n p)
  | mwrLast : Plain .mwrLast

/-- What is left to do in a state, for commands of at most `m` DW. -/
def weight (m : ℕ) (φ : LinkPhase) (s : MasterSide) : ℕ :=
  (2 * m + 16) * s.queue.length +
    match φ with
    | .idle =>
        if s.tlp.mst.mstStatus = .mwrited then 2 * m + 15
        else if s.tlp.mst.mstRdEn then 0 else 1
    | .wait _ => 2 * m + 14
    | .mwr _ p => 2 * m + 13 - p
    | .mwrLast => 2
    | _ => 0

theorem plain_of_follows (h : Plain φ) (hfollows : Follows φ φ') (hφ' : s.tlp.InPhase φ')
    (hq : s.Quiet) : Plain φ' := by
  have hwait : ∀ ch, φ' = .wait ch → Plain φ' := by
    rintro ch rfl
    cases ch with
    | true => exact .wait
    | false =>
      obtain ⟨n, hn⟩ := hφ'.2.2.2.2.2.2
      exact absurd (hn.status.symm.trans hq.slvStatus) (by decide)
  cases h with
  | idle =>
    rcases hfollows with rfl | ⟨ch, hch⟩
    · exact .idle
    · exact hwait ch hch
  | wait =>
    rcases hfollows with hch | ⟨n, rfl⟩
    · exact hwait true hch
    · exact .mwr n 0
  | mwr n p =>
    obtain rfl : φ' = _ := hfollows
    split_ifs
    · exact .mwrLast
    · exact .mwr n (p + 1)
  | mwrLast =>
    obtain rfl : φ' = _ := hfollows
    exact .idle

/-- Words are read only. -/
theorem length_queue_step (hroom : s.Room i) :
    (s.step i).queue.length ≤ s.queue.length ∧
      (s.pop = true → (s.step i).queue.length + 1 = s.queue.length) := by
  cases hpop : s.pop with
  | false =>
    rw [queue_of_unread hroom hpop]
    exact ⟨le_rfl, fun h => by cases h⟩
  | true =>
    rw [(queue_of_read hroom hpop).1, List.length_cons]
    exact ⟨Nat.le_succ _, fun _ => rfl⟩

/-- A FIFO that has room for all words is never full. -/
theorem along_room (h : s.queue.length < s.numwords) (is : List MasterIn) :
    Along step Room s is := by
  have hroom : ∀ (s : MasterSide) (i : MasterIn), s.queue.length < s.numwords → s.Room i := by
    intro s i h _
    rw [queue, List.length_append] at h
    omega
  refine along_of_invariant (J := fun s => s.queue.length < s.numwords) hroom (fun s i h => ?_) h is
  exact (length_queue_step (hroom s i h)).1.trans_lt h

/-- Outside of the data a word is read, or will be read at the next edge. -/
theorem reading_step (hdata : s.tlp.mst.mstStatus ≠ .mwrited) (hq : s.Quiet) (hfifo : s.fifo ≠ [])
    (hpop : s.pop = false) : s.tlp.mst.mstRdEn = false ∧ (s.step i).tlp.mst.mstRdEn = true ∧
      (s.step i).tlp.mst.mstStatus = s.tlp.mst.mstStatus := by
  have hempty : s.fifo.isEmpty = false := by
    cases hf : s.fifo with
    | nil => exact absurd hf hfifo
    | cons w ws => rfl
  rw [mst_of_unread hdata hpop]
  refine ⟨?_, ?_, rfl⟩
  · rw [pop, hempty, Bool.not_false, Bool.and_true] at hpop
    exact hpop
  · change (!s.fifo.isEmpty && !s.tlp.mst.mstRdWait) = true
    rw [hempty, hq.mstRdWait hdata]
    rfl

/-- In `TX_IDLE` the transmitter answers a request at once. -/
theorem tx_idle (hst : s.tlp.tx.txStatus = .idle) (hq : s.Quiet) : (s.step i).tlp.tx.txStatus =
    if s.tlp.mst.tx2TlphValid then .wait else .idle := by
  change (s.tlp.tx.step _ _ _ _).txStatus = _
  unfold TlpTx.step
  rw [hst]
  simp only [hq.tx1TlphValid, Bool.false_or]
  split_ifs
  · rfl
  · exact hst

/-- Between two commands, and while an address is read, there are words of the commands left. -/
theorem Place.queue_ne (h : Place s φ part cs) (hcs : cs ≠ [])
    (hdata : s.tlp.mst.mstStatus ≠ .mwrited) (hphase : s.tlp.InPhase φ) : s.queue ≠ [] := by
  cases h with
  | between hst hq =>
    obtain ⟨c, cs, rfl⟩ := List.exists_cons_of_ne_nil hcs
    rw [hq, wordsOf_cons]
    exact List.cons_ne_nil _ _
  | @reading c cs hidle hdata hl hq =>
    rw [hq]
    refine List.append_ne_nil_of_left_ne_nil ?_ _
    cases hst : s.tlp.mst.mstStatus with
    | idle => exact absurd hst hidle
    | mwrited => exact absurd hst hdata
    | _ => exact List.cons_ne_nil _ _
  | asked hb => exact absurd hb.status hdata
  | sending hk hφ =>
    rw [hφ] at hphase
    exact absurd hphase.mwr_busy.status hdata

/-- The write on the wire is that of the first command left. -/
theorem Place.length_le {n p m : ℕ} (h : Place s (.mwr n p) part cs)
    (hphase : s.tlp.InPhase (.mwr n p)) (hm : ∀ c ∈ cs, c.len.toNat ≤ m) : n ≤ m := by
  have hbusy := hphase.mwr_busy
  cases h with
  | between hst => exact absurd (hbusy.status.symm.trans hst) (by decide)
  | reading hidle hdata => exact absurd hbusy.status hdata
  | @asked c cs hb =>
    have hp : p - 5 = 0 := of_decide_eq_true (hbusy.valid.symm.trans hb.valid)
    have hlen := hb.length
    have hlen' := hbusy.length
    rw [hp] at hlen'
    have hc := hm c List.mem_cons_self
    omega
  | @sending c cs k hk hφ =>
    cases hφ
    exact hm c List.mem_cons_self

/-- The place of the transmitter outside of a write. -/
theorem weight_idle_le (m : ℕ) (s : MasterSide) :
    weight m .idle s ≤ (2 * m + 16) * s.queue.length + (2 * m + 15) := by
  unfold weight
  simp only
  split_ifs <;> omega

/-- A word is read while the transmitter is idle. -/
theorem weight_of_pop {m : ℕ} (hroom : s.Room i) (hpop : s.pop = true) :
    weight m .idle (s.step i) < (2 * m + 16) * s.queue.length := by
  have hle := weight_idle_le m (s.step i)
  have hlen := (length_queue_step hroom).2 hpop
  calc weight m .idle (s.step i)
      ≤ (2 * m + 16) * (s.step i).queue.length + (2 * m + 15) := hle
    _ < (2 * m + 16) * (s.step i).queue.length + (2 * m + 16) := by omega
    _ = (2 * m + 16) * s.queue.length := by rw [← hlen, Nat.mul_succ]

/-- An edge in `TX_IDLE`. -/
theorem weight_idle {m : ℕ} (hphase : s.tlp.InPhase .idle) (hphase' : (s.step i).tlp.InPhase φ')
    (hfollows : Follows .idle φ') (hq : s.Quiet) (hplace : Place s .idle part cs) (hcs : cs ≠ [])
    (htodo : s.todo = []) (hroom : s.Room i) :
    weight m φ' (s.step i) < weight m .idle s := by
  have hqueue := (length_queue_step (i := i) hroom).1
  have hmul := Nat.mul_le_mul_left (2 * m + 16) hqueue
  have htx := tx_idle (i := i) hphase.1 hq
  by_cases hdata : s.tlp.mst.mstStatus = .mwrited
  · -- the write is requested
    have hvalid : s.tlp.mst.tx2TlphValid = true := by
      rcases hphase.2.2.2.2 with hoff | ⟨n, hbusy⟩
      · exact absurd hdata hoff.status
      · exact hbusy.valid
    rw [hvalid, if_pos rfl] at htx
    rcases hfollows with rfl | ⟨ch, rfl⟩
    · exact absurd (hphase'.1.symm.trans htx) (by decide)
    · unfold weight
      simp only [if_pos hdata]
      omega
  · have hvalid : s.tlp.mst.tx2TlphValid = false := by
      rcases hphase.2.2.2.2 with hoff | ⟨n, hbusy⟩
      · exact hoff.valid
      · exact absurd hbusy.status hdata
    rw [hvalid, if_neg Bool.false_ne_true] at htx
    obtain rfl : φ' = .idle := by
      rcases hfollows with hsame | ⟨ch, rfl⟩
      · exact hsame
      · exact absurd (htx.symm.trans hphase'.1) (by decide)
    cases hpop : s.pop with
    | true =>
      exact (weight_of_pop hroom hpop).trans_le (Nat.le_add_right _ _)
    | false =>
      have hfifo : s.fifo ≠ [] := by
        have hne := hplace.queue_ne hcs hdata hphase
        rwa [queue, htodo, List.append_nil] at hne
      obtain ⟨hrd, hrd', hst⟩ := reading_step (i := i) hdata hq hfifo hpop
      unfold weight
      simp only [hst, if_neg hdata, hrd, hrd', if_true, Bool.false_eq_true, if_false]
      omega

/-- **One edge with `tx_rdy` lowers the weight** while there are commands left and all of their
words are in the FIFO. -/
theorem weight_step {m : ℕ} (hphase : s.tlp.InPhase φ) (hphase' : (s.step i).tlp.InPhase φ')
    (hfollows : Follows φ φ') (hplain : Plain φ) (hq : s.Quiet) (hplace : Place s φ part cs)
    (hcs : cs ≠ []) (hm : ∀ c ∈ cs, c.len.toNat ≤ m)
    (htodo : s.todo = []) (hrdy : i.pcie.txRdy = true) (hroom : s.Room i) :
    weight m φ' (s.step i) < weight m φ s := by
  have hqueue := (length_queue_step (i := i) hroom).1
  have hmul := Nat.mul_le_mul_left (2 * m + 16) hqueue
  cases hplain with
  | idle => exact weight_idle hphase hphase' hfollows hq hplace hcs htodo hroom
  | wait =>
    rcases hfollows with rfl | ⟨n, rfl⟩
    · have htx : (s.step i).tlp.tx.txStatus = .tx2Head0 := by
        change (s.tlp.tx.step _ _ i.pcie.txRdy _).txStatus = _
        unfold TlpTx.step
        rw [hphase.1, hrdy, hphase.2.1]
        rfl
      exact absurd (hphase'.1.symm.trans htx) (by decide)
    · rw [if_pos rfl]
      unfold weight
      simp only
      omega
  | mwr n p =>
    obtain rfl : φ' = _ := hfollows
    have hn := hplace.length_le hphase hm
    have hp := hphase.mwr_le
    split_ifs
    · unfold weight
      simp only
      omega
    · unfold weight
      simp only
      omega
  | mwrLast =>
    obtain rfl : φ' = _ := hfollows
    have hst := hphase.mwrLast_ending.status
    have hdata : s.tlp.mst.mstStatus ≠ .mwrited := by
      rw [hst]
      decide
    cases hpop : s.pop with
    | true => exact (weight_of_pop hroom hpop).trans_le (Nat.le_add_right _ _)
    | false =>
      have hst' : (s.step i).tlp.mst.mstStatus = .idle := by
        rw [mst_of_unread hdata hpop]
        exact hst
      unfold weight
      simp only [hst', reduceCtorEq, if_false]
      split_ifs <;> omega

/-! ### Whole runs -/

/-- The first commands have been sent, and there is no completion to send. -/
structure Underway (cs : List Command) (s : MasterSide) (ws : List TxWord) (φ : LinkPhase)
    (rest : List Command) : Prop where
  framed : Framed s.tlp φ (s.tlp.readTo ws).part
  place : Place s φ (s.tlp.readTo ws).part rest
  sent : ∃ done, cs = done ++ rest ∧
    List.Forall₂ Command.Carried done ((s.tlp.readTo ws).done.filter isWrite)
  plain : Plain φ
  quiet : s.Quiet
  queue : s.queue.length ≤ (wordsOf cs).length

/-- The cycles of a run: the FIFO is fed and not overrun, and no packet is received. -/
def Sole (s : MasterSide) (i : MasterIn) : Prop :=
  s.Fed ∧ s.Room i ∧ i.pcie.rx.rxSt = false

theorem underway_start (t : PcieTlp) (numwords : ℕ) (cs : List Command) :
    Underway cs (start t numwords cs) [] .idle cs where
  framed := framed_reset t
  place := .between rfl rfl
  sent := ⟨[], rfl, .nil⟩
  plain := .idle
  quiet := quiet_start t numwords cs
  queue := le_rfl

theorem underway_step {ws : List TxWord} {rest : List Command} (h : Underway cs s ws φ rest)
    (hsole : s.Sole i) :
    ∃ φ' rest', Underway cs (s.step i) (ws ++ wire s i) φ' rest' ∧ Follows φ φ' ∧
      rest' <:+ rest := by
  obtain ⟨hframed, hplace, ⟨done, hcs, hdone⟩, hplain, hquiet, hqueue⟩ := h
  obtain ⟨hfed, hroom, hrx⟩ := hsole
  obtain ⟨φ', ps, hfollows, hframed', hps, hadv⟩ := place_step hframed hplace hfed hroom
  obtain ⟨done', rest', hcs', hplace', hdone', hsuffix⟩ := carried_step hcs hdone hps hadv
  have hread : (s.step i).tlp.readTo (ws ++ wire s i) =
      readWire (s.tlp.readTo ws) (s.step i).tlp.wire := readTo_step _ _ _
  have hquiet' := quiet_step hquiet hrx
  have hplain' := plain_of_follows hplain hfollows hframed'.phase hquiet'
  have hqueue' := (length_queue_step hroom).1.trans hqueue
  rw [← hread] at hframed' hplace' hdone'
  exact ⟨φ', rest', ⟨hframed', hplace', ⟨done', hcs', hdone'⟩, hplain', hquiet', hqueue'⟩, hfollows,
    hsuffix⟩

/-- All words are in the FIFO, and at most `k` is left to do. -/
def Draining (m : ℕ) (cs : List Command) (s : MasterSide) (ws : List TxWord) (k : ℕ) : Prop :=
  ∃ φ rest, Underway cs s ws φ rest ∧ s.todo = [] ∧ (rest = [] ∨ weight m φ s ≤ k)

theorem draining_step {m k : ℕ} {ws : List TxWord} (hm : ∀ c ∈ cs, c.len.toNat ≤ m)
    (h : Draining m cs s ws k) (hsole : s.Sole i) (hrdy : i.pcie.txRdy = true) :
    Draining m cs (s.step i) (ws ++ wire s i) (k - 1) := by
  obtain ⟨φ, rest, hunder, htodo, hleft⟩ := h
  obtain ⟨φ', rest', hunder', hfollows, hsuffix⟩ := underway_step hunder hsole
  have htodo' : (s.step i).todo = [] := by
    rw [step, htodo, List.drop_nil, ite_self]
  refine ⟨φ', rest', hunder', htodo', ?_⟩
  rcases hleft with rfl | hle
  · exact .inl (List.suffix_nil.1 hsuffix)
  · by_cases hrest : rest = []
    · rw [hrest] at hsuffix
      exact .inl (List.suffix_nil.1 hsuffix)
    · right
      obtain ⟨done, hcs, -⟩ := hunder.sent
      have hlt := weight_step hunder.framed.phase hunder'.framed.phase hfollows hunder.plain
        hunder.quiet hunder.place hrest
        (fun c hc => hm c (hcs ▸ List.mem_append_right _ hc)) htodo hrdy hsole.2.1
      omega

/-- With nothing left to do all commands have been sent. -/
theorem Draining.all {m : ℕ} {ws : List TxWord} (hm : ∀ c ∈ cs, c.len.toNat ≤ m)
    (h : Draining m cs s ws 0) :
    List.Forall₂ Command.Carried cs ((s.tlp.readTo ws).done.filter isWrite) ∧
      s.tlp.mst.mstStatus = .idle ∧ s.queue = [] := by
  obtain ⟨φ, rest, hunder, -, hleft⟩ := h
  obtain ⟨done, hcs, hdone⟩ := hunder.sent
  have hplace := hunder.place
  have hphase := hunder.framed.phase
  have hrest : rest = [] := by
    by_contra hne
    have hweight : weight m φ s = 0 := Nat.le_zero.1 (hleft.resolve_left hne)
    unfold weight at hweight
    cases hunder.plain with
    | idle =>
      simp only at hweight
      have hdata : s.tlp.mst.mstStatus ≠ .mwrited := by
        intro hst
        rw [if_pos hst] at hweight
        omega
      have hqueue := List.length_pos_of_ne_nil (hplace.queue_ne hne hdata hphase)
      have hmul := Nat.mul_pos (show 0 < 2 * m + 16 by omega) hqueue
      omega
    | wait => simp only at hweight; omega
    | mwr n p =>
      have hn := hplace.length_le hphase fun c hc => hm c (hcs ▸ List.mem_append_right _ hc)
      have hp := hphase.mwr_le
      simp only at hweight
      omega
    | mwrLast => simp only at hweight; omega
  subst hrest
  rw [List.append_nil] at hcs
  rw [hcs]
  cases hplace with
  | between hst hq => exact ⟨hdone, hst, hq⟩

/-- **The writes of all commands are sent** while no packet is received, once all words are in the
FIFO and `tx_rdy` has been there for long enough. -/
theorem all_sent {t : PcieTlp} {numwords m : ℕ} {cs : List Command} {is js : List MasterIn}
    (hm : ∀ c ∈ cs, c.len.toNat ≤ m) (h : Along step Sole (start t numwords cs) (is ++ js))
    (htodo : (run step (start t numwords cs) is).todo = []) (hrdy : ∀ i ∈ js, i.pcie.txRdy = true)
    (hlong : (2 * m + 16) * ((wordsOf cs).length + 1) ≤ js.length) :
    List.Forall₂ Command.Carried cs ((sent (start t numwords cs) (is ++ js)).filter isWrite) ∧
      (run step (start t numwords cs) (is ++ js)).tlp.mst.mstStatus = .idle ∧
        (run step (start t numwords cs) (is ++ js)).queue = [] := by
  obtain ⟨his, hjs⟩ := (along_append _ _ _ _ _).1 h
  obtain ⟨φ, rest, hunder⟩ :=
    log_induction (J := fun s ws => ∃ φ rest, Underway cs s ws φ rest)
      ⟨_, _, underway_start t numwords cs⟩
      (fun s i ws ⟨_, _, hu⟩ hsole =>
        let ⟨φ', rest', hu', _⟩ := underway_step hu hsole
        ⟨φ', rest', hu'⟩) is his
  have hweight : weight m φ (run step (start t numwords cs) is) ≤ js.length := by
    refine le_trans ?_ hlong
    have hmul := Nat.mul_le_mul_left (2 * m + 16) hunder.queue
    rw [Nat.mul_succ]
    unfold weight
    cases hunder.plain <;> simp only <;> (try split_ifs) <;> omega
  have hready := hjs.and step _ (along_of_forall step hrdy)
  have hdrained := log_countdown (J := fun s ws k => Draining m cs s ws k)
    (fun _ _ _ _ hd hc => draining_step hm hd hc.1 hc.2) ⟨φ, rest, hunder, htodo, .inr hweight⟩ js
    hready
  rw [← run_append, ← log_append, Nat.sub_self] at hdrained
  exact hdrained.all hm

end MasterSide

end IpNuma
