import IpNuma.Ecp3.TxFraming

/-!
# What the endpoint puts on the transmit side

The beats of a run are the words on the wire, each with the state of the transmitter that has driven
it.  In every run without a read of 1023 DW, `tx_st` and `tx_end` alternate, the words from `tx_st`
to `tx_end` are driven in the states of the completion or in those of the write, and there are as
many as the length field among them says: `wellSent_beats`.
-/

namespace IpNuma

open Clocked

/-! ### The grammar -/

/-- A word on the wire and the state that has driven it. -/
structure TxBeat where
  src : TlpTxState
  word : TxWord
  deriving DecidableEq

/-- The states of the completion. -/
def TlpTxState.ofCpl : TlpTxState → Bool
  | .tx1Head0 | .tx1Head1 | .tx1Comp2 | .tx1Comp3 | .tx1Comp4 | .tx1Comp5 | .tx1Data => true
  | _ => false

/-- The states of the write. -/
def TlpTxState.ofMwr : TlpTxState → Bool
  | .tx2Head0 | .tx2Head1 | .tx2Comp2 | .tx2Comp3 | .tx2Comp4 | .tx2Comp5 | .tx2Comp6 | .tx2Comp7
  | .tx2Data => true
  | _ => false

/-- `tx_st` and `tx_end` alternate; the first argument tells whether a TLP is being sent. -/
def Alternates : Bool → List TxBeat → Prop
  | _, [] => True
  | false, b :: bs => b.word.txEnd = false ∧ Alternates b.word.txSt bs
  | true, b :: bs => b.word.txSt = false ∧ Alternates (!b.word.txEnd) bs

/-- The reader of the beats takes those from `tx_st` to `tx_end`. -/
def beatScan (bs : List TxBeat) : Scan TxBeat := scan (fun b => b.word.txSt) (fun b => b.word.txEnd) bs

/-- The length field, in the second word of a TLP. -/
def lengthField (bs : List TxBeat) : ℕ :=
  match bs with
  | _ :: b :: _ => (b.word.txData.extractLsb' 0 10).toNat
  | _ => 0

/-- A completion, with as many words as its length field says. -/
def IsCpl (bs : List TxBeat) : Prop :=
  (∀ b ∈ bs, b.src.ofCpl = true) ∧ bs.length = 6 + 2 * lengthField bs

/-- A write, with as many words as its length field says. -/
def IsMwr (bs : List TxBeat) : Prop :=
  (∀ b ∈ bs, b.src.ofMwr = true) ∧ bs.length = 8 + 2 * lengthField bs

instance : DecidablePred IsCpl := fun _ => inferInstanceAs (Decidable (_ ∧ _))

instance : DecidablePred IsMwr := fun _ => inferInstanceAs (Decidable (_ ∧ _))

/-- The beats are as they should be; the TLP that is being sent at the end is of one kind too. -/
structure WellSent (bs : List TxBeat) : Prop where
  alternates : Alternates false bs
  tlps : ∀ p ∈ (beatScan bs).done, IsCpl p ∨ IsMwr p
  current : ∀ p, (beatScan bs).part = some p →
    (∀ b ∈ p, b.src.ofCpl = true) ∨ ∀ b ∈ p, b.src.ofMwr = true

/-- Whether a TLP is being sent after the beats. -/
def busyAfter (busy : Bool) (bs : List TxBeat) : Bool :=
  bs.foldl (fun q b => if q then !b.word.txEnd else b.word.txSt) busy

/-- The beat may follow when a TLP is being sent, or when none is. -/
def Fitting (busy : Bool) (b : TxBeat) : Prop :=
  if busy then b.word.txSt = false else b.word.txEnd = false

theorem alternates_concat (busy : Bool) (bs : List TxBeat) (b : TxBeat) :
    Alternates busy (bs ++ [b]) ↔ Alternates busy bs ∧ Fitting (busyAfter busy bs) b := by
  induction bs generalizing busy with
  | nil => cases busy <;> simp [Alternates, Fitting, busyAfter]
  | cons c bs ih =>
    cases busy
    · exact (and_congr_right fun _ => ih _).trans and_assoc.symm
    · exact (and_congr_right fun _ => ih _).trans and_assoc.symm

/-- The reader has a part of a TLP while one is being sent. -/
theorem busyAfter_eq (bs : List TxBeat) : busyAfter false bs = (beatScan bs).part.isSome := by
  induction bs using List.reverseRecOn with
  | nil => rfl
  | append_singleton bs b ih =>
    have hfold : busyAfter false (bs ++ [b]) =
        if busyAfter false bs then !b.word.txEnd else b.word.txSt := List.foldl_append
    rw [hfold, ih, beatScan, beatScan, scan_concat, Scan.isSome_next]

namespace PcieTlp

/-- The beats of a run, one after each edge. -/
def beats (s : PcieTlp) (is : List PcieIn) : List TxBeat :=
  log step (fun s i => [⟨s.tx.txStatus, (s.step i).wire⟩]) s is

/-! ### The beats along the phases -/

/-- The part of a TLP with `n` DW that the reader has taken: `p` beats of one kind. -/
def PartIs (kind : TlpTxState → Bool) (n p : ℕ) (part : Option (List TxBeat)) : Prop :=
  if p = 0 then part = none else ∃ bs, part = some bs ∧ bs.length = p ∧
    (∀ b ∈ bs, kind b.src = true) ∧ (2 ≤ p → lengthField bs = n)

theorem partIs_zero (kind : TlpTxState → Bool) (n : ℕ) : PartIs kind n 0 none := by
  rw [PartIs, if_pos rfl]

/-- What the reader has in a phase. -/
def Holding : LinkPhase → Option (List TxBeat) → Prop
  | .cpl n p, part => PartIs TlpTxState.ofCpl n p part
  | .mwr n p, part => PartIs TlpTxState.ofMwr n p part
  | _, part => part = none

variable {s : PcieTlp} {i : PcieIn} {n p : ℕ} {b : TxBeat} {bs : List TxBeat}
  {kind : TlpTxState → Bool}

theorem lengthField_concat (h2 : 2 ≤ bs.length) : lengthField (bs ++ [b]) = lengthField bs := by
  match bs, h2 with
  | _ :: _ :: _, _ => rfl

/-- The second beat has the length. -/
theorem lengthField_second {c : TxBeat} (hn : n < 1024)
    (hb : b.word.txData = 0#6 ++ BitVec.ofNat 10 n) : lengthField ([c] ++ [b]) = n := by
  have hfield : (0#6 ++ BitVec.ofNat 10 n).extractLsb' 0 10 = BitVec.ofNat 10 n := by
    rw [extractLsb'_append_low _ _ _ _ (le_refl 10)]
    exact BitVec.extractLsb'_eq_self
  change (b.word.txData.extractLsb' 0 10).toNat = n
  rw [hb, hfield, BitVec.toNat_ofNat]
  exact Nat.mod_eq_of_lt hn

/-- What the reader has taken before beat `p` is something exactly if `p` is not the first. -/
theorem PartIs.isSome (h : PartIs kind n p (beatScan bs).part) :
    (beatScan bs).part.isSome = decide (p ≠ 0) := by
  unfold PartIs at h
  split_ifs at h with hp
  · rw [h, hp]
    rfl
  · obtain ⟨cs, hpart, -⟩ := h
    rw [hpart, decide_eq_true hp]
    rfl

theorem PartIs.words (h : PartIs kind n p (beatScan bs).part) (hp : p ≠ 0) :
    ∃ cs, beatScan bs = ⟨some cs, (beatScan bs).done⟩ ∧ cs.length = p ∧
      (∀ b ∈ cs, kind b.src = true) ∧ (2 ≤ p → lengthField cs = n) := by
  unfold PartIs at h
  rw [if_neg hp] at h
  obtain ⟨cs, hpart, hcs⟩ := h
  exact ⟨cs, by rw [← hpart], hcs⟩

theorem PartIs.kinds {cs : List TxBeat} (h : PartIs kind n p (some cs)) :
    ∀ b ∈ cs, kind b.src = true := by
  unfold PartIs at h
  split_ifs at h with hp
  obtain ⟨cs', hcs, -, hkind, -⟩ := h
  rw [Option.some.inj hcs]
  exact hkind

/-- The reader takes beat `p`, not the last one. -/
theorem PartIs.concat (h : PartIs kind n p (beatScan bs).part) (hn : n < 1024)
    (hst : b.word.txSt = decide (p = 0)) (hend : b.word.txEnd = false) (hk : kind b.src = true)
    (hlen : p = 1 → b.word.txData = 0#6 ++ BitVec.ofNat 10 n) :
    PartIs kind n (p + 1) (beatScan (bs ++ [b])).part ∧
      (beatScan (bs ++ [b])).done = (beatScan bs).done := by
  rw [PartIs, if_neg (Nat.succ_ne_zero p)]
  by_cases hp : p = 0
  · unfold PartIs at h
    rw [if_pos hp] at h
    have hscan : beatScan (bs ++ [b]) = ⟨some [b], (beatScan bs).done⟩ :=
      scan_start (by rw [← h]; rfl) (hst.trans (decide_eq_true hp))
    rw [hscan]
    exact ⟨⟨[b], rfl, by rw [hp]; rfl, List.forall_mem_singleton.2 hk, by omega⟩, rfl⟩
  · obtain ⟨cs, hpart, hcs, hkind, hfield⟩ := h.words hp
    have hscan : beatScan (bs ++ [b]) = ⟨some (cs ++ [b]), (beatScan bs).done⟩ :=
      scan_take hpart hend
    rw [hscan]
    refine ⟨⟨cs ++ [b], rfl, by rw [List.length_append, hcs]; rfl, ?_, fun _ => ?_⟩, rfl⟩
    · exact List.forall_mem_append.2 ⟨hkind, List.forall_mem_singleton.2 hk⟩
    · by_cases h1 : p = 1
      · obtain ⟨c, rfl⟩ := List.length_eq_one_iff.1 (hcs.trans h1)
        exact lengthField_second hn (hlen h1)
      · rw [lengthField_concat (by omega), hfield (by omega)]

/-- The reader takes the last beat. -/
theorem PartIs.last (h : PartIs kind n p (beatScan bs).part) (hp : 2 ≤ p)
    (hend : b.word.txEnd = true) (hk : kind b.src = true) :
    (beatScan (bs ++ [b])).part = none ∧ ∃ cs, (beatScan (bs ++ [b])).done = (beatScan bs).done ++ [cs] ∧
      cs.length = p + 1 ∧ (∀ b ∈ cs, kind b.src = true) ∧ lengthField cs = n := by
  obtain ⟨cs, hpart, hcs, hkind, hfield⟩ := h.words (by omega)
  have hscan : beatScan (bs ++ [b]) = ⟨none, (beatScan bs).done ++ [cs ++ [b]]⟩ :=
    scan_last hpart hend
  rw [hscan]
  refine ⟨rfl, cs ++ [b], rfl, by rw [List.length_append, hcs]; rfl, ?_, ?_⟩
  · exact List.forall_mem_append.2 ⟨hkind, List.forall_mem_singleton.2 hk⟩
  · rw [lengthField_concat (by omega), hfield hp]

/-- The blocks are in a phase, without a completion of 1023 DW, and the beats are as they should
be. -/
structure Grammatical (φ : LinkPhase) (s : PcieTlp) (bs : List TxBeat) : Prop where
  phase : s.InPhase φ
  whole : Whole φ
  fits : s.Fits
  part : Holding φ (beatScan bs).part
  alternates : Alternates false bs
  tlps : ∀ p ∈ (beatScan bs).done, IsCpl p ∨ IsMwr p

variable {φ ψ : LinkPhase}

theorem grammatical_reset (s : PcieTlp) : Grammatical .idle s.reset [] :=
  ⟨reset_inPhase s, trivial, fun h => (by cases h), rfl, trivial, fun _ h => absurd h List.not_mem_nil⟩

/-- In `SLV_MREADH` the request is not one of 1023 DW. -/
def Short (s : PcieTlp) (_ : PcieIn) : Prop := s.slv.slvStatus = .mreadh → s.rx.rxLength ≠ 0x3ff#10

instance (s : PcieTlp) (i : PcieIn) : Decidable (s.Short i) :=
  inferInstanceAs (Decidable (_ → _))

/-- While the sequencers are settled nothing ends. -/
theorem end_of_settled (hslv : s.slv.Settled) (hmst : s.mst.Settled) : s.wire.txEnd = false := by
  rw [wire, TlpSlave.settled_done hslv, TlpMaster.settled_done hmst]
  rfl

/-- A beat outside of the TLPs. -/
theorem Grammatical.quiet (h : Grammatical φ s bs) (hc : s.Short i)
    (hpart : (beatScan bs).part = none) (hst : (s.step i).tx.txSt = false)
    (hend : (s.step i).wire.txEnd = false) (hψ : (s.step i).InPhase ψ) (hfollows : Follows φ ψ)
    (hhold : Holding ψ none) :
    Grammatical ψ (s.step i) (bs ++ [⟨s.tx.txStatus, (s.step i).wire⟩]) := by
  have hfits := fits_step (i := i) h.phase h.whole h.fits hc
  have hscan : beatScan (bs ++ [⟨s.tx.txStatus, (s.step i).wire⟩]) = ⟨none, (beatScan bs).done⟩ :=
    scan_skip (by rw [← hpart]; rfl) hst
  refine ⟨hψ, whole_step h.whole hfollows hψ hfits, hfits, by rw [hscan]; exact hhold,
    (alternates_concat _ _ _).2 ⟨h.alternates, ?_⟩, by rw [hscan]; exact h.tlps⟩
  rw [busyAfter_eq, hpart]
  exact hend

/-- The header of a TLP has the length in its second word. -/
theorem ofCpl_cplState (p : ℕ) : (TlpTx.cplState p).ofCpl = true := by
  unfold TlpTx.cplState
  split <;> rfl

theorem ofMwr_mwrState (p : ℕ) : (TlpTx.mwrState p).ofMwr = true := by
  unfold TlpTx.mwrState
  split <;> rfl

/-- A beat of a TLP that is not the last one. -/
theorem Grammatical.more (h : Grammatical φ s bs) (hc : s.Short i)
    (hpart : PartIs kind n p (beatScan bs).part) (hn : n < 1024)
    (hst : (s.step i).wire.txSt = decide (p = 0)) (hend : (s.step i).wire.txEnd = false)
    (hk : kind s.tx.txStatus = true)
    (hlen : p = 1 → (s.step i).wire.txData = 0#6 ++ BitVec.ofNat 10 n)
    (hψ : (s.step i).InPhase ψ) (hfollows : Follows φ ψ)
    (hhold : ∀ part, PartIs kind n (p + 1) part → Holding ψ part) :
    Grammatical ψ (s.step i) (bs ++ [⟨s.tx.txStatus, (s.step i).wire⟩]) := by
  have hfits := fits_step (i := i) h.phase h.whole h.fits hc
  obtain ⟨hpart', hdone⟩ := hpart.concat (b := ⟨s.tx.txStatus, (s.step i).wire⟩) hn hst hend hk hlen
  refine ⟨hψ, whole_step h.whole hfollows hψ hfits, hfits, hhold _ hpart',
    (alternates_concat _ _ _).2 ⟨h.alternates, ?_⟩, by rw [hdone]; exact h.tlps⟩
  rw [busyAfter_eq, hpart.isSome, Fitting]
  split_ifs with hp
  · exact hst.trans (decide_eq_false (of_decide_eq_true hp))
  · exact hend

/-- The last beat of a TLP. -/
theorem Grammatical.last (h : Grammatical φ s bs) (hc : s.Short i)
    (hpart : PartIs kind n p (beatScan bs).part) (hp : 2 ≤ p)
    (hst : (s.step i).wire.txSt = decide (p = 0)) (hend : (s.step i).wire.txEnd = true)
    (hk : kind s.tx.txStatus = true) (hψ : (s.step i).InPhase ψ) (hfollows : Follows φ ψ)
    (hhold : Holding ψ none)
    (htlp : ∀ cs, (∀ b ∈ cs, kind b.src = true) → cs.length = p + 1 → lengthField cs = n →
      IsCpl cs ∨ IsMwr cs) :
    Grammatical ψ (s.step i) (bs ++ [⟨s.tx.txStatus, (s.step i).wire⟩]) := by
  have hfits := fits_step (i := i) h.phase h.whole h.fits hc
  obtain ⟨hpart', cs, hdone, hlen, hkind, hfield⟩ :=
    hpart.last (b := ⟨s.tx.txStatus, (s.step i).wire⟩) hp hend hk
  refine ⟨hψ, whole_step h.whole hfollows hψ hfits, hfits, by rw [hpart']; exact hhold,
    (alternates_concat _ _ _).2 ⟨h.alternates, ?_⟩, ?_⟩
  · rw [busyAfter_eq, hpart.isSome, decide_eq_true (by omega)]
    exact hst.trans (decide_eq_false (by omega))
  · rw [hdone]
    exact List.forall_mem_append.2 ⟨h.tlps, List.forall_mem_singleton.2 (htlp cs hkind hlen hfield)⟩

/-- **One edge.** -/
theorem grammatical_step (h : Grammatical φ s bs) (hc : s.Short i) :
    ∃ ψ, Grammatical ψ (s.step i) (bs ++ [⟨s.tx.txStatus, (s.step i).wire⟩]) := by
  have hφ := h.phase
  have hpart := h.part
  cases φ with
  | idle =>
    obtain ⟨hnext, hst⟩ := idle_step (i := i) hφ
    rcases hnext with hidle | ⟨ch, hwait⟩
    · exact ⟨_, h.quiet hc hpart hst (end_of_settled hidle.2.2.2.1 hidle.2.2.2.2) hidle (.inl rfl) rfl⟩
    · exact ⟨_, h.quiet hc hpart hst (end_of_settled hwait.2.2.2.2.1 hwait.2.2.2.2.2.1) hwait
        (.inr ⟨ch, rfl⟩) rfl⟩
  | wait ch =>
    obtain ⟨hnext, hst⟩ := wait_step (i := i) hφ
    rcases hnext with hwait | ⟨n, hsend⟩
    · exact ⟨_, h.quiet hc hpart hst (end_of_settled hwait.2.2.2.2.1 hwait.2.2.2.2.2.1) hwait
        (.inl rfl) rfl⟩
    · cases ch with
      | false =>
        have hcpl : (s.step i).InPhase (.cpl n 0) := hsend
        exact ⟨_, h.quiet hc hpart hst (end_of_settled (.inr ⟨n, hcpl.cpl_busy⟩) hcpl.2.2.2.2.2) hcpl
          (.inr ⟨n, rfl⟩) (partIs_zero _ n)⟩
      | true =>
        have hmwr : (s.step i).InPhase (.mwr n 0) := hsend
        exact ⟨_, h.quiet hc hpart hst (end_of_settled hmwr.2.2.2.2.2 (.inr ⟨n, hmwr.mwr_busy⟩)) hmwr
          (.inr ⟨n, rfl⟩) (partIs_zero _ n)⟩
  | cpl n p =>
    obtain ⟨hst, hend, hhead, -⟩ := cpl_wire (i := i) hφ
    have hne : n ≠ 1023 := h.whole
    have hle := hφ.cpl_le
    have hk : s.tx.txStatus.ofCpl = true := by
      rw [show s.tx.txStatus = _ from hφ.1]
      exact ofCpl_cplState p
    have hlen : p = 1 → (s.step i).wire.txData = 0#6 ++ BitVec.ofNat 10 n := by
      rintro rfl
      exact hhead _ rfl
    rw [TlpSlave.cplEnd_of_ne hne] at hend hle
    by_cases hlast : p = 2 * n + 5
    · have hφ' := hφ
      rw [hlast, ← TlpSlave.cplEnd_of_ne hne] at hφ'
      have hψ := cpl_last (i := i) hφ'
      rw [if_neg hne] at hψ
      refine ⟨_, h.last hc hpart (by omega) hst (hend.trans (decide_eq_true hlast)) hk hψ ?_ rfl
        fun cs hkind hcs hfield => .inl ⟨hkind, by omega⟩⟩
      change _ = _
      rw [if_pos (hlast.trans (TlpSlave.cplEnd_of_ne hne).symm), if_neg hne]
    · have hlt : p < TlpSlave.cplEnd n := by
        rw [TlpSlave.cplEnd_of_ne hne]
        omega
      refine ⟨.cpl n (p + 1), h.more hc hpart hφ.cpl_busy.size hst (hend.trans (decide_eq_false hlast))
        hk hlen (cpl_step hφ hlt) ?_ fun _ => id⟩
      change _ = _
      rw [if_neg (by omega)]
  | cplLast =>
    obtain ⟨hidle, hst⟩ := cplLast_step (i := i) hφ
    exact ⟨_, h.quiet hc hpart hst (end_of_settled hidle.2.2.2.1 hidle.2.2.2.2) hidle rfl rfl⟩
  | adrift => exact absurd h.whole not_false
  | mwr n p =>
    obtain ⟨hst, hend, hhead, -⟩ := mwr_wire (i := i) hφ
    have hle := hφ.mwr_le
    have hk : s.tx.txStatus.ofMwr = true := by
      rw [show s.tx.txStatus = _ from hφ.1]
      exact ofMwr_mwrState p
    have hlen : p = 1 → (s.step i).wire.txData = 0#6 ++ BitVec.ofNat 10 n := by
      rintro rfl
      exact hhead _ rfl
    have hsize := hφ.mwr_busy.size
    by_cases hlast : p = 2 * n + 7
    · have hφ' := hφ
      rw [hlast] at hφ'
      refine ⟨_, h.last hc hpart (by omega) hst (hend.trans (decide_eq_true hlast)) hk (mwr_last hφ')
        ?_ rfl fun cs hkind hcs hfield => .inr ⟨hkind, by omega⟩⟩
      change _ = _
      rw [if_pos hlast]
    · refine ⟨.mwr n (p + 1), h.more hc hpart (by omega) hst (hend.trans (decide_eq_false hlast)) hk
        hlen (mwr_step hφ (by omega)) ?_ fun _ => id⟩
      change _ = _
      rw [if_neg hlast]
  | mwrLast =>
    obtain ⟨hidle, hst⟩ := mwrLast_step (i := i) hφ
    exact ⟨_, h.quiet hc hpart hst (end_of_settled hidle.2.2.2.1 hidle.2.2.2.2) hidle rfl rfl⟩

theorem Grammatical.wellSent (h : Grammatical φ s bs) : WellSent bs := by
  refine ⟨h.alternates, h.tlps, fun q hq => ?_⟩
  have hpart := h.part
  rw [hq] at hpart
  cases φ with
  | cpl n p => exact .inl (PartIs.kinds hpart)
  | mwr n p => exact .inr (PartIs.kinds hpart)
  | _ => cases hpart

/-- **The transmit side.**  From reset, whatever is received, commanded and granted, the beats are
as they should be as long as no read of 1023 DW is answered. -/
theorem wellSent_beats (s : PcieTlp) (is : List PcieIn) (h : Clocked.Along step Short s.reset is) :
    WellSent (s.reset.beats is) := by
  have hrun : ∃ φ, Grammatical φ (run step s.reset is) (s.reset.beats is) :=
    log_induction (J := fun s bs => ∃ φ, Grammatical φ s bs) ⟨_, grammatical_reset s⟩
      (fun _ _ _ ⟨_, hφ⟩ hc => grammatical_step hφ hc) is h
  obtain ⟨φ, hφ⟩ := hrun
  exact hφ.wellSent

/-- A read of `n` DW at address 0, and quiet cycles with `tx_rdy` high. -/
def readOf (n : BitVec 10) : List PcieIn :=
  [0x0000#16, 0#6 ++ n, 0x0008#16, 0x050f#16, 0x0000#16, 0x0000#16].mapIdx (fun k w =>
      ⟨⟨k == 0, k == 5, w, 0b0000001#7⟩, true, 0, 0, 0, 0, true, 0⟩) ++
    List.replicate 20 ⟨⟨false, false, 0, 0⟩, true, 0, 0, 0, 0, true, 0⟩

theorem readOf_two :
    Clocked.Along step Short (default : PcieTlp).reset (readOf 2) ∧
      WellSent ((default : PcieTlp).reset.beats (readOf 2)) ∧
      (beatScan ((default : PcieTlp).reset.beats (readOf 2))).done.length = 1 := by
  have hshort : Clocked.Along step Short (default : PcieTlp).reset (readOf 2) := by decide +kernel
  exact ⟨hshort, wellSent_beats default _ hshort, by decide +kernel⟩

/-- The completion of 1023 DW ends with its fourth word. -/
theorem readOf_long : ∃ p ∈ (beatScan ((default : PcieTlp).reset.beats (readOf 0x3ff#10))).done,
    lengthField p = 1023 ∧ p.length = 4 ∧ ¬ (IsCpl p ∨ IsMwr p) := by
  decide +kernel

end PcieTlp

end IpNuma
