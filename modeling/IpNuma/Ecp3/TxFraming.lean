import IpNuma.Ecp3.TxPhase

/-!
# The packets of the transmit side

A reader of the wire takes the words from `tx_st` to `tx_end`.  `Framed` relates what it has so far
to the phase of the blocks, and `framed_step` says which packet a cycle completes: a completion with
the header of the slave sequencer or a write with that of the master sequencer, of the length in its
header unless it is a completion with 1023 DW.
-/

namespace IpNuma

open Clocked

/-- The known words of a header are in a packet. -/
def HeadOf (hd : ℕ → Option (BitVec 16)) (ws : List TxWord) : Prop :=
  ∀ j w x, hd j = some w → ws[j]? = some x → x.txData = w

theorem headOf_nil (hd : ℕ → Option (BitVec 16)) : HeadOf hd [] :=
  fun _ _ _ _ h => (by cases h)

theorem HeadOf.concat {hd : ℕ → Option (BitVec 16)} {ws : List TxWord} {x : TxWord}
    (h : HeadOf hd ws) (hx : ∀ w, hd ws.length = some w → x.txData = w) :
    HeadOf hd (ws ++ [x]) := by
  intro j w y hw hy
  rcases Nat.lt_trichotomy j ws.length with hlt | rfl | hgt
  · rw [List.getElem?_append_left hlt] at hy
    exact h j w y hw hy
  · rw [List.getElem?_concat_length] at hy
    cases hy
    exact hx w hw
  · rw [List.getElem?_eq_none (by rw [List.length_append, List.length_singleton]; omega)] at hy
    cases hy

theorem HeadOf.first {hd : ℕ → Option (BitVec 16)} {ws : List TxWord} {w : BitVec 16}
    (h : HeadOf hd ws) (hne : ws ≠ []) (hw : hd 0 = some w) :
    ws.head?.map TxWord.txData = some w := by
  cases ws with
  | nil => exact absurd rfl hne
  | cons x ws => exact congrArg some (h 0 w x hw rfl)

/-- The words of a packet after its `h` header words, with one more word; `k` is the number of
cycles of its data, of which the first three are ahead of the words. -/
theorem drop_concat {ws : List TxWord} {w : TxWord} {l : List (BitVec 16)} {k h : ℕ}
    (hlen : ws.length + 3 = k + h) (hdrop : (ws.map TxWord.txData).drop h = l.take (k - 3))
    (hw : 3 ≤ k → l[k - 3]? = some w.txData) :
    ((ws ++ [w]).map TxWord.txData).drop h = l.take (k + 1 - 3) := by
  by_cases h3 : 3 ≤ k
  · rw [List.map_append, List.drop_append_of_le_length (by rw [List.length_map]; omega), hdrop,
      show k + 1 - 3 = k - 3 + 1 by omega, List.take_add_one, hw h3]
    rfl
  · rw [show k + 1 - 3 = 0 by omega]
    exact List.drop_eq_nil_of_le (by rw [List.length_map, List.length_append]; simp; omega)

namespace PcieTlp

/-- The part of a packet that the reader has taken: `p` words with the header `hd`. -/
def Taken (hd : ℕ → Option (BitVec 16)) (p : ℕ) (part : Option (List TxWord)) : Prop :=
  if p = 0 then part = none else ∃ ws, part = some ws ∧ ws.length = p ∧ HeadOf hd ws

/-- What the reader has in a phase. -/
def PartOf (s : PcieTlp) (part : Option (List TxWord)) : LinkPhase → Prop
  | .cpl n p => Taken (s.slv.head n) p part
  | .mwr n p => Taken (s.mst.head n) p part
  | _ => part = none

/-- The reader of the wire. -/
def readWire (sc : Scan TxWord) (w : TxWord) : Scan TxWord := sc.next TxWord.txSt TxWord.txEnd w

/-- The reader is in step with the blocks. -/
structure Framed (s : PcieTlp) (φ : LinkPhase) (part : Option (List TxWord)) : Prop where
  phase : s.InPhase φ
  part : s.PartOf part φ

/-- Which phase comes after which. -/
def Follows : LinkPhase → LinkPhase → Prop
  | .idle, φ => φ = .idle ∨ ∃ ch, φ = .wait ch
  | .wait ch, φ => φ = .wait ch ∨ ∃ n, φ = if ch then .mwr n 0 else .cpl n 0
  | .cpl n p, φ =>
      φ = if p = TlpSlave.cplEnd n then if n = 1023 then .adrift else .cplLast else .cpl n (p + 1)
  | .mwr n p, φ => φ = if p = 2 * n + 7 then .mwrLast else .mwr n (p + 1)
  | .cplLast, φ => φ = .idle
  | .adrift, φ => φ = .adrift ∨ φ = .idle
  | .mwrLast, φ => φ = .idle

/-- The word `w` completes a packet with `p` words before it. -/
def Ends (hd : ℕ → Option (BitVec 16)) (p : ℕ) (part : Option (List TxWord)) (w : TxWord)
    (ps : List (List TxWord)) : Prop :=
  ∃ ws, part = some ws ∧ ws.length = p ∧ HeadOf hd (ws ++ [w]) ∧ ps = [ws ++ [w]]

/-- The packets that a cycle completes. -/
def Completes (s : PcieTlp) (i : PcieIn) (part : Option (List TxWord)) (ps : List (List TxWord)) :
    LinkPhase → Prop
  | .cpl n p =>
      if p = TlpSlave.cplEnd n then Ends (s.slv.head n) p part (s.step i).wire ps else ps = []
  | .mwr n p => if p = 2 * n + 7 then Ends (s.mst.head n) p part (s.step i).wire ps else ps = []
  | _ => ps = []

variable {s : PcieTlp} {i : PcieIn} {sc : Scan TxWord} {w : TxWord} {n p : ℕ}
  {hd : ℕ → Option (BitVec 16)}

theorem completes_cpl {part : Option (List TxWord)} {ps : List (List TxWord)} :
    Completes s i part ps (.cpl n p) =
      if p = TlpSlave.cplEnd n then Ends (s.slv.head n) p part (s.step i).wire ps else ps = [] :=
  rfl

theorem completes_mwr {part : Option (List TxWord)} {ps : List (List TxWord)} :
    Completes s i part ps (.mwr n p) =
      if p = 2 * n + 7 then Ends (s.mst.head n) p part (s.step i).wire ps else ps = [] :=
  rfl

/-- A packet is told by the first word of its header. -/
theorem Ends.filter {part : Option (List TxWord)} {ps : List (List TxWord)} {x : BitVec 16}
    (h : Ends hd p part w ps) (hx : hd 0 = some x) (y : BitVec 16) :
    ps.filter (fun ws => ws.head?.map TxWord.txData == some y) = if x = y then ps else [] := by
  obtain ⟨ws, -, -, hhead, rfl⟩ := h
  have hne : ws ++ [w] ≠ [] := List.append_ne_nil_of_right_ne_nil _ (List.cons_ne_nil _ [])
  have hfirst := hhead.first hne hx
  by_cases hxy : x = y
  · rw [if_pos hxy, List.filter_cons_of_pos (by rw [hfirst, hxy]; exact beq_self_eq_true _)]
    rfl
  · rw [if_neg hxy, List.filter_cons_of_neg (by
      rw [hfirst, beq_iff_eq]
      exact fun h => hxy (Option.some.inj h))]
    rfl

theorem readWire_skip (hp : sc.part = none) (hw : w.txSt = false) : readWire sc w = sc := by
  unfold readWire Scan.next
  rw [hp, hw]
  rfl

theorem readWire_start (hp : sc.part = none) (hw : w.txSt = true) :
    readWire sc w = ⟨some [w], sc.done⟩ := by
  unfold readWire Scan.next
  rw [hp, hw]
  rfl

theorem readWire_take {ws : List TxWord} (hp : sc.part = some ws) (hw : w.txEnd = false) :
    readWire sc w = ⟨some (ws ++ [w]), sc.done⟩ := by
  unfold readWire Scan.next
  rw [hp, hw]
  rfl

theorem readWire_end {ws : List TxWord} (hp : sc.part = some ws) (hw : w.txEnd = true) :
    readWire sc w = ⟨none, sc.done ++ [ws ++ [w]]⟩ := by
  unfold readWire Scan.next
  rw [hp, hw]
  rfl

theorem taken_zero : Taken hd 0 none := by
  unfold Taken
  rw [if_pos rfl]

theorem Taken.words {part : Option (List TxWord)} (h : Taken hd p part) (hp : p ≠ 0) :
    ∃ ws, part = some ws ∧ ws.length = p ∧ HeadOf hd ws := by
  unfold Taken at h
  rwa [if_neg hp] at h

/-- The reader takes a word that is not the last one. -/
theorem taken_readWire (h : Taken hd p sc.part) (hst : w.txSt = decide (p = 0))
    (hend : w.txEnd = false) (hw : ∀ x, hd p = some x → w.txData = x) :
    Taken hd (p + 1) (readWire sc w).part ∧ (readWire sc w).done = sc.done := by
  unfold Taken
  rw [if_neg (Nat.succ_ne_zero p)]
  by_cases hp : p = 0
  · unfold Taken at h
    rw [if_pos hp] at h
    rw [readWire_start h (hst.trans (decide_eq_true hp))]
    refine ⟨⟨[w], rfl, by rw [hp]; rfl, ?_⟩, rfl⟩
    have hhead := (headOf_nil hd).concat (x := w) fun x hx => hw x (by rw [hp]; exact hx)
    exact hhead
  · obtain ⟨ws, hpart, hlen, hhead⟩ := h.words hp
    rw [readWire_take hpart hend]
    refine ⟨⟨ws ++ [w], rfl, ?_, hhead.concat fun x hx => hw x (by rw [← hlen]; exact hx)⟩, rfl⟩
    rw [List.length_append, hlen]
    rfl

/-- The reader takes the last word. -/
theorem ends_readWire (h : Taken hd p sc.part) (hp : p ≠ 0) (hend : w.txEnd = true)
    (hw : ∀ x, hd p = some x → w.txData = x) : (readWire sc w).part = none ∧
      ∃ ps, (readWire sc w).done = sc.done ++ ps ∧ Ends hd p sc.part w ps := by
  obtain ⟨ws, hpart, hlen, hhead⟩ := h.words hp
  rw [readWire_end hpart hend]
  exact ⟨rfl, [ws ++ [w]], rfl, ws, hpart, hlen,
    hhead.concat fun x hx => hw x (by rw [← hlen]; exact hx), rfl⟩

/-- A cycle of the blocks and the reader. -/
def Steps (s : PcieTlp) (φ : LinkPhase) (sc : Scan TxWord) (i : PcieIn) : Prop :=
  (∃ φ', Follows φ φ' ∧ Framed (s.step i) φ' (readWire sc (s.step i).wire).part) ∧
    ∃ ps, (readWire sc (s.step i).wire).done = sc.done ++ ps ∧ Completes s i sc.part ps φ

/-- The reader is idle and stays so. -/
theorem steps_idle {φ ψ : LinkPhase} (hp : sc.part = none) (hst : (s.step i).tx.txSt = false)
    (hfollows : Follows φ ψ) (hψ : (s.step i).InPhase ψ) (hpart : (s.step i).PartOf none ψ)
    (hnone : Completes s i sc.part [] φ) : Steps s φ sc i := by
  unfold Steps
  rw [readWire_skip hp hst]
  exact ⟨⟨ψ, hfollows, hψ, by rw [hp]; exact hpart⟩, [], (List.append_nil _).symm, hnone⟩

/-- The word is one of a packet, not the last one. -/
theorem steps_more {φ ψ : LinkPhase} (htaken : Taken hd p sc.part)
    (hst : (s.step i).wire.txSt = decide (p = 0)) (hend : (s.step i).wire.txEnd = false)
    (hhead : ∀ x, hd p = some x → (s.step i).wire.txData = x) (hfollows : Follows φ ψ)
    (hψ : (s.step i).InPhase ψ)
    (hpart : ∀ part, Taken hd (p + 1) part → (s.step i).PartOf part ψ)
    (hnone : Completes s i sc.part [] φ) : Steps s φ sc i := by
  obtain ⟨htaken', hdone⟩ := taken_readWire htaken hst hend hhead
  exact ⟨⟨ψ, hfollows, hψ, hpart _ htaken'⟩, [], by rw [hdone, List.append_nil], hnone⟩

/-- The word is the last one of a packet. -/
theorem steps_last {φ ψ : LinkPhase} (htaken : Taken hd p sc.part) (hp : p ≠ 0)
    (hend : (s.step i).wire.txEnd = true)
    (hhead : ∀ x, hd p = some x → (s.step i).wire.txData = x) (hfollows : Follows φ ψ)
    (hψ : (s.step i).InPhase ψ) (hpart : (s.step i).PartOf none ψ)
    (hcompl : ∀ ps, Ends hd p sc.part (s.step i).wire ps → Completes s i sc.part ps φ) :
    Steps s φ sc i := by
  obtain ⟨hnone, ps, hdone, hends⟩ := ends_readWire htaken hp hend hhead
  refine ⟨⟨ψ, hfollows, hψ, ?_⟩, ps, hdone, hcompl ps hends⟩
  rw [hnone]
  exact hpart

theorem framed_reset (s : PcieTlp) : Framed s.reset .idle none := ⟨reset_inPhase s, rfl⟩

theorem steps_cpl (hφ : s.InPhase (.cpl n p)) (hpart : s.PartOf sc.part (.cpl n p)) :
    Steps s (.cpl n p) sc i := by
  obtain ⟨hst, hend, hhead, -⟩ := cpl_wire (i := i) hφ
  have hle := hφ.cpl_le
  have h3 := TlpSlave.le_cplEnd n
  by_cases hlast : p = TlpSlave.cplEnd n
  · have hφ' := hφ
    rw [hlast] at hφ'
    refine steps_last hpart (by omega) (hend.trans (decide_eq_true hlast)) hhead
      (if_pos hlast).symm (cpl_last hφ') ?_ fun ps hends => ?_
    · split <;> rfl
    · rw [completes_cpl, if_pos hlast]
      exact hends
  · have hlt : p < TlpSlave.cplEnd n := by omega
    obtain ⟨-, heq⟩ := (cpl_slv (i := i) hφ).1 hlt
    refine steps_more (ψ := .cpl n (p + 1)) hpart hst (hend.trans (decide_eq_false hlast)) hhead
      (if_neg hlast).symm (cpl_step hφ hlt) (fun part htaken => ?_) ?_
    · change Taken _ _ _
      rw [heq]
      exact htaken
    · rw [completes_cpl, if_neg hlast]

theorem steps_mwr (hφ : s.InPhase (.mwr n p)) (hpart : s.PartOf sc.part (.mwr n p)) :
    Steps s (.mwr n p) sc i := by
  obtain ⟨hst, hend, hhead, -⟩ := mwr_wire (i := i) hφ
  have hle := hφ.mwr_le
  by_cases hlast : p = 2 * n + 7
  · have hφ' := hφ
    rw [hlast] at hφ'
    refine steps_last hpart (by omega) (hend.trans (decide_eq_true hlast)) hhead
      (if_pos hlast).symm (mwr_last hφ') rfl fun ps hends => ?_
    rw [completes_mwr, if_pos hlast]
    exact hends
  · have hlt : p < 2 * n + 7 := by omega
    obtain ⟨-, heq⟩ := (mwr_mst (i := i) hφ).1 hlt
    refine steps_more (ψ := .mwr n (p + 1)) hpart hst (hend.trans (decide_eq_false hlast)) hhead
      (if_neg hlast).symm (mwr_step hφ hlt) (fun part htaken => ?_) ?_
    · change Taken _ _ _
      rw [heq]
      exact htaken
    · rw [completes_mwr, if_neg hlast]

/-- **A cycle of the transmit side.** -/
theorem framed_step {φ : LinkPhase} (h : Framed s φ sc.part) : Steps s φ sc i := by
  obtain ⟨hφ, hpart⟩ := h
  cases φ with
  | idle =>
    obtain ⟨hnext, hst⟩ := idle_step (i := i) hφ
    rcases hnext with hidle | ⟨ch, hwait⟩
    · exact steps_idle hpart hst (.inl rfl) hidle rfl rfl
    · exact steps_idle hpart hst (.inr ⟨ch, rfl⟩) hwait rfl rfl
  | wait ch =>
    obtain ⟨hnext, hst⟩ := wait_step (i := i) hφ
    rcases hnext with hwait | ⟨n, hsend⟩
    · exact steps_idle hpart hst (.inl rfl) hwait rfl rfl
    · cases ch
      · exact steps_idle (ψ := .cpl n 0) hpart hst (.inr ⟨n, rfl⟩) hsend taken_zero rfl
      · exact steps_idle (ψ := .mwr n 0) hpart hst (.inr ⟨n, rfl⟩) hsend taken_zero rfl
  | cpl n p => exact steps_cpl hφ hpart
  | cplLast =>
    obtain ⟨hidle, hst⟩ := cplLast_step (i := i) hφ
    exact steps_idle hpart hst rfl hidle rfl rfl
  | adrift =>
    obtain ⟨hnext, hst⟩ := adrift_step (i := i) hφ
    rcases hnext with hadrift | hidle
    · exact steps_idle hpart hst (.inl rfl) hadrift rfl rfl
    · exact steps_idle hpart hst (.inr rfl) hidle rfl rfl
  | mwr n p => exact steps_mwr hφ hpart
  | mwrLast =>
    obtain ⟨hidle, hst⟩ := mwrLast_step (i := i) hφ
    exact steps_idle hpart hst rfl hidle rfl rfl

/-- What the reader has of a wire on which the words `ws` were and the current one is. -/
def readTo (s : PcieTlp) (ws : List TxWord) : Scan TxWord :=
  scan TxWord.txSt TxWord.txEnd (ws ++ [s.wire])

theorem readTo_step (s : PcieTlp) (i : PcieIn) (ws : List TxWord) :
    (s.step i).readTo (ws ++ [s.wire]) = readWire (s.readTo ws) (s.step i).wire :=
  scan_concat _ _ _ _

/-! ### Without reads of 1023 DW -/

/-- The completion that is to be sent is not one with 1023 DW. -/
def Fits (s : PcieTlp) : Prop := s.slv.tx1TlphValid = true → s.slv.tx1Length ≠ 0x7ff#11

/-- The phase is not one of a completion with 1023 DW. -/
def Whole : LinkPhase → Prop
  | .cpl n _ => n ≠ 1023
  | .adrift => False
  | _ => True

/-- Only in `SLV_MREADD` something is to be sent. -/
theorem valid_of_ne {φ : LinkPhase} (h : s.InPhase φ) (hw : Whole φ)
    (hst : s.slv.slvStatus ≠ .mreadd) : s.slv.tx1TlphValid = false := by
  have hsettled : s.slv.Settled → s.slv.tx1TlphValid = false := by
    rintro (hoff | ⟨n, hb⟩)
    · exact hoff.valid
    · exact absurd hb.status hst
  cases φ with
  | idle => exact hsettled h.2.2.2.1
  | wait ch => exact hsettled h.2.2.2.2.1
  | cpl n p => exact absurd h.cpl_busy.status hst
  | cplLast => exact h.cplLast_ending.valid
  | adrift => exact absurd hw not_false
  | mwr n p => exact hsettled h.2.2.2.2.2
  | mwrLast => exact hsettled h.2.2.2.2

/-- The transmitter takes words of the slave sequencer only while it is in a completion. -/
theorem cpl_of_ready {φ : LinkPhase} (h : s.InPhase φ) (hw : Whole φ)
    (hst : s.slv.slvStatus = .mreadd) (hr : s.tx.tx1TlpdReady = true) :
    ∃ n p, φ = .cpl n p ∧ 3 ≤ p := by
  rcases h.of_ready1 hr with hcpl | rfl | rfl
  · exact hcpl
  · exact absurd (hst.symm.trans h.cplLast_ending.status) (by decide)
  · exact absurd hw not_false

/-- The counter that `SLV_MREADH` sets is not that of 1023 DW. -/
theorem length_ne {x : BitVec 10} (h : x ≠ 0x3ff#10) : x ++ 1#1 ≠ 0x7ff#11 := by
  intro heq
  have hhigh : (x ++ 1#1).extractLsb' 1 10 = 0x3ff#10 := by
    rw [heq]
    rfl
  rw [extractLsb'_append_high _ _ _ _ (le_refl 1)] at hhigh
  exact h (BitVec.extractLsb'_eq_self.symm.trans hhigh)

theorem fits_step {φ : LinkPhase} (h : s.InPhase φ) (hw : Whole φ) (hf : s.Fits)
    (hc : s.slv.slvStatus = .mreadh → s.rx.rxLength ≠ 0x3ff#10) : (s.step i).Fits := by
  intro hv
  rw [slv_step, TlpSlave.valid_step] at hv
  rw [slv_step]
  have hvalid := valid_of_ne h hw
  cases hst : s.slv.slvStatus with
  | idle =>
    rw [hst] at hv
    cases hv
  | mreadh =>
    rw [TlpSlave.step_mreadh hst]
    exact length_ne (hc hst)
  | mreadd =>
    rw [hst] at hv
    rw [TlpSlave.step_mreadd hst]
    cases hr : s.tx.tx1TlpdReady with
    | false =>
      rw [hr] at hv
      exact hf hv
    | true =>
      rw [hr] at hv
      cases hv
  | mwriteh =>
    rw [hst] at hv
    exact absurd ((hvalid (by rw [hst]; decide)).symm.trans hv) Bool.false_ne_true
  | mwrited =>
    rw [hst] at hv
    exact absurd ((hvalid (by rw [hst]; decide)).symm.trans hv) Bool.false_ne_true

theorem whole_step {φ φ' : LinkPhase} (hw : Whole φ) (hfollows : Follows φ φ')
    (h : s.InPhase φ') (hf : s.Fits) : Whole φ' := by
  cases φ with
  | idle =>
    rcases hfollows with rfl | ⟨ch, rfl⟩ <;> trivial
  | wait ch =>
    rcases hfollows with rfl | ⟨n, rfl⟩
    · trivial
    · cases ch with
      | true => trivial
      | false =>
        have hb : s.slv.Busy n 0 := h.cpl_busy
        have hlen := hb.length
        intro hn
        refine hf (hb.valid.trans (decide_eq_true rfl)) (BitVec.eq_of_toNat_eq ?_)
        have hlt := s.slv.tx1Length.isLt
        change _ = 2047
        omega
  | cpl n p =>
    have hne : n ≠ 1023 := hw
    change φ' = _ at hfollows
    rw [if_neg hne] at hfollows
    rw [hfollows]
    split
    · trivial
    · exact hne
  | cplLast => rw [show φ' = .idle from hfollows]; trivial
  | adrift => exact absurd hw not_false
  | mwr n p =>
    rw [show φ' = _ from hfollows]
    split <;> trivial
  | mwrLast => rw [show φ' = .idle from hfollows]; trivial

end PcieTlp

end IpNuma
