import IpNuma.Cores.Fifo9ToGmii
import IpNuma.Ecp3.RequesterWrites
import Mathlib.Data.List.Chain

/-!
# The gap between frames on GMII

For a frame the requester pushes sixty octets and nine words of gap, and it can accept the next
write 71 cycles after the last one.  `fifo9togmii` needs 77 cycles for these words, because it does
not read the FIFO in the preamble, and 72 of them are the frame on GMII: the words of the gap go
by while the preamble and the FCS are sent.

The age of a cycle is the number of cycles since a write was accepted.  If writes are accepted 84
cycles apart, everything on the way to GMII is a function of the age (`requester_age`,
`gmiiAt_succ`), and `gaps_wide` follows from what two consecutive ages can be.
-/

namespace IpNuma

open Clocked

/-! ### From the requester to GMII -/

namespace Requester

/-- A write starts a frame at the next edge. -/
def accepts (s : Requester) : Bool := decide (s.tlp.status = .data0 ∧ s.phy.status = .idle)

def accepted (s : Requester) (_ : RequesterIn) : List Bool := [s.accepts]

/-- The words pushed, cycle by cycle. -/
def pushes (s : Requester) (i : RequesterIn) : List (List (BitVec 9)) := [s.push i]

end Requester

/-- A cycle on GMII. -/
structure GmiiCycle where
  txEn : Bool
  /-- The first byte of a preamble. -/
  first : Bool
  /-- The last byte of an FCS. -/
  last : Bool
  deriving DecidableEq, Inhabited

/-- The byte that is sent at the edge. -/
def GmiiSide.cycle (s : GmiiSide) (i : GmiiIn) : List GmiiCycle :=
  [⟨(s.step i).tx.txEn, decide (s.tx.state = .idle ∧ (s.step i).tx.state = .pre),
    decide (s.tx.state = .fcs ∧ s.tx.fcsCount = 2#2)⟩]

/-- Every word reaches the output of the FIFO after the same number of cycles. -/
def gmiiIns (latency : ℕ) (ps : List (List (BitVec 9))) (douts : List (BitVec 9)) : List GmiiIn :=
  List.zipWith GmiiIn.mk (List.replicate latency [] ++ ps) douts

/-- The cycles on GMII, for as many cycles as there are `douts`. -/
def gmiiCycles (latency : ℕ) (s : Requester) (t : Fifo9ToGmii) (is : List RequesterIn)
    (douts : List (BitVec 9)) : List GmiiCycle :=
  log GmiiSide.step GmiiSide.cycle (GmiiSide.start t)
    (gmiiIns latency (log Requester.step Requester.pushes s.reset is) douts)

/-- Any two flags that are set are at least `n` positions apart. -/
def Spaced (n : ℕ) : List Bool → Prop
  | [] => True
  | f :: fs => (f = true → ∀ g ∈ fs.take (n - 1), g = false) ∧ Spaced n fs

instance Spaced.decidable (n : ℕ) (fs : List Bool) : Decidable (Spaced n fs) :=
  match fs with
  | [] => isTrue trivial
  | _ :: fs => @instDecidableAnd _ _ _ (Spaced.decidable n fs)

/-- Between the last byte of a frame and the first byte of the next one `gmii_tx_en` is low, for at
least `n` cycles. -/
def GapsAtLeast (n : ℕ) (cs : List GmiiCycle) : Prop :=
  ∀ pre x mid y post, cs = pre ++ x :: (mid ++ y :: post) → x.last = true → y.first = true →
    (∀ z ∈ mid, z.first = false) → (∀ z ∈ mid, z.txEn = false) ∧ n ≤ mid.length

/-! ### Ages -/

/-- The ages of the cycles, from the age of the first one on. -/
def ages (a : ℕ) : List Bool → List ℕ
  | [] => []
  | f :: fs => a :: ages (if f then 0 else a + 1) fs

/-- The age in the next cycle, with writes accepted 84 cycles apart. -/
def NextAge (a b : ℕ) : Prop := b = a + 1 ∨ 83 ≤ a ∧ b = 0

theorem head?_ages (a : ℕ) (fs : List Bool) : ∀ b ∈ (ages a fs).head?, b = a := by
  cases fs with
  | nil => exact fun b hb => (by cases hb)
  | cons f fs => exact fun b hb => (Option.some.inj hb).symm

theorem isChain_ages {fs : List Bool} {a : ℕ} (hfs : Spaced 84 fs)
    (h : ∀ k, fs[k]? = some true → 83 ≤ a + k) : (ages a fs).IsChain NextAge := by
  induction fs generalizing a with
  | nil => exact .nil
  | cons f fs ih =>
    have hnext : ∀ k, fs[k]? = some true → 83 ≤ (if f then 0 else a + 1) + k := by
      intro k hk
      cases f with
      | true =>
        rw [if_pos rfl]
        by_contra hlt
        have hmem : true ∈ fs.take 83 :=
          List.mem_of_getElem? ((List.getElem?_take_of_lt (by omega)).trans hk)
        exact absurd (hfs.1 rfl true hmem) (by decide)
      | false =>
        have hle := h (k + 1) hk
        rw [if_neg Bool.false_ne_true]
        omega
    refine List.isChain_cons.2 ⟨fun b hb => ?_, ih hfs.2 hnext⟩
    rw [head?_ages _ _ b hb]
    cases f with
    | true => exact .inr ⟨h 0 rfl, rfl⟩
    | false => exact .inl rfl

/-- From the end of a frame to the second cycle of the next one. -/
theorem le_length_of_isChain {a : ℕ} {mid post : List ℕ}
    (h : (a :: (mid ++ 1 :: post)).IsChain NextAge) (ha : 72 ≤ a) (hmid : 1 ∉ mid) :
    (∀ b ∈ mid, b = 0 ∨ 73 ≤ b) ∧ 84 ≤ a + mid.length := by
  induction mid generalizing a with
  | nil =>
    rcases (List.isChain_cons_cons.1 h).1 with hnext | ⟨-, hnext⟩ <;> omega
  | cons b mid ih =>
    obtain ⟨hnext, hrest⟩ := List.isChain_cons_cons.1 h
    rw [List.mem_cons, not_or] at hmid
    rcases hnext with rfl | ⟨ha', rfl⟩
    · obtain ⟨hlow, hlen⟩ := ih hrest (by omega) hmid.2
      refine ⟨List.forall_mem_cons.2 ⟨.inr (by omega), hlow⟩, ?_⟩
      rw [List.length_cons]
      omega
    · -- behind the age 0 comes the age 1
      cases mid with
      | nil => exact ⟨by simp, by simp; omega⟩
      | cons c mid =>
        rcases (List.isChain_cons_cons.1 hrest).1 with rfl | ⟨hle, -⟩
        · exact absurd List.mem_cons_self hmid.2
        · omega

/-- What GMII shows in a cycle of the age. -/
def cycleAt (a : ℕ) : GmiiCycle := ⟨decide (1 ≤ a ∧ a ≤ 72), decide (a = 1), decide (a = 72)⟩

theorem gapsAtLeast_ages {as : List ℕ} (h : as.IsChain NextAge) :
    GapsAtLeast 12 (as.map cycleAt) := by
  intro pre x mid y post hcs hx hy hmid
  obtain ⟨l₁, l₂, rfl, -, hl₂⟩ := List.map_eq_append_iff.1 hcs
  obtain ⟨a, l₃, rfl, rfl, hl₃⟩ := List.map_eq_cons_iff.1 hl₂
  obtain ⟨l₄, l₅, rfl, rfl, hl₅⟩ := List.map_eq_append_iff.1 hl₃
  obtain ⟨b, l₆, rfl, rfl, -⟩ := List.map_eq_cons_iff.1 hl₅
  obtain rfl : a = 72 := of_decide_eq_true hx
  obtain rfl : b = 1 := of_decide_eq_true hy
  have hone : 1 ∉ l₄ := fun h1 => by
    have hfirst := hmid (cycleAt 1) (List.mem_map_of_mem h1)
    exact absurd hfirst (by decide)
  obtain ⟨hlow, hlen⟩ := le_length_of_isChain h.right_of_append le_rfl hone
  refine ⟨fun z hz => ?_, by rw [List.length_map]; omega⟩
  obtain ⟨c, hc, rfl⟩ := List.mem_map.1 hz
  have hc' := hlow c hc
  exact decide_eq_false (by omega)

/-! ### The requester -/

/-- The tags of the words pushed in a cycle of the age. -/
def tagsAt (a : ℕ) : List Bool := if a < 60 then [true] else if a < 69 then [false] else []

/-- The phase of the sender at an age. -/
def ReqPhase.Aged (a : ℕ) : ReqPhase → Prop
  | .idle => 70 ≤ a
  | .send cs => a = cs.length
  | .fin _ => a = 60
  | .gap k => a + k = 69

/-- The tags of some words. -/
def tags (ws : List (BitVec 9)) : List Bool := ws.map fun w => w.getLsbD 8

section Requester

variable {s : Requester} {ph : ReqPhase} {a : ℕ}

/-- **One edge of the requester.** -/
theorem requester_age (i : RequesterIn) (h : ph.At s.phy) (ha : ph.Aged a) :
    tags (s.push i) = tagsAt a ∧ (ph.next s.tlp i.cfg).Aged (if s.accepts then 0 else a + 1) := by
  rw [push_eq i h]
  have hbusy : s.phy.status ≠ .idle → s.accepts = false := fun hne =>
    decide_eq_false fun hacc => hne hacc.2
  cases ph with
  | idle =>
    have hst : s.phy.status = .idle := h
    have ha' : 70 ≤ a := ha
    have hacc : s.accepts = decide (s.tlp.status = .data0) := by
      simp only [Requester.accepts, hst, and_true]
    refine ⟨?_, ?_⟩
    · rw [tagsAt, if_neg (by omega), if_neg (by omega)]
      rfl
    · rw [hacc, ReqPhase.next]
      by_cases hdata : s.tlp.status = .data0
      · rw [if_pos hdata, if_pos (decide_eq_true hdata)]
        rfl
      · rw [if_neg hdata, if_neg (by rw [decide_eq_false hdata]; exact Bool.false_ne_true)]
        exact Nat.le_succ_of_le ha'
  | send cs =>
    obtain ⟨hst, -, hlen, -⟩ := h
    have ha' : a = cs.length := ha
    rw [hbusy (by rw [hst]; decide), if_neg Bool.false_ne_true]
    refine ⟨?_, ?_⟩
    · rw [tagsAt, if_pos (by omega), ReqPhase.emits, tags, List.map_singleton, Server.tag_byteWord]
    · rw [ReqPhase.next]
      split_ifs with h59
      · exact congrArg (· + 1) (ha'.trans h59)
      · rw [ReqPhase.Aged, ha', List.length_append, List.length_singleton]
  | fin cs =>
    have ha' : a = 60 := ha
    rw [hbusy (by rw [h.1]; decide), if_neg Bool.false_ne_true, ha']
    exact ⟨rfl, rfl⟩
  | gap k =>
    obtain ⟨hst, -, hk, -⟩ := h
    have ha' : a + k = 69 := ha
    rw [hbusy (by rw [hst]; decide), if_neg Bool.false_ne_true]
    cases k with
    | zero =>
      refine ⟨?_, Nat.succ_le_succ (Nat.le_of_eq ha'.symm)⟩
      rw [tagsAt, if_neg (by omega), if_neg (by omega)]
      rfl
    | succ k =>
      refine ⟨?_, (Nat.add_right_comm a 1 k).trans ha'⟩
      rw [tagsAt, if_neg (by omega), if_pos (by omega)]
      rfl

/-- The tags of the words pushed in a run. -/
theorem pushes_ages (is : List RequesterIn) (h : ph.At s.phy) (ha : ph.Aged a) :
    List.Forall₂ (fun a p => tags p = tagsAt a)
      (ages a (log Requester.step Requester.accepted s is))
      (log Requester.step Requester.pushes s is) := by
  induction is generalizing s ph a with
  | nil => exact .nil
  | cons i is ih =>
    obtain ⟨hpush, hage⟩ := requester_age i h ha
    exact .cons hpush (ih (step_at i h) hage)

end Requester

/-! ### The FIFO and `fifo9togmii` -/

/-- The number of words of the frame that have been read. -/
def readAt (a : ℕ) : ℕ := if a ≤ 10 then min (a - 1) 1 else a - 9

/-- The tags of the words in the FIFO. -/
def queuedAt (a : ℕ) : List Bool :=
  ((List.range (min a 69)).drop (readAt a)).map fun n => decide (n < 60)

theorem head?_queuedAt {a : ℕ} (h : readAt a < min a 69) :
    (queuedAt a).head? = some (decide (readAt a < 60)) := by
  rw [queuedAt, List.head?_map, List.head?_drop, List.getElem?_range h]
  rfl

theorem queuedAt_of_old {a : ℕ} (h : min a 69 ≤ readAt a) : queuedAt a = [] := by
  rw [queuedAt, List.drop_eq_nil_of_le (by rw [List.length_range]; exact h)]
  rfl

/-- The words of the next cycle: those of the preamble wait. -/
theorem queuedAt_succ (a : ℕ) :
    (if 2 ≤ a ∧ a ≤ 9 then queuedAt a else (queuedAt a).tail) ++ tagsAt a = queuedAt (a + 1) := by
  have hrange : (List.range (min (a + 1) 69)).map (fun n => decide (n < 60)) =
      (List.range (min a 69)).map (fun n => decide (n < 60)) ++ tagsAt a := by
    unfold tagsAt
    split_ifs with h60 h69
    · rw [show min (a + 1) 69 = a + 1 by omega, show min a 69 = a by omega, List.range_succ,
        List.map_append, List.map_singleton, decide_eq_true h60]
    · rw [show min (a + 1) 69 = a + 1 by omega, show min a 69 = a by omega, List.range_succ,
        List.map_append, List.map_singleton, decide_eq_false h60]
    · rw [show min (a + 1) 69 = 69 by omega, show min a 69 = 69 by omega, List.append_nil]
  have hlen : ((List.range (min a 69)).map fun n => decide (n < 60)).length = min a 69 := by simp
  rcases Nat.eq_zero_or_pos a with rfl | hpos
  · rfl
  rw [queuedAt, queuedAt, List.map_drop, List.map_drop, hrange]
  by_cases hpre : 2 ≤ a ∧ a ≤ 9
  · have hread : readAt (a + 1) = readAt a := by
      unfold readAt
      split_ifs <;> omega
    have hle : readAt a ≤ min a 69 := by
      unfold readAt
      split_ifs <;> omega
    rw [if_pos hpre, hread, List.drop_append_of_le_length (by rw [hlen]; exact hle)]
  · have hread : readAt (a + 1) = readAt a + 1 := by
      unfold readAt
      split_ifs <;> omega
    rw [if_neg hpre, hread, List.tail_drop]
    by_cases hold : a < 69
    · have hle : readAt a + 1 ≤ min a 69 := by
        unfold readAt
        split_ifs <;> omega
      rw [List.drop_append_of_le_length (by rw [hlen]; exact hle)]
    · rw [tagsAt, if_neg (by omega), if_neg hold, List.append_nil, List.append_nil]

/-- The state of the module at an age. -/
def txAt (a : ℕ) : GmiiTxState :=
  if a ≤ 1 then .idle
  else if a ≤ 9 then .pre
  else if a = 10 then .sfd
  else if a ≤ 69 then .data
  else if a ≤ 72 then .fcs
  else .idle

/-- The FIFO and the module at an age. -/
structure GmiiAt (a : ℕ) (g : GmiiSide) : Prop where
  fifo : tags g.fifo = queuedAt a
  state : g.tx.state = txAt a
  count : txAt a = .pre → g.tx.count = BitVec.ofNat 3 (a - 2)
  fcsCount : txAt a = .fcs → g.tx.fcsCount = BitVec.ofNat 2 (a - 70)

section Reader

variable {a : ℕ} {g : GmiiSide} {i : GmiiIn}

theorem txAt_eq_pre : txAt a = .pre ↔ 2 ≤ a ∧ a ≤ 9 := by
  unfold txAt
  split_ifs <;> simp <;> omega

theorem GmiiAt.word {b : Bool} (h : GmiiAt a g) (hq : (queuedAt a).head? = some b) :
    g.fifo.isEmpty = false ∧ (g.dout i).getLsbD 8 = b := by
  rw [← h.fifo, tags, List.head?_map] at hq
  unfold GmiiSide.dout
  cases hfifo : g.fifo with
  | nil =>
    rw [hfifo] at hq
    cases hq
  | cons w ws =>
    rw [hfifo] at hq
    exact ⟨rfl, Option.some.inj hq⟩

/-- A word behind the frame, or none. -/
theorem GmiiAt.quiet (h : GmiiAt a g) (ha : a = 0 ∨ 69 ≤ a) :
    g.fifo.isEmpty = true ∨ (g.dout i).getLsbD 8 = false := by
  by_cases hlt : readAt a < min a 69
  · have hge : ¬ readAt a < 60 := by
      unfold readAt at hlt ⊢
      split_ifs at hlt ⊢ <;> omega
    have hq := head?_queuedAt hlt
    rw [decide_eq_false hge] at hq
    exact .inr (h.word hq).2
  · left
    have hfifo := h.fifo
    rw [queuedAt_of_old (not_lt.1 hlt), tags, List.map_eq_nil_iff] at hfifo
    rw [hfifo]
    rfl

theorem GmiiAt.fifo_succ (h : GmiiAt a g) (hi : tags i.arrive = tagsAt a) :
    tags (g.step i).fifo = queuedAt (a + 1) := by
  rw [GmiiSide.fifo_step, tags, List.map_append, ← tags, ← tags, hi, ← queuedAt_succ, ← h.fifo,
    h.state]
  simp only [txAt_eq_pre]
  split_ifs
  · rfl
  · rw [tags, tags, List.map_tail]

/-- The module after the edge. -/
theorem GmiiAt.tx_succ (h : GmiiAt a g) : (g.step i).tx.state = txAt (a + 1) ∧
    (txAt (a + 1) = .pre → (g.step i).tx.count = BitVec.ofNat 3 (a - 1)) ∧
    (txAt (a + 1) = .fcs → (g.step i).tx.fcsCount = BitVec.ofNat 2 (a - 69)) ∧
    (g.step i).tx.txEn = decide (1 ≤ a ∧ a ≤ 72) := by
  have hst := h.state
  have hregion : (a = 0 ∨ 73 ≤ a) ∨ a = 1 ∨ (2 ≤ a ∧ a ≤ 9) ∨ a = 10 ∨ (11 ≤ a ∧ a < 69) ∨ a = 69 ∨
      (70 ≤ a ∧ a ≤ 72) := by omega
  rw [GmiiSide.step]
  rcases hregion with ha | rfl | ha | rfl | ha | rfl | ha
  · -- nothing to send
    have hidle : txAt a = .idle ∧ txAt (a + 1) = .idle := by
      unfold txAt
      rcases ha with rfl | ha
      · decide
      · constructor <;> split_ifs <;> first | rfl | omega
    rw [hidle.1] at hst
    rw [hidle.2, Fifo9ToGmii.step_quiet hst (h.quiet (by omega)), decide_eq_false (by omega)]
    exact ⟨hst, fun h => (by cases h), fun h => (by cases h), rfl⟩
  · -- the first word
    obtain ⟨hempty, hw⟩ := h.word (i := i) (b := true) rfl
    rw [hempty, Fifo9ToGmii.step_start hst hw]
    exact ⟨rfl, fun _ => rfl, fun h => (by cases h), rfl⟩
  · -- the preamble
    have hpre : txAt a = .pre := txAt_eq_pre.2 ha
    have hnext : txAt (a + 1) = if a - 2 = 7 then .sfd else .pre := by
      split_ifs with h9
      · rw [show a = 9 by omega]
        rfl
      · exact txAt_eq_pre.2 (by omega)
    have hen : decide (1 ≤ a ∧ a ≤ 72) = true := decide_eq_true (by omega)
    rw [hpre] at hst
    rw [Fifo9ToGmii.step_pre hst (h.count hpre) (by omega), hen]
    refine ⟨hnext.symm, fun _ => by rw [show a - 1 = a - 2 + 1 by omega], fun h => ?_, rfl⟩
    rw [hnext] at h
    split_ifs at h
  · -- the second octet
    rw [Fifo9ToGmii.step_sfd hst]
    exact ⟨rfl, fun h => (by cases h), fun h => (by cases h), rfl⟩
  · -- the other octets
    have hdata : txAt a = .data ∧ txAt (a + 1) = .data := by
      unfold txAt
      constructor <;> split_ifs <;> first | rfl | omega
    have hread : readAt a = a - 9 := if_neg (by omega)
    have hq := head?_queuedAt (a := a) (by omega)
    rw [decide_eq_true (by omega)] at hq
    obtain ⟨hempty, hw⟩ := h.word (i := i) hq
    rw [hdata.1] at hst
    rw [hdata.2, hempty, Fifo9ToGmii.step_data hst hw, decide_eq_true (by omega)]
    exact ⟨hst, fun h => (by cases h), fun h => (by cases h), rfl⟩
  · -- the first word behind the frame
    obtain ⟨hempty, hw⟩ := h.word (i := i) (b := false) (by decide)
    rw [hempty, Fifo9ToGmii.step_end hst hw]
    exact ⟨rfl, fun h => (by cases h), fun _ => rfl, rfl⟩
  · -- the FCS
    have hfcs : txAt a = .fcs := by
      unfold txAt
      split_ifs <;> first | rfl | omega
    have hnext : txAt (a + 1) = if a - 70 = 2 then .idle else .fcs := by
      unfold txAt
      split_ifs <;> first | rfl | omega
    rw [hfcs] at hst
    rw [Fifo9ToGmii.step_fcs hst (h.fcsCount hfcs) (by omega), decide_eq_true (by omega)]
    refine ⟨hnext.symm, fun h => ?_, fun _ => by rw [show a - 69 = a - 70 + 1 by omega], rfl⟩
    rw [hnext] at h
    split_ifs at h

/-- **One edge of `gmii_tx_clk`.** -/
theorem gmiiAt_succ (h : GmiiAt a g) (hi : tags i.arrive = tagsAt a) :
    GmiiAt (a + 1) (g.step i) ∧ g.cycle i = [cycleAt a] := by
  obtain ⟨hst, hcount, hfcs, hen⟩ := h.tx_succ (i := i)
  have hfirst : (g.tx.state = .idle ∧ (g.step i).tx.state = .pre) ↔ a = 1 := by
    rw [h.state, hst, txAt_eq_pre]
    unfold txAt
    split_ifs <;> simp <;> omega
  have hlast : (g.tx.state = .fcs ∧ g.tx.fcsCount = 2#2) ↔ a = 72 := by
    rw [h.state]
    constructor
    · rintro ⟨hstate, htwo⟩
      have hrange : 70 ≤ a ∧ a ≤ 72 := by
        unfold txAt at hstate
        split_ifs at hstate
        omega
      have hnat := congrArg BitVec.toNat ((h.fcsCount hstate).symm.trans htwo)
      simp only [BitVec.toNat_ofNat] at hnat
      omega
    · rintro rfl
      exact ⟨rfl, h.fcsCount rfl⟩
  refine ⟨⟨h.fifo_succ hi, hst, hcount, hfcs⟩, ?_⟩
  simp only [GmiiSide.cycle, hen, hfirst, hlast, cycleAt]

/-- An old frame has left nothing. -/
theorem at_old (ha : 78 ≤ a) : queuedAt a = [] ∧ txAt a = .idle := by
  have hread : readAt a = a - 9 := if_neg (by omega)
  refine ⟨queuedAt_of_old (by omega), ?_⟩
  unfold txAt
  split_ifs <;> first | rfl | omega

theorem gmiiAt_start (t : Fifo9ToGmii) (ha : 78 ≤ a) : GmiiAt a (GmiiSide.start t) := by
  obtain ⟨hqueued, hidle⟩ := at_old ha
  refine ⟨hqueued.symm, hidle.symm, fun h => ?_, fun h => ?_⟩ <;> rw [hidle] at h <;> cases h

/-- Between two frames the age can start again. -/
theorem GmiiAt.restart (h : GmiiAt a g) (ha : 78 ≤ a) : GmiiAt 0 g := by
  obtain ⟨hqueued, hidle⟩ := at_old ha
  exact ⟨h.fifo.trans hqueued, h.state.trans hidle, fun h => (by cases h), fun h => (by cases h)⟩

/-- The cycles on GMII for words whose tags are those of some ages. -/
theorem cycles_ages {as : List ℕ} {ps : List (List (BitVec 9))} (douts : List (BitVec 9))
    (hchain : as.IsChain NextAge) (hps : List.Forall₂ (fun a p => tags p = tagsAt a) as ps)
    (hg : ∀ a ∈ as.head?, GmiiAt a g) : ∃ n, log GmiiSide.step GmiiSide.cycle g
      (List.zipWith GmiiIn.mk ps douts) = (as.take n).map cycleAt := by
  induction hps generalizing g douts with
  | nil => exact ⟨0, rfl⟩
  | @cons a p as ps hp hps ih =>
    cases douts with
    | nil => exact ⟨0, rfl⟩
    | cons d douts =>
      obtain ⟨hnext, hcycle⟩ := gmiiAt_succ (i := ⟨p, d⟩) (hg a rfl) hp
      have hg' : ∀ b ∈ as.head?, GmiiAt b (g.step ⟨p, d⟩) := by
        intro b hb
        rcases (List.isChain_cons.1 hchain).1 b hb with rfl | ⟨hold, rfl⟩
        · exact hnext
        · exact hnext.restart (by omega)
      obtain ⟨n, hn⟩ := ih douts (List.isChain_cons.1 hchain).2 hg'
      refine ⟨n + 1, ?_⟩
      rw [List.zipWith_cons_cons, log_cons, hn, hcycle, List.take_succ_cons, List.map_cons]
      rfl

end Reader

/-! ### The gaps -/

/-- The ages of the words that reach the output of the FIFO. -/
theorem exists_ages (s : Requester) (latency : ℕ) (is : List RequesterIn) {a : ℕ} (ha : 83 ≤ a)
    (h : Spaced 84 (log Requester.step Requester.accepted s.reset is)) :
    ∃ as : List ℕ, as.IsChain NextAge ∧ (∀ b ∈ as.head?, b = a) ∧
      List.Forall₂ (fun a p => tags p = tagsAt a) as
        (List.replicate latency [] ++ log Requester.step Requester.pushes s.reset is) := by
  induction latency generalizing a with
  | zero =>
    have hidle : ReqPhase.idle.At s.reset.phy := rfl
    have haged : ReqPhase.idle.Aged a := Nat.le_trans (by decide) ha
    exact ⟨_, isChain_ages h fun k _ => by omega, head?_ages a _, pushes_ages is hidle haged⟩
  | succ latency ih =>
    obtain ⟨as, hchain, hhead, htags⟩ := ih (a := a + 1) (by omega)
    refine ⟨a :: as, List.isChain_cons.2 ⟨fun b hb => .inl (hhead b hb), hchain⟩,
      fun b hb => (Option.some.inj hb).symm, .cons ?_ htags⟩
    rw [tagsAt, if_neg (by omega), if_neg (by omega)]
    rfl

/-- **The gap between frames** is twelve cycles or more if writes are accepted 84 cycles apart. -/
theorem gaps_wide (latency : ℕ) (s : Requester) (t : Fifo9ToGmii) (is : List RequesterIn)
    (douts : List (BitVec 9))
    (h : Spaced 84 (log Requester.step Requester.accepted s.reset is)) :
    GapsAtLeast 12 (gmiiCycles latency s t is douts) := by
  obtain ⟨as, hchain, hhead, htags⟩ := exists_ages s latency is (a := 83) le_rfl h
  have hstart : ∀ a ∈ as.head?, GmiiAt a (GmiiSide.start t) := fun a ha => by
    rw [hhead a ha]
    exact gmiiAt_start t (by decide)
  obtain ⟨n, hn⟩ := cycles_ages douts hchain htags hstart
  rw [gmiiCycles, gmiiIns, hn]
  exact gapsAtLeast_ages (hchain.take n)

/-- Two writes, the second `n` quiet cycles behind the first. -/
def twoWrites (n : ℕ) : List RequesterIn :=
  (traffic (ReqHost.writesApart n)).map (RequesterIn.mk · default) ++ List.replicate 80 default

/-- Accepted 84 cycles apart. -/
theorem gaps_wide_twoWrites :
    GapsAtLeast 12 (gmiiCycles 2 default default (twoWrites 74) (List.replicate 180 0)) :=
  gaps_wide 2 default default (twoWrites 74) (List.replicate 180 0) (by decide +kernel)

/-- Accepted 71 cycles apart, as soon as possible: a gap of five cycles. -/
theorem twoWrites_close :
    ¬ GapsAtLeast 12 (gmiiCycles 2 default default (twoWrites 61) (List.replicate 180 0)) := by
  intro h
  have hgap := h ((gmiiCycles 2 default default (twoWrites 61) (List.replicate 180 0)).take 81)
    ⟨true, false, true⟩ (List.replicate 5 ⟨false, false, false⟩) ⟨true, true, false⟩
    ((gmiiCycles 2 default default (twoWrites 61) (List.replicate 180 0)).drop 88)
    (by decide +kernel) rfl rfl (by decide)
  exact absurd hgap.2 (by decide)

end IpNuma
