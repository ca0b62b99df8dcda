import IpNuma.Clocked.Run
import IpNuma.Cores.Gmii2Fifo9
import IpNuma.Cores.GmiiFcs
import IpNuma.Ecp3.Server

/-!
# A frame over GMII

`fifo9togmii` sends what is in a FIFO, and `gmii2fifo9` writes what it receives to another one.
`log_received` says what the receiver makes of the bytes of a frame, and `wire_sent` what the sender
makes of its words, in whatever cycles they arrive, if there is a word in the FIFO in every cycle in
which the sender looks for one.
-/

namespace IpNuma

open Clocked

/-! ### The bytes of a frame -/

/-- The preamble and the start frame delimiter. -/
def gmiiPreamble : List (BitVec 8) := List.replicate 7 0x55#8 ++ [0xd5#8]

/-- A byte of a frame on GMII. -/
def octetBeat (b : BitVec 8) : GmiiBeat := ⟨true, b⟩

/-- The bytes between two frames. -/
def Idles (bs : List GmiiBeat) : Prop := ∀ b ∈ bs, b.en = false

/-- The octets `l` as a frame, with idle bytes before it and `n` behind it. -/
def CarriesOctets (l : List (BitVec 8)) (n : ℕ) (bs : List GmiiBeat) : Prop :=
  ∃ before behind, Idles before ∧ Idles behind ∧ behind.length = n ∧
    bs = before ++ ((gmiiPreamble ++ l).map octetBeat ++ behind)

/-! ### The receiver -/

namespace Gmii2Fifo9

variable {g : BitVec 4} {s : Gmii2Fifo9} {bs : List GmiiBeat} {k : ℕ}

/-- An idle byte. -/
theorem step_idle {b : GmiiBeat} (hb : b.en = false) (hk : k < 16)
    (hc : s.gapCount = BitVec.ofNat 4 k) : (s.step g b).state = .idle ∧
      (s.step g b).gapCount = BitVec.ofNat 4 (k - 1) ∧
      s.push g b = if k = 0 then [] else [Server.gapWord 0] := by
  have hzero : s.gapCount = 0 ↔ k = 0 := by
    rw [hc, ← BitVec.toNat_inj, BitVec.toNat_ofNat, Nat.mod_eq_of_lt hk]
    rfl
  have hstep : s.step g b = if k = 0 then { s with wrEn := false, state := .idle }
      else { s with
        state := .idle, rxd := 0, rxc := false, wrEn := true, gapCount := s.gapCount - 1 } := by
    unfold step
    rw [if_neg (by rw [hb]; exact Bool.false_ne_true)]
    exact if_congr hzero rfl rfl
  unfold push
  rw [hstep]
  by_cases h0 : k = 0
  · rw [if_pos h0, if_pos h0]
    exact ⟨rfl, by rw [h0]; exact hzero.2 h0, rfl⟩
  · rw [if_neg h0, if_neg h0]
    refine ⟨rfl, ?_, rfl⟩
    change s.gapCount - 1#4 = _
    rw [hc]
    apply BitVec.eq_of_toNat_eq
    simp only [BitVec.toNat_sub, BitVec.toNat_ofNat]
    omega

/-- Words of the gap are written as long as the counter runs. -/
theorem log_idles (hbs : Idles bs) (hk : k < 16) (hc : s.gapCount = BitVec.ofNat 4 k) :
    log (step g) (push g) s bs = List.replicate (min k bs.length) (Server.gapWord 0) := by
  induction bs generalizing s k with
  | nil =>
    rw [List.length_nil, Nat.min_zero]
    rfl
  | cons b bs ih =>
    obtain ⟨hb, hbs⟩ := List.forall_mem_cons.1 hbs
    obtain ⟨-, hc', hpush⟩ := step_idle (g := g) hb hk hc
    rw [log_cons, hpush, ih hbs (by omega) hc', List.length_cons]
    split_ifs with h0
    · rw [h0, Nat.zero_min, Nat.zero_min]
      rfl
    · rw [show min k (bs.length + 1) = min (k - 1) bs.length + 1 by omega, List.replicate_succ]
      rfl

/-- Before the first frame nothing is written. -/
theorem idles_before (hbs : Idles bs) (hst : s.state = .idle) (hc : s.gapCount = 0) :
    log (step g) (push g) s bs = [] ∧ (run (step g) s bs).state = .idle ∧
      (run (step g) s bs).gapCount = 0 := by
  induction bs generalizing s with
  | nil => exact ⟨rfl, hst, hc⟩
  | cons b bs ih =>
    obtain ⟨hb, hbs⟩ := List.forall_mem_cons.1 hbs
    obtain ⟨hst', hc', hpush⟩ := step_idle (g := g) hb (k := 0) (by decide) hc
    obtain ⟨hlog, hrest⟩ := ih hbs hst' hc'
    exact ⟨by rw [log_cons, hpush, hlog]; rfl, hrest⟩

/-- The preamble is skipped. -/
theorem log_preamble (hst : s.state = .idle) :
    log (step g) (push g) s (gmiiPreamble.map octetBeat) = [] ∧
      (run (step g) s (gmiiPreamble.map octetBeat)).state = .data := by
  have h55 : (0x55#8 = 0xd5#8) = False := by decide
  simp [gmiiPreamble, List.replicate, octetBeat, step, push, hst, h55]

/-- The octets are written. -/
theorem log_octets (hst : s.state = .data) (l : List (BitVec 8)) :
    log (step g) (push g) s (l.map octetBeat) = l.map Server.byteWord ∧
      (l ≠ [] → (run (step g) s (l.map octetBeat)).gapCount = g) := by
  induction l generalizing s with
  | nil => exact ⟨rfl, fun h => absurd rfl h⟩
  | cons b l ih =>
    have hstep : s.step g (octetBeat b) =
        { s with gapCount := g, rxd := b, rxc := true, wrEn := true } := by
      unfold step octetBeat
      rw [if_pos rfl, hst]
    have hpush : s.push g (octetBeat b) = [Server.byteWord b] := by
      unfold push
      rw [hstep]
      rfl
    obtain ⟨hlog, hgap⟩ := ih (s := s.step g (octetBeat b)) (by rw [hstep]; exact hst)
    refine ⟨by rw [List.map_cons, log_cons, hpush, hlog]; rfl, fun _ => ?_⟩
    rw [List.map_cons, run_cons]
    cases l with
    | nil => rw [hstep]; rfl
    | cons c l => exact hgap (List.cons_ne_nil c l)

/-- **What is received of a frame.** -/
theorem log_received {l : List (BitVec 8)} {n : ℕ} (hl : l ≠ []) (h : CarriesOctets l n bs)
    (m : Gmii2Fifo9) : log (step g) (push g) m.reset bs =
      l.map Server.byteWord ++ List.replicate (min g.toNat n) (Server.gapWord 0) := by
  obtain ⟨before, behind, hbefore, hbehind, rfl, rfl⟩ := h
  obtain ⟨hlog₁, hst₁, -⟩ := idles_before (g := g) (s := m.reset) hbefore rfl rfl
  obtain ⟨hlog₂, hst₂⟩ := log_preamble (g := g) hst₁
  obtain ⟨hlog₃, hgap⟩ := log_octets (g := g) hst₂ l
  have hcount : BitVec.ofNat 4 g.toNat = g :=
    (BitVec.ofNat_toNat 4 g).trans (BitVec.setWidth_eq g)
  have hlog₄ := log_idles (g := g) hbehind g.isLt ((hgap hl).trans hcount.symm)
  rw [List.map_append, log_append, log_append, log_append, hlog₁, hlog₂, hlog₃, run_append, hlog₄]
  rfl

end Gmii2Fifo9

/-! ### The sender -/

/-- The number of words that reach the FIFO in a cycle, and its output if it is empty. -/
structure FeedIn where
  count : ℕ
  dout : BitVec 9
  deriving DecidableEq, Inhabited

/-- The FIFO and the module that reads it, and the words that are still to arrive. -/
structure GmiiFeed where
  side : GmiiSide
  todo : List (BitVec 9)
  deriving DecidableEq, Inhabited

namespace GmiiFeed

def gmiiIn (s : GmiiFeed) (i : FeedIn) : GmiiIn := ⟨s.todo.take i.count, i.dout⟩

/-- One edge of `gmii_tx_clk`. -/
def step (s : GmiiFeed) (i : FeedIn) : GmiiFeed := ⟨s.side.step (s.gmiiIn i), s.todo.drop i.count⟩

/-- The byte that is sent at the edge. -/
def beat (s : GmiiFeed) (i : FeedIn) : List GmiiBeat :=
  [⟨(s.step i).side.tx.txEn, (s.step i).side.tx.txd⟩]

/-- After reset. -/
def start (t : Fifo9ToGmii) (ws : List (BitVec 9)) : GmiiFeed := ⟨GmiiSide.start t, ws⟩

/-- In a cycle in which the module relies on a word there is one: the second word in the first cycle
of the preamble and behind it, and the others in `STATE_DATA`. -/
def NoUnderflow (s : GmiiFeed) (_ : FeedIn) : Prop :=
  (s.side.tx.state = .pre ∧ s.side.tx.count = 0) ∨ s.side.tx.state = .sfd ∨
    s.side.tx.state = .data → s.side.fifo ≠ []

instance : DecidableRel NoUnderflow := fun s _ =>
  inferInstanceAs (Decidable ((s.side.tx.state = .pre ∧ s.side.tx.count = 0) ∨
    s.side.tx.state = .sfd ∨ s.side.tx.state = .data → s.side.fifo ≠ []))

/-- The words that have not been read. -/
def queue (s : GmiiFeed) : List (BitVec 9) := s.side.fifo ++ s.todo

variable {s : GmiiFeed} {i : FeedIn}

theorem queue_step (s : GmiiFeed) (i : FeedIn) : (s.step i).queue =
    (if s.side.tx.state = .pre then s.side.fifo else s.side.fifo.tail) ++ s.todo := by
  rw [queue, step, GmiiSide.fifo_step, gmiiIn, List.append_assoc, List.take_append_drop]

/-- In the preamble no word is read. -/
theorem queue_pre (h : s.side.tx.state = .pre) : (s.step i).queue = s.queue := by
  rw [queue_step, if_pos h]
  rfl

/-- The word that is read. -/
theorem queue_read {w : BitVec 9} {ws : List (BitVec 9)} (h : s.side.tx.state ≠ .pre)
    (hq : s.queue = w :: ws) (hf : s.side.fifo ≠ []) : (s.step i).queue = ws := by
  rw [queue_step, if_neg h]
  rw [queue] at hq
  obtain ⟨v, vs, hv⟩ := List.exists_cons_of_ne_nil hf
  rw [hv] at hq ⊢
  exact (List.cons.inj hq).2

/-- The output of the FIFO. -/
theorem dout_eq {w : BitVec 9} {ws : List (BitVec 9)} (hq : s.queue = w :: ws)
    (hf : s.side.fifo ≠ []) : s.side.dout (s.gmiiIn i) = w ∧ s.side.fifo.isEmpty = false := by
  rw [queue] at hq
  obtain ⟨v, vs, hv⟩ := List.exists_cons_of_ne_nil hf
  rw [GmiiSide.dout, hv]
  rw [hv] at hq
  exact ⟨(List.cons.inj hq).1, rfl⟩

/-- Words of the gap. -/
def gaps (n : ℕ) : List (BitVec 9) := List.replicate n (Server.gapWord 0)

/-- In a cycle without a read nothing is lost. -/
theorem queue_empty (h : s.side.tx.state ≠ .pre) (hf : s.side.fifo = []) :
    (s.step i).queue = s.queue := by
  rw [queue_step, if_neg h, queue, hf]
  rfl

section Gap

variable {g : List (BitVec 8)} {tail : List (BitVec 9)}

/-- At most one word of the gap is read. -/
theorem queue_gap (h : s.side.tx.state ≠ .pre) (hq : s.queue = g.map Server.gapWord ++ tail)
    (hg : g = [] → s.side.fifo = []) :
    ∃ g' : List (BitVec 8), (s.step i).queue = g'.map Server.gapWord ++ tail ∧
      g'.length ≤ g.length ∧ g.length ≤ g'.length + 1 := by
  by_cases hf : s.side.fifo = []
  · exact ⟨g, (queue_empty h hf).trans hq, le_rfl, Nat.le_succ _⟩
  · cases g with
    | nil => exact absurd (hg rfl) hf
    | cons d g => exact ⟨g, queue_read h hq hf, Nat.le_succ _, le_rfl⟩

/-- In the gap the FIFO shows no word with the tag 1. -/
theorem quiet_gap (hq : s.queue = g.map Server.gapWord ++ tail)
    (hg : g = [] → s.side.fifo = []) :
    s.side.fifo.isEmpty = true ∨ (s.side.dout (s.gmiiIn i)).getLsbD 8 = false := by
  by_cases hf : s.side.fifo = []
  · exact .inl (List.isEmpty_iff.2 hf)
  · right
    cases g with
    | nil => exact absurd (hg rfl) hf
    | cons d g =>
      rw [(dout_eq hq hf).1]
      exact Server.tag_gapWord d

/-- A gap with nothing behind it. -/
theorem fifo_nil_of_gap (hq : s.queue = g.map Server.gapWord) (hg : g = []) : s.side.fifo = [] := by
  rw [hg] at hq
  exact (List.append_eq_nil_iff.1 hq).1

end Gap

end GmiiFeed

/-- The bytes of the octets `l` in a frame: the preamble, the octets and the check sequence. -/
def sentOctets (l : List (BitVec 8)) : List (BitVec 8) := gmiiPreamble ++ (l ++ gmiiFcs l)

namespace GmiiFeed

variable {s : GmiiFeed} {i : FeedIn}

/-- How far the frame with the octets `l` and the gap `g` has got, if the words `tail` are behind
it: the bytes `ws` were sent before it, and the bytes `bs` are sent. -/
inductive Sends (l g : List (BitVec 8)) (tail : List (BitVec 9)) (ws : List GmiiBeat)
    (s : GmiiFeed) (bs : List GmiiBeat) : Prop
  /-- The first octet is kept, the second one is at the output of the FIFO. -/
  | pre {a b : BitVec 8} {rest : List (BitVec 8)} {k : ℕ} (hk : k < 8) (hl : l = a :: b :: rest)
      (hst : s.side.tx.state = .pre) (hc : s.side.tx.count = BitVec.ofNat 3 k)
      (hinit : k = 7 → s.side.tx.crcInitReq = true) (h1 : s.side.tx.txd1 = a)
      (h2 : k ≠ 0 → s.side.tx.txd2 = b)
      (hq : s.queue = (b :: rest).map Server.byteWord ++ (g.map Server.gapWord ++ tail))
      (hbs : bs = ws ++ (gmiiPreamble.take (k + 1)).map octetBeat) : Sends l g tail ws s bs
  | sfd {a b : BitVec 8} {rest : List (BitVec 8)} (hl : l = a :: b :: rest)
      (hst : s.side.tx.state = .sfd) (h2 : s.side.tx.txd2 = b)
      (hcrc : CrcGen.Holds s.side.tx.fall.crcReg [a])
      (hq : s.queue = (b :: rest).map Server.byteWord ++ (g.map Server.gapWord ++ tail))
      (hbs : bs = ws ++ (gmiiPreamble ++ [a]).map octetBeat) : Sends l g tail ws s bs
  | data {l₁ l₂ : List (BitVec 8)} (hl : l = l₁ ++ l₂) (hst : s.side.tx.state = .data)
      (hcrc : CrcGen.Holds s.side.tx.fall.crcReg l₁)
      (hq : s.queue = l₂.map Server.byteWord ++ (g.map Server.gapWord ++ tail))
      (hbs : bs = ws ++ (gmiiPreamble ++ l₁).map octetBeat) : Sends l g tail ws s bs
  /-- The octets and `k + 1` bytes of the FCS are sent. -/
  | fcs {g' : List (BitVec 8)} {k : ℕ} (hk : k < 3) (hst : s.side.tx.state = .fcs)
      (hc : s.side.tx.fcsCount = BitVec.ofNat 2 k) (hcrc : CrcGen.Holds s.side.tx.fall.crcReg l)
      (hq : s.queue = g'.map Server.gapWord ++ tail) (hg : g.length ≤ g'.length + (k + 1))
      (hbs : bs = ws ++ (gmiiPreamble ++ (l ++ (gmiiFcs l).take (k + 1))).map octetBeat) :
      Sends l g tail ws s bs
  /-- The frame is sent. -/
  | sent {g' : List (BitVec 8)} {behind : List GmiiBeat} (hst : s.side.tx.state = .idle)
      (hq : s.queue = g'.map Server.gapWord ++ tail)
      (hg : g.length ≤ g'.length + (behind.length + 4)) (hbehind : Idles behind)
      (hbs : bs = ws ++ ((sentOctets l).map octetBeat ++ behind)) : Sends l g tail ws s bs

section Edge

variable {l g : List (BitVec 8)} {tail : List (BitVec 9)} {ws bs : List GmiiBeat} {a b : BitVec 8}
  {rest : List (BitVec 8)}

theorem tx_step (s : GmiiFeed) (i : FeedIn) : (s.step i).side.tx =
    s.side.tx.step (s.side.dout (s.gmiiIn i)) s.side.fifo.isEmpty := rfl

theorem beat_eq (s : GmiiFeed) (i : FeedIn) : s.beat i =
    [⟨(s.step i).side.tx.txEn, (s.step i).side.tx.txd⟩] := rfl

theorem idles_concat (h : Idles bs) (d : BitVec 8) : Idles (bs ++ [⟨false, d⟩]) :=
  List.forall_mem_append.2 ⟨h, List.forall_mem_singleton.2 rfl⟩

/-- One more byte of a frame. -/
theorem concat_octet (ws : List GmiiBeat) (l : List (BitVec 8)) (b : BitVec 8) :
    ws ++ l.map octetBeat ++ [⟨true, b⟩] = ws ++ (l ++ [b]).map octetBeat := by
  rw [List.append_assoc, List.map_append]
  rfl

/-- Waiting for the first word of a frame. -/
theorem idle_step (hst : s.side.tx.state = .idle)
    (hquiet : s.side.fifo.isEmpty = true ∨ (s.side.dout (s.gmiiIn i)).getLsbD 8 = false) :
    (s.step i).side.tx.state = .idle ∧ ∃ d, s.beat i = [⟨false, d⟩] := by
  have htx := (tx_step s i).trans (Fifo9ToGmii.step_quiet hst hquiet)
  refine ⟨by rw [htx]; exact hst, s.side.tx.txd, ?_⟩
  rw [beat_eq, htx]
  rfl

/-- The first octet is there. -/
theorem sends_start (hst : s.side.tx.state = .idle)
    (hq : s.queue = (a :: b :: rest).map Server.byteWord ++ (g.map Server.gapWord ++ tail))
    (hf : s.side.fifo ≠ []) : Sends (a :: b :: rest) g tail ws (s.step i) (ws ++ s.beat i) := by
  have hne : s.side.tx.state ≠ .pre := by rw [hst]; decide
  obtain ⟨hdout, hempty⟩ := dout_eq (i := i) hq hf
  have htx := tx_step s i
  rw [hdout, hempty, Fifo9ToGmii.step_start hst (Server.tag_byteWord a),
    Server.octet_byteWord] at htx
  refine .pre (k := 0) (by decide) rfl (by rw [htx]) (by rw [htx]; rfl)
    (fun h => absurd h (by decide)) (by rw [htx]) (fun h => absurd rfl h) (queue_read hne hq hf) ?_
  rw [beat_eq, htx]
  rfl

/-- A byte of the preamble, or the first octet behind it. -/
theorem sends_pre {k : ℕ} (hk : k < 8) (hst : s.side.tx.state = .pre)
    (hc : s.side.tx.count = BitVec.ofNat 3 k) (hinit : k = 7 → s.side.tx.crcInitReq = true)
    (h1 : s.side.tx.txd1 = a) (h2 : k ≠ 0 → s.side.tx.txd2 = b)
    (hq : s.queue = (b :: rest).map Server.byteWord ++ (g.map Server.gapWord ++ tail))
    (hno : s.NoUnderflow i) : Sends (a :: b :: rest) g tail ws (s.step i)
      (ws ++ (gmiiPreamble.take (k + 1)).map octetBeat ++ s.beat i) := by
  have htx := tx_step s i
  rw [Fifo9ToGmii.step_pre hst hc hk] at htx
  have h2' : (s.step i).side.tx.txd2 = b := by
    rw [htx]
    change (if k = 0 then _ else _) = _
    split_ifs with h0
    · have hf : s.side.fifo ≠ [] := hno (.inl ⟨hst, by rw [hc, h0]; rfl⟩)
      rw [(dout_eq hq hf).1]
      exact Server.octet_byteWord b
    · exact h2 h0
  have hq' : (s.step i).queue = (b :: rest).map Server.byteWord ++ (g.map Server.gapWord ++ tail) :=
    (queue_pre hst).trans hq
  rw [beat_eq, htx, concat_octet]
  by_cases h7 : k = 7
  · subst h7
    -- the register is initialised while the delimiter is sent, and the first octet is taken in
    have hreg : s.side.tx.fall.crcReg = BitVec.allOnes 32 := if_pos (hinit rfl)
    have hcrc : CrcGen.Holds (s.step i).side.tx.fall.crcReg [a] := by
      rw [htx, ← h1]
      change CrcGen.Holds (CrcGen.nextCRC s.side.tx.txd1 s.side.tx.fall.crcReg) _
      rw [hreg]
      exact CrcGen.holds_init.next _
    refine .sfd rfl (by rw [htx]; rfl) h2' hcrc hq' ?_
    rw [h1]
    rfl
  · refine .pre (k := k + 1) (by omega) rfl ?_ (by rw [htx]) (fun h => ?_)
      (by rw [htx]; exact h1) (fun _ => h2') hq' ?_
    · rw [htx]
      exact if_neg h7
    · rw [htx]
      exact decide_eq_true (by omega)
    · have hbyte : gmiiPreamble.take (k + 1) ++
          [if k = 6 then 0xd5#8 else if k = 7 then s.side.tx.txd1 else 0x55#8] =
            gmiiPreamble.take (k + 1 + 1) := by
        interval_cases k <;> first | rfl | exact absurd rfl h7
      rw [hbyte]

/-- The second octet. -/
theorem sends_sfd (hst : s.side.tx.state = .sfd) (h2 : s.side.tx.txd2 = b)
    (hcrc : CrcGen.Holds s.side.tx.fall.crcReg [a])
    (hq : s.queue = (b :: rest).map Server.byteWord ++ (g.map Server.gapWord ++ tail))
    (hno : s.NoUnderflow i) : Sends (a :: b :: rest) g tail ws (s.step i)
      (ws ++ (gmiiPreamble ++ [a]).map octetBeat ++ s.beat i) := by
  have hf : s.side.fifo ≠ [] := hno (.inr (.inl hst))
  have htx := tx_step s i
  rw [Fifo9ToGmii.step_sfd hst] at htx
  have hsplit : a :: b :: rest = [a, b] ++ rest := rfl
  refine .data hsplit (by rw [htx]) ?_ (queue_read (by rw [hst]; decide) hq hf) ?_
  · rw [htx, ← h2]
    exact hcrc.next _
  · rw [beat_eq, htx, h2, concat_octet]
    rfl

/-- A later octet, or the first byte of the FCS. -/
theorem sends_data {l₁ l₂ : List (BitVec 8)} (hg : g ≠ []) (hst : s.side.tx.state = .data)
    (hcrc : CrcGen.Holds s.side.tx.fall.crcReg l₁)
    (hq : s.queue = l₂.map Server.byteWord ++ (g.map Server.gapWord ++ tail))
    (hno : s.NoUnderflow i) : Sends (l₁ ++ l₂) g tail ws (s.step i)
      (ws ++ (gmiiPreamble ++ l₁).map octetBeat ++ s.beat i) := by
  have hf : s.side.fifo ≠ [] := hno (.inr (.inr hst))
  have hne : s.side.tx.state ≠ .pre := by rw [hst]; decide
  have htx := tx_step s i
  cases l₂ with
  | nil =>
    obtain ⟨d, g', rfl⟩ := List.exists_cons_of_ne_nil hg
    have hq' : s.queue = Server.gapWord d :: (g'.map Server.gapWord ++ tail) := hq
    obtain ⟨hdout, hempty⟩ := dout_eq (i := i) hq' hf
    rw [hdout, hempty, Fifo9ToGmii.step_end hst (Server.tag_gapWord d)] at htx
    have hfcs := hcrc.crcOut (k := 0) (by decide)
    rw [List.append_nil]
    refine .fcs (by decide) (by rw [htx]) (by rw [htx]; rfl) (by rw [htx]; exact hcrc)
      (queue_read hne hq' hf) le_rfl ?_
    rw [beat_eq, htx, concat_octet, hfcs, List.append_assoc]
    rfl
  | cons c l₂ =>
    have hq' : s.queue =
        Server.byteWord c :: (l₂.map Server.byteWord ++ (g.map Server.gapWord ++ tail)) := hq
    obtain ⟨hdout, hempty⟩ := dout_eq (i := i) hq' hf
    rw [hdout, hempty, Fifo9ToGmii.step_data hst (Server.tag_byteWord c),
      Server.octet_byteWord] at htx
    refine .data (List.append_cons l₁ c l₂) ?_ ?_ (queue_read hne hq' hf) ?_
    · rw [htx]
      exact hst
    · rw [htx]
      exact hcrc.next c
    · rw [beat_eq, htx, concat_octet, List.append_assoc]

/-- The other bytes of the FCS.  The gap is not used up, or there is nothing behind it. -/
theorem sends_fcs {g' : List (BitVec 8)} {k : ℕ} (hroom : 5 ≤ g.length ∨ tail = []) (hk : k < 3)
    (hst : s.side.tx.state = .fcs) (hc : s.side.tx.fcsCount = BitVec.ofNat 2 k)
    (hcrc : CrcGen.Holds s.side.tx.fall.crcReg l) (hq : s.queue = g'.map Server.gapWord ++ tail)
    (hg : g.length ≤ g'.length + (k + 1)) : Sends l g tail ws (s.step i)
      (ws ++ (gmiiPreamble ++ (l ++ (gmiiFcs l).take (k + 1))).map octetBeat ++ s.beat i) := by
  have hne : s.side.tx.state ≠ .pre := by rw [hst]; decide
  have hempty : g' = [] → s.side.fifo = [] := by
    rintro rfl
    rcases hroom with h5 | rfl
    · rw [List.length_nil] at hg
      omega
    · exact fifo_nil_of_gap (hq.trans (List.append_nil _)) rfl
  obtain ⟨g₂, hq₂, -, hg₂⟩ := queue_gap (i := i) hne hq hempty
  have htx := tx_step s i
  rw [Fifo9ToGmii.step_fcs hst hc hk] at htx
  have hfcs := hcrc.crcOut (k := k + 1) (by omega)
  rw [show 3 - (k + 1) = 2 - k by omega] at hfcs
  rw [beat_eq, htx, concat_octet, List.append_assoc, List.append_assoc]
  change Sends l g tail ws (s.step i) (ws ++ (gmiiPreamble ++ (l ++ ((gmiiFcs l).take (k + 1) ++
    [octet (CrcGen.crcOut s.side.tx.fall.crcReg) (2 - k)]))).map octetBeat)
  rw [← hfcs]
  by_cases h2 : k = 2
  · have hnone : Idles [] := List.forall_mem_nil _
    refine .sent ?_ hq₂ (by rw [List.length_nil]; omega) hnone ?_
    · rw [htx]
      exact if_pos h2
    · rw [h2, List.append_nil]
      rfl
  · refine .fcs (k := k + 1) (by omega) ?_ (by rw [htx]) ?_ hq₂ (by omega) rfl
    · rw [htx]
      exact if_neg h2
    · rw [htx]
      exact hcrc

/-- Behind the frame, before the next one. -/
theorem sends_sent {g' : List (BitVec 8)} {behind : List GmiiBeat}
    (hst : s.side.tx.state = .idle) (hq : s.queue = g'.map Server.gapWord ++ tail)
    (hg : g.length ≤ g'.length + (behind.length + 4)) (hbehind : Idles behind)
    (hempty : g' = [] → s.side.fifo = []) : Sends l g tail ws (s.step i)
      (ws ++ ((sentOctets l).map octetBeat ++ behind) ++ s.beat i) := by
  have hne : s.side.tx.state ≠ .pre := by rw [hst]; decide
  obtain ⟨g₂, hq₂, -, hg₂⟩ := queue_gap (i := i) hne hq hempty
  obtain ⟨hst', d, hbeat⟩ := idle_step hst (quiet_gap (i := i) hq hempty)
  refine .sent hst' hq₂ ?_ (idles_concat hbehind d) ?_
  · rw [List.length_append, List.length_singleton]
    omega
  · rw [hbeat]
    simp only [List.append_assoc]

/-- **One edge**, if no other frame starts. -/
theorem sends_step (hg : g ≠ []) (hroom : 5 ≤ g.length ∨ tail = []) (h : Sends l g tail ws s bs)
    (hno : s.NoUnderflow i)
    (hlast : s.side.tx.state = .idle → s.queue = tail → s.side.fifo = []) :
    Sends l g tail ws (s.step i) (bs ++ s.beat i) := by
  cases h with
  | pre hk hl hst hc hinit h1 h2 hq hbs =>
    subst hl hbs
    exact sends_pre hk hst hc hinit h1 h2 hq hno
  | sfd hl hst h2 hcrc hq hbs =>
    subst hl hbs
    exact sends_sfd hst h2 hcrc hq hno
  | data hl hst hcrc hq hbs =>
    subst hl hbs
    exact sends_data hg hst hcrc hq hno
  | fcs hk hst hc hcrc hq hg hbs =>
    subst hbs
    exact sends_fcs hroom hk hst hc hcrc hq hg
  | sent hst hq hg hbehind hbs =>
    subst hbs
    exact sends_sent hst hq hg hbehind fun hnil => hlast hst (by rw [hq, hnil]; rfl)

/-- Between two frames. -/
theorem sent_of_idle (h : Sends l g tail ws s bs) (hst : s.side.tx.state = .idle) :
    ∃ (g' : List (BitVec 8)) (behind : List GmiiBeat), s.queue = g'.map Server.gapWord ++ tail ∧
      g.length ≤ g'.length + (behind.length + 4) ∧ Idles behind ∧
      bs = ws ++ ((sentOctets l).map octetBeat ++ behind) := by
  cases h with
  | pre _ _ h => exact absurd (h.symm.trans hst) (by decide)
  | sfd _ h => exact absurd (h.symm.trans hst) (by decide)
  | data _ h => exact absurd (h.symm.trans hst) (by decide)
  | fcs _ h => exact absurd (h.symm.trans hst) (by decide)
  | sent _ hq hg hbehind hbs => exact ⟨_, _, hq, hg, hbehind, hbs⟩

/-- **What is sent of a frame** of octets and words of gap, when all of them have been read. -/
theorem wire_sent {g : ℕ} (t : Fifo9ToGmii) (hl : 2 ≤ l.length) (hg : 1 ≤ g) {is : List FeedIn}
    (h : Along step NoUnderflow (start t (l.map Server.byteWord ++ gaps g)) is)
    (hidle : (run step (start t (l.map Server.byteWord ++ gaps g)) is).side.tx.state = .idle)
    (hend : (run step (start t (l.map Server.byteWord ++ gaps g)) is).queue = []) :
    ∃ fs n, fs.length = 4 ∧ g ≤ n + 4 ∧
      CarriesOctets (l ++ fs) n (log step beat (start t (l.map Server.byteWord ++ gaps g)) is) := by
  obtain ⟨a, l, rfl⟩ := List.exists_cons_of_length_pos (Nat.lt_of_lt_of_le Nat.zero_lt_two hl)
  obtain ⟨b, l, rfl⟩ := List.exists_cons_of_length_pos (Nat.lt_of_succ_lt_succ hl)
  have hgaps : gaps g = (List.replicate g 0#8).map Server.gapWord ++ [] := by
    rw [List.append_nil, List.map_replicate]
    rfl
  have hne : List.replicate g 0#8 ≠ [] := by
    apply List.ne_nil_of_length_pos
    rw [List.length_replicate]
    omega
  -- the frame has not started, or it has got somewhere behind idle bytes
  have hinv := @log_induction _ _ _ step beat NoUnderflow (fun s bs =>
      (s.side.tx.state = .idle ∧ s.queue = (a :: b :: l).map Server.byteWord ++ gaps g ∧ Idles bs) ∨
        ∃ ws, Idles ws ∧ Sends (a :: b :: l) (List.replicate g 0#8) [] ws s bs)
    _ (.inl ⟨rfl, rfl, List.forall_mem_nil _⟩) (fun s i bs hs hno => ?_) is h
  · revert hinv hidle hend
    generalize run step (start t ((a :: b :: l).map Server.byteWord ++ gaps g)) is = s
    intro hidle hend hinv
    rcases hinv with ⟨-, hq, -⟩ | ⟨ws, hws, hsends⟩
    · exact absurd (hq.symm.trans hend) (by simp)
    · obtain ⟨g', behind, hq, hlen, hbehind, hbs⟩ := sent_of_idle hsends hidle
      have hnil : g' = [] := List.map_eq_nil_iff.1 (List.append_eq_nil_iff.1 (hq.symm.trans hend)).1
      rw [hnil, List.length_replicate, List.length_nil] at hlen
      exact ⟨gmiiFcs (a :: b :: l), behind.length, length_gmiiFcs _, by omega, ws, behind, hws,
        hbehind, rfl, hbs⟩
  · rcases hs with ⟨hst, hq, hbs⟩ | ⟨ws, hws, hsends⟩
    · by_cases hf : s.side.fifo = []
      · obtain ⟨hst', d, hbeat⟩ := idle_step (i := i) hst (.inl (List.isEmpty_iff.2 hf))
        refine .inl ⟨hst', (queue_empty (by rw [hst]; decide) hf).trans hq, ?_⟩
        rw [hbeat]
        exact idles_concat hbs d
      · exact .inr ⟨bs, hbs, sends_start hst (hgaps ▸ hq) hf⟩
    · refine .inr ⟨ws, hws, sends_step hne (.inr rfl) hsends hno fun _ hq => ?_⟩
      exact (List.append_eq_nil_iff.1 hq).1

end Edge

end GmiiFeed

end IpNuma
