import IpNuma.Kc705.Reframing

/-!
# `XGMII_RX_ENGINE`: what comes from a frame

The whole block, with the words on its XGMII port and `s_axis_tx_ack` as inputs, and the edges of
`xgmii_clk` and `clk` in any order.  `Watch` adds an observer of the port: `frame` counts the frames
for which the receiver has left `RX_IDLE`, and `ended` says that the terminate character of the last
of them, or another start character, has been on the lanes.  `written` is the frame for which `tlp1`
was last written, `sampled` the frame of the last pulse sampled into `prev_xgmii_end` and `serving`
the frame whose pulse `ORF` has noticed.

A `Dword` is a word of a TLP with its frame and its place.  `heard` has those that came in as four
data characters of their frame, `sent` those that go out on port 2, and `sent_subset_heard` says
when `sent` has no others: `Kept` is a condition on the edges of both clocks.
-/

namespace IpNuma

open Clocked

namespace XgmiiWord

/-- A terminate character in lane `k`, or the start character of the next frame. -/
def endsIn (w : XgmiiWord) (k : ℕ) : Bool :=
  w.c.getLsbD k && (octet w.d k == 0xfd#8 || octet w.d k == 0xfb#8)

/-- Half `h` of the word is four data characters, and no frame ends in the word before it. -/
def isData (w : XgmiiWord) (h : ℕ) : Bool :=
  !(List.range (4 * h)).any w.endsIn && w.c.extractLsb' (4 * h) 4 == 0

/-- Half `h` of the word. -/
def half (w : XgmiiWord) (h : ℕ) : BitVec 32 := w.d.extractLsb' (32 * h) 32

end XgmiiWord

/-- The registers on both clocks. -/
structure RxEngine where
  rx : RxSide
  cnt : PktCount
  orf : Orf
  deriving DecidableEq

/-- An edge of `xgmii_clk` with the word on the port, or of `clk`. -/
inductive RxEdge
  | xgmii (w : XgmiiWord)
  | clk (ack : Bool)
  deriving DecidableEq

namespace RxEngine

/-- After edges of both clocks with `sys_rst` high. -/
def start (o : Orf) : RxEngine := ⟨RxSide.reset, PktCount.reset, o.reset⟩

/-- One edge with `sys_rst` low. -/
def step (s : RxEngine) : RxEdge → RxEngine
  | .xgmii w => { s with rx := s.rx.step w }
  | .clk ack => { s with
      cnt := s.cnt.step s.rx.tlpFrameEnd
      orf := s.orf.step s.cnt.frameSeen ack s.rx.tlp1 s.rx.tlp2 s.rx.tlp3 }

/-- The beat put on port 2 at an edge. -/
def port2 (s : RxEngine) : RxEdge → List Beat
  | .xgmii _ => []
  | .clk ack => s.orf.loads s.cnt.frameSeen ack s.rx.tlp1 s.rx.tlp2 s.rx.tlp3

end RxEngine

/-! ### The engine on the board -/

namespace Crossing

/-- The engine behind the aligner, with the multiplexer's `ack2`. -/
def engine (s : Crossing) : RxEngine := ⟨s.rx.rx, s.ports.cnt, s.ports.orf⟩

/-- What an edge is for the engine. -/
def engineEdge (s : Crossing) : Edge → RxEdge
  | .xgmii _ => .xgmii s.rx.sync.out
  | .clk _ _ => .clk s.ports.mux.ack2

theorem engine_step (s : Crossing) (e : Edge) :
    (s.step e).engine = s.engine.step (s.engineEdge e) ∧
      s.port2 e = s.engine.port2 (s.engineEdge e) := by
  cases e with
  | xgmii w => exact ⟨rfl, rfl⟩
  | clk tready cpl => exact ⟨rfl, rfl⟩

/-- The edges of a run as the engine sees them. -/
def engineEdges (s : Crossing) (es : List Edge) : List RxEdge :=
  log step (fun s e => [s.engineEdge e]) s es

/-- **The board's engine** is the engine with these edges. -/
theorem engine_run (s : Crossing) (es : List Edge) :
    (run step s es).engine = run RxEngine.step s.engine (s.engineEdges es) ∧
      log step port2 s es = log RxEngine.step RxEngine.port2 s.engine (s.engineEdges es) := by
  induction es generalizing s with
  | nil => exact ⟨rfl, rfl⟩
  | cons e es ih =>
    obtain ⟨h1, h2⟩ := engine_step s e
    obtain ⟨ih1, ih2⟩ := ih (s.step e)
    rw [run_cons, log_cons, ih1, ih2, h1, h2]
    exact ⟨rfl, rfl⟩

end Crossing

/-! ### The observer -/

/-- The words `ORF` sends for a first word: by its length, but not more than six. -/
def Orf.wanted (len : BitVec 10) : ℕ :=
  if len = 1023#10 then 3 else if len = 0 then 4 else if len = 1 then 5 else 6

/-- Word `k` of the TLP in the registers. -/
def RxSide.dword (r : RxSide) (k : ℕ) : BitVec 32 :=
  (if k < 2 then r.tlp1 else if k < 4 then r.tlp2 else r.tlp3).extractLsb' (32 * (k % 2)) 32

/-- Word `place` of the TLP of a frame. -/
structure Dword where
  frame : ℕ
  place : ℕ
  value : BitVec 32
  deriving DecidableEq

/-- The engine and its observer. -/
structure Watch where
  engine : RxEngine
  frame : ℕ
  ended : Bool
  written : ℕ
  sampled : ℕ
  serving : ℕ
  deriving DecidableEq

namespace Watch

def start (o : Orf) : Watch := ⟨RxEngine.start o, 0, true, 0, 0, 0⟩

/-- The receiver leaves `RX_IDLE`. -/
def begins (s : Watch) (w : XgmiiWord) : Bool := s.engine.rx.state == .idle && startIn w 0

/-- One edge. -/
def step (s : Watch) (e : RxEdge) : Watch :=
  let u := { s with engine := s.engine.step e }
  match e with
  | .xgmii w =>
    if s.begins w then { u with frame := s.frame + 1, ended := (List.range' 1 7).any w.endsIn }
    else { u with
      ended := s.ended || (List.range 8).any w.endsIn
      written := if s.engine.rx.state = .tlp1 then s.frame else s.written }
  | .clk _ => { u with
      sampled := if s.engine.rx.tlpFrameEnd then s.frame else s.sampled
      serving :=
        if s.engine.orf.state = .idle ∧ s.engine.cnt.frameSeen then s.sampled else s.serving }

/-- Half `h` of the word is four data characters of the frame. -/
def hears (s : Watch) (w : XgmiiWord) (h : ℕ) : Bool := !s.ended && w.isData h

/-- What comes in as words `2 * i` and `2 * i + 1` of the TLP. -/
def heardAt (s : Watch) (w : XgmiiWord) (i : ℕ) : List Dword :=
  (if s.hears w 0 then [⟨s.frame, 2 * i, w.half 0⟩] else []) ++
    if s.hears w 1 then [⟨s.frame, 2 * i + 1, w.half 1⟩] else []

/-- The words of a TLP that come in at an edge. -/
def heard (s : Watch) : RxEdge → List Dword
  | .xgmii w =>
    match s.engine.rx.state with
    | .tlp1 => s.heardAt w 0
    | .tlp2 => s.heardAt w 1
    | .tlp3 => s.heardAt w 2
    | _ => []
  | .clk _ => []

/-- The words that go out on port 2 at an edge. -/
def sent (s : Watch) (e : RxEdge) : List Dword :=
  let place :=
    match s.engine.orf.state with
    | .tlp2 => 2
    | .tlp3 => 4
    | _ => 0
  (((s.engine.port2 e).flatMap Beat.dws).zipIdx place).map fun v => ⟨s.serving, v.2, v.1⟩

/-- `prev_xgmii_end`. -/
def prev (s : Watch) : BitVec 4 := s.engine.cnt.prevXgmiiEnd

/-- The condition on an edge of `xgmii_clk`: a word that will be sent comes in as data of its frame,
and `ORF` has not still to read the register for another. -/
structure Keeps (s : Watch) (w : XgmiiWord) : Prop where
  tlp1 : s.engine.rx.state = .tlp1 → s.hears w 0 = true ∧ s.hears w 1 = true ∧
    s.engine.orf.state ≠ .ack ∧ s.engine.orf.state ≠ .tlp1
  tlp2 : s.engine.rx.state = .tlp2 → s.hears w 0 = true ∧
    (4 ≤ Orf.wanted (Orf.tlpLen s.engine.rx.tlp1) → s.hears w 1 = true) ∧
    (s.engine.orf.state = .idle ∨ s.engine.orf.state = .tlp3)
  tlp3 : s.engine.rx.state = .tlp3 →
    (5 ≤ Orf.wanted (Orf.tlpLen s.engine.rx.tlp1) → s.hears w 0 = true) ∧
    (6 ≤ Orf.wanted (Orf.tlpLen s.engine.rx.tlp1) → s.hears w 1 = true) ∧
    (s.engine.orf.state = .idle ∨ s.engine.orf.state = .tlp2 ∧ Orf.Short s.engine.orf.len)

/-- The condition on an edge: of `clk`, that a frame whose pulse `ORF` notices is still in the
registers. -/
def Kept (s : Watch) : RxEdge → Prop
  | .xgmii w => s.Keeps w
  | .clk _ => s.engine.orf.state = .idle → s.engine.cnt.frameSeen = true → s.written = s.sampled

instance (s : Watch) (w : XgmiiWord) : Decidable (s.Keeps w) :=
  decidable_of_iff (_ ∧ _ ∧ _) ⟨fun h => ⟨h.1, h.2.1, h.2.2⟩, fun h => ⟨h.tlp1, h.tlp2, h.tlp3⟩⟩

instance (s : Watch) (e : RxEdge) : Decidable (s.Kept e) := by
  unfold Kept
  cases e <;> infer_instance

/-! ### What the registers hold -/

/-- Words `a` to `b - 1` of the registers are in `H` as words of frame `n`. -/
def Holds (r : RxSide) (H : List Dword) (a b n : ℕ) : Prop :=
  ∀ k, a ≤ k → k < b → ⟨n, k, r.dword k⟩ ∈ H

theorem Holds.mono {r q : RxSide} {H H' : List Dword} {a b a' b' n : ℕ} (h : Holds r H a b n)
    (hH : H ⊆ H') (ha : a ≤ a') (hb : b' ≤ b)
    (hr : ∀ k, a' ≤ k → k < b' → q.dword k = r.dword k) : Holds q H' a' b' n := by
  intro k h1 h2
  rw [hr k h1 h2]
  exact hH (h k (ha.trans h1) (h2.trans_le hb))

theorem Holds.append {r : RxSide} {H : List Dword} {a b c n : ℕ} (h : Holds r H a (min b c) n)
    (h' : Holds r H b c n) : Holds r H a c n := by
  intro k hk hkc
  by_cases hkb : k < b
  · exact h k hk (lt_min hkb hkc)
  · exact h' k (not_lt.1 hkb) hkc

/-- The invariant: `S` has no words that are not in `H`, and no others are still to be sent. -/
structure Inv (s : Watch) (H S : List Dword) : Prop where
  sub : S ⊆ H
  second : s.engine.rx.state = .tlp2 → Holds s.engine.rx H 0 2 s.frame
  third : s.engine.rx.state = .tlp3 →
    Holds s.engine.rx H 0 (min 4 (Orf.wanted (Orf.tlpLen s.engine.rx.tlp1))) s.frame
  pulse : s.engine.rx.tlpFrameEnd = true → s.engine.rx.state = .idle ∧
    Holds s.engine.rx H 0 (Orf.wanted (Orf.tlpLen s.engine.rx.tlp1)) s.frame
  before : s.sampled ≤ s.frame ∧ (s.engine.rx.state ≠ .idle → s.sampled < s.frame)
  written : s.engine.rx.state = .tlp2 ∨ s.engine.rx.state = .tlp3 → s.written = s.frame
  prev : s.prev ≠ 0 → s.written = s.sampled →
    Holds s.engine.rx H 0 (Orf.wanted (Orf.tlpLen s.engine.rx.tlp1)) s.sampled
  asked : s.engine.orf.state = .ack ∨ s.engine.orf.state = .tlp1 →
    Holds s.engine.rx H 0 (Orf.wanted (Orf.tlpLen s.engine.rx.tlp1)) s.serving
  rest : s.engine.orf.state = .tlp2 →
    Holds s.engine.rx H 2 (Orf.wanted s.engine.orf.len) s.serving
  last : s.engine.orf.state = .tlp3 →
    Holds s.engine.rx H 4 (if s.engine.orf.len = 1023#10 then 5 else 6) s.serving

theorem inv_start (o : Orf) : (start o).Inv [] [] where
  sub := List.Subset.refl _
  second h := by cases h
  third h := by cases h
  pulse h := by cases h
  before := ⟨le_rfl, fun h => absurd rfl h⟩
  written h := by rcases h with h | h <;> cases h
  prev h := absurd rfl h
  asked h := by rcases h with h | h <;> cases h
  rest h := by cases h
  last h := by cases h

/-! ### An edge of `clk` -/

section Clk

variable {s : Watch} {ack : Bool}

theorem sent_of_not_tlp (h1 : s.engine.orf.state ≠ .tlp1) (h2 : s.engine.orf.state ≠ .tlp2)
    (h3 : s.engine.orf.state ≠ .tlp3) : s.sent (.clk ack) = [] := by
  simp [sent, RxEngine.port2, Orf.loads, h1, h2, h3]

theorem sent_tlp1 (h : s.engine.orf.state = .tlp1) : s.sent (.clk ack) =
    [⟨s.serving, 0, s.engine.rx.dword 0⟩, ⟨s.serving, 1, s.engine.rx.dword 1⟩] := by
  simp [sent, RxEngine.port2, Orf.loads, Orf.step, h, Axis.beat, Beat.dws, RxSide.dword]

/-- The words of the second and of the third beat. -/
theorem dws_beatOf (tdata : BitVec 64) (len : BitVec 10) : (Orf.beatOf tdata len).beat.dws =
    tdata.extractLsb' 0 32 :: if len = 1023#10 then [] else [tdata.extractLsb' 32 32] := by
  unfold Orf.beatOf
  split_ifs <;> simp_all [Axis.beat, Beat.dws]

theorem sent_tlp2 (h : s.engine.orf.state = .tlp2) : s.sent (.clk ack) =
    ⟨s.serving, 2, s.engine.rx.dword 2⟩ ::
      if s.engine.orf.len = 1023#10 then [] else [⟨s.serving, 3, s.engine.rx.dword 3⟩] := by
  simp only [sent, RxEngine.port2, Orf.loads, Orf.step, h]
  split_ifs <;> simp_all [dws_beatOf, RxSide.dword]

theorem sent_tlp3 (h : s.engine.orf.state = .tlp3) : s.sent (.clk ack) =
    ⟨s.serving, 4, s.engine.rx.dword 4⟩ ::
      if s.engine.orf.len = 1023#10 then [] else [⟨s.serving, 5, s.engine.rx.dword 5⟩] := by
  simp only [sent, RxEngine.port2, Orf.loads, Orf.step, h]
  split_ifs <;> simp_all [dws_beatOf, RxSide.dword]

theorem three_le_wanted (len : BitVec 10) : 3 ≤ Orf.wanted len := by
  unfold Orf.wanted
  split_ifs <;> decide

theorem four_le_wanted {len : BitVec 10} (h : len ≠ 1023#10) : 4 ≤ Orf.wanted len := by
  unfold Orf.wanted
  rw [if_neg h]
  split_ifs <;> decide

theorem wanted_le_six (len : BitVec 10) : Orf.wanted len ≤ 6 := by
  unfold Orf.wanted
  split_ifs <;> decide

theorem wanted_of_short {len : BitVec 10} (h : Orf.Short len) : Orf.wanted len ≤ 4 := by
  rcases h with rfl | rfl <;> decide

/-- Behind the second beat one or two words are left. -/
theorem wanted_of_not_short {len : BitVec 10} (h : ¬ Orf.Short len) :
    Orf.wanted len = if len - 2#10 = 1023#10 then 5 else 6 := by
  have h2 : len - 2#10 = 1023#10 ↔ len = 1 := by
    constructor
    · intro h
      rw [← BitVec.sub_add_cancel len 2#10, h]
      rfl
    · rintro rfl
      rfl
  unfold Orf.wanted
  rw [if_neg fun h1 => h (Or.inr h1), if_neg fun h0 => h (Or.inl h0)]
  simp only [h2]

/-- What goes out has come in. -/
theorem sent_subset {H S : List Dword} (h : s.Inv H S) (ack : Bool) : s.sent (.clk ack) ⊆ H := by
  cases ho : s.engine.orf.state with
  | idle | ack =>
    rw [sent_of_not_tlp (by simp [ho]) (by simp [ho]) (by simp [ho])]
    exact List.nil_subset _
  | tlp1 =>
    have hall := h.asked (Or.inr ho)
    have h3 := three_le_wanted (Orf.tlpLen s.engine.rx.tlp1)
    rw [sent_tlp1 ho, List.cons_subset, List.cons_subset]
    exact ⟨hall 0 (by omega) (by omega), hall 1 (by omega) (by omega), List.nil_subset _⟩
  | tlp2 =>
    have hall := h.rest ho
    have h3 := three_le_wanted s.engine.orf.len
    rw [sent_tlp2 ho, List.cons_subset]
    refine ⟨hall 2 le_rfl (by omega), ?_⟩
    split_ifs with hl
    · exact List.nil_subset _
    · have h4 := four_le_wanted hl
      rw [List.cons_subset]
      exact ⟨hall 3 (by omega) (by omega), List.nil_subset _⟩
  | tlp3 =>
    have hall := h.last ho
    rw [sent_tlp3 ho, List.cons_subset]
    split_ifs at hall ⊢ with hl
    · exact ⟨hall 4 le_rfl (by omega), List.nil_subset _⟩
    · rw [List.cons_subset]
      exact ⟨hall 4 le_rfl (by omega), hall 5 (by omega) (by omega), List.nil_subset _⟩

section After

variable {o : Orf} {frameSeen : Bool} {tlp1 tlp2 tlp3 : BitVec 64}

theorem asked_after (h : (o.step frameSeen ack tlp1 tlp2 tlp3).state = .ack ∨
    (o.step frameSeen ack tlp1 tlp2 tlp3).state = .tlp1) :
    o.state = .idle ∧ frameSeen = true ∨ o.state = .ack := by
  cases hs : o.state with
  | idle =>
    simp only [Orf.step, hs] at h
    split_ifs at h with hf
    · exact .inl ⟨rfl, hf⟩
    · simp at h
  | ack => exact .inr rfl
  | tlp1 | tlp3 => simp [Orf.step, hs] at h
  | tlp2 =>
    simp only [Orf.step, hs] at h
    split_ifs at h <;> simp at h

theorem rest_after (h : (o.step frameSeen ack tlp1 tlp2 tlp3).state = .tlp2) :
    o.state = .tlp1 ∧ (o.step frameSeen ack tlp1 tlp2 tlp3).len = Orf.tlpLen tlp1 := by
  cases hs : o.state with
  | tlp1 => exact ⟨rfl, by simp only [Orf.step, hs]⟩
  | idle | ack | tlp2 =>
    simp only [Orf.step, hs] at h
    split_ifs at h
  | tlp3 => simp [Orf.step, hs] at h

theorem last_after (h : (o.step frameSeen ack tlp1 tlp2 tlp3).state = .tlp3) :
    o.state = .tlp2 ∧ ¬ Orf.Short o.len ∧
      (o.step frameSeen ack tlp1 tlp2 tlp3).len = o.len - 2#10 := by
  cases hs : o.state with
  | tlp2 =>
    simp only [Orf.step, hs] at h ⊢
    split_ifs at h with hshort
    exact ⟨trivial, hshort, trivial⟩
  | idle | ack =>
    simp only [Orf.step, hs] at h
    split_ifs at h
  | tlp1 | tlp3 => simp [Orf.step, hs] at h

end After

theorem clk_serving (h : s.engine.orf.state ≠ .idle) :
    (s.step (.clk ack)).serving = s.serving := if_neg fun hidle => h hidle.1

/-- **An edge of `clk`** keeps the invariant. -/
theorem inv_clk {H S : List Dword} (h : s.Inv H S) (hk : s.Kept (.clk ack)) :
    (s.step (.clk ack)).Inv H (S ++ s.sent (.clk ack)) where
  sub := List.append_subset.2 ⟨h.sub, sent_subset h ack⟩
  second := h.second
  third := h.third
  pulse := h.pulse
  before := by
    simp only [step]
    split_ifs with hend
    · exact ⟨le_rfl, fun hbusy => absurd (h.pulse hend).1 hbusy⟩
    · exact h.before
  written := h.written
  prev hp hw := by
    simp only [step] at hw ⊢
    split_ifs at hw ⊢ with hend
    · exact (h.pulse hend).2
    · refine h.prev (fun h0 => hp ?_) hw
      simp only [Bool.not_eq_true] at hend
      simp only [prev] at h0
      simp [prev, step, RxEngine.step, PktCount.step, hend, h0]
  asked ho := by
    rcases asked_after ho with ⟨hs, hf⟩ | hs
    · rw [show (s.step (.clk ack)).serving = s.sampled from if_pos ⟨hs, hf⟩]
      refine h.prev (fun h0 => ?_) (hk hs hf)
      simp [PktCount.frameSeen, show s.engine.cnt.prevXgmiiEnd = 0 from h0] at hf
    · rw [clk_serving (by simp [hs])]
      exact h.asked (Or.inl hs)
  rest ho := by
    obtain ⟨hs, hlen⟩ := rest_after ho
    rw [clk_serving (by simp [hs]), show (s.step (.clk ack)).engine.orf.len = _ from hlen]
    exact (h.asked (Or.inr hs)).mono (List.Subset.refl _) (by omega) le_rfl fun _ _ _ => rfl
  last ho := by
    obtain ⟨hs, hshort, hlen⟩ := last_after ho
    have hall := h.rest hs
    rw [wanted_of_not_short hshort] at hall
    rw [clk_serving (by simp [hs]), show (s.step (.clk ack)).engine.orf.len = _ from hlen]
    exact hall.mono (List.Subset.refl _) (by omega) le_rfl fun _ _ _ => rfl

end Clk

/-! ### An edge of `xgmii_clk` -/

section Xgmii

variable {s : Watch} {w : XgmiiWord}

theorem xgmii_rx : (s.step (.xgmii w)).engine.rx = s.engine.rx.step w := by
  simp only [step]
  split_ifs <;> rfl

theorem xgmii_orf : (s.step (.xgmii w)).engine.orf = s.engine.orf := by
  simp only [step]
  split_ifs <;> rfl

theorem xgmii_prev : (s.step (.xgmii w)).prev = s.prev := by
  simp only [step]
  split_ifs <;> rfl

theorem xgmii_frame (h : s.engine.rx.state ≠ .idle) : (s.step (.xgmii w)).frame = s.frame := by
  simp [step, begins, h]

theorem xgmii_sampled : (s.step (.xgmii w)).sampled = s.sampled := by
  simp only [step]
  split_ifs <;> rfl

theorem xgmii_written : (s.step (.xgmii w)).written =
    if s.engine.rx.state = .tlp1 then s.frame else s.written := by
  simp only [step]
  split_ifs with hbegins h1 h1
  · rw [begins, h1] at hbegins
    cases hbegins
  all_goals rfl

theorem xgmii_serving : (s.step (.xgmii w)).serving = s.serving := by
  simp only [step]
  split_ifs <;> rfl

/-- The words of the TLP that are not written at an edge. -/
theorem dword_step {r : RxSide} {k : ℕ} (h1 : r.state = .tlp1 → 2 ≤ k)
    (h2 : r.state = .tlp2 → k < 2 ∨ 4 ≤ k) (h3 : r.state = .tlp3 → k < 4) :
    (r.step w).dword k = r.dword k := by
  obtain ⟨f1, f2, f3, -⟩ := step_frame r w
  unfold RxSide.dword
  split_ifs with k2 k4
  · rw [f1 fun hs => by have := h1 hs; omega]
  · rw [f2 fun hs => by have := h2 hs; omega]
  · rw [f3 fun hs => by have := h3 hs; omega]

/-- The receiver leaves `RX_IDLE` with a frame that it has not had before. -/
theorem xgmii_before (h : s.sampled ≤ s.frame ∧ (s.engine.rx.state ≠ .idle → s.sampled < s.frame)) :
    s.sampled ≤ (s.step (.xgmii w)).frame ∧
      ((s.engine.rx.step w).state ≠ .idle → s.sampled < (s.step (.xgmii w)).frame) := by
  by_cases hs : s.engine.rx.state = .idle
  · cases hstart : startIn w 0 with
    | true =>
      have hframe : (s.step (.xgmii w)).frame = s.frame + 1 := by
        simp [step, begins, hs, hstart]
      rw [hframe]
      exact ⟨h.1.trans (Nat.le_succ _), fun _ => Nat.lt_succ_of_le h.1⟩
    | false =>
      have hframe : (s.step (.xgmii w)).frame = s.frame := by
        simp [step, begins, hs, hstart]
      rw [hframe]
      exact ⟨h.1, fun hbusy => absurd (by simp [RxSide.step, hs, hstart]) hbusy⟩
  · rw [xgmii_frame hs]
    exact ⟨h.1, fun _ => h.2 hs⟩

theorem tlp2_after {r : RxSide} (h : (r.step w).state = .tlp2) : r.state = .tlp1 := by
  cases hs : r.state with
  | tlp1 => rfl
  | head =>
    simp only [RxSide.step, hs, RxSide.headStep] at h
    split_ifs at h
  | idle =>
    simp only [RxSide.step, hs] at h
    split_ifs at h
  | tlp2 | tlp3 | gap => simp [RxSide.step, hs] at h

theorem tlp3_after {r : RxSide} (h : (r.step w).state = .tlp3) : r.state = .tlp2 := by
  cases hs : r.state with
  | tlp2 => rfl
  | head =>
    simp only [RxSide.step, hs, RxSide.headStep] at h
    split_ifs at h
  | idle =>
    simp only [RxSide.step, hs] at h
    split_ifs at h
  | tlp1 | tlp3 | gap => simp [RxSide.step, hs] at h

/-- What is heard of a word is held in its register. -/
theorem holds_heardAt {r : RxSide} {i b : ℕ} (hlow : r.dword (2 * i) = w.half 0)
    (hhigh : r.dword (2 * i + 1) = w.half 1) (h0 : 2 * i < b → s.hears w 0 = true)
    (h1 : 2 * i + 1 < b → s.hears w 1 = true) (hb : b ≤ 2 * i + 2) :
    Holds r (s.heardAt w i) (2 * i) b s.frame := by
  intro k hk hkb
  unfold heardAt
  obtain rfl | rfl : k = 2 * i ∨ k = 2 * i + 1 := by omega
  · rw [hlow, if_pos (h0 hkb)]
    exact List.mem_append_left _ (List.mem_singleton_self _)
  · rw [hhigh, if_pos (h1 hkb)]
    exact List.mem_append_right _ (List.mem_singleton_self _)

/-- The first word has come in. -/
theorem holds_second (H : List Dword) (hk : s.Keeps w)
    (hst : (s.engine.rx.step w).state = .tlp2) :
    Holds (s.engine.rx.step w) (H ++ s.heard (.xgmii w)) 0 2 s.frame := by
  have hs := tlp2_after hst
  obtain ⟨hlow, hhigh, -⟩ := hk.tlp1 hs
  have hw : (s.engine.rx.step w).tlp1 = w.d := (tlp1_step hs).2.2
  have hnew := holds_heardAt (i := 0) (r := s.engine.rx.step w) (congrArg (·.extractLsb' 0 32) hw)
    (congrArg (·.extractLsb' 32 32) hw) (fun _ => hlow) (fun _ => hhigh) le_rfl
  rw [heard, hs]
  exact hnew.mono (List.subset_append_right _ _) le_rfl le_rfl fun _ _ _ => rfl

/-- The second word has come in. -/
theorem holds_third {H S : List Dword} (h : s.Inv H S) (hk : s.Keeps w)
    (hst : (s.engine.rx.step w).state = .tlp3) :
    Holds (s.engine.rx.step w) (H ++ s.heard (.xgmii w)) 0
      (min 4 (Orf.wanted (Orf.tlpLen (s.engine.rx.step w).tlp1))) s.frame := by
  have hs := tlp3_after hst
  obtain ⟨hlow, hhigh, -⟩ := hk.tlp2 hs
  obtain ⟨-, -, hw1, hw⟩ := tlp2_step (w := w) hs
  have hold := (h.second hs).mono (q := s.engine.rx.step w)
    (List.subset_append_left H (s.heard (.xgmii w))) le_rfl
    (min_le_left 2 (min 4 (Orf.wanted (Orf.tlpLen s.engine.rx.tlp1)))) fun k _ hk2 =>
      dword_step (by simp [hs]) (fun _ => Or.inl (by omega)) (by simp [hs])
  have hnew := holds_heardAt (i := 1) (r := s.engine.rx.step w)
    (b := min 4 (Orf.wanted (Orf.tlpLen s.engine.rx.tlp1)))
    (congrArg (·.extractLsb' 0 32) hw) (congrArg (·.extractLsb' 32 32) hw) (fun _ => hlow)
    (fun h3 => hhigh (by omega)) (by omega)
  rw [heard, hs] at hold ⊢
  rw [hw1]
  exact hold.append (hnew.mono (List.subset_append_right _ _) le_rfl le_rfl fun _ _ _ => rfl)

/-- The third word has come in. -/
theorem holds_pulse {H S : List Dword} (h : s.Inv H S) (hk : s.Keeps w)
    (hs : s.engine.rx.state = .tlp3) :
    Holds (s.engine.rx.step w) (H ++ s.heard (.xgmii w)) 0
      (Orf.wanted (Orf.tlpLen (s.engine.rx.step w).tlp1)) s.frame := by
  obtain ⟨hlow, hhigh, -⟩ := hk.tlp3 hs
  obtain ⟨-, -, hw1, -, hw⟩ := tlp3_step (w := w) hs
  have hold := (h.third hs).mono (q := s.engine.rx.step w)
    (List.subset_append_left H (s.heard (.xgmii w))) le_rfl le_rfl fun k _ hk4 =>
      dword_step (by simp [hs]) (by simp [hs]) fun _ => by omega
  have hnew := holds_heardAt (i := 2) (r := s.engine.rx.step w)
    (b := Orf.wanted (Orf.tlpLen s.engine.rx.tlp1))
    (congrArg (·.extractLsb' 0 32) hw) (congrArg (·.extractLsb' 32 32) hw)
    (fun h4 => hlow (by omega)) (fun h5 => hhigh (by omega)) (wanted_le_six _)
  rw [heard, hs] at hold ⊢
  rw [hw1]
  exact hold.append (hnew.mono (List.subset_append_right _ _) le_rfl le_rfl fun _ _ _ => rfl)

/-- All words of the TLP stay when no register is written. -/
theorem holds_kept {H : List Dword} {n : ℕ} (h1 : s.engine.rx.state ≠ .tlp1)
    (h2 : s.engine.rx.state ≠ .tlp2) (h3 : s.engine.rx.state ≠ .tlp3)
    (h : Holds s.engine.rx H 0 (Orf.wanted (Orf.tlpLen s.engine.rx.tlp1)) n) :
    Holds (s.engine.rx.step w) (H ++ s.heard (.xgmii w)) 0
      (Orf.wanted (Orf.tlpLen (s.engine.rx.step w).tlp1)) n := by
  rw [(step_frame s.engine.rx w).1 h1]
  exact h.mono (List.subset_append_left _ _) le_rfl le_rfl fun k _ _ =>
    dword_step (by simp [h1]) (by simp [h2]) (by simp [h3])

/-- **An edge of `xgmii_clk`** that keeps the words of the TLP apart keeps the invariant. -/
theorem inv_xgmii {H S : List Dword} (h : s.Inv H S) (hk : s.Keeps w) :
    (s.step (.xgmii w)).Inv (H ++ s.heard (.xgmii w)) (S ++ s.sent (.xgmii w)) where
  sub := by
    rw [sent, RxEngine.port2]
    exact List.append_subset.2
      ⟨List.Subset.trans h.sub (List.subset_append_left _ _), List.nil_subset _⟩
  second hst := by
    rw [xgmii_rx] at hst ⊢
    rw [xgmii_frame (by simp [tlp2_after hst])]
    exact holds_second H hk hst
  third hst := by
    rw [xgmii_rx] at hst ⊢
    rw [xgmii_frame (by simp [tlp3_after hst])]
    exact holds_third h hk hst
  pulse hend := by
    rw [xgmii_rx] at hend ⊢
    have hs : s.engine.rx.state = .tlp3 := by
      simpa [(step_frame s.engine.rx w).2.2.2] using hend
    rw [xgmii_frame (by simp [hs])]
    exact ⟨(tlp3_step hs).1, holds_pulse h hk hs⟩
  before := by
    rw [xgmii_rx, xgmii_sampled]
    exact xgmii_before h.before
  written hst := by
    rw [xgmii_rx] at hst
    rw [xgmii_written]
    rcases hst with hst | hst
    · have hs := tlp2_after hst
      rw [if_pos hs, xgmii_frame (by simp [hs])]
    · have hs := tlp3_after hst
      rw [if_neg (by simp [hs]), xgmii_frame (by simp [hs])]
      exact h.written (Or.inl hs)
  prev hp hw := by
    -- the registers written are those of a later frame
    rw [xgmii_prev] at hp
    rw [xgmii_written, xgmii_sampled] at hw
    rw [xgmii_rx, xgmii_sampled]
    have hlt : s.engine.rx.state ≠ .idle → s.frame ≠ s.sampled := fun hs => (h.before.2 hs).ne'
    have h1 : s.engine.rx.state ≠ .tlp1 := fun hs =>
      hlt (by simp [hs]) (by rwa [if_pos hs] at hw)
    rw [if_neg h1] at hw
    exact holds_kept h1
      (fun hs => hlt (by simp [hs]) ((h.written (Or.inl hs)).symm.trans hw))
      (fun hs => hlt (by simp [hs]) ((h.written (Or.inr hs)).symm.trans hw)) (h.prev hp hw)
  asked ho := by
    -- nothing is written before `ORF` has read the first
    rw [xgmii_orf] at ho
    rw [xgmii_rx, xgmii_serving]
    have hs2 : s.engine.rx.state ≠ .tlp2 := fun hs => by
      rcases (hk.tlp2 hs).2.2 with h' | h' <;> rw [h'] at ho <;> simp at ho
    have hs3 : s.engine.rx.state ≠ .tlp3 := fun hs => by
      rcases (hk.tlp3 hs).2.2 with h' | ⟨h', -⟩ <;> rw [h'] at ho <;> simp at ho
    exact holds_kept (fun hs => ho.elim (hk.tlp1 hs).2.2.1 (hk.tlp1 hs).2.2.2) hs2 hs3
      (h.asked ho)
  rest ho := by
    rw [xgmii_orf] at ho
    rw [xgmii_rx, xgmii_orf, xgmii_serving]
    have hs2 : s.engine.rx.state ≠ .tlp2 := fun hs => by
      rcases (hk.tlp2 hs).2.2 with h' | h' <;> rw [h'] at ho <;> simp at ho
    refine (h.rest ho).mono (List.subset_append_left _ _) le_rfl le_rfl fun k h2 hkw =>
      dword_step (fun _ => h2) (by simp [hs2]) fun hs => ?_
    -- the third word is not read
    rcases (hk.tlp3 hs).2.2 with h' | ⟨-, hshort⟩
    · rw [h'] at ho
      cases ho
    · have := wanted_of_short hshort
      omega
  last ho := by
    rw [xgmii_orf] at ho
    rw [xgmii_rx, xgmii_orf, xgmii_serving]
    have hs3 : s.engine.rx.state ≠ .tlp3 := fun hs => by
      rcases (hk.tlp3 hs).2.2 with h' | ⟨h', -⟩ <;> rw [h'] at ho <;> simp at ho
    exact (h.last ho).mono (List.subset_append_left _ _) le_rfl le_rfl fun k h4 _ =>
      dword_step (fun _ => by omega) (fun _ => Or.inr h4) (by simp [hs3])

end Xgmii

/-- **Nothing beyond the frame is injected** in a run of the two clocks in any order whose edges are
`Kept`, for every stream of words and every `s_axis_tx_ack`: what `ORF` sends for a frame as word
`k` of a TLP came in as four data characters of that frame, in the place of word `k`. -/
theorem sent_subset_heard (o : Orf) {es : List RxEdge} (h : Along step Kept (start o) es) :
    log step sent (start o) es ⊆ log step heard (start o) es := by
  refine (log_induction₂ (J := Inv) (inv_start o) (fun s e H S hi hP => ?_) es h).sub
  cases e with
  | xgmii w => exact inv_xgmii hi hP
  | clk ack =>
    rw [heard, List.append_nil]
    exact inv_clk hi hP

/-! ### Frames of 64 octets -/

/-- The words of a frame from lane 0 on, each with one edge of `clk` behind it. -/
def frameEdges (f : EtherFrame) : List RxEdge :=
  (RxPath.words (streamOf [f]) 20).flatMap fun w => [.xgmii w, .clk true]

/-- A read has three words. -/
theorem readFrame_kept : log step sent (start default) (frameEdges (readFrame 1)) =
      [⟨1, 0, 0x00000001#32⟩, ⟨1, 1, 0x1234010f#32⟩, ⟨1, 2, 0xfd6c0100#32⟩] ∧
    log step sent (start default) (frameEdges (readFrame 1)) ⊆
      log step heard (start default) (frameEdges (readFrame 1)) :=
  ⟨by decide +kernel, sent_subset_heard default (by decide +kernel)⟩

/-- A write of two words that ends in front of its second word. -/
def cutWrite : EtherFrame where
  octets := List.replicate 12 0 ++ [0x08, 0x00] ++ List.replicate 9 0 ++ [0x11] ++
    List.replicate 12 0 ++ [0x0d, 0x5e] ++ List.replicate 4 0 ++ [0xbe, 0x9b, 0xe9, 0x55, 0, 0] ++
    [0x02, 0, 0, 0x40, 0xff, 1, 0x34, 0x12, 0x00, 0x01, 0x6c, 0xfd, 0, 0, 0, 0]
  min_length := by simp
  max_length := by simp

/-- The terminate character and three idle characters are put on port 2 as its second word. -/
theorem cutWrite_injects :
    ⟨1, 4, 0x070707fd#32⟩ ∈ log step sent (start default) (frameEdges cutWrite) ∧
      ¬ log step sent (start default) (frameEdges cutWrite) ⊆
        log step heard (start default) (frameEdges cutWrite) := by
  decide +kernel

end Watch

end IpNuma
