import IpNuma.Kc705.XgmiiTx

/-!
# `XGMII_RX_ENGINE`: the 10G receiver

The block on `xgmii_clk`, in the default build (`ORF` undefined).  `RX_IDLE` waits for a start
character in lane 0.  `RX_HEAD` counts eight octets a word, latches EtherType, protocol and UDP
port on the way and leaves at word 5: to `RX_TLP1` when these and the magic code match, else at
the first word with eight control characters.  Three words later `tlp_frame_end` is pulsed.

`Reads` describes `RX_HEAD` after `k` words of a frame, and `reads_step`, `reads_abort`,
`reads_match` are the edges out of it.
-/

namespace IpNuma

/-- `RX_IDLE`, `RX_HEAD`, `RX_TLP1`, `RX_TLP2`, `RX_TLP3`, `RX_GAP`. -/
inductive RxState
  | idle
  | head
  | tlp1
  | tlp2
  | tlp3
  | gap
  deriving DecidableEq, Inhabited

/-- The registers of the receive block that are read. -/
structure RxSide where
  state : RxState
  rxCount : BitVec 16
  rxType : BitVec 16
  rxProtocol : BitVec 8
  rxDport : BitVec 16
  tlp1 : BitVec 64
  tlp2 : BitVec 64
  tlp3 : BitVec 64
  tlpFrameEnd : Bool
  deriving DecidableEq, Inhabited

namespace RxSide

def reset : RxSide := ⟨.idle, 0, 0, 0, 0, 0, 0, 0, false⟩

/-- The magic code in lanes 2 to 5. -/
def hasMagic (w : XgmiiWord) : Bool :=
  octet w.d 2 ++ octet w.d 3 ++ octet w.d 4 ++ octet w.d 5 == magicCode

/-- The branch `RX_HEAD`. -/
def headStep (s : RxSide) (w : XgmiiWord) : RxSide :=
  let u := { s with
    tlpFrameEnd := false
    rxCount := s.rxCount + 8#16
    state := if w.c = 0xff#8 then .idle else .head }
  if s.rxCount = 0x08#16 then { u with rxType := octet w.d 4 ++ octet w.d 5 }
  else if s.rxCount = 0x10#16 then { u with rxProtocol := octet w.d 7 }
  else if s.rxCount = 0x20#16 then { u with rxDport := octet w.d 4 ++ octet w.d 5 }
  else if s.rxCount = 0x28#16 then
    if s.rxType = 0x0800#16 ∧ s.rxProtocol = 0x11#8 ∧ s.rxDport = 3422#16 ∧ hasMagic w then
      { u with state := .tlp1 }
    else u
  else u

/-- The receive block at a clock edge with `sys_rst` low. -/
def step (s : RxSide) (w : XgmiiWord) : RxSide :=
  match s.state with
  | .idle => { s with
      tlpFrameEnd := false, rxCount := 0, state := if startIn w 0 then .head else .idle }
  | .head => s.headStep w
  | .tlp1 => { s with tlpFrameEnd := false, tlp1 := w.d, state := .tlp2 }
  | .tlp2 => { s with tlpFrameEnd := false, tlp2 := w.d, state := .tlp3 }
  | .tlp3 => { s with tlpFrameEnd := true, tlp3 := w.d, state := .idle }
  | .gap => { s with tlpFrameEnd := false }

section Seen

variable {α : Type*}

/-- What an observer sees at a pulse of `tlp_frame_end`. -/
def seen (obs : RxSide → α) (s : RxSide) : List α := if s.tlpFrameEnd then [obs s] else []

variable {obs : RxSide → α} {s : RxSide}

theorem seen_of_false (h : s.tlpFrameEnd = false) : s.seen obs = [] := by
  rw [seen, h, if_neg Bool.false_ne_true]

theorem seen_of_true (h : s.tlpFrameEnd = true) : s.seen obs = [obs s] := by
  rw [seen, h, if_pos rfl]

end Seen

/-- The words that are complete in every frame. -/
def pair (s : RxSide) : BitVec 64 × BitVec 64 := (s.tlp1, s.tlp2)

/-- What is visible at a pulse of `tlp_frame_end`. -/
def pulse (s : RxSide) : List (BitVec 64 × BitVec 64) := s.seen pair

theorem pulse_of_false {s : RxSide} (h : s.tlpFrameEnd = false) : s.pulse = [] := seen_of_false h

theorem pulse_of_true {s : RxSide} (h : s.tlpFrameEnd = true) : s.pulse = [(s.tlp1, s.tlp2)] :=
  seen_of_true h

end RxSide

/-- The header fields the receiver looks at. -/
structure HeaderFields where
  rxType : BitVec 16
  rxProtocol : BitVec 8
  rxDport : BitVec 16
  deriving DecidableEq

namespace HeaderFields

/-- The fields of a frame that may carry a TLP: IPv4, UDP, port 3422. -/
def ipUdp : HeaderFields := ⟨0x0800#16, 0x11#8, 3422#16⟩

/-- Word `k` behind the start word has the fields where the receiver looks for them. -/
def At (f : HeaderFields) (w : XgmiiWord) : ℕ → Prop
  | 1 => octet w.d 4 ++ octet w.d 5 = f.rxType
  | 2 => octet w.d 7 = f.rxProtocol
  | 4 => octet w.d 4 ++ octet w.d 5 = f.rxDport
  | _ => True

end HeaderFields

/-- The receiver is in `RX_HEAD` and has read `k` words of a frame with the fields `f`. -/
structure Reads (k : ℕ) (f : HeaderFields) (s : RxSide) : Prop where
  state : s.state = .head
  count : s.rxCount = BitVec.ofNat 16 (8 * k)
  small : k < 8192
  type : 2 ≤ k → s.rxType = f.rxType
  protocol : 3 ≤ k → s.rxProtocol = f.rxProtocol
  dport : 5 ≤ k → s.rxDport = f.rxDport

/-! ### One edge -/

section Step

variable {s : RxSide} {w : XgmiiWord} {k : ℕ} {f : HeaderFields}

/-- Below the wrap-around the counter tells the words apart. -/
theorem count_eq_iff (hk : k < 8192) {j : ℕ} (hj : j < 8192) :
    BitVec.ofNat 16 (8 * k) = BitVec.ofNat 16 (8 * j) ↔ k = j := by
  constructor
  · intro h
    have := congrArg BitVec.toNat h
    simp only [BitVec.toNat_ofNat] at this
    omega
  · rintro rfl
    rfl

theorem idle_start (hs : s.state = .idle) (hw : startIn w 0 = true) (f : HeaderFields) :
    Reads 0 f (s.step w) ∧ (s.step w).tlpFrameEnd = false := by
  simp only [RxSide.step, hs, hw, if_true]
  exact ⟨⟨rfl, rfl, by decide, by omega, by omega, by omega⟩, trivial⟩

theorem idle_skip (hs : s.state = .idle) (hw : startIn w 0 = false) :
    (s.step w).state = .idle ∧ (s.step w).tlpFrameEnd = false := by
  simp [RxSide.step, hs, hw]

/-- The match of word 5 fails, or it is another word. -/
def NoMatch (k : ℕ) (f : HeaderFields) (w : XgmiiWord) : Prop :=
  k = 5 → ¬ (f = .ipUdp ∧ RxSide.hasMagic w = true)

/-- What `RX_HEAD` does with a word that does not complete a match. -/
theorem headStep_eq (h : Reads k f s) (hn : NoMatch k f w) :
    (s.step w).state = (if w.c = 0xff#8 then .idle else .head) ∧
      (s.step w).rxCount = BitVec.ofNat 16 (8 * (k + 1)) ∧
      (s.step w).tlpFrameEnd = false ∧
      (s.step w).rxType = (if k = 1 then octet w.d 4 ++ octet w.d 5 else s.rxType) ∧
      (s.step w).rxProtocol = (if k = 2 then octet w.d 7 else s.rxProtocol) ∧
      (s.step w).rxDport = (if k = 4 then octet w.d 4 ++ octet w.d 5 else s.rxDport) := by
  have hcount : s.rxCount + 8#16 = BitVec.ofNat 16 (8 * (k + 1)) := by
    rw [h.count]
    apply BitVec.eq_of_toNat_eq
    simp only [BitVec.toNat_add, BitVec.toNat_ofNat]
    omega
  have heq : ∀ j, j < 8192 → (s.rxCount = BitVec.ofNat 16 (8 * j) ↔ k = j) := by
    intro j hj
    rw [h.count, count_eq_iff h.small hj]
  have h1 : s.rxCount = 0x08#16 ↔ k = 1 := heq 1 (by decide)
  have h2 : s.rxCount = 0x10#16 ↔ k = 2 := heq 2 (by decide)
  have h4 : s.rxCount = 0x20#16 ↔ k = 4 := heq 4 (by decide)
  have h5 : s.rxCount = 0x28#16 ↔ k = 5 := heq 5 (by decide)
  have hno : k = 5 → ¬ (s.rxType = 0x0800#16 ∧ s.rxProtocol = 0x11#8 ∧ s.rxDport = 3422#16 ∧
      RxSide.hasMagic w) := by
    rintro rfl ⟨ht, hp, hd, hm⟩
    refine hn rfl ⟨?_, hm⟩
    cases f
    simp_all [HeaderFields.ipUdp, h.type, h.protocol, h.dport]
  simp only [RxSide.step, h.state, RxSide.headStep, h1, h2, h4, h5, ← hcount]
  by_cases k1 : k = 1
  · simp [k1]
  by_cases k2 : k = 2
  · simp [k2]
  by_cases k4 : k = 4
  · simp [k4]
  by_cases k5 : k = 5
  · rw [if_neg k1, if_neg k2, if_neg k4, if_pos k5, if_neg (hno k5)]
    simp [k1, k2, k4]
  · simp [k1, k2, k4, k5]

/-- A word that neither matches nor ends the frame is counted. -/
theorem reads_step (h : Reads k f s) (hn : NoMatch k f w) (hc : w.c ≠ 0xff#8) (hf : f.At w k)
    (hk : k + 1 < 8192) : Reads (k + 1) f (s.step w) ∧ (s.step w).tlpFrameEnd = false := by
  obtain ⟨h1, h2, h3, h4, h5, h6⟩ := headStep_eq h hn
  rw [if_neg hc] at h1
  refine ⟨⟨h1, h2, hk, fun hk => ?_, fun hk => ?_, fun hk => ?_⟩, h3⟩
  · rw [h4]
    split_ifs with hk1
    · subst hk1; exact hf
    · exact h.type (by omega)
  · rw [h5]
    split_ifs with hk2
    · subst hk2; exact hf
    · exact h.protocol (by omega)
  · rw [h6]
    split_ifs with hk4
    · subst hk4; exact hf
    · exact h.dport (by omega)

/-- Eight control characters lead back to `RX_IDLE`. -/
theorem reads_abort (h : Reads k f s) (hn : NoMatch k f w) (hc : w.c = 0xff#8) :
    (s.step w).state = .idle ∧ (s.step w).tlpFrameEnd = false := by
  obtain ⟨h1, -, h3, -⟩ := headStep_eq h hn
  rw [if_pos hc] at h1
  exact ⟨h1, h3⟩

/-- Word 5 completes the match. -/
theorem reads_match (h : Reads 5 .ipUdp s) (hm : RxSide.hasMagic w = true) :
    (s.step w).state = .tlp1 ∧ (s.step w).tlpFrameEnd = false := by
  have ht := h.type (by decide)
  have hp := h.protocol (by decide)
  have hd := h.dport (by decide)
  simp only [HeaderFields.ipUdp] at ht hp hd
  simp [RxSide.step, h.state, RxSide.headStep, h.count, ht, hp, hd, hm]

/-- The receiver writes each word of a TLP in a state of its own, and pulses after the third. -/
theorem step_frame (s : RxSide) (w : XgmiiWord) :
    (s.state ≠ .tlp1 → (s.step w).tlp1 = s.tlp1) ∧ (s.state ≠ .tlp2 → (s.step w).tlp2 = s.tlp2) ∧
      (s.state ≠ .tlp3 → (s.step w).tlp3 = s.tlp3) ∧
      (s.step w).tlpFrameEnd = decide (s.state = .tlp3) := by
  cases hs : s.state with
  | head =>
    simp only [RxSide.step, hs, RxSide.headStep]
    split_ifs <;> simp
  | idle | tlp1 | tlp2 | tlp3 | gap => simp [RxSide.step, hs]

theorem tlp1_step (hs : s.state = .tlp1) :
    (s.step w).state = .tlp2 ∧ (s.step w).tlpFrameEnd = false ∧ (s.step w).tlp1 = w.d := by
  simp [RxSide.step, hs]

theorem tlp2_step (hs : s.state = .tlp2) :
    (s.step w).state = .tlp3 ∧ (s.step w).tlpFrameEnd = false ∧ (s.step w).tlp1 = s.tlp1 ∧
      (s.step w).tlp2 = w.d := by
  simp [RxSide.step, hs]

theorem tlp3_step (hs : s.state = .tlp3) :
    (s.step w).state = .idle ∧ (s.step w).tlpFrameEnd = true ∧ (s.step w).tlp1 = s.tlp1 ∧
      (s.step w).tlp2 = s.tlp2 ∧ (s.step w).tlp3 = w.d := by
  simp [RxSide.step, hs]

end Step

end IpNuma
