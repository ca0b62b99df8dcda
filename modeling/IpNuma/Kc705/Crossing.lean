import IpNuma.Kc705.Backpressure
import IpNuma.Kc705.RxPath

/-!
# From the receiver's clock to the transmit side's

`tlp_frame_end`, `tlp1`, `tlp2` and `tlp3` are written by `xgmii_clk` and read by `clk`, with no
handshake.  A run is a list of edges of the two clocks in any order.  The machine `ORF` notices a
pulse in `ORF_IDLE` alone, a fixed number of edges after it has been sampled, and reads the three
registers later still, when it has the bus.

* `Sampled` says that no pulse ends before an edge of `clk` has sampled it;
* `InTime` says that the receiver writes a word of the next TLP only when the pulse of the last one
  has been noticed and its word has been read;
* `delivered_of_inTime`: in every run with both, the TLPs on port 2 are those of the frames that
  match, each once, in order and with its own words.
-/

namespace IpNuma

open Clocked

/-! ### The TLPs -/

theorem three_le_dwords (tlp1 : BitVec 64) : 3 ≤ dwords tlp1 := by
  have h : 3 ≤ if tlp1.getLsbD 29 then 4 else 3 := by split_ifs <;> decide
  exact h.trans (Nat.le_add_right _ _)

/-- The first beat of a TLP from the network. -/
def firstBeat (tlp1 : BitVec 64) : Beat := ⟨tlp1, 0xff#8, false⟩

/-- The TLP of a frame: three to six words, two a beat, the last beat with one or two. -/
def networkTlp (tlp1 tlp2 tlp3 : BitVec 64) : List Beat :=
  match dwords tlp1 with
  | 3 => [firstBeat tlp1, ⟨tlp2, 0x0f#8, true⟩]
  | 4 => [firstBeat tlp1, ⟨tlp2, 0xff#8, true⟩]
  | 5 => [firstBeat tlp1, ⟨tlp2, 0xff#8, false⟩, ⟨tlp3, 0x0f#8, true⟩]
  | _ => [firstBeat tlp1, ⟨tlp2, 0xff#8, false⟩, ⟨tlp3, 0xff#8, true⟩]

namespace Orf

/-- The machine is done with the second beat. -/
def Short (len : BitVec 10) : Prop := len = 0 ∨ len = 1023#10

instance : DecidablePred Short := fun len => inferInstanceAs (Decidable (len = 0 ∨ len = 1023#10))

/-- What the machine puts on its port behind the first beat. -/
def restBeats (len : BitVec 10) (tlp2 tlp3 : BitVec 64) : List Beat :=
  (beatOf tlp2 len).beat :: if Short len then [] else [(beatOf tlp3 (len - 2#10)).beat]

/-- What the machine puts on its port for the registers of a pulse. -/
def beats (tlp1 tlp2 tlp3 : BitVec 64) : List Beat :=
  firstBeat tlp1 :: restBeats (tlpLen tlp1) tlp2 tlp3

/-- Up to six words this is the TLP. -/
theorem beats_eq_networkTlp {tlp1 : BitVec 64} (h : dwords tlp1 ≤ 6) (tlp2 tlp3 : BitVec 64) :
    beats tlp1 tlp2 tlp3 = networkTlp tlp1 tlp2 tlp3 := by
  have h3 := three_le_dwords tlp1
  rw [beats, tlpLen_eq, networkTlp]
  interval_cases hd : dwords tlp1 <;> rfl

end Orf

/-- The TLP of a frame. -/
def EtherFrame.tlpBeats (f : EtherFrame) : List Beat :=
  networkTlp (f.word 48) (f.word 56) (f.word 64)

/-- The frame carries a TLP of at most six words, with the FCS behind it. -/
def EtherFrame.CarriesTlp (f : EtherFrame) : Prop :=
  dwords (f.word 48) ≤ 6 ∧ 48 + 4 * dwords (f.word 48) + 4 ≤ f.octets.length

instance : DecidablePred EtherFrame.CarriesTlp := fun _ => inferInstanceAs (Decidable (_ ∧ _))

/-- The beats that the machine puts on its port for the registers of the receiver. -/
def RxSide.beats (r : RxSide) : List Beat := Orf.beats r.tlp1 r.tlp2 r.tlp3

/-- At the pulse of a frame the registers hold its TLP. -/
theorem EtherFrame.CarriesTlp.shows {f : EtherFrame} (h : f.CarriesTlp) :
    f.Shows RxSide.beats f.tlpBeats := by
  intro r h1 h2 h3
  obtain ⟨h6, hlen⟩ := h
  rw [RxSide.beats, Orf.beats_eq_networkTlp (by rw [h1]; exact h6), h1, h2, EtherFrame.tlpBeats]
  by_cases hd : 5 ≤ dwords (f.word 48)
  · rw [h3 (by omega)]
  · -- `tlp3` is not part of the TLP
    have h34 : dwords (f.word 48) = 3 ∨ dwords (f.word 48) = 4 := by
      have := three_le_dwords (f.word 48)
      omega
    rcases h34 with h | h <;> simp only [networkTlp, h]

/-! ### The machine with two clocks -/

/-- An edge of `xgmii_clk` with the word on the lanes, or of `clk` with the other inputs. -/
inductive Edge
  | xgmii (w : XgmiiWord)
  | clk (tready : Bool) (cpl : PioTxIn)
  deriving DecidableEq

/-- The words sampled by `xgmii_clk`. -/
def Edge.words (es : List Edge) : List XgmiiWord := es.filterMap fun
  | .xgmii w => some w
  | .clk _ _ => none

theorem Edge.words_concat_xgmii (es : List Edge) (w : XgmiiWord) :
    Edge.words (es ++ [.xgmii w]) = Edge.words es ++ [w] := List.filterMap_append

theorem Edge.words_concat_clk (es : List Edge) (tready : Bool) (cpl : PioTxIn) :
    Edge.words (es ++ [.clk tready cpl]) = Edge.words es :=
  List.filterMap_append.trans (List.append_nil _)

/-- The receive path and the transmit side. -/
structure Crossing where
  rx : RxPath
  ports : TxPorts

namespace Crossing

def start (p : TxPorts) : Crossing := ⟨RxPath.reset, p.reset⟩

/-- What the transmit side samples. -/
def portsIn (s : Crossing) (tready : Bool) (cpl : PioTxIn) : TxPortsIn :=
  ⟨tready, cpl, s.rx.rx.tlpFrameEnd, s.rx.rx.tlp1, s.rx.rx.tlp2, s.rx.rx.tlp3⟩

/-- One edge. -/
def step (s : Crossing) : Edge → Crossing
  | .xgmii w => { s with rx := s.rx.step w }
  | .clk tready cpl => { s with ports := s.ports.step (s.portsIn tready cpl) }

/-- The TLP of a frame that is pulsed at the edge. -/
def pulsed (s : Crossing) : Edge → List (List Beat)
  | .xgmii w => (s.rx.step w).rx.seen RxSide.beats
  | .clk _ _ => []

/-- The beat put on port 2 at the edge. -/
def port2 (s : Crossing) : Edge → List Beat
  | .xgmii _ => []
  | .clk _ _ => s.ports.orf.loads s.ports.cnt.frameSeen s.ports.mux.ack2 s.rx.rx.tlp1 s.rx.rx.tlp2
      s.rx.rx.tlp3

/-- `prev_xgmii_end`. -/
def prev (s : Crossing) : BitVec 4 := s.ports.cnt.prevXgmiiEnd

/-- A pulse that ends has been sampled. -/
def Sampled (s : Crossing) : Edge → Prop
  | .xgmii _ => s.rx.rx.tlpFrameEnd = true → s.prev.getLsbD 3 = true
  | .clk _ _ => True

/-- A word of the next TLP is written when the pulse of the last has been noticed and its word has
been read. -/
structure WritesInTime (s : Crossing) : Prop where
  tlp1 : s.rx.rx.state = .tlp1 → s.prev = 0 ∧ s.ports.orf.state ≠ .ack ∧ s.ports.orf.state ≠ .tlp1
  tlp2 : s.rx.rx.state = .tlp2 → s.prev = 0 ∧ (s.ports.orf.state = .idle ∨ s.ports.orf.state = .tlp3)
  tlp3 : s.rx.rx.state = .tlp3 → s.prev = 0 ∧ s.ports.orf.state = .idle

section

variable {s : Crossing} (h : s.WritesInTime)

include h

theorem WritesInTime.not_tlp1 (ho : s.ports.orf.state = .ack ∨ s.ports.orf.state = .tlp1) :
    s.rx.rx.state ≠ .tlp1 := by
  intro hst
  obtain ⟨-, ha, ht⟩ := h.tlp1 hst
  exact ho.elim ha ht

theorem WritesInTime.not_tlp2 (hi : s.ports.orf.state ≠ .idle) (ht : s.ports.orf.state ≠ .tlp3) :
    s.rx.rx.state ≠ .tlp2 := fun hst => (h.tlp2 hst).2.elim hi ht

theorem WritesInTime.not_tlp3 (hi : s.ports.orf.state ≠ .idle) : s.rx.rx.state ≠ .tlp3 :=
  fun hst => hi (h.tlp3 hst).2

end

/-- The condition on an edge. -/
def InTime (s : Crossing) : Edge → Prop
  | .xgmii _ => s.WritesInTime
  | .clk _ _ => True

/-- Nothing is on its way: no pulse, none sampled, none being served. -/
def Settled (s : Crossing) : Prop :=
  s.rx.rx.tlpFrameEnd = false ∧ s.prev = 0 ∧ s.ports.orf.state = .idle

instance (s : Crossing) (e : Edge) : Decidable (s.Sampled e) := by
  unfold Sampled
  cases e <;> infer_instance

instance (s : Crossing) : Decidable s.WritesInTime :=
  decidable_of_iff
    ((s.rx.rx.state = .tlp1 → s.prev = 0 ∧ s.ports.orf.state ≠ .ack ∧ s.ports.orf.state ≠ .tlp1) ∧
      (s.rx.rx.state = .tlp2 →
        s.prev = 0 ∧ (s.ports.orf.state = .idle ∨ s.ports.orf.state = .tlp3)) ∧
      (s.rx.rx.state = .tlp3 → s.prev = 0 ∧ s.ports.orf.state = .idle))
    ⟨fun h => ⟨h.1, h.2.1, h.2.2⟩, fun h => ⟨h.tlp1, h.tlp2, h.tlp3⟩⟩

instance (s : Crossing) (e : Edge) : Decidable (s.InTime e) := by
  unfold InTime
  cases e <;> infer_instance

instance (s : Crossing) : Decidable s.Settled :=
  inferInstanceAs (Decidable (_ ∧ _ ∧ _))

/-! ### The pulse on `clk` -/

/-- A pulse that has not been noticed: `prev_xgmii_end` holds the samples so far of a pulse that is
still up, or all samples of one that is over. -/
def OnItsWay (high : Bool) (p : BitVec 4) : Prop :=
  if high then p ∈ [0b0000#4, 0b1000#4, 0b1100#4, 0b1110#4, 0b1111#4]
  else p ∈ [0b1000#4, 0b0100#4, 0b0010#4, 0b0001#4, 0b1100#4, 0b0110#4, 0b0011#4, 0b1110#4, 0b0111#4,
    0b1111#4]

instance (high : Bool) (p : BitVec 4) : Decidable (OnItsWay high p) := by
  unfold OnItsWay
  infer_instance

/-- `prev_xgmii_end` after an edge. -/
def shiftIn (high : Bool) (p : BitVec 4) : BitVec 4 := BitVec.ofBool high ++ p.extractLsb' 1 3

theorem onItsWay_sample : ∀ (high : Bool) (p : BitVec 4), OnItsWay high p → p ≠ 1 →
    OnItsWay high (shiftIn high p) := by decide

/-- A pulse is noticed only when it is over, and then nothing of it is left. -/
theorem onItsWay_noticed : ∀ high : Bool, OnItsWay high 1 → high = false ∧ shiftIn high 1 = 0 := by
  decide

theorem onItsWay_over : ∀ p : BitVec 4, OnItsWay true p → p.getLsbD 3 = true → OnItsWay false p := by
  decide

theorem onItsWay_ne_zero : ∀ p : BitVec 4, OnItsWay false p → p ≠ 0 := by decide

/-! ### The place of a TLP -/

/-- Where the last pulsed TLP is: `pending` is this TLP, until it is complete on port 2, and `part`
what port 2 has of it. -/
inductive Place (s : Crossing) : List (List Beat) → List Beat → Prop
  | settled : s.Settled → Place s [] []
  | pulsed : OnItsWay s.rx.rx.tlpFrameEnd s.prev → s.ports.orf.state = .idle →
      Place s [s.rx.rx.beats] []
  | asked : s.rx.rx.tlpFrameEnd = false → s.prev = 0 →
      s.ports.orf.state = .ack ∨ s.ports.orf.state = .tlp1 → Place s [s.rx.rx.beats] []
  | second (tlp1 : BitVec 64) : s.rx.rx.tlpFrameEnd = false → s.prev = 0 →
      s.ports.orf.state = .tlp2 → s.ports.orf.len = Orf.tlpLen tlp1 →
      Place s [Orf.beats tlp1 s.rx.rx.tlp2 s.rx.rx.tlp3] [firstBeat tlp1]
  | third (tlp1 tlp2 : BitVec 64) : s.rx.rx.tlpFrameEnd = false → s.prev = 0 →
      s.ports.orf.state = .tlp3 → s.ports.orf.len = Orf.tlpLen tlp1 - 2#10 →
      ¬ Orf.Short (Orf.tlpLen tlp1) →
      Place s [Orf.beats tlp1 tlp2 s.rx.rx.tlp3]
        [firstBeat tlp1, (Orf.beatOf tlp2 (Orf.tlpLen tlp1)).beat]

/-- The invariant: all pulsed TLPs but the pending one are on port 2. -/
def Invariant (s : Crossing) (frames : List (List Beat)) (bs : List Beat) : Prop :=
  ∃ sent pending part, frames = sent ++ pending ∧ bs = sent.flatten ++ part ∧ s.Place pending part

variable {s : Crossing} {pending : List (List Beat)} {part : List Beat}

/-- An edge of `xgmii_clk`. -/
theorem place_xgmii (h : s.Place pending part) (w : XgmiiWord) (hs : s.Sampled (.xgmii w))
    (hw : s.WritesInTime) : (s.step (.xgmii w)).Place (pending ++ s.pulsed (.xgmii w)) part := by
  obtain ⟨h1, h2, h3, hend⟩ := step_frame s.rx.rx s.rx.sync.out
  have hprev : (s.step (.xgmii w)).prev = s.prev := rfl
  -- no pulse, unless the third word is written
  have hquiet : s.rx.rx.state ≠ .tlp3 →
      (s.step (.xgmii w)).rx.rx.tlpFrameEnd = false ∧ s.pulsed (.xgmii w) = [] := by
    intro hne
    have hf : (s.step (.xgmii w)).rx.rx.tlpFrameEnd = false := by
      rw [← decide_eq_false hne]
      exact hend
    exact ⟨hf, RxSide.seen_of_false hf⟩
  have hbeats : s.rx.rx.state ≠ .tlp1 → s.rx.rx.state ≠ .tlp2 → s.rx.rx.state ≠ .tlp3 →
      (s.step (.xgmii w)).rx.rx.beats = s.rx.rx.beats := by
    intro hst1 hst2 hst3
    rw [RxSide.beats, RxSide.beats, ← h1 hst1, ← h2 hst2, ← h3 hst3]
    rfl
  cases h with
  | settled hset =>
    obtain ⟨h4, h5, h6⟩ := hset
    by_cases hst : s.rx.rx.state = .tlp3
    · have hf : (s.step (.xgmii w)).rx.rx.tlpFrameEnd = true := by
        rw [← decide_eq_true hst]
        exact hend
      have hp : s.pulsed (.xgmii w) = [(s.step (.xgmii w)).rx.rx.beats] := RxSide.seen_of_true hf
      rw [hp]
      exact .pulsed (by rw [hf, hprev, h5]; decide) h6
    · obtain ⟨hf, hp⟩ := hquiet hst
      rw [hp]
      exact .settled ⟨hf, h5, h6⟩
  | pulsed hway hidle =>
    have hway' : OnItsWay false s.prev := by
      cases hf0 : s.rx.rx.tlpFrameEnd with
      | true =>
        rw [hf0] at hway
        exact onItsWay_over _ hway (hs hf0)
      | false => rwa [hf0] at hway
    have hp0 := onItsWay_ne_zero _ hway'
    have hst1 : s.rx.rx.state ≠ .tlp1 := fun h => hp0 (hw.tlp1 h).1
    have hst2 : s.rx.rx.state ≠ .tlp2 := fun h => hp0 (hw.tlp2 h).1
    have hst3 : s.rx.rx.state ≠ .tlp3 := fun h => hp0 (hw.tlp3 h).1
    obtain ⟨hf, hp⟩ := hquiet hst3
    rw [hp, ← hbeats hst1 hst2 hst3]
    exact .pulsed (by rw [hf]; exact hway') hidle
  | asked hf0 hp0 hstate =>
    have hi : s.ports.orf.state ≠ .idle := by rcases hstate with ho | ho <;> rw [ho] <;> decide
    have ht : s.ports.orf.state ≠ .tlp3 := by rcases hstate with ho | ho <;> rw [ho] <;> decide
    obtain ⟨hf, hp⟩ := hquiet (hw.not_tlp3 hi)
    rw [hp, ← hbeats (hw.not_tlp1 hstate) (hw.not_tlp2 hi ht) (hw.not_tlp3 hi)]
    exact .asked hf hp0 hstate
  | second tlp1 hf0 hp0 hstate hlen =>
    -- the first word may be overwritten
    have hi : s.ports.orf.state ≠ .idle := by simp [hstate]
    have ht : s.ports.orf.state ≠ .tlp3 := by simp [hstate]
    obtain ⟨hf, hp⟩ := hquiet (hw.not_tlp3 hi)
    rw [hp, ← h2 (hw.not_tlp2 hi ht), ← h3 (hw.not_tlp3 hi)]
    exact .second tlp1 hf hp0 hstate hlen
  | third tlp1 tlp2 hf0 hp0 hstate hlen hshort =>
    -- the first two words may be overwritten
    have hi : s.ports.orf.state ≠ .idle := by simp [hstate]
    obtain ⟨hf, hp⟩ := hquiet (hw.not_tlp3 hi)
    rw [hp, ← h3 (hw.not_tlp3 hi)]
    exact .third tlp1 tlp2 hf hp0 hstate hlen hshort

/-- An edge of `clk`: the pending TLP is complete on port 2, or goes on. -/
theorem place_clk (h : s.Place pending part) (tready : Bool) (cpl : PioTxIn) :
    (s.step (.clk tready cpl)).Place pending (part ++ s.port2 (.clk tready cpl)) ∨
      part ++ s.port2 (.clk tready cpl) = pending.flatten ∧ (s.step (.clk tready cpl)).Settled := by
  have hprev : (s.step (.clk tready cpl)).prev = shiftIn s.rx.rx.tlpFrameEnd s.prev := rfl
  have hseen : s.ports.cnt.frameSeen = decide (s.prev = 1) := rfl
  have hport : s.port2 (.clk tready cpl) =
      s.ports.orf.loads s.ports.cnt.frameSeen s.ports.mux.ack2 s.rx.rx.tlp1 s.rx.rx.tlp2
        s.rx.rx.tlp3 := rfl
  have horf : (s.step (.clk tready cpl)).ports.orf =
      s.ports.orf.step s.ports.cnt.frameSeen s.ports.mux.ack2 s.rx.rx.tlp1 s.rx.rx.tlp2
        s.rx.rx.tlp3 := rfl
  -- without a pulse on its way `prev_xgmii_end` stays zero
  have hzero : s.rx.rx.tlpFrameEnd = false → s.prev = 0 → (s.step (.clk tready cpl)).prev = 0 := by
    intro hf0 hp0
    rw [hprev, hf0, hp0]
    decide
  cases h with
  | settled hset =>
    obtain ⟨hf0, hp0, hidle⟩ := hset
    rw [hp0] at hseen
    refine Or.inl ?_
    rw [hport, Orf.loads, if_neg (by simp [hidle])]
    refine .settled ⟨hf0, hzero hf0 hp0, ?_⟩
    rw [horf, Orf.step, hidle, hseen]
    rfl
  | pulsed hway hidle =>
    refine Or.inl ?_
    rw [hport, Orf.loads, if_neg (by simp [hidle])]
    by_cases hp1 : s.prev = 1
    · -- the pulse is noticed
      rw [hp1] at hway hseen
      obtain ⟨hf0, hp0⟩ := onItsWay_noticed _ hway
      refine .asked hf0 (by rw [hprev, hp1]; exact hp0) (Or.inl ?_)
      rw [horf, Orf.step, hidle, hseen]
      rfl
    · have hway' := onItsWay_sample _ _ hway hp1
      rw [← hprev] at hway'
      refine .pulsed hway' ?_
      rw [horf, Orf.step, hidle, hseen, decide_eq_false hp1]
      rfl
  | asked hf0 hp0 hstate =>
    refine Or.inl ?_
    rcases hstate with hstate | hstate
    · rw [hport, Orf.loads, if_neg (by simp [hstate])]
      refine .asked hf0 (hzero hf0 hp0) ?_
      rw [horf, Orf.step, hstate]
      cases s.ports.mux.ack2 with
      | true => exact Or.inr rfl
      | false => exact Or.inl rfl
    · rw [hport, Orf.loads, if_pos (Or.inl hstate), Orf.step, hstate]
      refine .second s.rx.rx.tlp1 hf0 (hzero hf0 hp0) ?_ ?_ <;> rw [horf, Orf.step, hstate]
  | second tlp1 hf0 hp0 hstate hlen =>
    rw [hport, Orf.loads, if_pos (Or.inr (Or.inl hstate)), Orf.step, hstate]
    by_cases hshort : Orf.Short (Orf.tlpLen tlp1)
    · refine Or.inr ⟨?_, hf0, hzero hf0 hp0, ?_⟩
      · simp [Orf.beats, Orf.restBeats, hshort, hlen]
      · rw [horf, Orf.step, hstate, hlen]
        exact if_pos hshort
    · refine Or.inl ?_
      rw [hlen]
      refine .third tlp1 s.rx.rx.tlp2 hf0 (hzero hf0 hp0) ?_ ?_ hshort
      · rw [horf, Orf.step, hstate, hlen]
        exact if_neg hshort
      · rw [horf, Orf.step, hstate, hlen]
  | third tlp1 tlp2 hf0 hp0 hstate hlen hshort =>
    rw [hport, Orf.loads, if_pos (Or.inr (Or.inr hstate)), Orf.step, hstate]
    refine Or.inr ⟨?_, hf0, hzero hf0 hp0, ?_⟩
    · simp [Orf.beats, Orf.restBeats, hshort, hlen]
    · rw [horf, Orf.step, hstate]

variable {frames : List (List Beat)} {bs : List Beat}

/-- **One edge** keeps the invariant. -/
theorem invariant_step (h : s.Invariant frames bs) (e : Edge) (hs : s.Sampled e)
    (hw : s.InTime e) : (s.step e).Invariant (frames ++ s.pulsed e) (bs ++ s.port2 e) := by
  obtain ⟨sent, pending, part, rfl, rfl, hplace⟩ := h
  cases e with
  | xgmii w =>
    refine ⟨sent, _, part, List.append_assoc _ _ _, ?_, place_xgmii hplace w hs hw⟩
    exact List.append_nil _
  | clk tready cpl =>
    have hframes : sent ++ pending ++ s.pulsed (.clk tready cpl) = sent ++ pending :=
      List.append_nil _
    rw [hframes]
    rcases place_clk hplace tready cpl with hplace' | ⟨hpart, hset⟩
    · exact ⟨sent, pending, _, rfl, List.append_assoc _ _ _, hplace'⟩
    · refine ⟨sent ++ pending, [], [], (List.append_nil _).symm, ?_, .settled hset⟩
      rw [List.append_assoc, hpart, List.flatten_append, List.append_nil]

theorem invariant_start (p : TxPorts) : (start p).Invariant [] [] :=
  ⟨[], [], [], rfl, rfl, .settled ⟨rfl, rfl, rfl⟩⟩

/-- Port 2 has the beginning of the pending TLP. -/
theorem Place.prefix_flatten (h : s.Place pending part) : part <+: pending.flatten := by
  cases h with
  | settled _ | pulsed _ _ | asked _ _ _ => exact List.nil_prefix
  | second _ _ _ _ _ => exact ⟨_, (List.append_nil _).symm⟩
  | third tlp1 tlp2 _ _ _ _ hshort =>
    rw [List.flatten_singleton, Orf.beats, Orf.restBeats, if_neg hshort]
    exact ⟨_, rfl⟩

/-- Nothing is pending when nothing is on its way. -/
theorem Place.of_settled (h : s.Place pending part) (hset : s.Settled) :
    pending = [] ∧ part = [] := by
  obtain ⟨hf, hp, hidle⟩ := hset
  cases h with
  | settled _ => exact ⟨rfl, rfl⟩
  | pulsed hway _ =>
    rw [hf] at hway
    exact absurd hp (onItsWay_ne_zero _ hway)
  | asked _ _ hstate => rcases hstate with ho | ho <;> simp [hidle] at ho
  | second _ _ _ ho _ | third _ _ _ _ ho _ _ => simp [hidle] at ho

/-- The pulsed TLPs are a matter of the receive path alone. -/
theorem log_pulsed (p : TxPorts) (es : List Edge) :
    log step pulsed (start p) es = RxPath.seen RxSide.beats (Edge.words es) ∧
      (run step (start p) es).rx = run RxPath.step RxPath.reset (Edge.words es) := by
  induction es using List.reverseRecOn with
  | nil => exact ⟨rfl, rfl⟩
  | append_singleton es e ih =>
    obtain ⟨h1, h2⟩ := ih
    rw [log_concat, run_concat, h1]
    cases e with
    | xgmii w =>
      rw [Edge.words_concat_xgmii, run_concat, ← h2, RxPath.seen, RxPath.seen, log_concat, ← h2]
      exact ⟨rfl, rfl⟩
    | clk tready cpl =>
      rw [Edge.words_concat_clk]
      exact ⟨List.append_nil _, h2⟩

end Crossing

open Crossing

/-- What the transmit side has done with the first `n` words of a stream of frames, when `bs` are
the beats put on port 2. -/
structure Delivered (c : ℕ → XChar) (fs : List EtherFrame) (n : ℕ) (s : Crossing)
    (bs : List Beat) : Prop where
  /-- Only TLPs of frames that match, each once, in order, with its own words. -/
  own : bs <+: (calledFor EtherFrame.tlpBeats fs).flatten
  /-- The TLPs of all frames pulsed so far, unless one is on its way. -/
  sofar : s.Settled → bs = (RxPath.seen RxSide.beats (RxPath.words c n)).flatten
  /-- The TLPs of all frames in the end. -/
  all : ∀ b, n = b + 2 → (∀ q, 8 * b ≤ q + 16 → c q = .idle) → s.Settled →
    bs = (calledFor EtherFrame.tlpBeats fs).flatten

/-- **No TLP is lost, duplicated or mixed** in a run of the two clocks in any order whose writes are
in time and whose pulses are sampled, for every stream of frames, all completions and every
`tready`. -/
theorem delivered_of_inTime {c : ℕ → XChar} {fs : List EtherFrame} (hc : Carries c 0 fs)
    (hfs : ∀ f ∈ fs, f.Matches → f.CarriesTlp) (p : TxPorts) {n : ℕ} {es : List Edge}
    (hes : Edge.words es = RxPath.words c n)
    (h : Along Crossing.step (fun s e => s.Sampled e ∧ s.InTime e) (start p) es) :
    Delivered c fs n (run Crossing.step (start p) es)
      (log Crossing.step port2 (start p) es) := by
  have hinv : (run Crossing.step (start p) es).Invariant
      (log Crossing.step Crossing.pulsed (start p) es) (log Crossing.step port2 (start p) es) :=
    log_induction₂ (J := Crossing.Invariant) (invariant_start p)
      (fun _ e _ _ hi hP => invariant_step hi e hP.1 hP.2) es h
  rw [(log_pulsed p es).1, hes] at hinv
  obtain ⟨hgot, hall⟩ := seen_of_frames hc fun f hf hm => (hfs f hf hm).shows
  obtain ⟨sent, pending, part, hframes, hbs, hplace⟩ := hinv
  have hsofar : (run Crossing.step (start p) es).Settled →
      log Crossing.step port2 (start p) es =
        (RxPath.seen RxSide.beats (RxPath.words c n)).flatten := by
    intro hset
    obtain ⟨rfl, rfl⟩ := hplace.of_settled hset
    rw [hbs, hframes, List.append_nil, List.append_nil]
  refine ⟨?_, hsofar, fun b hb hidle hset => ?_⟩
  · have hpre : log Crossing.step port2 (start p) es <+: (sent ++ pending).flatten := by
      rw [hbs, List.flatten_append]
      exact (List.prefix_append_right_inj _).2 hplace.prefix_flatten
    rw [← hframes] at hpre
    obtain ⟨more, hmore⟩ := hgot n
    rw [← hmore, List.flatten_append]
    exact hpre.trans (List.prefix_append _ _)
  · rw [hsofar hset, hb, hall b hidle]

/-! ### Two memory reads -/

/-- A frame of 64 octets that carries a memory read of three words with the tag `tag`. -/
def readFrame (tag : BitVec 8) : EtherFrame where
  octets := List.replicate 12 0 ++ [0x08, 0x00] ++ List.replicate 9 0 ++ [0x11] ++
    List.replicate 12 0 ++ [0x0d, 0x5e] ++ List.replicate 4 0 ++ [0xbe, 0x9b, 0xe9, 0x55, 0, 0] ++
    [0x01, 0, 0, 0, 0x0f, tag, 0x34, 0x12, 0x00, 0x01, 0x6c, 0xfd, 0, 0, 0, 0]
  min_length := by simp
  max_length := by simp

/-- Two reads, at the smallest distance. -/
def readFrames : List EtherFrame := [readFrame 1, readFrame 2]

/-- The words of the two reads, each with one edge of `clk` behind it, and ten more. -/
def readEdges (clks : List (Bool × PioTxIn)) : List Edge :=
  (((RxPath.words (streamOf readFrames) 25).zip clks).flatMap fun (w, tready, cpl) =>
    [.xgmii w, .clk tready cpl]) ++ List.replicate 10 (.clk true default)

/-- The core is ready all the time. -/
def readyRun : List Edge := readEdges (List.replicate 25 (true, default))

/-- A local completion has the bus when the core stops being ready for 18 cycles. -/
def heldRun : List Edge :=
  readEdges ((true, { (default : PioTxIn) with reqCompl := true, reqComplWd := true }) ::
    (List.replicate 6 (true, default) ++ List.replicate 18 (false, default)))

theorem delivered_readyRun :
    log Crossing.step port2 (start default) readyRun =
      [firstBeat 0x1234010f00000001#64, ⟨0x00000000fd6c0100#64, 0x0f#8, true⟩,
        firstBeat 0x1234020f00000001#64, ⟨0x00000000fd6c0100#64, 0x0f#8, true⟩] := by
  have hidle : ∀ q, 8 * 23 ≤ q + 16 → streamOf readFrames q = .idle := fun q hq =>
    streamOf_idle (show 168 ≤ q by omega)
  have hwords : Edge.words readyRun = RxPath.words (streamOf readFrames) 25 := by decide +kernel
  have hrun : Along Crossing.step (fun s e => s.Sampled e ∧ s.InTime e) (start default) readyRun := by
    decide +kernel
  have h := delivered_of_inTime (streamOf_carries (by decide)) (by decide +kernel) default hwords hrun
  rw [h.all 23 rfl hidle (by decide +kernel)]
  decide +kernel

/-- While the completion waits, the second read overwrites the first: one of the two is put on
port 2. -/
theorem heldRun_lost :
    Carries (streamOf readFrames) 0 readFrames ∧
      (∀ f ∈ readFrames, f.Matches ∧ f.CarriesTlp) ∧
      Edge.words heldRun = RxPath.words (streamOf readFrames) 25 ∧
      Along Crossing.step Crossing.Sampled (start default) heldRun ∧
      log Crossing.step port2 (start default) heldRun =
        [firstBeat 0x1234020f00000001#64, ⟨0x00000000fd6c0100#64, 0x0f#8, true⟩] ∧
      ¬ Delivered (streamOf readFrames) readFrames 25 (run Crossing.step (start default) heldRun)
        (log Crossing.step port2 (start default) heldRun) := by
  have hlog : log Crossing.step port2 (start default) heldRun =
      [firstBeat 0x1234020f00000001#64, ⟨0x00000000fd6c0100#64, 0x0f#8, true⟩] := by
    decide +kernel
  refine ⟨streamOf_carries (by decide), by decide +kernel, by decide +kernel, by decide +kernel, hlog,
    fun h => ?_⟩
  have hown := h.own
  rw [hlog] at hown
  revert hown
  decide +kernel

end IpNuma
