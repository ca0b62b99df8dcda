import IpNuma.Kc705.Crossing

/-!
# A received TLP on the AXI port

The TLP of a matching frame lies behind the magic code, from octet 48 on, one word in four octets.
The receiver keeps its first six words in `tlp1`, `tlp2`, `tlp3`, and `ORF` puts them on the port,
two a beat: `Reframed` says what the port should carry.  The machine stops after the second beat
when `len` is 0 or 1023 there, and else after the third, whatever `len` is.

`reframed_iff`: the TLPs of a stream of frames that are put on the port as they should be are
exactly those with up to six words.
-/

namespace IpNuma

open Clocked

/-- The words of a beat that `tkeep` enables. -/
def Beat.dws (b : Beat) : List (BitVec 32) :=
  (if b.tkeep.getLsbD 0 then [b.tdata.extractLsb' 0 32] else []) ++
    if b.tkeep.getLsbD 4 then [b.tdata.extractLsb' 32 32] else []

/-- The beats `bs` are the words `ds` in order, two a beat, with `tlast` in the last beat alone and
`tkeep` short there alone. -/
structure Reframed (ds : List (BitVec 32)) (bs : List Beat) : Prop where
  length : bs.length = (ds.length + 1) / 2
  tlast : bs.map Beat.tlast = List.replicate (bs.length - 1) false ++ [true]
  tkeep : bs.map Beat.tkeep =
    List.replicate (bs.length - 1) 0xff#8 ++ [if ds.length % 2 = 1 then 0x0f#8 else 0xff#8]
  words : bs.flatMap Beat.dws = ds

namespace EtherFrame

variable (f : EtherFrame)

/-- Octets `i` to `i + 3` as a word, octet `i` in the lowest place. -/
def dw (i : ℕ) : BitVec 32 := f.octet (i + 3) ++ f.octet (i + 2) ++ f.octet (i + 1) ++ f.octet i

/-- The number of words of the TLP: the header, by `fmt[0]`, and with `fmt[1]` as many of data as
its length field says. -/
def tlpSize : ℕ :=
  (if (f.word 48).getLsbD 29 then 4 else 3) +
    if (f.word 48).getLsbD 30 then ((f.word 48).extractLsb' 0 10).toNat else 0

/-- The words of the TLP. -/
def tlp : List (BitVec 32) := (List.range f.tlpSize).map fun i => f.dw (48 + 4 * i)

/-- The frame has all words of the TLP, and the FCS behind them. -/
def HoldsTlp : Prop := 48 + 4 * f.tlpSize + 4 ≤ f.octets.length

instance : DecidablePred HoldsTlp := fun _ => inferInstanceAs (Decidable (_ ≤ _))

@[simp] theorem length_tlp : f.tlp.length = f.tlpSize := by simp [tlp]

theorem word_eq_dw (i : ℕ) : f.word i = f.dw (i + 4) ++ f.dw i := lanes_halves _ _ _ _ _ _ _ _

@[simp] theorem word_lo (i : ℕ) : (f.word i).extractLsb' 0 32 = f.dw i := by
  rw [word_eq_dw]
  exact BitVec.extractLsb'_append_eq_right

@[simp] theorem word_hi (i : ℕ) : (f.word i).extractLsb' 32 32 = f.dw (i + 4) := by
  rw [word_eq_dw]
  exact BitVec.extractLsb'_append_eq_left

theorem three_le_tlpSize : 3 ≤ f.tlpSize := by
  have h : 3 ≤ if (f.word 48).getLsbD 29 then 4 else 3 := by split_ifs <;> decide
  exact h.trans (Nat.le_add_right _ _)

/-- A length field of zero stands for 1024 words, here for none. -/
theorem dwords_eq : dwords (f.word 48) = f.tlpSize ∨ dwords (f.word 48) = f.tlpSize + 1024 := by
  simp only [dwords, tlpSize]
  split_ifs <;> omega

/-- `len` in `ORF_TLP2`. -/
theorem tlpLen_word : Orf.tlpLen (f.word 48) = BitVec.ofNat 10 (f.tlpSize + 1020) := by
  rw [tlpLen_eq]
  apply BitVec.eq_of_toNat_eq
  simp only [BitVec.toNat_ofNat]
  rcases f.dwords_eq with h | h <;> omega

end EtherFrame

namespace Orf

/-- The beats that the core takes from the port in `n` cycles with the bus granted, `tready` high,
and no other frame noticed. -/
def granted (s : Orf) (n : ℕ) (r : RxSide) : List Beat :=
  log (fun s (_ : Unit) => s.step false true r.tlp1 r.tlp2 r.tlp3) (fun s _ => s.axis.taken true) s
    (List.replicate n ())

theorem granted_succ (s : Orf) (n : ℕ) (r : RxSide) : s.granted (n + 1) r =
    s.axis.taken true ++ (s.step false true r.tlp1 r.tlp2 r.tlp3).granted n r := rfl

theorem taken_true (x : Axis) : x.taken true = x.waiting := by simp [Axis.taken, Axis.waiting]

theorem waiting_beatOf (tdata : BitVec 64) (len : BitVec 10) :
    (beatOf tdata len).waiting = [(beatOf tdata len).beat] := by
  rw [Axis.waiting, beatOf_tvalid, if_pos rfl]

variable {s : Orf} {r : RxSide}

/-- An idle machine with nothing on its port stays so. -/
theorem granted_quiet (hs : s.state = .idle) (hv : s.axis.tvalid = false) (n : ℕ) :
    s.granted n r = [] := by
  induction n generalizing s with
  | zero => rfl
  | succ n ih =>
    rw [granted_succ, ih (by simp [step, hs]) (by simp [step, hs]), Axis.taken, hv]
    rfl

theorem granted_idle (hs : s.state = .idle) (n : ℕ) : s.granted (n + 1) r = s.axis.waiting := by
  rw [granted_succ, granted_quiet (by simp [step, hs]) (by simp [step, hs]), taken_true,
    List.append_nil]

theorem granted_tlp3 (hs : s.state = .tlp3) (n : ℕ) :
    s.granted (n + 2) r = s.axis.waiting ++ [(beatOf r.tlp3 s.len).beat] := by
  rw [granted_succ, granted_idle (by simp [step, hs]), taken_true]
  simp only [step, hs, waiting_beatOf]

theorem granted_tlp2 (hs : s.state = .tlp2) (n : ℕ) :
    s.granted (n + 3) r = s.axis.waiting ++ restBeats s.len r.tlp2 r.tlp3 := by
  rw [granted_succ, taken_true, restBeats]
  congr 1
  by_cases hshort : Short s.len
  · rw [granted_idle (by simp only [step, hs]; exact if_pos hshort), if_pos hshort]
    simp only [step, hs, waiting_beatOf]
  · rw [granted_tlp3 (by simp only [step, hs]; exact if_neg hshort), if_neg hshort]
    simp only [step, hs, waiting_beatOf, List.singleton_append]

theorem granted_tlp1 (hs : s.state = .tlp1) (n : ℕ) :
    s.granted (n + 4) r = s.axis.waiting ++ r.beats := by
  rw [granted_succ, taken_true, granted_tlp2 (by simp [step, hs])]
  simp only [step, hs]
  rfl

/-- A machine that has the bus puts the beats for the registers on the port. -/
theorem granted_ack (h : s.Sound true) (hs : s.state = .ack) {n : ℕ} (hn : 5 ≤ n) :
    s.granted n r = r.beats := by
  obtain ⟨m, rfl⟩ := Nat.exists_eq_add_of_le' hn
  obtain ⟨hv, -⟩ : s.axis.tvalid = false ∧ s.req = true := by simpa [Sound, hs] using h
  have hw : s.axis.waiting = [] := by rw [Axis.waiting, hv, if_neg Bool.false_ne_true]
  rw [granted_succ, taken_true, granted_tlp1 (by simp [step, hs])]
  simp [step, hs, hw]

theorem length_beats (tlp1 tlp2 tlp3 : BitVec 64) :
    (beats tlp1 tlp2 tlp3).length = if Short (tlpLen tlp1) then 2 else 3 := by
  unfold beats restBeats
  split_ifs <;> rfl

end Orf

namespace EtherFrame

variable {f : EtherFrame}

/-- More than six words are too many for the machine. -/
theorem small_of_reframed {tlp1 tlp2 tlp3 : BitVec 64}
    (h : Reframed f.tlp (Orf.beats tlp1 tlp2 tlp3)) : f.tlpSize ≤ 6 := by
  have hlen := h.length
  rw [Orf.length_beats, length_tlp] at hlen
  split_ifs at hlen <;> omega

/-- Up to six words are put on the port as they should be. -/
theorem reframed_of_small (h : f.tlpSize ≤ 6) {tlp3 : BitVec 64}
    (h3 : 5 ≤ f.tlpSize → tlp3 = f.word 64) :
    Reframed f.tlp (Orf.beats (f.word 48) (f.word 56) tlp3) := by
  have hge := f.three_le_tlpSize
  have hbeats : Orf.beats (f.word 48) (f.word 56) tlp3 = firstBeat (f.word 48) ::
      Orf.restBeats (BitVec.ofNat 10 (f.tlpSize + 1020)) (f.word 56) tlp3 := by
    rw [Orf.beats, f.tlpLen_word]
  obtain hN | hN | hN | hN : f.tlpSize = 3 ∨ f.tlpSize = 4 ∨ f.tlpSize = 5 ∨ f.tlpSize = 6 := by
    omega
  all_goals rw [hN] at hbeats h3
  · have hb : Orf.beats (f.word 48) (f.word 56) tlp3 =
        [firstBeat (f.word 48), ⟨f.word 56, 0x0f#8, true⟩] := hbeats
    rw [hb]
    exact ⟨by simp [hN], rfl, by simp [hN, firstBeat],
      by simp [hN, firstBeat, tlp, List.range_succ, Beat.dws]⟩
  · have hb : Orf.beats (f.word 48) (f.word 56) tlp3 =
        [firstBeat (f.word 48), ⟨f.word 56, 0xff#8, true⟩] := hbeats
    rw [hb]
    exact ⟨by simp [hN], rfl, by simp [hN, firstBeat],
      by simp [hN, firstBeat, tlp, List.range_succ, Beat.dws]⟩
  · have hb : Orf.beats (f.word 48) (f.word 56) tlp3 =
        [firstBeat (f.word 48), ⟨f.word 56, 0xff#8, false⟩, ⟨tlp3, 0x0f#8, true⟩] := hbeats
    rw [hb, h3 (by decide)]
    exact ⟨by simp [hN], rfl, by simp [hN, firstBeat],
      by simp [hN, firstBeat, tlp, List.range_succ, Beat.dws]⟩
  · have hb : Orf.beats (f.word 48) (f.word 56) tlp3 =
        [firstBeat (f.word 48), ⟨f.word 56, 0xff#8, false⟩, ⟨tlp3, 0xff#8, true⟩] := hbeats
    rw [hb, h3 (by decide)]
    exact ⟨by simp [hN], rfl, by simp [hN, firstBeat],
      by simp [hN, firstBeat, tlp, List.range_succ, Beat.dws]⟩

/-- At the pulse of a frame the registers hold the first six words of its TLP, as far as the
machine looks at them. -/
theorem HoldsTlp.shows (h : f.HoldsTlp) :
    f.Shows RxSide.beats (Orf.beats (f.word 48) (f.word 56) (f.word 64)) := by
  intro r h1 h2 h3
  rw [RxSide.beats, h1, h2]
  by_cases hN : 5 ≤ f.tlpSize
  · rw [h3 (by unfold HoldsTlp at h; omega)]
  · have hge := f.three_le_tlpSize
    have hshort : Orf.Short (Orf.tlpLen (f.word 48)) := by
      rw [f.tlpLen_word]
      obtain hN | hN : f.tlpSize = 3 ∨ f.tlpSize = 4 := by omega
      · rw [hN]; decide
      · rw [hN]; decide
    rw [Orf.beats, Orf.beats, Orf.restBeats, Orf.restBeats, if_pos hshort, if_pos hshort]

end EtherFrame

/-- **Re-framing of TLPs.**  Of the frames of a stream that match and have their TLP in full, a
granted machine puts exactly the TLPs with up to six words on the port as they should be. -/
theorem reframed_iff {c : ℕ → XChar} {fs : List EtherFrame} (hc : Carries c 0 fs)
    (hfs : ∀ f ∈ fs, f.Matches → f.HoldsTlp) {b : ℕ} (hb : ∀ q, 8 * b ≤ q + 16 → c q = .idle)
    {s : Orf} (h : s.Sound true) (hs : s.state = .ack) {n : ℕ} (hn : 5 ≤ n) :
    List.Forall₂ (fun f bs => Reframed f.tlp bs ↔ f.tlpSize ≤ 6) (fs.filter fun f => f.Matches)
      (RxPath.seen (s.granted n) (RxPath.words c (b + 2))) := by
  have hobs : s.granted n = RxSide.beats := funext fun r => Orf.granted_ack h hs hn
  rw [hobs, seen_eq_calledFor hc (fun f hf hm => (hfs f hf hm).shows) b hb, calledFor,
    List.forall₂_map_right_iff, List.forall₂_same]
  intro f _
  exact ⟨EtherFrame.small_of_reframed, fun h6 => EtherFrame.reframed_of_small h6 fun _ => rfl⟩

/-- A machine that has just asked for the bus. -/
def askingOrf : Orf := ⟨.ack, 0, true, default⟩

/-- The two memory reads. -/
theorem reframed_readFrames :
    List.Forall₂ (fun f bs => Reframed f.tlp bs ↔ f.tlpSize ≤ 6)
      (readFrames.filter fun f => f.Matches)
      (RxPath.seen (askingOrf.granted 5) (RxPath.words (streamOf readFrames) 25)) :=
  reframed_iff (b := 23) (streamOf_carries (by decide)) (by decide +kernel)
    (fun q hq => streamOf_idle (show (readFrames.flatMap EtherFrame.chars).length ≤ q from
      show 168 ≤ q by omega)) (s := askingOrf) (show _ ∧ _ from ⟨rfl, rfl⟩) rfl le_rfl

/-- A frame of 80 octets that carries a memory write of four words, the TLP seven. -/
def writeFrame : EtherFrame where
  octets := List.replicate 12 0 ++ [0x08, 0x00] ++ List.replicate 9 0 ++ [0x11] ++
    List.replicate 12 0 ++ [0x0d, 0x5e] ++ List.replicate 4 0 ++ [0xbe, 0x9b, 0xe9, 0x55, 0, 0] ++
    [0x04, 0, 0, 0x40, 0xff, 0x01, 0x34, 0x12, 0x00, 0x01, 0x6c, 0xfd] ++
    [0x11, 0x11, 0x11, 0x11, 0x22, 0x22, 0x22, 0x22, 0x33, 0x33, 0x33, 0x33] ++
    [0x44, 0x44, 0x44, 0x44, 0, 0, 0, 0]
  min_length := by simp
  max_length := by simp

/-- The write is put on the port without its last word and without `tlast`. -/
theorem writeFrame_cut :
    Carries (streamOf [writeFrame]) 0 [writeFrame] ∧ writeFrame.Matches ∧ writeFrame.HoldsTlp ∧
      RxPath.seen (askingOrf.granted 9) (RxPath.words (streamOf [writeFrame]) 15) =
        [[firstBeat 0x123401ff40000004#64, ⟨0x11111111fd6c0100#64, 0xff#8, false⟩,
          ⟨0x3333333322222222#64, 0xff#8, false⟩]] ∧
      ¬ Reframed writeFrame.tlp [firstBeat 0x123401ff40000004#64,
        ⟨0x11111111fd6c0100#64, 0xff#8, false⟩, ⟨0x3333333322222222#64, 0xff#8, false⟩] := by
  refine ⟨streamOf_carries (by decide), by decide +kernel, by decide +kernel, by decide +kernel,
    fun h => ?_⟩
  have htlast := h.tlast
  revert htlast
  decide

end IpNuma
