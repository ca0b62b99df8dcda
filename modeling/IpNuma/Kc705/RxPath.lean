import IpNuma.Cores.XgmiiSync
import IpNuma.Kc705.XgmiiRx

/-!
# The receive path: `xgmiisync` and `XGMII_RX_ENGINE`

The aligner gives the receiver every frame from its start character on, eight octets a word
(`XgmiiSync.pos_of_frame`).  A frame that matches is pulsed after its tenth word and the receiver
is idle from there on; one that does not keeps it in `RX_HEAD` up to the first word behind its last
octet, which is all control characters and still before the next start (`frame_run`).  So each
frame finds the receiver idle, and `heard_carries` goes through the frames one by one.
-/

namespace IpNuma

open Clocked

/-- The aligner and the receiver behind it. -/
structure RxPath where
  sync : XgmiiSync
  rx : RxSide

namespace RxPath

def reset : RxPath := ⟨XgmiiSync.reset, RxSide.reset⟩

/-- One edge of `xgmii_clk`. -/
def step (s : RxPath) (w : XgmiiWord) : RxPath := ⟨s.sync.step w, s.rx.step s.sync.out⟩

/-- The first `n` words of a stream. -/
def words (c : ℕ → XChar) (n : ℕ) : List XgmiiWord := inputs (fun t => wordAt c (8 * t)) 0 n

/-- What an observer sees at the pulses of `tlp_frame_end` of a run. -/
def seen {α : Type*} (obs : RxSide → α) (ws : List XgmiiWord) : List α :=
  log RxPath.step (fun s w => (s.step w).rx.seen obs) reset ws

/-- The pulses of `tlp_frame_end` after each of the first `n` words of a stream. -/
def pulses (c : ℕ → XChar) (n : ℕ) : List (BitVec 64 × BitVec 64) := seen RxSide.pair (words c n)

end RxPath

namespace EtherFrame

variable (f : EtherFrame)

/-- The header fields of the frame. -/
def fields : HeaderFields :=
  ⟨f.octet 12 ++ f.octet 13, f.octet 23, f.octet 36 ++ f.octet 37⟩

/-- EtherType 0800, protocol 11, UDP port 3422, and the magic code. -/
def Matches : Prop :=
  f.octet 12 ++ f.octet 13 = 0x0800#16 ∧ f.octet 23 = 0x11#8 ∧ f.octet 36 ++ f.octet 37 = 3422#16 ∧
    f.octet 42 ++ f.octet 43 ++ f.octet 44 ++ f.octet 45 = magicCode

instance : DecidablePred Matches := fun _ => inferInstanceAs (Decidable (_ ∧ _ ∧ _ ∧ _))

/-- Octets `i` to `i + 7` as a word, octet `i` in lane 0. -/
def word (i : ℕ) : BitVec 64 :=
  lanes (f.octet (i + 7)) (f.octet (i + 6)) (f.octet (i + 5)) (f.octet (i + 4)) (f.octet (i + 3))
    (f.octet (i + 2)) (f.octet (i + 1)) (f.octet i)

/-- What is to be seen at the pulse of the frame. -/
def tlpWords : BitVec 64 × BitVec 64 := (f.word 48, f.word 56)

/-- The number of the first word without an octet of the frame, the word with the start character
being number 0. -/
def endWord : ℕ := (f.octets.length + 7) / 8 + 1

/-- The value `v` is what the observer sees of the frame: the observer may look at `tlp3` only when
the frame has octets 64 to 71. -/
def Shows {α : Type*} (obs : RxSide → α) (v : α) : Prop :=
  ∀ r : RxSide, r.tlp1 = f.word 48 → r.tlp2 = f.word 56 →
    (72 ≤ f.octets.length → r.tlp3 = f.word 64) → obs r = v

theorem shows_pair : f.Shows RxSide.pair f.tlpWords := by
  intro r h1 h2 _
  rw [RxSide.pair, h1, h2, tlpWords]

theorem matches_iff : f.Matches ↔ f.fields = .ipUdp ∧
    f.octet 42 ++ f.octet 43 ++ f.octet 44 ++ f.octet 45 = magicCode := by
  rw [Matches, fields, HeaderFields.ipUdp, HeaderFields.mk.injEq]
  simp only [and_assoc]

end EtherFrame

/-- What the frames of a stream call for, each with the value `g f`. -/
def calledFor {α : Type*} (g : EtherFrame → α) (fs : List EtherFrame) : List α :=
  (fs.filter fun f => f.Matches).map g

/-- The pulses that the frames of a stream call for. -/
def expected (fs : List EtherFrame) : List (BitVec 64 × BitVec 64) :=
  calledFor EtherFrame.tlpWords fs

/-! ### The words of a frame -/

section Words

variable {c : ℕ → XChar} {s : ℕ} {f : EtherFrame} {fs : List EtherFrame} (hf : FrameAt c s f)

include hf

theorem frame_octet (j : ℕ) {i : ℕ} (hi : i < 8) (h : 8 * j + i < f.octets.length) :
    octet (wordAt c (s + 8 * (j + 1))).d i = f.octet (8 * j + i) := by
  rw [octet_wordAt c _ hi, show s + 8 * (j + 1) + i = s + 8 + (8 * j + i) by omega, hf.data _ h]
  rfl

theorem frame_word (j : ℕ) (h : 8 * j + 7 < f.octets.length) :
    (wordAt c (s + 8 * (j + 1))).d = f.word (8 * j) := by
  have hc : ∀ i < 8, (c (s + 8 * (j + 1) + i)).octet = f.octet (8 * j + i) := by
    intro i hi
    rw [show s + 8 * (j + 1) + i = s + 8 + (8 * j + i) by omega, hf.data _ (by omega)]
    rfl
  simp only [wordAt, EtherFrame.word, hc _ (show 7 < 8 by decide), hc _ (show 6 < 8 by decide),
    hc _ (show 5 < 8 by decide), hc _ (show 4 < 8 by decide), hc _ (show 3 < 8 by decide),
    hc _ (show 2 < 8 by decide), hc _ (show 1 < 8 by decide)]
  rw [show (c (s + 8 * (j + 1))).octet = f.octet (8 * j) from hc 0 (by decide)]

/-- A word with an octet of the frame is not all control. -/
theorem frame_word_ne_ff {j : ℕ} (h : 8 * j < f.octets.length) :
    (wordAt c (s + 8 * (j + 1))).c ≠ 0xff#8 := by
  rw [Ne, wordAt_c_eq_ff_iff]
  intro hall
  have h0 := hall 0 (by decide)
  rw [show s + 8 * (j + 1) + 0 = s + 8 + 8 * j by omega, hf.data _ h] at h0
  cases h0

theorem frame_at {j : ℕ} (hj : j < 5) : f.fields.At (wordAt c (s + 8 * (j + 1))) j := by
  have hmin := f.min_length
  interval_cases j
  · trivial
  · simp only [HeaderFields.At]
    rw [frame_octet hf 1 (by decide) (by omega), frame_octet hf 1 (by decide) (by omega)]
    rfl
  · simp only [HeaderFields.At]
    rw [frame_octet hf 2 (by decide) (by omega)]
    rfl
  · trivial
  · simp only [HeaderFields.At]
    rw [frame_octet hf 4 (by decide) (by omega), frame_octet hf 4 (by decide) (by omega)]
    rfl

theorem frame_hasMagic : RxSide.hasMagic (wordAt c (s + 8 * 6)) = true ↔
    f.octet 42 ++ f.octet 43 ++ f.octet 44 ++ f.octet 45 = magicCode := by
  have hmin := f.min_length
  have h := fun i hi => frame_octet hf 5 (i := i) hi
  rw [RxSide.hasMagic, beq_iff_eq, h 2 (by decide) (by omega), h 3 (by decide) (by omega),
    h 4 (by decide) (by omega), h 5 (by decide) (by omega)]

/-- Behind the terminate character the stream is idle up to the end of word `endWord`: the next
start character comes later, because both are in lane 0 or lane 4. -/
theorem idle_after (hc : Carries c (s + 20 + f.octets.length) fs) {q : ℕ}
    (h1 : s + 8 + f.octets.length < q) (h2 : q < s + 8 * f.endWord + 8) : c q = .idle := by
  by_cases hgap : q < s + 20 + f.octets.length
  · exact hf.gap q h1 hgap
  cases fs with
  | nil => exact hc q (by omega)
  | cons g fs =>
    obtain ⟨s', hs', hidle, hg, -⟩ := hc
    have hlane := hf.lane
    have hlane' := hg.lane
    simp only [EtherFrame.endWord] at h2
    exact hidle q (by omega) (by omega)

theorem noStart_upto (hc : Carries c (s + 20 + f.octets.length) fs) :
    NoStart c (s + 1) (s + 8 * f.endWord + 8) := by
  intro q h1 h2
  by_cases hq : q < s + 20 + f.octets.length
  · exact hf.noStart q h1 hq
  · rw [idle_after hf hc (by omega) h2]
    decide

/-- Word `endWord` is all control characters. -/
theorem endWord_ff (hc : Carries c (s + 20 + f.octets.length) fs) :
    (wordAt c (s + 8 * f.endWord)).c = 0xff#8 := by
  rw [wordAt_c_eq_ff_iff]
  intro k hk
  have hend : f.octets.length + 8 ≤ 8 * f.endWord := by
    simp only [EtherFrame.endWord]
    omega
  rcases Nat.lt_or_ge (s + 8 + f.octets.length) (s + 8 * f.endWord + k) with h | h
  · rw [idle_after hf hc h (by omega)]
    rfl
  · rw [show s + 8 * f.endWord + k = s + 8 + f.octets.length by omega, hf.term]
    rfl

end Words

/-! ### The receiver along a stream of words -/

/-- What an observer sees at the pulses of the receiver. -/
def heard {α : Type*} (obs : RxSide → α) (r : RxSide) (ws : List XgmiiWord) : List α :=
  log RxSide.step (fun r w => (r.step w).seen obs) r ws

section Receiver

variable {α : Type*} (obs : RxSide → α) {g : EtherFrame → α} {v : ℕ → XgmiiWord} {r : RxSide}

/-- Words without a start character in lane 0 leave the receiver idle. -/
theorem skip_run (a n : ℕ) (hr : r.state = .idle) (h : ∀ k < n, startIn (v (a + k)) 0 = false) :
    (run RxSide.step r (inputs v a n)).state = .idle ∧ heard obs r (inputs v a n) = [] := by
  refine stream_induction (J := fun _ (r : RxSide) l => r.state = .idle ∧ l = []) v a n ⟨hr, rfl⟩ ?_
  rintro k hk r l ⟨hr, rfl⟩
  obtain ⟨h1, h2⟩ := idle_skip hr (h k hk)
  exact ⟨h1, by rw [RxSide.seen_of_false h2]; rfl⟩

/-- Words of a header keep the receiver in `RX_HEAD`. -/
theorem reads_run {f : HeaderFields} (j a n : ℕ) (hr : Reads j f r) (hn : j + n < 8192)
    (h : ∀ k < n, NoMatch (j + k) f (v (a + k)) ∧ (v (a + k)).c ≠ 0xff#8 ∧
      f.At (v (a + k)) (j + k)) :
    Reads (j + n) f (run RxSide.step r (inputs v a n)) ∧ heard obs r (inputs v a n) = [] := by
  refine stream_induction (J := fun k r l => Reads (j + k) f r ∧ l = []) v a n ⟨hr, rfl⟩ ?_
  rintro k hk r l ⟨hr, rfl⟩
  obtain ⟨hm, hc, hf⟩ := h k hk
  obtain ⟨h1, h2⟩ := reads_step hr hm hc hf (by omega)
  exact ⟨h1, by rw [RxSide.seen_of_false h2]; rfl⟩

theorem heard_append (r : RxSide) (us ws : List XgmiiWord) :
    heard obs r (us ++ ws) = heard obs r us ++ heard obs (run RxSide.step r us) ws := log_append _ _ _ _ _

theorem heard_singleton (r : RxSide) (w : XgmiiWord) : heard obs r [w] = (r.step w).seen obs :=
  List.append_nil _

variable {c : ℕ → XChar} {s : ℕ} {f : EtherFrame} {fs : List EtherFrame}

/-- The start word and the first five words of a frame. -/
theorem header_run (hf : FrameAt c s f) (a : ℕ) (hv : ∀ k ≤ 5, v (a + k) = wordAt c (s + 8 * k))
    (hr : r.state = .idle) :
    Reads 5 f.fields (run RxSide.step r (inputs v a 6)) ∧ heard obs r (inputs v a 6) = [] := by
  have hmin := f.min_length
  have hstart : startIn (v a) 0 = true := by
    rw [show v a = _ from hv 0 (by decide), startIn_wordAt c _ (by decide)]
    exact hf.start
  obtain ⟨h1, h2⟩ := idle_start hr hstart f.fields
  obtain ⟨h3, h4⟩ := reads_run obs (v := v) 0 (a + 1) 5 h1 (by decide) fun k hk => by
    rw [show v (a + 1 + k) = wordAt c (s + 8 * (k + 1)) by
      rw [← hv (k + 1) (by omega)]
      congr 1
      omega]
    rw [Nat.zero_add]
    exact ⟨fun h5 => by omega, frame_word_ne_ff hf (by omega), frame_at hf hk⟩
  rw [show (6 : ℕ) = 1 + 5 from rfl, inputs_add]
  refine ⟨by rw [run_append]; exact h3, ?_⟩
  rw [heard_append, show inputs v a 1 = [v a] from rfl, heard_singleton,
    RxSide.seen_of_false h2]
  exact h4

/-- A frame that matches is pulsed after its tenth word. -/
theorem matching_run (hf : FrameAt c s f) (hm : f.Matches) (hg : f.Shows obs (g f)) (a : ℕ)
    (hv : ∀ k ≤ 9, v (a + k) = wordAt c (s + 8 * k)) (hr : r.state = .idle) :
    (run RxSide.step r (inputs v a 10)).state = .idle ∧
      heard obs r (inputs v a 10) = [g f] := by
  have hmin := f.min_length
  obtain ⟨hfields, hmagic⟩ := f.matches_iff.1 hm
  obtain ⟨h1, h2⟩ := header_run obs hf a (fun k hk => hv k (by omega)) hr
  rw [hfields] at h1
  have h6 : RxSide.hasMagic (v (a + 6)) = true := by
    rw [hv 6 (by decide)]
    exact (frame_hasMagic hf).2 hmagic
  obtain ⟨h3, h4⟩ := reads_match h1 h6
  obtain ⟨h5, h6, h7⟩ := tlp1_step (w := v (a + 7)) h3
  obtain ⟨h8, h9, h10, h11⟩ := tlp2_step (w := v (a + 8)) h5
  obtain ⟨h12, h13, h14, h15, h16⟩ := tlp3_step (w := v (a + 9)) h8
  have hw : inputs v a 10 = inputs v a 6 ++ [v (a + 6)] ++ [v (a + 7)] ++ [v (a + 8)] ++
      [v (a + 9)] := by simp only [inputs_succ, inputs_zero]
  have ht1 : (v (a + 7)).d = f.word 48 := by
    rw [hv 7 (by decide)]
    exact frame_word hf 6 (by omega)
  have ht2 : (v (a + 8)).d = f.word 56 := by
    rw [hv 8 (by decide)]
    exact frame_word hf 7 (by omega)
  have ht3 : 72 ≤ f.octets.length → (v (a + 9)).d = f.word 64 := by
    intro hlen
    rw [hv 9 (by decide)]
    exact frame_word hf 8 (by omega)
  rw [hw]
  refine ⟨by simpa only [run_concat] using h12, ?_⟩
  simp only [heard_append, heard_singleton, run_concat, h2, RxSide.seen_of_false h4,
    RxSide.seen_of_false h6, RxSide.seen_of_false h9, RxSide.seen_of_true h13]
  simp only [List.nil_append, List.cons.injEq, and_true]
  exact hg _ (by rw [h14, h10, h7, ht1]) (by rw [h15, h11, ht2]) fun hlen => by rw [h16, ht3 hlen]

/-- A frame that does not match keeps the receiver in `RX_HEAD` up to its end. -/
theorem other_run (hf : FrameAt c s f) (hc : Carries c (s + 20 + f.octets.length) fs)
    (hm : ¬ f.Matches) (a : ℕ) (hv : ∀ k ≤ f.endWord, v (a + k) = wordAt c (s + 8 * k))
    (hr : r.state = .idle) :
    (run RxSide.step r (inputs v a (f.endWord + 1))).state = .idle ∧
      heard obs r (inputs v a (f.endWord + 1)) = [] := by
  have hmin := f.min_length
  have hmax := f.max_length
  have hend : 8 * f.endWord < f.octets.length + 16 := by
    simp only [EtherFrame.endWord]
    omega
  have hend' : 9 ≤ f.endWord := by
    simp only [EtherFrame.endWord]
    omega
  obtain ⟨h1, h2⟩ := header_run obs hf a (fun k hk => hv k (by omega)) hr
  have hno : ∀ k, k + 6 ≤ f.endWord → NoMatch (5 + k) f.fields (v (a + 6 + k)) := by
    rintro k hk h5 ⟨hfields, hmagic⟩
    obtain rfl : k = 0 := by omega
    rw [show a + 6 + 0 = a + 6 from rfl, hv 6 (by omega)] at hmagic
    exact hm (f.matches_iff.2 ⟨hfields, (frame_hasMagic hf).1 hmagic⟩)
  obtain ⟨h3, h4⟩ := reads_run obs (v := v) 5 (a + 6) (f.endWord - 6) h1 (by omega) fun k hk => by
    refine ⟨hno k (by omega), ?_, ?_⟩
    · rw [show a + 6 + k = a + (6 + k) by omega, hv _ (by omega),
        show s + 8 * (6 + k) = s + 8 * (5 + k + 1) by omega]
      exact frame_word_ne_ff hf (by omega)
    · unfold HeaderFields.At
      split <;> first | omega | trivial
  have hlast : (v (a + 6 + (f.endWord - 6))).c = 0xff#8 := by
    rw [show a + 6 + (f.endWord - 6) = a + f.endWord by omega, hv _ le_rfl]
    exact endWord_ff hf hc
  obtain ⟨h5, h6⟩ := reads_abort h3 (hno _ (by omega)) hlast
  rw [show f.endWord + 1 = 6 + (f.endWord - 6 + 1) by omega, inputs_add, inputs_succ v (a + 6)]
  constructor
  · rw [run_append, run_concat]
    exact h5
  · rw [heard_append, heard_append, heard_singleton, h2, h4, RxSide.seen_of_false h6]
    rfl

/-- **A frame goes through the receiver.**  An idle receiver is idle again after word `endWord`,
and has pulsed the frame if it matches. -/
theorem frame_run (hf : FrameAt c s f) (hc : Carries c (s + 20 + f.octets.length) fs)
    (hg : f.Matches → f.Shows obs (g f)) (a : ℕ)
    (hv : ∀ k ≤ f.endWord, v (a + k) = wordAt c (s + 8 * k)) (hr : r.state = .idle) :
    (run RxSide.step r (inputs v a (f.endWord + 1))).state = .idle ∧
      heard obs r (inputs v a (f.endWord + 1)) = calledFor g [f] := by
  by_cases hm : f.Matches
  · have hmin := f.min_length
    have hend : 9 ≤ f.endWord := by
      simp only [EtherFrame.endWord]
      omega
    obtain ⟨h1, h2⟩ := matching_run obs hf hm (hg hm) a (fun k hk => hv k (by omega)) hr
    -- the words behind the tenth have no start character
    obtain ⟨h3, h4⟩ := skip_run obs (v := v) (a + 10) (f.endWord - 9) h1 fun k hk => by
      rw [show a + 10 + k = a + (10 + k) by omega, hv _ (by omega), ← Bool.not_eq_true,
        startIn_wordAt c _ (by decide)]
      exact noStart_upto hf hc _ (by omega) (by omega)
    rw [show f.endWord + 1 = 10 + (f.endWord - 9) by omega, inputs_add]
    refine ⟨by rw [run_append]; exact h3, ?_⟩
    rw [heard_append, h2, h4]
    simp [calledFor, hm]
  · obtain ⟨h1, h2⟩ := other_run obs hf hc hm a hv hr
    exact ⟨h1, by rw [h2]; simp [calledFor, hm]⟩

end Receiver

/-! ### All frames of a stream -/

theorem calledFor_cons {α : Type*} (g : EtherFrame → α) (f : EtherFrame) (fs : List EtherFrame) :
    calledFor g (f :: fs) = calledFor g [f] ++ calledFor g fs := by
  by_cases hm : f.Matches <;> simp [calledFor, hm]

/-- What the aligner gives the receiver, the two words of zeros left out. -/
def aligned (c : ℕ → XChar) (t : ℕ) : XgmiiWord := wordAt c (XgmiiSync.pos c t)

section Frames

variable {α : Type*} {obs : RxSide → α} {g : EtherFrame → α} {c : ℕ → XChar}

/-- **The receiver goes through the frames of the aligned stream.**  Before word `a` it has read
everything up to position `p`: the words from `a` on have no start character before the next of
the stream, which is not in a word before `a`. -/
theorem heard_carries {fs : List EtherFrame} {p a : ℕ} {r : RxSide} (hc : Carries c p fs)
    (hr : r.state = .idle) (hg : ∀ f ∈ fs, f.Matches → f.Shows obs (g f))
    (hquiet : ∀ b, a ≤ b → NoStart c p (8 * b + 8) → startIn (aligned c b) 0 = false)
    (hnext : ∀ s, p ≤ s → 4 ∣ s → a ≤ s / 8) (b : ℕ) (hab : a ≤ b)
    (hb : ∀ q, 8 * b ≤ q + 16 → c q = .idle) :
    heard obs r (inputs (aligned c) a (b - a)) = calledFor g fs := by
  induction fs generalizing p a r with
  | nil =>
    refine (skip_run obs a (b - a) hr fun k _ => hquiet (a + k) (by omega) fun q hq _ => ?_).2
    rw [hc q hq]
    decide
  | cons f fs ih =>
    obtain ⟨s, hps, hidle, hf, hc⟩ := hc
    have hsa := hnext s hps hf.lane
    have hlane := hf.lane
    have hend : f.endWord = (f.octets.length + 7) / 8 + 1 := rfl
    -- the frame is over before `b`
    have hsb : s / 8 + f.endWord + 1 ≤ b := by
      by_contra hlt
      have hterm := hf.term
      rw [hb _ (by omega)] at hterm
      cases hterm
    -- the idle characters before it
    obtain ⟨h1, h2⟩ := skip_run obs (v := aligned c) a (s / 8 - a) hr fun k hk => by
      refine hquiet (a + k) (by omega) fun q h1 h2 => ?_
      rw [hidle q h1 (by omega)]
      decide
    -- the frame
    have hpos : ∀ k ≤ f.endWord, aligned c (s / 8 + k) = wordAt c (s + 8 * k) := by
      intro k hk
      rw [aligned, XgmiiSync.pos_of_frame hf k fun q h1 h2 =>
        noStart_upto hf hc q h1 (by omega)]
    obtain ⟨h3, h4⟩ := frame_run obs hf hc (hg f List.mem_cons_self) (s / 8) hpos h1
    -- the frames behind it
    have h5 := ih hc h3 (fun f' hf' => hg f' (List.mem_cons_of_mem _ hf'))
      (a := s / 8 + (f.endWord + 1)) (fun b' hb' hno => by
      have hno' : NoStart c (s + 1) (8 * b' + 8) := by
        intro q h1 h2
        by_cases hq : q < s + 20 + f.octets.length
        · exact hf.noStart q h1 hq
        · exact hno q (by omega) h2
      obtain ⟨k, rfl⟩ := Nat.exists_eq_add_of_le (show s / 8 ≤ b' by omega)
      rw [aligned, XgmiiSync.pos_of_frame hf k hno', ← Bool.not_eq_true,
        startIn_wordAt c _ (by decide)]
      exact hno' _ (by omega) (by omega)) (fun s' hs' hlane' => by omega) (by omega)
    have hsplit : b - a = (s / 8 - a) + ((f.endWord + 1) + (b - (s / 8 + (f.endWord + 1)))) := by
      omega
    rw [hsplit, inputs_add, inputs_add, show a + (s / 8 - a) = s / 8 by omega, heard_append,
      heard_append, h2, h4, h5, ← calledFor_cons]
    rfl

end Frames

/-! ### The path -/

section Path

variable {α : Type*}

theorem seen_eq_heard (obs : RxSide → α) (c : ℕ → XChar) (n : ℕ) :
    RxPath.seen obs (RxPath.words c n) =
      heard obs RxSide.reset (inputs (XgmiiSync.outs c) 0 n) := by
  let J := fun k (s : RxPath) l => XgmiiSync.After c k s.sync ∧
    s.rx = run RxSide.step RxSide.reset (inputs (XgmiiSync.outs c) 0 k) ∧
    l = heard obs RxSide.reset (inputs (XgmiiSync.outs c) 0 k)
  have h : J n (run RxPath.step RxPath.reset (RxPath.words c n))
      (RxPath.seen obs (RxPath.words c n)) := by
    refine stream_induction (J := J) _ 0 n ⟨XgmiiSync.after_reset c, rfl, rfl⟩ ?_
    rintro k - s l ⟨hs, hr, rfl⟩
    have hrx : (s.step (wordAt c (8 * (0 + k)))).rx = s.rx.step (XgmiiSync.outs c k) := by
      rw [RxPath.step, hs.out]
    simp only [J]
    rw [inputs_succ, run_concat, heard_append, heard_singleton, hrx, ← hr, Nat.zero_add]
    exact ⟨XgmiiSync.after_step hs, rfl, rfl⟩
  exact h.2.2

theorem seen_prefix (obs : RxSide → α) (c : ℕ → XChar) {m n : ℕ} (h : m ≤ n) :
    RxPath.seen obs (RxPath.words c m) <+: RxPath.seen obs (RxPath.words c n) := by
  obtain ⟨k, rfl⟩ := Nat.exists_eq_add_of_le h
  rw [RxPath.seen, RxPath.seen, RxPath.words, RxPath.words, inputs_add, log_append]
  exact List.prefix_append _ _

variable {obs : RxSide → α} {g : EtherFrame → α} {c : ℕ → XChar} {fs : List EtherFrame}

/-- Two words after the last frame every pulse is over. -/
theorem seen_eq_calledFor (hc : Carries c 0 fs) (hg : ∀ f ∈ fs, f.Matches → f.Shows obs (g f))
    (b : ℕ) (hb : ∀ q, 8 * b ≤ q + 16 → c q = .idle) :
    RxPath.seen obs (RxPath.words c (b + 2)) = calledFor g fs := by
  have hidle : (run RxSide.step RxSide.reset (inputs (XgmiiSync.outs c) 0 2)).state = .idle ∧
      heard obs RxSide.reset (inputs (XgmiiSync.outs c) 0 2) = [] :=
    skip_run obs 0 2 rfl fun k hk => by interval_cases k <;> simp [XgmiiSync.outs, startIn]
  have hquiet : ∀ b, 0 ≤ b → NoStart c 0 (8 * b + 8) → startIn (aligned c b) 0 = false := by
    intro b _ hno
    rw [aligned, XgmiiSync.pos_of_noStart hno, ← Bool.not_eq_true, startIn_wordAt c _ (by decide)]
    exact hno _ (by omega) (by omega)
  have h := heard_carries hc hidle.1 hg hquiet (fun s _ _ => Nat.zero_le _) b (Nat.zero_le b) hb
  rw [seen_eq_heard, Nat.add_comm b 2, inputs_add, heard_append, hidle.2, List.nil_append, ← h]
  congr 1
  refine inputs_congr fun k _ => ?_
  rw [Nat.add_comm (0 + 2) k, Nat.zero_add k]
  rfl

/-- An observer sees the frames that match, in order, and each once. -/
theorem seen_of_frames (hc : Carries c 0 fs) (hg : ∀ f ∈ fs, f.Matches → f.Shows obs (g f)) :
    (∀ n, RxPath.seen obs (RxPath.words c n) <+: calledFor g fs) ∧
      ∀ b, (∀ q, 8 * b ≤ q + 16 → c q = .idle) →
        RxPath.seen obs (RxPath.words c (b + 2)) = calledFor g fs := by
  refine ⟨fun n => ?_, fun b hb => seen_eq_calledFor hc hg b hb⟩
  obtain ⟨e, he⟩ := hc.eventually_idle
  rw [← seen_eq_calledFor hc hg (n + e + 2) fun q hq => he q (by omega)]
  exact seen_prefix obs c (by omega)

end Path

/-- **No frame is missed or misread.**  On a stream of frames of 64 to 16384 octets with at least
twelve octets from one terminate character to the next start, in lane 0 or lane 4, the path
pulses `tlp_frame_end` once for each frame that matches, in order, with octets 48 to 55 and 56 to
63 of that frame, and never otherwise. -/
theorem pulses_of_frames (c : ℕ → XChar) (fs : List EtherFrame) (hc : Carries c 0 fs) :
    (∀ n, RxPath.pulses c n <+: expected fs) ∧
      ∀ b, (∀ q, 8 * b ≤ q + 16 → c q = .idle) → RxPath.pulses c (b + 2) = expected fs :=
  seen_of_frames hc fun f _ _ => f.shows_pair

/-- A frame of 64 octets that matches, with octets 48 to 63 counting from 0 to 15. -/
def pingFrame : EtherFrame where
  octets := List.replicate 12 0 ++ [0x08, 0x00] ++ List.replicate 9 0 ++ [0x11] ++
    List.replicate 12 0 ++ [0x0d, 0x5e] ++ List.replicate 4 0 ++ [0xbe, 0x9b, 0xe9, 0x55, 0, 0] ++
    [0, 1, 2, 3, 4, 5, 6, 7, 8, 9, 10, 11, 12, 13, 14, 15]
  min_length := by decide
  max_length := by decide

/-- A frame of 64 octets of zeros. -/
def zeroFrame : EtherFrame := ⟨List.replicate 64 0, by decide, by decide⟩

/-- The frame of zeros in lane 0, the other one in lane 4 at the smallest distance. -/
def pingStream : ℕ → XChar := streamOf [zeroFrame, pingFrame]

theorem pingStream_idle {q : ℕ} (h : 157 ≤ q) : pingStream q = .idle := by
  rcases Nat.lt_or_ge q 168 with hlt | hge
  · interval_cases q <;> rfl
  · exact streamOf_idle hge

theorem pingStream_carries : Carries pingStream 0 [zeroFrame, pingFrame] :=
  streamOf_carries (by decide)

theorem pulses_pingStream : RxPath.pulses pingStream 24 =
    [(0x0706050403020100#64, 0x0f0e0d0c0b0a0908#64)] :=
  ((pulses_of_frames pingStream _ pingStream_carries).2 22 fun q hq =>
    pingStream_idle (by omega)).trans (by decide)

end IpNuma
