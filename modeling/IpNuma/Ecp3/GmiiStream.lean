import IpNuma.Ecp3.GmiiFrame

/-!
# Frames over GMII

The FIFO of `fifo9togmii` holds frames, each with at least two octets and five words of gap.  Four
words of the gap are read while the check sequence is sent, so the fifth one keeps `gmii_tx_en` low
between two frames.

* `streams_step` is the invariant of the sender, and `sent_part` what it says of any run;
* `weight_step` bounds the time until everything is sent;
* `Gmii2Fifo9.log_frames` says what the receiver writes;
* `frames_roundtrip` is the result for both.
-/

namespace IpNuma

open Clocked

/-- A frame in the FIFO: its octets, and the low octets of the words behind it. -/
structure GmiiFrame where
  octets : List (BitVec 8)
  gap : List (BitVec 8)
  two_le : 2 ≤ octets.length
  five_le : 5 ≤ gap.length

/-- The words of a frame: the tag is 1 for the octets and 0 behind them. -/
def GmiiFrame.words (f : GmiiFrame) : List (BitVec 9) :=
  f.octets.map Server.byteWord ++ f.gap.map Server.gapWord

theorem GmiiFrame.gap_ne_nil (f : GmiiFrame) : f.gap ≠ [] :=
  List.ne_nil_of_length_pos (Nat.lt_of_lt_of_le (by decide) f.five_le)

/-- The frames with the octets `ls` on GMII: the bytes of each, and at least one idle byte behind
it. -/
def CarriesFrames (ls : List (List (BitVec 8))) (bs : List GmiiBeat) : Prop :=
  ∃ (before : List GmiiBeat) (ps : List (List (BitVec 8) × List GmiiBeat)), Idles before ∧
    (∀ p ∈ ps, Idles p.2 ∧ p.2 ≠ []) ∧ ps.map Prod.fst = ls ∧
    bs = before ++ ps.flatMap fun p => (sentOctets p.1).map octetBeat ++ p.2

/-- The words of the frames with the octets `ls` and their check sequences: at least one word of gap
is behind each. -/
def HoldsFrames (ls : List (List (BitVec 8))) (ws : List (BitVec 9)) : Prop :=
  ∃ ps : List (List (BitVec 8) × ℕ), (∀ p ∈ ps, 1 ≤ p.2) ∧ ps.map Prod.fst = ls ∧
    ws = ps.flatMap fun p =>
      (p.1 ++ gmiiFcs p.1).map Server.byteWord ++ List.replicate p.2 (Server.gapWord 0)

theorem carries_nil {bs : List GmiiBeat} (h : Idles bs) : CarriesFrames [] bs :=
  ⟨bs, [], h, List.forall_mem_nil _, rfl, (List.append_nil bs).symm⟩

/-- One more frame. -/
theorem CarriesFrames.concat {ls : List (List (BitVec 8))} {ws behind : List GmiiBeat}
    (h : CarriesFrames ls ws) (l : List (BitVec 8)) (hbehind : Idles behind)
    (hne : behind ≠ []) :
    CarriesFrames (ls ++ [l]) (ws ++ ((sentOctets l).map octetBeat ++ behind)) := by
  obtain ⟨before, ps, hbefore, hps, rfl, rfl⟩ := h
  refine ⟨before, ps ++ [(l, behind)], hbefore, ?_, by rw [List.map_append]; rfl, ?_⟩
  · exact List.forall_mem_append.2 ⟨hps, List.forall_mem_singleton.2 ⟨hbehind, hne⟩⟩
  · rw [List.flatMap_append, List.flatMap_singleton, List.append_assoc]

/-- Any frames can follow. -/
theorem CarriesFrames.append {ls : List (List (BitVec 8))} {ws : List GmiiBeat}
    (h : CarriesFrames ls ws) (ks : List (List (BitVec 8))) :
    ∃ more, CarriesFrames (ls ++ ks) (ws ++ more) := by
  induction ks generalizing ls ws with
  | nil => exact ⟨[], by rwa [List.append_nil, List.append_nil]⟩
  | cons k ks ih =>
    have hidle : Idles [⟨false, 0⟩] := List.forall_mem_singleton.2 rfl
    obtain ⟨more, hmore⟩ := ih (h.concat k hidle (List.cons_ne_nil _ _))
    rw [List.append_assoc, List.append_assoc] at hmore
    exact ⟨_, hmore⟩

/-! ### The sender -/

namespace GmiiFeed

variable {s : GmiiFeed} {i : FeedIn} {fs : List GmiiFrame} {bs : List GmiiBeat}

/-- How far the frames have got. -/
inductive Streams (fs : List GmiiFrame) (s : GmiiFeed) (bs : List GmiiBeat) : Prop
  | before (hst : s.side.tx.state = .idle) (hq : s.queue = fs.flatMap GmiiFrame.words)
      (hbs : Idles bs) : Streams fs s bs
  | frame {done rest : List GmiiFrame} {f : GmiiFrame} {ws : List GmiiBeat}
      (hfs : fs = done ++ f :: rest) (hws : CarriesFrames (done.map GmiiFrame.octets) ws)
      (h : Sends f.octets f.gap (rest.flatMap GmiiFrame.words) ws s bs) : Streams fs s bs

/-- The first word of the next frame. -/
theorem streams_next {done rest : List GmiiFrame} {f : GmiiFrame}
    (hfs : fs = done ++ f :: rest) (hws : CarriesFrames (done.map GmiiFrame.octets) bs)
    (hst : s.side.tx.state = .idle) (hq : s.queue = (f :: rest).flatMap GmiiFrame.words)
    (hf : s.side.fifo ≠ []) : Streams fs (s.step i) (bs ++ s.beat i) := by
  rw [List.flatMap_cons, GmiiFrame.words, List.append_assoc] at hq
  have htwo := f.two_le
  refine .frame hfs hws ?_
  revert hq htwo
  generalize f.octets = l
  intro hq htwo
  obtain ⟨a, l, rfl⟩ := List.exists_cons_of_length_pos (Nat.lt_of_lt_of_le Nat.zero_lt_two htwo)
  obtain ⟨b, l, rfl⟩ := List.exists_cons_of_length_pos (Nat.lt_of_succ_lt_succ htwo)
  exact sends_start hst hq hf

/-- The frames that are still in the queue. -/
theorem exists_next {rest : List GmiiFrame} (hq : s.queue = rest.flatMap GmiiFrame.words)
    (hf : s.side.fifo ≠ []) : ∃ f rest', rest = f :: rest' := by
  cases rest with
  | nil => exact absurd (List.append_eq_nil_iff.1 hq).1 hf
  | cons f rest => exact ⟨f, rest, rfl⟩

/-- **One edge.** -/
theorem streams_step (h : Streams fs s bs) (hno : s.NoUnderflow i) :
    Streams fs (s.step i) (bs ++ s.beat i) := by
  cases h with
  | before hst hq hbs =>
    by_cases hf : s.side.fifo = []
    · obtain ⟨hst', d, hbeat⟩ := idle_step (i := i) hst (.inl (List.isEmpty_iff.2 hf))
      refine .before hst' ((queue_empty (by rw [hst]; decide) hf).trans hq) ?_
      rw [hbeat]
      exact idles_concat hbs d
    · obtain ⟨f, rest, rfl⟩ := exists_next hq hf
      have hfs : f :: rest = [] ++ f :: rest := rfl
      exact streams_next hfs (carries_nil hbs) hst hq hf
  | @frame done rest f ws hfs hws h =>
    by_cases hnext : s.side.tx.state = .idle ∧ s.queue = rest.flatMap GmiiFrame.words ∧
        s.side.fifo ≠ []
    · -- the gap is used up, four of its words in the check sequence
      obtain ⟨hst, hq, hf⟩ := hnext
      obtain ⟨g', behind, hq', hlen, hbehind, rfl⟩ := sent_of_idle h hst
      have hfive := f.five_le
      have hg' : g' = [] := by
        have hsum := congrArg List.length (hq'.symm.trans hq)
        rw [List.length_append, List.length_map] at hsum
        exact List.length_eq_zero_iff.1 (by omega)
      have hne : behind ≠ [] := by
        rintro rfl
        rw [hg', List.length_nil, List.length_nil] at hlen
        omega
      obtain ⟨f', rest', rfl⟩ := exists_next hq hf
      have hfs' : fs = (done ++ [f]) ++ f' :: rest' := by rw [hfs, List.append_cons]
      refine streams_next hfs' ?_ hst hq hf
      rw [List.map_append]
      exact hws.concat f.octets hbehind hne
    · exact .frame hfs hws (sends_step f.gap_ne_nil (.inl f.five_le) h hno fun hst hq =>
        Classical.not_not.1 fun hf => hnext ⟨hst, hq, hf⟩)

theorem streams_run (t : Fifo9ToGmii) (fs : List GmiiFrame) {is : List FeedIn}
    (h : Along step NoUnderflow (start t (fs.flatMap GmiiFrame.words)) is) :
    Streams fs (run step (start t (fs.flatMap GmiiFrame.words)) is)
      (log step beat (start t (fs.flatMap GmiiFrame.words)) is) :=
  log_induction (J := Streams fs) (.before rfl rfl (List.forall_mem_nil _))
    (fun _ _ _ hs hno => streams_step hs hno) is h

/-- The bytes that are missing of a frame, with an idle byte behind them if there is none. -/
theorem sends_part {l g : List (BitVec 8)} {tail : List (BitVec 9)} {ws : List GmiiBeat}
    (h : Sends l g tail ws s bs) : ∃ more behind, Idles behind ∧ behind ≠ [] ∧
      bs ++ more = ws ++ ((sentOctets l).map octetBeat ++ behind) := by
  have hidle : Idles [⟨false, 0⟩] := List.forall_mem_singleton.2 rfl
  -- until the frame is sent a first part of its bytes is
  have hpart : ∀ {part : List (BitVec 8)} (rest : List (BitVec 8)), part ++ rest = sentOctets l →
      bs = ws ++ part.map octetBeat → ∃ more behind, Idles behind ∧ behind ≠ [] ∧
        bs ++ more = ws ++ ((sentOctets l).map octetBeat ++ behind) := by
    intro part rest hparts hbs
    refine ⟨rest.map octetBeat ++ [⟨false, 0⟩], _, hidle, List.cons_ne_nil _ _, ?_⟩
    rw [← hparts, hbs, List.map_append]
    simp only [List.append_assoc]
  cases h with
  | @pre a b rest k hk hl hst hc hinit h1 h2 hq hbs =>
    exact hpart (gmiiPreamble.drop (k + 1) ++ (l ++ gmiiFcs l))
      (by rw [← List.append_assoc, List.take_append_drop]; rfl) hbs
  | @sfd a b rest hl hst h2 hcrc hq hbs =>
    exact hpart ((b :: rest) ++ gmiiFcs l) (by rw [hl]; rfl) hbs
  | @data l₁ l₂ hl hst hcrc hq hbs =>
    exact hpart (l₂ ++ gmiiFcs l)
      (by rw [sentOctets, hl]; simp only [List.append_assoc]) hbs
  | @fcs g' k hk hst hc hcrc hq hg hbs =>
    exact hpart ((gmiiFcs l).drop (k + 1))
      (by rw [List.append_assoc, List.append_assoc, List.take_append_drop]; rfl) hbs
  | @sent g' behind hst hq hg hbehind hbs =>
    refine ⟨[⟨false, 0⟩], behind ++ [⟨false, 0⟩], idles_concat hbehind 0, ?_, ?_⟩
    · exact List.append_ne_nil_of_right_ne_nil _ (List.cons_ne_nil _ _)
    · rw [hbs]
      simp only [List.append_assoc]

/-- **What is sent so far** in any run is the beginning of what is to be sent. -/
theorem sent_part (h : Streams fs s bs) :
    ∃ more, CarriesFrames (fs.map GmiiFrame.octets) (bs ++ more) := by
  cases h with
  | before hst hq hbs => exact (carries_nil hbs).append (fs.map GmiiFrame.octets)
  | @frame done rest f ws hfs hws h =>
    obtain ⟨more, behind, hbehind, hne, hbs⟩ := sends_part h
    obtain ⟨more', hmore⟩ :=
      (hws.concat f.octets hbehind hne).append (rest.map GmiiFrame.octets)
    refine ⟨more ++ more', ?_⟩
    rw [← List.append_assoc, hbs, hfs, List.map_append, List.map_cons, List.append_cons]
    exact hmore

/-- When all words have been read and the sender is idle everything is sent. -/
theorem carries_of_idle (h : Streams fs s bs) (hst : s.side.tx.state = .idle)
    (hq : s.queue = []) : CarriesFrames (fs.map GmiiFrame.octets) bs := by
  have hwords : ∀ fs : List GmiiFrame, fs.flatMap GmiiFrame.words = [] → fs = [] := by
    intro fs hfs
    cases fs with
    | nil => rfl
    | cons f fs =>
      have hnil := (List.append_eq_nil_iff.1 (List.append_eq_nil_iff.1 hfs).1).2
      exact absurd (List.map_eq_nil_iff.1 hnil) f.gap_ne_nil
  cases h with
  | before hst' hq' hbs =>
    rw [hwords fs (hq'.symm.trans hq)]
    exact carries_nil hbs
  | @frame done rest f ws hfs hws h =>
    obtain ⟨g', behind, hq', hlen, hbehind, rfl⟩ := sent_of_idle h hst
    obtain ⟨hg', hrest⟩ := List.append_eq_nil_iff.1 (hq'.symm.trans hq)
    have hfive := f.five_le
    have hne : behind ≠ [] := by
      rintro rfl
      rw [List.map_eq_nil_iff.1 hg', List.length_nil, List.length_nil] at hlen
      omega
    rw [hfs, hwords rest hrest, List.map_append]
    exact hws.concat f.octets hbehind hne

/-! ### The end of a run -/

/-- The cycles that are left of the preamble and of the check sequence. -/
def phaseWeight (t : Fifo9ToGmii) : ℕ :=
  match t.state with
  | .pre => 8 - t.count.toNat
  | .fcs => 3 - t.fcsCount.toNat
  | _ => 0

/-- A bound on the cycles until everything is sent, if all words have arrived. -/
def weight (s : GmiiFeed) : ℕ := 9 * s.side.fifo.length + phaseWeight s.side.tx

theorem phaseWeight_le (t : Fifo9ToGmii) : phaseWeight t ≤ 8 := by
  unfold phaseWeight
  cases t.state <;> simp only <;> omega

/-- The place in the check sequence. -/
theorem fcs_count (h : Streams fs s bs) (hst : s.side.tx.state = .fcs) :
    ∃ k < 3, s.side.tx.fcsCount = BitVec.ofNat 2 k := by
  cases h with
  | before hst' => exact absurd (hst'.symm.trans hst) (by decide)
  | frame _ _ h =>
    cases h with
    | pre _ _ h => exact absurd (h.symm.trans hst) (by decide)
    | sfd _ h => exact absurd (h.symm.trans hst) (by decide)
    | data _ h => exact absurd (h.symm.trans hst) (by decide)
    | fcs hk _ hc => exact ⟨_, hk, hc⟩
    | sent h => exact absurd (h.symm.trans hst) (by decide)

/-- Every edge lowers the bound. -/
theorem weight_step (h : Streams fs s bs) (htodo : s.todo = []) (hno : s.NoUnderflow i) :
    (s.step i).weight ≤ s.weight - 1 := by
  have hfifo : (s.step i).side.fifo =
      if s.side.tx.state = .pre then s.side.fifo else s.side.fifo.tail := by
    rw [step, GmiiSide.fifo_step, gmiiIn, htodo, List.take_nil, List.append_nil]
  have htail : s.side.fifo.tail.length = s.side.fifo.length - 1 := List.length_tail
  have hpos : s.side.fifo ≠ [] → 0 < s.side.fifo.length := List.length_pos_iff.2
  have htx := tx_step s i
  unfold weight
  cases hst : s.side.tx.state with
  | idle =>
    rw [hst, if_neg (by decide)] at hfifo
    rw [hfifo, htail]
    by_cases hquiet : s.side.fifo.isEmpty = true ∨ (s.side.dout (s.gmiiIn i)).getLsbD 8 = false
    · have hphase : phaseWeight (s.step i).side.tx = 0 := by
        unfold phaseWeight
        rw [(idle_step hst hquiet).1]
      omega
    · obtain ⟨hempty, htag⟩ := not_or.1 hquiet
      have hlen := hpos fun hnil => hempty (List.isEmpty_iff.2 hnil)
      have hphase := phaseWeight_le (s.step i).side.tx
      omega
  | pre =>
    rw [hst, if_pos rfl] at hfifo
    have hk := s.side.tx.count.isLt
    have hc : s.side.tx.count = BitVec.ofNat 3 s.side.tx.count.toNat :=
      ((BitVec.ofNat_toNat 3 _).trans (BitVec.setWidth_eq _)).symm
    rw [Fifo9ToGmii.step_pre hst hc hk] at htx
    have hphase : phaseWeight (s.step i).side.tx ≤ 8 - s.side.tx.count.toNat - 1 := by
      rw [htx]
      unfold phaseWeight
      by_cases h7 : s.side.tx.count.toNat = 7
      · simp only [if_pos h7]
        omega
      · simp only [if_neg h7, BitVec.toNat_ofNat]
        omega
    have hweight : phaseWeight s.side.tx = 8 - s.side.tx.count.toNat := by
      unfold phaseWeight
      rw [hst]
    rw [hfifo, hweight]
    omega
  | sfd =>
    have hlen := hpos (hno (.inr (.inl hst)))
    have hphase := phaseWeight_le (s.step i).side.tx
    rw [hst, if_neg (by decide)] at hfifo
    rw [hfifo, htail]
    omega
  | data =>
    have hlen := hpos (hno (.inr (.inr hst)))
    have hphase := phaseWeight_le (s.step i).side.tx
    rw [hst, if_neg (by decide)] at hfifo
    rw [hfifo, htail]
    omega
  | fcs =>
    obtain ⟨k, hk, hc⟩ := fcs_count h hst
    rw [hst, if_neg (by decide)] at hfifo
    rw [Fifo9ToGmii.step_fcs hst hc hk] at htx
    have hphase : phaseWeight (s.step i).side.tx ≤ 3 - k - 1 := by
      rw [htx]
      unfold phaseWeight
      by_cases h2 : k = 2
      · simp only [if_pos h2]
        omega
      · simp only [if_neg h2, BitVec.toNat_ofNat]
        omega
    have hweight : phaseWeight s.side.tx = 3 - k := by
      unfold phaseWeight
      rw [hst, hc]
      simp only [BitVec.toNat_ofNat]
      omega
    rw [hfifo, htail, hweight]
    omega

/-- Without work left the sender is idle. -/
theorem idle_of_weight (h : Streams fs s bs) (htodo : s.todo = []) (hw : s.weight = 0) :
    s.side.tx.state = .idle ∧ s.queue = [] := by
  have hq : s.queue = [] := by
    rw [queue, htodo, List.append_nil]
    exact List.length_eq_zero_iff.1 (by unfold weight at hw; omega)
  refine ⟨?_, hq⟩
  cases h with
  | before hst => exact hst
  | @frame done rest f ws hfs hws h =>
    cases h with
    | pre _ _ _ _ _ _ _ hq' => exact absurd (hq'.symm.trans hq) (List.cons_ne_nil _ _)
    | sfd _ _ _ _ hq' => exact absurd (hq'.symm.trans hq) (List.cons_ne_nil _ _)
    | data _ _ _ hq' =>
      have hnil := (List.append_eq_nil_iff.1 (hq'.symm.trans hq)).2
      exact absurd (List.map_eq_nil_iff.1 (List.append_eq_nil_iff.1 hnil).1) f.gap_ne_nil
    | @fcs g' k hk hst hc =>
      have hphase : phaseWeight s.side.tx = 3 - k := by
        unfold phaseWeight
        rw [hst, hc]
        simp only [BitVec.toNat_ofNat]
        omega
      unfold weight at hw
      omega
    | sent hst => exact hst

end GmiiFeed

/-! ### The receiver -/

namespace Gmii2Fifo9

variable {g : BitVec 4} {s : Gmii2Fifo9} {bs : List GmiiBeat}

theorem ofNat_gapCount (c : BitVec 4) : c = BitVec.ofNat 4 c.toNat :=
  ((BitVec.ofNat_toNat 4 c).trans (BitVec.setWidth_eq c)).symm

/-- An idle byte ends the frame. -/
theorem state_idles (hbs : Idles bs) (hne : bs ≠ []) : (run (step g) s bs).state = .idle := by
  have hlast := hbs _ (List.getLast_mem hne)
  rw [← List.dropLast_append_getLast hne, run_concat]
  exact (step_idle hlast (BitVec.isLt _) (ofNat_gapCount _)).1

/-- The bytes of a frame and the idle bytes behind it. -/
theorem log_frame {l : List (BitVec 8)} {behind : List GmiiBeat} (hst : s.state = .idle)
    (hbehind : Idles behind) :
    log (step g) (push g) s ((sentOctets l).map octetBeat ++ behind) =
      (l ++ gmiiFcs l).map Server.byteWord ++
        List.replicate (min g.toNat behind.length) (Server.gapWord 0) := by
  obtain ⟨hlog₁, hst₁⟩ := log_preamble (g := g) hst
  obtain ⟨hlog₂, hgap⟩ := log_octets (g := g) hst₁ (l ++ gmiiFcs l)
  have hne : l ++ gmiiFcs l ≠ [] :=
    List.append_ne_nil_of_right_ne_nil _ (List.cons_ne_nil _ _)
  have hlog₃ := log_idles (g := g) hbehind g.isLt ((hgap hne).trans (ofNat_gapCount g))
  rw [sentOctets, List.map_append, List.append_assoc, log_append, log_append, hlog₁, hlog₂, hlog₃]
  rfl

/-- **What is received of the frames**: each with its check sequence, and words of gap behind it. -/
theorem log_frames (hg : g ≠ 0) {ls : List (List (BitVec 8))} (h : CarriesFrames ls bs)
    (m : Gmii2Fifo9) : HoldsFrames ls (log (step g) (push g) m.reset bs) := by
  obtain ⟨before, ps, hbefore, hps, rfl, rfl⟩ := h
  have hpos : 0 < g.toNat := Nat.pos_of_ne_zero fun h0 => hg (BitVec.eq_of_toNat_eq h0)
  obtain ⟨hlog, hst, -⟩ := idles_before (g := g) (s := m.reset) hbefore rfl rfl
  rw [log_append, hlog, List.nil_append]
  revert hst hps
  generalize run (step g) m.reset before = s
  intro hps hst
  refine ⟨ps.map fun p => (p.1, min g.toNat p.2.length), ?_, ?_, ?_⟩
  · rw [List.forall_mem_map]
    intro p hp
    exact le_min hpos (List.length_pos_iff.2 (hps p hp).2)
  · rw [List.map_map]
    rfl
  · rw [List.flatMap_map]
    induction ps generalizing s with
    | nil => rfl
    | cons p ps ih =>
      obtain ⟨⟨hidles, hne⟩, hps⟩ := List.forall_mem_cons.1 hps
      rw [List.flatMap_cons, List.flatMap_cons, log_append, log_frame hst hidles]
      rw [run_append, ih _ hps (state_idles hidles hne)]

end Gmii2Fifo9

/-! ### Both -/

namespace GmiiFeed

variable (t : Fifo9ToGmii) (m : Gmii2Fifo9) (g : BitVec 4) (fs : List GmiiFrame)

/-- What the sender sends of the frames. -/
def sent (is : List FeedIn) : List GmiiBeat :=
  log step beat (start t (fs.flatMap GmiiFrame.words)) is

/-- What the receiver writes of that. -/
def received (is : List FeedIn) : List (BitVec 9) :=
  log (Gmii2Fifo9.step g) (Gmii2Fifo9.push g) m.reset (sent t fs is)

variable {t m g fs}

theorem length_queue_run (s : GmiiFeed) (is : List FeedIn) :
    (run step s is).queue.length ≤ s.queue.length := by
  refine run_induction (J := fun s' => s'.queue.length ≤ s.queue.length) le_rfl
    (fun s' i hs _ => le_trans ?_ hs) is (along_true step is)
  rw [queue_step, queue, List.length_append, List.length_append]
  split_ifs
  · exact le_rfl
  · rw [List.length_tail]
    omega

/-- Some time after all words have arrived everything is sent. -/
theorem sent_all {is js : List FeedIn}
    (h : Along step NoUnderflow (start t (fs.flatMap GmiiFrame.words)) (is ++ js))
    (htodo : (run step (start t (fs.flatMap GmiiFrame.words)) is).todo = [])
    (hlong : 9 * (fs.flatMap GmiiFrame.words).length + 8 ≤ js.length) :
    CarriesFrames (fs.map GmiiFrame.octets) (sent t fs (is ++ js)) := by
  obtain ⟨his, hjs⟩ := (along_append step NoUnderflow _ is js).1 h
  have hweight : (run step (start t (fs.flatMap GmiiFrame.words)) is).weight ≤
      9 * (fs.flatMap GmiiFrame.words).length + 8 := by
    have hqueue := length_queue_run (start t (fs.flatMap GmiiFrame.words)) is
    have hphase := phaseWeight_le (run step (start t (fs.flatMap GmiiFrame.words)) is).side.tx
    rw [queue, List.length_append] at hqueue
    change _ ≤ (fs.flatMap GmiiFrame.words).length at hqueue
    unfold weight
    omega
  have hstep : ∀ s i bs n, Streams fs s bs ∧ s.todo = [] ∧ s.weight ≤ n → NoUnderflow s i →
      Streams fs (step s i) (bs ++ beat s i) ∧ (step s i).todo = [] ∧
        (step s i).weight ≤ n - 1 := by
    rintro s i bs n ⟨hs, ht, hw⟩ hno
    exact ⟨streams_step hs hno, by rw [step, ht, List.drop_nil],
      (weight_step hs ht hno).trans (Nat.sub_le_sub_right hw 1)⟩
  have hend := @log_countdown _ _ _ step beat NoUnderflow
    (fun s bs n => Streams fs s bs ∧ s.todo = [] ∧ s.weight ≤ n) hstep
    _ _ _ ⟨streams_run t fs his, htodo, hweight⟩ js hjs
  rw [← log_append, ← run_append] at hend
  obtain ⟨hstreams, ht, hw⟩ := hend
  obtain ⟨hst, hq⟩ := idle_of_weight hstreams ht (by omega)
  exact carries_of_idle hstreams hst hq

/-- **Round trip.**  Frames with at least two octets and five words of gap are in the FIFO or still
to come, and the FIFO does not run empty within a frame.  What is sent in any run is a beginning of
what is to be sent: frame by frame the preamble, the octets, their CRC-32 and at least one idle
byte.  Some time after all words have arrived all of it is sent, and `gmii2fifo9` makes of it, frame
by frame, the octets, the CRC-32 and at least one word of gap. -/
theorem frames_roundtrip (hg : g ≠ 0) {is : List FeedIn}
    (h : Along step NoUnderflow (start t (fs.flatMap GmiiFrame.words)) is) :
    (∃ more, CarriesFrames (fs.map GmiiFrame.octets) (sent t fs is ++ more)) ∧
      ∀ js ks, is = js ++ ks → (run step (start t (fs.flatMap GmiiFrame.words)) js).todo = [] →
        9 * (fs.flatMap GmiiFrame.words).length + 8 ≤ ks.length →
          CarriesFrames (fs.map GmiiFrame.octets) (sent t fs is) ∧
            HoldsFrames (fs.map GmiiFrame.octets) (received t m g fs is) := by
  refine ⟨sent_part (streams_run t fs h), ?_⟩
  rintro js ks rfl htodo hlong
  have hcarries := sent_all h htodo hlong
  exact ⟨hcarries, Gmii2Fifo9.log_frames hg hcarries m⟩

/-- Frames of two and three octets. -/
def twoFrames : List GmiiFrame :=
  [⟨[0x12#8, 0x34#8], List.replicate 5 0x00#8, by decide, by decide⟩,
    ⟨[0x56#8, 0x78#8, 0x9a#8], List.replicate 6 0x00#8, by decide, by decide⟩]

/-- All words arrive in the first cycle. -/
def twoFramesRun : List FeedIn := ⟨16, 0⟩ :: List.replicate 152 ⟨0, 0⟩

theorem frames_roundtrip_two : CarriesFrames [[0x12#8, 0x34#8], [0x56#8, 0x78#8, 0x9a#8]]
      (sent default twoFrames twoFramesRun) ∧
    HoldsFrames [[0x12#8, 0x34#8], [0x56#8, 0x78#8, 0x9a#8]]
      (received default default 8#4 twoFrames twoFramesRun) := by
  have h : Along step NoUnderflow (start default (twoFrames.flatMap GmiiFrame.words))
      twoFramesRun := by decide +kernel
  exact (frames_roundtrip (m := default) (g := 8#4) (by decide) h).2 [⟨16, 0⟩]
    (List.replicate 152 ⟨0, 0⟩) rfl (by decide +kernel) (by decide +kernel)

end GmiiFeed

end IpNuma
