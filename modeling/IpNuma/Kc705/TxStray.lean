import IpNuma.Kc705.RoundTrip

/-!
# The transmitter behind the FIFO of the snoop

The snoop captures the last beat of a TLP once more in every cycle in which it waits for `tready`,
and between TLPs a beat that is no first one.  So the FIFO holds more words than those of its TLPs:
`Holding ts ws` says that the words `ws` are the TLPs `ts` in order and between them words that
start no TLP.  `FIFO_IDLE` pops these one by one.

`StrayHolds` is the job of a link over such a FIFO.  It has the steps of a job over a FIFO without
strays (`stray_step`), and for each state there is one of a link without strays that has the same
job and drives the same word (`StrayHolds.plain`).
-/

namespace IpNuma

open Clocked

/-! ### The words of a FIFO -/

/-- The words are the TLPs in order, and between them words that start none. -/
inductive Holding : List StoredTlp → List (BitVec 72) → Prop
  | nil : Holding [] []
  | stray (w : BitVec 72) {ts : List StoredTlp} {ws : List (BitVec 72)} :
      isStart w = false → Holding ts ws → Holding ts (w :: ws)
  | tlp (t : StoredTlp) {ts : List StoredTlp} {ws : List (BitVec 72)} :
      Holding ts ws → Holding (t :: ts) (t.words ++ ws)

namespace Holding

variable {ts us : List StoredTlp} {ws vs : List (BitVec 72)} {w : BitVec 72}

theorem append (h : Holding ts ws) (h' : Holding us vs) : Holding (ts ++ us) (ws ++ vs) := by
  induction h with
  | nil => exact h'
  | stray w hw _ ih => exact .stray w hw ih
  | tlp t _ ih =>
    rw [List.append_assoc]
    exact .tlp t ih

theorem concat_stray (h : Holding ts ws) (hw : isStart w = false) : Holding ts (ws ++ [w]) := by
  have happ := h.append (.stray w hw .nil)
  rwa [List.append_nil] at happ

theorem concat_tlp (h : Holding ts ws) (t : StoredTlp) : Holding (ts ++ [t]) (ws ++ t.words) := by
  have happ := h.append (.tlp t .nil)
  rwa [List.append_nil] at happ

/-- The head of the FIFO is a stray or the first word of the next TLP. -/
theorem head (h : Holding ts (w :: ws)) : (isStart w = false ∧ Holding ts ws) ∨
    ∃ t us vs, ts = t :: us ∧ w = t.first ∧ ws = t.rest ++ vs ∧ Holding us vs := by
  generalize hl : w :: ws = l at h
  cases h with
  | nil => cases hl
  | stray v hv h' =>
    obtain ⟨rfl, rfl⟩ := List.cons.inj hl
    exact Or.inl ⟨hv, h'⟩
  | tlp t h' =>
    obtain ⟨rfl, rfl⟩ := List.cons.inj hl
    exact Or.inr ⟨t, _, _, rfl, rfl, rfl, h'⟩

theorem eq_nil (h : Holding ts []) : ts = [] := by
  generalize hl : ([] : List (BitVec 72)) = l at h
  cases h with
  | nil => rfl
  | stray w _ _ => cases hl
  | tlp t _ => cases hl

/-- Words from which a reader recovers stored TLPs hold these TLPs, up to the TLP it is in. -/
theorem of_scan {part : Option (List (BitVec 72))} {ds : List (List (BitVec 72))}
    (h : scan isStart isLast ws = ⟨part, ds⟩) (hds : ∀ d ∈ ds, ∃ t : StoredTlp, t.words = d) :
    ∃ ts vs, ws = vs ++ part.getD [] ∧ Holding ts vs ∧ ts.map StoredTlp.words = ds := by
  induction ws using List.reverseRecOn generalizing part ds with
  | nil =>
    obtain ⟨rfl, rfl⟩ := Scan.mk.inj h
    exact ⟨[], [], rfl, .nil, rfl⟩
  | append_singleton ws w ih =>
    rw [scan_concat] at h
    generalize hs : scan isStart isLast ws = s at h
    obtain ⟨part', ds'⟩ := s
    cases part' with
    | none =>
      by_cases hw : isStart w = true
      · obtain ⟨rfl, rfl⟩ : some [w] = part ∧ ds' = ds := by simpa [Scan.next, hw] using h
        obtain ⟨ts, vs, rfl, hold, hmap⟩ := ih hs hds
        exact ⟨ts, vs, by simp, hold, hmap⟩
      · rw [Bool.not_eq_true] at hw
        obtain ⟨rfl, rfl⟩ : none = part ∧ ds' = ds := by simpa [Scan.next, hw] using h
        obtain ⟨ts, vs, rfl, hold, hmap⟩ := ih hs hds
        exact ⟨ts, vs ++ [w], by simp, hold.concat_stray hw, hmap⟩
    | some p =>
      by_cases hw : isLast w = true
      · obtain ⟨rfl, rfl⟩ : none = part ∧ ds' ++ [p ++ [w]] = ds := by simpa [Scan.next, hw] using h
        obtain ⟨ts, vs, rfl, hold, hmap⟩ := ih hs fun d hd => hds d (List.mem_append_left _ hd)
        obtain ⟨t, ht⟩ := hds (p ++ [w]) (by simp)
        refine ⟨ts ++ [t], vs ++ t.words, by simp [ht], hold.concat_tlp t, ?_⟩
        rw [List.map_append, hmap, List.map_singleton, ht]
      · rw [Bool.not_eq_true] at hw
        obtain ⟨rfl, rfl⟩ : some (p ++ [w]) = part ∧ ds' = ds := by
          simpa [Scan.next, hw] using h
        obtain ⟨ts, vs, rfl, hold, hmap⟩ := ih hs hds
        exact ⟨ts, vs, by simp, hold, hmap⟩

end Holding

/-! ### The job of the link -/

/-- The link is at the job, with strays among the words to come. -/
def StrayHolds (s : Link) : Job → Prop
  | .idle ts => InPhase .idle s.tx ∧ Holding ts (s.q ++ s.todo)
  | .armed t ts => InPhase .armed s.tx ∧ s.tx.fifo.dout2 = t.first ∧
      ∃ ws, s.q ++ s.todo = t.rest ++ ws ∧ Holding ts ws
  | .header k t ts => InPhase (.header k) s.tx ∧ s.tx.fifo.dout2 = t.first ∧
      ∃ ws, s.q ++ s.todo = t.rest ++ ws ∧ Holding ts ws
  | .first t ts => InPhase .first s.tx ∧ s.tx.fifo.dout2 = t.first ∧ t.rest <+: s.q ∧
      ∃ ws, s.q ++ s.todo = t.rest ++ ws ∧ Holding ts ws
  | .data t old new ts => InPhase .data s.tx ∧ s.tx.fifo.rdEn = true ∧ t.rest = old ++ new ∧
      new ≠ [] ∧ new <+: s.q ∧ s.tx.fifo.dout2 = old.getLastD (new.headD 0) ∧
      ∃ ws, s.q ++ s.todo = new ++ ws ∧ Holding ts ws
  | .tail _ ts => InPhase .tail s.tx ∧ Holding ts (s.q ++ s.todo)
  | .term ts => InPhase .term s.tx ∧ Holding ts (s.q ++ s.todo)

/-- An empty FIFO that is read for the next TLP does not show the first word of one. -/
def Blank (s : Link) (i : LinkIn) : Prop :=
  s.tx.fifo.state = .idle → s.tx.fifo.rdEn = true → s.q = [] → isStart i.junk = false

instance (s : Link) (i : LinkIn) : Decidable (Blank s i) :=
  inferInstanceAs (Decidable (_ → _ → _ → _))

theorem StrayHolds.inPhase {s : Link} {j : Job} (h : StrayHolds s j) : InPhase j.phase s.tx := by
  cases j <;> exact h.1

theorem strayHolds_start {ts : List StoredTlp} {ws : List (BitVec 72)} (h : Holding ts ws)
    (x : XgmiiTx) : StrayHolds ⟨ws, [], x.reset⟩ (.idle ts) := ⟨reset_inPhase x, h⟩

/-- The same job over a FIFO without strays drives the same word. -/
theorem StrayHolds.plain {s : Link} {j : Job} (h : StrayHolds s j) : ∃ c : Link, j.Holds c ∧
    c.tx.out = s.tx.out ∧ ∀ a, j.phase.drives c.tx a = j.phase.drives s.tx a := by
  cases j with
  | idle ts | term ts =>
    obtain ⟨hphase, -⟩ := h
    refine ⟨⟨stored ts, [], { s.tx with fifo := { s.tx.fifo with rdEn := false } }⟩,
      ⟨hphase, ?_, rfl⟩, rfl, fun _ => rfl⟩
    simp
  | armed t ts | header k t ts =>
    obtain ⟨hphase, hd, -⟩ := h
    exact ⟨⟨t.rest ++ stored ts, [], s.tx⟩, ⟨hphase, hd, rfl⟩, rfl, fun _ => rfl⟩
  | first t ts =>
    obtain ⟨hphase, hd, -⟩ := h
    exact ⟨⟨stored ts, t.rest, s.tx⟩, ⟨hphase, hd, List.prefix_rfl, rfl⟩, rfl, fun _ => rfl⟩
  | data t old new ts =>
    obtain ⟨hphase, hr, hsplit, hne, -, hd, -⟩ := h
    exact ⟨⟨stored ts, new, s.tx⟩, ⟨hphase, hr, hsplit, hne, List.prefix_rfl, hd, rfl⟩, rfl,
      fun _ => rfl⟩
  | tail t ts => exact ⟨⟨stored ts, [], s.tx⟩, ⟨h.1, rfl⟩, rfl, fun _ => rfl⟩

/-! ### One edge of the link -/

section Step

variable {s : Link} (i : LinkIn)

/-- While the FIFO block is in `FIFO_IDLE` it pops a stray or the first word of the next TLP, or
nothing. -/
theorem fetch_stray {ts : List StoredTlp} (hf : s.tx.fifo.state = .idle)
    (h : Holding ts (s.q ++ s.todo)) (hb : Blank s i) :
    ((s.tx.fifo.rdEn && isStart (s.q.headD i.junk)) = false ∧
        Holding ts ((s.step i).q ++ (s.step i).todo)) ∨
      ∃ t us ws, ts = t :: us ∧ (s.tx.fifo.rdEn && isStart (s.q.headD i.junk)) = true ∧
        (s.step i).tx.fifo.dout2 = t.first ∧
        (s.step i).q ++ (s.step i).todo = t.rest ++ ws ∧ Holding us ws := by
  cases hr : s.tx.fifo.rdEn with
  | false =>
    refine Or.inl ⟨rfl, ?_⟩
    rw [step_queue_keep i hr]
    exact h
  | true =>
    have hqueue := step_queue (s := s) i
    simp only [hr, if_true] at hqueue
    cases hq : s.q with
    | nil =>
      refine Or.inl ⟨by simp [hb hf hr hq], ?_⟩
      rw [hqueue, hq]
      simpa [hq] using h
    | cons w q =>
      rw [hq, List.cons_append] at h
      rw [hq, List.tail_cons] at hqueue
      rcases h.head with ⟨hw, h'⟩ | ⟨t, us, ws, rfl, rfl, hws, h'⟩
      · refine Or.inl ⟨by simp [hw], ?_⟩
        rw [hqueue]
        exact h'
      · have hs : (s.tx.fifo.rdEn && isStart (s.q.headD i.junk)) = true := by
          simp [hr, hq, t.first_start]
        have hstep := fifo_step_start s.tx.tx.txCounter (s.q.headD i.junk) s.q.isEmpty hf hs
        refine Or.inr ⟨t, us, ws, rfl, by simp [t.first_start], ?_, hqueue.trans hws, h'⟩
        simp only [Link.step, XgmiiTx.step, hstep]
        simp [hq]

/-- The last of the words left of a TLP has bit 65, no other has. -/
theorem isLast_of_rest {t : StoredTlp} {old new : List (BitVec 72)} {w : BitVec 72}
    (h : t.rest = old ++ w :: new) : isLast w = decide (new = []) := by
  rcases List.eq_nil_or_concat' new with rfl | ⟨z, v, rfl⟩
  · obtain ⟨-, hw⟩ := List.append_inj' h rfl
    rw [← (List.cons.inj hw).1, t.last_last]
    simp
  · rw [← List.cons_append, ← List.append_assoc] at h
    have hmid : t.mid = old ++ w :: z := List.append_inj_left' h rfl
    rw [StoredTlp.isLast_of_isStart (t.mid_start w (by simp [hmid]))]
    simp

/-- **The link is simulated by its job**, with strays as without. -/
theorem stray_step {j : Job} (h : StrayHolds s j) (hp : Prompt s i) (hb : Blank s i) :
    ∃ j', Job.Next j j' ∧ StrayHolds (s.step i) j' := by
  have hnext : InPhase (j.phase.next s.tx.fifo (s.q.headD i.junk)) (s.step i).tx :=
    step_inPhase i.addrs (s.q.headD i.junk) s.q.isEmpty h.inPhase
  cases j with
  | idle ts =>
    obtain ⟨⟨hf, -⟩, hold⟩ := h
    rcases fetch_stray i hf hold hb with ⟨hs, hold'⟩ | ⟨t, us, ws, rfl, hs, hd, hq, hold'⟩
    · simp only [Job.phase, Phase.next, hs] at hnext
      exact ⟨.idle ts, .wait ts, hnext, hold'⟩
    · simp only [Job.phase, Phase.next, hs, if_true] at hnext
      exact ⟨.armed t us, .arm t us, hnext, hd, ws, hq, hold'⟩
  | armed t ts =>
    obtain ⟨⟨hf, hr, -, hc, -⟩, hd, ws, hq, hold⟩ := h
    have hw := fifo_step_wait s.tx.tx.txCounter (s.q.headD i.junk) s.q.isEmpty hf (by rw [hc]; decide)
    refine ⟨.header 0 t ts, .begin t ts, hnext, ?_, ws, by rw [step_queue_keep i hr, hq], hold⟩
    simp only [Link.step, XgmiiTx.step, hw, hd]
  | header k t ts =>
    obtain ⟨⟨hf, hr, hst, hc, hk, -⟩, hd, ws, hq, hold⟩ := h
    have hq' : (s.step i).q ++ (s.step i).todo = t.rest ++ ws := by
      rw [step_queue_keep i hr, hq]
    by_cases h6 : k = 6
    · subst h6
      have hw := fifo_step_go s.tx.tx.txCounter (s.q.headD i.junk) s.q.isEmpty hf (by rw [hc]; decide)
      simp only [Job.phase, Phase.next, if_true] at hnext
      refine ⟨.first t ts, .first t ts, hnext, ?_, rest_prefix hq' (hp hst hc), ws, hq', hold⟩
      simp only [Link.step, XgmiiTx.step, hw, hd]
    · have hw := fifo_step_wait s.tx.tx.txCounter (s.q.headD i.junk) s.q.isEmpty hf
        (by rw [hc]; interval_cases k <;> simp_all)
      simp only [Job.phase, Phase.next, h6, if_false] at hnext
      refine ⟨.header (k + 1) t ts, .header k t ts (by omega), hnext, ?_, ws, hq', hold⟩
      simp only [Link.step, XgmiiTx.step, hw, hd]
  | first t ts =>
    obtain ⟨⟨hf, hr, -⟩, -, hpre, ws, hq, hold⟩ := h
    obtain ⟨v, r, hv⟩ := List.exists_cons_of_ne_nil t.rest_ne_nil
    obtain ⟨q, hw⟩ : ∃ q, s.q = v :: q := by
      obtain ⟨z, hz⟩ := hpre
      exact ⟨r ++ z, by rw [← hz, hv, List.cons_append]⟩
    have hstep := fifo_step_data s.tx.tx.txCounter v s.q.isEmpty hf (by simp [hr])
    have hfifo : (s.step i).tx.fifo = ⟨.data, true, v⟩ := by
      simp only [Link.step, XgmiiTx.step, hw, List.headD_cons]
      rw [← hw, hstep, hw]
      rfl
    refine ⟨.data t [] t.rest ts, .data t ts, hnext, by rw [hfifo], rfl, t.rest_ne_nil,
      hpre.trans (step_q_keep i hr), ?_, ws, by rw [step_queue_keep i hr, hq], hold⟩
    rw [hfifo, hv]
    rfl
  | data t old new ts =>
    obtain ⟨⟨hf, htx⟩, hr, hsplit, hne, hpre, hd, ws, hq, hold⟩ := h
    obtain ⟨w, new, rfl⟩ := List.exists_cons_of_ne_nil hne
    obtain ⟨q, hw, hpre'⟩ : ∃ q, s.q = w :: q ∧ new <+: q := by
      obtain ⟨z, hz⟩ := hpre
      exact ⟨new ++ z, hz.symm, List.prefix_append _ _⟩
    obtain ⟨hd', hr'⟩ := data_step i hf hr hw
    have hlast := isLast_of_rest hsplit
    have hq' : (s.step i).q ++ (s.step i).todo = new ++ ws := by
      rw [step_queue, hr, hw]
      rw [hw] at hq
      exact List.cons.inj hq |>.2
    by_cases hnew : new = []
    · -- the last word of the TLP
      subst hnew
      simp only [Job.phase, Phase.next, hw, List.headD_cons, hr, hlast, decide_true, Bool.and_self,
        if_true] at hnext
      exact ⟨.tail t ts, .last t old w ts, hnext, by rwa [hq', List.nil_append]⟩
    · rw [decide_eq_false hnew] at hlast
      simp only [Job.phase, Phase.next, hw, List.headD_cons, hr, hlast, Bool.and_false] at hnext
      refine ⟨.data t (old ++ [w]) new ts, .pop t old w new ts hnew, hnext, hr' hlast,
        by simp [hsplit], hnew, hpre'.trans ?_, by simp [hd'], ws, hq', hold⟩
      simp [Link.step, hr, hw]
  | tail t ts =>
    obtain ⟨⟨hf, hr, -⟩, hold⟩ := h
    exact ⟨.term ts, .term t ts, hnext, by rwa [step_queue_keep i hr]⟩
  | term ts =>
    obtain ⟨⟨hf, -⟩, hold⟩ := h
    rcases fetch_stray i hf hold hb with ⟨hs, hold'⟩ | ⟨t, us, ws, rfl, hs, hd, hq, hold'⟩
    · simp only [Job.phase, Phase.next, hs] at hnext
      exact ⟨.idle ts, .gap ts, hnext, hold'⟩
    · simp only [Job.phase, Phase.next, hs, if_true] at hnext
      exact ⟨.armed t us, .gapArm t us, hnext, hd, ws, hq, hold'⟩

/-- A TLP whose words are all written is complete in the FIFO. -/
theorem stray_prompt {j : Job} (hj : StrayHolds s j) (htodo : s.todo = []) : Prompt s i := by
  intro hst _
  cases j with
  | header k t ts =>
    obtain ⟨⟨-, hr, -⟩, -, ws, hq, -⟩ := hj
    rw [htodo, List.append_nil] at hq
    refine ⟨t.last, (step_q_keep i hr).subset ?_, t.last_last⟩
    simp [hq, StoredTlp.rest]
  | _ => simp_all [StrayHolds, InPhase]

/-- Once every word is written the run is prompt whatever happens. -/
theorem stray_along {j : Job} (hj : StrayHolds s j) (htodo : s.todo = []) (is : List LinkIn)
    (his : ∀ i ∈ is, isStart i.junk = false) :
    Along Link.step (fun s i => Prompt s i ∧ Blank s i) s is := by
  induction is generalizing s j with
  | nil => trivial
  | cons i is ih =>
    rw [List.forall_mem_cons] at his
    have hp := stray_prompt i hj htodo
    have hb : Blank s i := fun _ _ _ => his.1
    obtain ⟨j', -, hj'⟩ := stray_step i hj hp hb
    exact ⟨⟨hp, hb⟩, ih hj' (step_todo_nil htodo i) his.2⟩

end Step

/-! ### The receiver on the wire -/

/-- The link is at a job, the receiver hears it, and the pulses so far with the one that is up are
those of the TLPs before. -/
structure StrayHearing (ts : List StoredTlp) (j : Job) (s : Loopback)
    (ps : List (BitVec 64 × BitVec 64)) : Prop where
  holds : StrayHolds s.link j
  heard : ∃ done us, ts = done ++ us ∧ Hears s.link.tx.out s.rx us j ∧
    ps ++ s.rx.pulse = done.map StoredTlp.pair

variable {ts : List StoredTlp}

theorem strayHearing_start {ws : List (BitVec 72)} (h : Holding ts ws) (x : XgmiiTx) :
    StrayHearing ts (.idle ts) ⟨⟨ws, [], x.reset⟩, RxSide.reset⟩ [] :=
  ⟨strayHolds_start h x, [], ts, rfl, ⟨(reset_inPhase x).2.2.2, rfl, rfl⟩, rfl⟩

theorem strayHearing_step {j : Job} {s : Loopback} {ps : List (BitVec 64 × BitVec 64)}
    (h2 : ∀ t ∈ ts, t.mid = []) (h : StrayHearing ts j s ps) (i : LinkIn) (hp : Prompt s.link i)
    (hb : Blank s.link i) : ∃ j', StrayHearing ts j' (s.step i) (ps ++ s.rx.pulse) := by
  obtain ⟨hj, done, us, rfl, hh, hps⟩ := h
  obtain ⟨j', hn, hj'⟩ := stray_step i hj hp hb
  -- the link without strays drives the same words
  obtain ⟨c, hc, hout, hdrives⟩ := hj.plain
  have hout' : (c.step i).tx.out = (s.link.step i).tx.out := by
    have hstep : (s.link.step i).tx.out = j.phase.drives s.link.tx i.addrs :=
      step_out i.addrs (s.link.q.headD i.junk) s.link.q.isEmpty hj.inPhase
    rw [hstep, hc.out i, hdrives]
  have h2' : ∀ t ∈ us, t.mid = [] := fun t ht => h2 t (List.mem_append_right _ ht)
  have hhc : Hears c.tx.out s.rx us j := by rwa [hout]
  obtain ⟨vs, us', rfl, hh', hps'⟩ := Hears.next (s := ⟨c, s.rx⟩) h2' hc hhc i hn
  simp only [Loopback.step, hout, hout'] at hh' hps'
  refine ⟨j', hj', done ++ vs, us', by rw [List.append_assoc], hh', ?_⟩
  rw [hps, Loopback.step, hps', List.map_append]

theorem strayHearing_run (h2 : ∀ t ∈ ts, t.mid = []) {ws : List (BitVec 72)} (h : Holding ts ws)
    (x : XgmiiTx) (is : List LinkIn)
    (his : Along Loopback.step (fun s i => Prompt s.link i ∧ Blank s.link i)
      ⟨⟨ws, [], x.reset⟩, RxSide.reset⟩ is) :
    ∃ j, StrayHearing ts j (run Loopback.step ⟨⟨ws, [], x.reset⟩, RxSide.reset⟩ is)
      (Loopback.pulses ⟨⟨ws, [], x.reset⟩, RxSide.reset⟩ is) := by
  refine log_induction (J := fun s ps => ∃ j, StrayHearing ts j s ps)
    ⟨_, strayHearing_start h x⟩ ?_ is his
  rintro s i ps ⟨j, hj⟩ ⟨hp, hb⟩
  exact strayHearing_step h2 hj i hp hb

/-- Nothing is left to be sent: all words written, none in the FIFO, both blocks idle. -/
def Link.Drained (s : Link) : Prop :=
  s.todo = [] ∧ s.q = [] ∧ s.tx.fifo.state = .idle ∧ s.tx.tx.state = .idle

instance (s : Link) : Decidable s.Drained := inferInstanceAs (Decidable (_ ∧ _ ∧ _ ∧ _))

/-- When nothing is left every TLP has been pulsed. -/
theorem StrayHearing.all {j : Job} {s : Loopback} {ps : List (BitVec 64 × BitVec 64)}
    (h : StrayHearing ts j s ps) (hd : s.link.Drained) :
    ps ++ s.rx.pulse = ts.map StoredTlp.pair := by
  obtain ⟨hj, done, us, rfl, hh, hps⟩ := h
  obtain ⟨htodo, hq, hf, ht⟩ := hd
  suffices hus : us = [] by rw [hps, hus, List.append_nil]
  cases j with
  | idle ts =>
    obtain ⟨-, hold⟩ := hj
    rw [htodo, hq] at hold
    rw [hh.2.2, hold.eq_nil]
  | armed t ts | header k t ts | first t ts | data t old new ts =>
    have hphase := hj.inPhase.1
    rw [hf] at hphase
    cases hphase
  | tail t ts =>
    have hphase := hj.inPhase.2.2
    rw [ht] at hphase
    cases hphase
  | term ts =>
    have hphase := hj.inPhase.2.1
    rw [ht] at hphase
    cases hphase

end IpNuma
