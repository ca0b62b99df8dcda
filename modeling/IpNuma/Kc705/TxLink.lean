import IpNuma.Clocked.Run
import IpNuma.Kc705.TxPhase
import Mathlib.Data.List.Infix

/-!
# The transmitter behind its FIFO

`Link` is the engine reading a show-ahead FIFO: `dout` is the head while the FIFO is not empty and
anything otherwise, and the head is popped at an edge with `rd_en` high and `empty` low.  The words
still to be written are part of the state, and the environment decides how many of them arrive in
each cycle.

Every TLP is stored as its words with bit 64 set, bit 65 only in the last.  `Job` records which
TLP the engine is busy with and how much of it has been read; `holds_step` is the simulation of
the link by its job, under the condition `Prompt` that a TLP is complete in the FIFO when the last
header word of its frame goes out.
-/

namespace IpNuma

/-- A TLP as stored in the FIFO. -/
structure StoredTlp where
  first : BitVec 72
  mid : List (BitVec 72)
  last : BitVec 72
  first_start : isStart first = true
  mid_start : ∀ w ∈ mid, isStart w = true
  last_valid : last.getLsbD 64 = true
  last_last : isLast last = true

namespace StoredTlp

theorem nil_start : ∀ w ∈ ([] : List (BitVec 72)), isStart w = true := List.forall_mem_nil _

variable (t : StoredTlp)

/-- The words after the first. -/
def rest : List (BitVec 72) := t.mid ++ [t.last]

/-- All words. -/
def words : List (BitVec 72) := t.first :: t.rest

theorem rest_ne_nil : t.rest ≠ [] := by simp [rest]

theorem isLast_of_isStart {w : BitVec 72} (h : isStart w = true) : isLast w = false := by
  simp only [isStart, Bool.and_eq_true, Bool.not_eq_true'] at h
  exact h.2

end StoredTlp

/-- The words of a sequence of TLPs. -/
def stored (ts : List StoredTlp) : List (BitVec 72) := ts.flatMap StoredTlp.words

/-- The engine, its FIFO, and what is still to be written into the FIFO. -/
structure Link where
  todo : List (BitVec 72)
  q : List (BitVec 72)
  tx : XgmiiTx

/-- What the environment does in a cycle: the number of words written, the value of `dout` should
the FIFO be empty, and the address registers. -/
structure LinkIn where
  arrive : ℕ
  junk : BitVec 72
  addrs : Addrs

namespace Link

/-- One edge of `xgmii_clk`. -/
def step (s : Link) (i : LinkIn) : Link where
  todo := s.todo.drop i.arrive
  q := (if s.tx.fifo.rdEn then s.q.tail else s.q) ++ s.todo.take i.arrive
  tx := s.tx.step i.addrs (s.q.headD i.junk) s.q.isEmpty

/-- After reset, with the TLPs `ts` to come. -/
def start (ts : List StoredTlp) (x : XgmiiTx) : Link := ⟨stored ts, [], x.reset⟩

end Link

/-- The TLP of the frame is complete in the FIFO by the edge that sends the last header word. -/
def Prompt (s : Link) (i : LinkIn) : Prop :=
  s.tx.tx.state = .header → s.tx.tx.txCounter = 0x30#32 → ∃ w ∈ (s.step i).q, isLast w = true

/-- What the engine is doing, and with which TLP: `done` have been sent, `t` is being sent, `ts`
are to come; of the words of `t` after the first, `old` have been popped and `new` have not. -/
inductive Job
  | idle (ts : List StoredTlp)
  | armed (t : StoredTlp) (ts : List StoredTlp)
  | header (k : ℕ) (t : StoredTlp) (ts : List StoredTlp)
  | first (t : StoredTlp) (ts : List StoredTlp)
  | data (t : StoredTlp) (old new : List (BitVec 72)) (ts : List StoredTlp)
  | tail (t : StoredTlp) (ts : List StoredTlp)
  | term (ts : List StoredTlp)

namespace Job

def phase : Job → Phase
  | idle _ => .idle
  | armed _ _ => .armed
  | header k _ _ => .header k
  | first _ _ => .first
  | data _ _ _ _ => .data
  | tail _ _ => .tail
  | term _ => .term

/-- The engine is in the phase of the job, and FIFO and holding register are what the job says. -/
def Holds (s : Link) : Job → Prop
  | idle ts => InPhase .idle s.tx ∧ (s.tx.fifo.rdEn = true → s.q ≠ []) ∧ s.q ++ s.todo = stored ts
  | armed t ts => InPhase .armed s.tx ∧ s.tx.fifo.dout2 = t.first ∧
      s.q ++ s.todo = t.rest ++ stored ts
  | header k t ts => InPhase (.header k) s.tx ∧ s.tx.fifo.dout2 = t.first ∧
      s.q ++ s.todo = t.rest ++ stored ts
  | first t ts => InPhase .first s.tx ∧ s.tx.fifo.dout2 = t.first ∧ t.rest <+: s.q ∧
      s.q ++ s.todo = t.rest ++ stored ts
  | data t old new ts => InPhase .data s.tx ∧ s.tx.fifo.rdEn = true ∧ t.rest = old ++ new ∧
      new ≠ [] ∧ new <+: s.q ∧ s.tx.fifo.dout2 = old.getLastD (new.headD 0) ∧
      s.q ++ s.todo = new ++ stored ts
  | tail _ ts => InPhase .tail s.tx ∧ s.q ++ s.todo = stored ts
  | term ts => InPhase .term s.tx ∧ (s.tx.fifo.rdEn = true → s.q ≠ []) ∧
      s.q ++ s.todo = stored ts

/-- The steps of a job. -/
inductive Next : Job → Job → Prop
  | wait (ts : List StoredTlp) : Next (idle ts) (idle ts)
  | arm (t : StoredTlp) (ts : List StoredTlp) : Next (idle (t :: ts)) (armed t ts)
  | begin (t : StoredTlp) (ts : List StoredTlp) : Next (armed t ts) (header 0 t ts)
  | header (k : ℕ) (t : StoredTlp) (ts : List StoredTlp) (h : k < 6) :
      Next (header k t ts) (header (k + 1) t ts)
  | first (t : StoredTlp) (ts : List StoredTlp) : Next (header 6 t ts) (first t ts)
  | data (t : StoredTlp) (ts : List StoredTlp) : Next (first t ts) (data t [] t.rest ts)
  | pop (t : StoredTlp) (old : List (BitVec 72)) (w : BitVec 72) (new : List (BitVec 72))
      (ts : List StoredTlp) (h : new ≠ []) :
      Next (data t old (w :: new) ts) (data t (old ++ [w]) new ts)
  | last (t : StoredTlp) (old : List (BitVec 72)) (w : BitVec 72) (ts : List StoredTlp) :
      Next (data t old [w] ts) (tail t ts)
  | term (t : StoredTlp) (ts : List StoredTlp) : Next (tail t ts) (term ts)
  | gap (ts : List StoredTlp) : Next (term ts) (idle ts)
  | gapArm (t : StoredTlp) (ts : List StoredTlp) : Next (term (t :: ts)) (armed t ts)

end Job

theorem holds_start (ts : List StoredTlp) (x : XgmiiTx) : Job.Holds (Link.start ts x) (.idle ts) :=
  ⟨reset_inPhase x, by simp [Link.start, XgmiiTx.reset, FifoSide.reset], by simp [Link.start]⟩

/-! ### One edge of the link -/

section Step

variable {s : Link} (i : LinkIn)

/-- Writing moves words from `todo` to the back of the FIFO, reading drops the head. -/
theorem step_queue :
    (s.step i).q ++ (s.step i).todo = (if s.tx.fifo.rdEn then s.q.tail else s.q) ++ s.todo := by
  simp [Link.step]

theorem step_queue_keep (hr : s.tx.fifo.rdEn = false) :
    (s.step i).q ++ (s.step i).todo = s.q ++ s.todo := by
  rw [step_queue, hr]; rfl

theorem step_q_keep (hr : s.tx.fifo.rdEn = false) : s.q <+: (s.step i).q := by
  simp [Link.step, hr]

/-- In `FIFO_IDLE` the engine arms itself with the next TLP if `rd_en` is high, else it stays and
raises `rd_en` only over a FIFO that is not empty. -/
theorem arm_or_stay {ts : List StoredTlp} (hf : s.tx.fifo.state = .idle)
    (hr : s.tx.fifo.rdEn = true → s.q ≠ []) (hq : s.q ++ s.todo = stored ts) :
    (∃ t ts', ts = t :: ts' ∧ (s.tx.fifo.rdEn && isStart (s.q.headD i.junk)) = true ∧
        (s.step i).tx.fifo.dout2 = t.first ∧
        (s.step i).q ++ (s.step i).todo = t.rest ++ stored ts') ∨
      ((s.tx.fifo.rdEn && isStart (s.q.headD i.junk)) = false ∧
        ((s.step i).tx.fifo.rdEn = true → (s.step i).q ≠ []) ∧
        (s.step i).q ++ (s.step i).todo = stored ts) := by
  cases hrd : s.tx.fifo.rdEn with
  | false =>
    have hidle := fifo_step_idle s.tx.tx.txCounter (s.q.headD i.junk) s.q.isEmpty hf (by simp [hrd])
    refine Or.inr ⟨by simp, fun h => ?_, by rw [step_queue_keep i hrd, hq]⟩
    have hne : s.q ≠ [] := by
      rw [show (s.step i).tx.fifo.rdEn = !s.q.isEmpty from hidle.2] at h
      simpa using h
    exact List.ne_nil_of_length_pos
      (lt_of_lt_of_le (List.length_pos_of_ne_nil hne) (step_q_keep i hrd).length_le)
  | true =>
    obtain ⟨w, q, hw⟩ := List.exists_cons_of_ne_nil (hr hrd)
    cases ts with
    | nil => simp [hw, stored] at hq
    | cons t ts =>
      simp only [hw, stored, List.flatMap_cons, StoredTlp.words, List.cons_append,
        List.cons.injEq] at hq
      obtain ⟨rfl, hq⟩ := hq
      have hs : (s.tx.fifo.rdEn && isStart (s.q.headD i.junk)) = true := by
        simp [hrd, hw, t.first_start]
      refine Or.inl ⟨t, ts, rfl, by simpa [hrd] using hs, ?_, ?_⟩
      · have hstep := fifo_step_start s.tx.tx.txCounter (s.q.headD i.junk) s.q.isEmpty hf hs
        simp only [Link.step, XgmiiTx.step, hstep]
        simp [hw]
      · rw [step_queue, hrd, hw]
        exact hq

/-- A word with bit 65 in the FIFO means that the TLP is there to its last word. -/
theorem rest_prefix {t : StoredTlp} {q todo ws : List (BitVec 72)} (hq : q ++ todo = t.rest ++ ws)
    (hl : ∃ w ∈ q, isLast w = true) : t.rest <+: q := by
  obtain ⟨w, hw, hlast⟩ := hl
  have hp : q <+: t.rest ++ ws := ⟨todo, hq⟩
  rcases List.prefix_or_prefix_of_prefix hp (List.prefix_append t.rest ws) with h | h
  · -- `q` is a prefix of `rest`: it holds its last word, or only words of `mid`
    rcases List.prefix_concat_iff.1 h with h | h
    · rw [h]; rfl
    · have hm := StoredTlp.isLast_of_isStart (t.mid_start w (h.subset hw))
      rw [hm] at hlast
      cases hlast
  · exact h

theorem Job.Holds.inPhase {j : Job} (h : j.Holds s) : InPhase j.phase s.tx := by
  cases j <;> exact h.1

/-- The word driven at the edge. -/
theorem Job.Holds.out {j : Job} (h : j.Holds s) :
    (s.step i).tx.out = j.phase.drives s.tx i.addrs :=
  step_out i.addrs (s.q.headD i.junk) s.q.isEmpty h.inPhase

/-- In phase `data` with `rd_en` high the head of the FIFO goes to `dout2`. -/
theorem data_step {w : BitVec 72} {q : List (BitVec 72)} (hd : s.tx.fifo.state = .data)
    (hr : s.tx.fifo.rdEn = true) (hq : s.q = w :: q) :
    (s.step i).tx.fifo.dout2 = w ∧ (isLast w = false → (s.step i).tx.fifo.rdEn = true) := by
  cases hl : isLast w with
  | true =>
    have h := fifo_step_last s.tx.tx.txCounter w s.q.isEmpty hd (by simp [hr, hl])
    simp only [Link.step, XgmiiTx.step, hq, List.headD_cons]
    rw [← hq, h]
    exact ⟨rfl, fun h => by cases h⟩
  | false =>
    have h := fifo_step_data s.tx.tx.txCounter w s.q.isEmpty hd (by simp [hl])
    simp only [Link.step, XgmiiTx.step, hq, List.headD_cons]
    rw [← hq, h]
    exact ⟨rfl, fun _ => by simp [hq]⟩

/-- **The link is simulated by its job.** -/
theorem holds_step {j : Job} (h : j.Holds s) (hp : Prompt s i) :
    ∃ j', Job.Next j j' ∧ j'.Holds (s.step i) := by
  have hnext : InPhase (j.phase.next s.tx.fifo (s.q.headD i.junk)) (s.step i).tx :=
    step_inPhase i.addrs (s.q.headD i.junk) s.q.isEmpty h.inPhase
  cases j with
  | idle ts =>
    obtain ⟨⟨hf, -⟩, hr, hq⟩ := h
    rcases arm_or_stay i hf hr hq with ⟨t, ts, rfl, hs, hd, hq'⟩ | ⟨hs, hr', hq'⟩
    · simp only [Job.phase, Phase.next, hs, if_true] at hnext
      exact ⟨.armed t ts, .arm t ts, hnext, hd, hq'⟩
    · simp only [Job.phase, Phase.next, hs] at hnext
      exact ⟨.idle ts, .wait ts, hnext, hr', hq'⟩
  | armed t ts =>
    obtain ⟨⟨hf, hr, -, hc, -⟩, hd, hq⟩ := h
    have hw := fifo_step_wait s.tx.tx.txCounter (s.q.headD i.junk) s.q.isEmpty hf (by rw [hc]; decide)
    refine ⟨.header 0 t ts, .begin t ts, hnext, ?_, by rw [step_queue_keep i hr, hq]⟩
    simp only [Link.step, XgmiiTx.step, hw, hd]
  | header k t ts =>
    obtain ⟨⟨hf, hr, hst, hc, hk, -⟩, hd, hq⟩ := h
    have hq' : (s.step i).q ++ (s.step i).todo = t.rest ++ stored ts := by
      rw [step_queue_keep i hr, hq]
    by_cases h6 : k = 6
    · subst h6
      have hw := fifo_step_go s.tx.tx.txCounter (s.q.headD i.junk) s.q.isEmpty hf (by rw [hc]; decide)
      simp only [Job.phase, Phase.next, if_true] at hnext
      refine ⟨.first t ts, .first t ts, hnext, ?_, rest_prefix hq' (hp hst hc), hq'⟩
      simp only [Link.step, XgmiiTx.step, hw, hd]
    · have hw := fifo_step_wait s.tx.tx.txCounter (s.q.headD i.junk) s.q.isEmpty hf
        (by rw [hc]; interval_cases k <;> simp_all)
      simp only [Job.phase, Phase.next, h6, if_false] at hnext
      refine ⟨.header (k + 1) t ts, .header k t ts (by omega), hnext, ?_, hq'⟩
      simp only [Link.step, XgmiiTx.step, hw, hd]
  | first t ts =>
    obtain ⟨⟨hf, hr, -⟩, hd, hpre, hq⟩ := h
    obtain ⟨w, q, hw⟩ : ∃ w q, s.q = w :: q := by
      refine List.exists_cons_of_ne_nil fun h0 => t.rest_ne_nil ?_
      rw [h0] at hpre
      exact List.prefix_nil.1 hpre
    have hstep := fifo_step_data s.tx.tx.txCounter w s.q.isEmpty hf (by simp [hr])
    have hfifo : (s.step i).tx.fifo = ⟨.data, true, w⟩ := by
      simp only [Link.step, XgmiiTx.step, hw, List.headD_cons]
      rw [← hw, hstep, hw]
      rfl
    refine ⟨.data t [] t.rest ts, .data t ts, hnext, by rw [hfifo], rfl, t.rest_ne_nil,
      hpre.trans (step_q_keep i hr), ?_, by rw [step_queue_keep i hr, hq]⟩
    obtain ⟨v, r, hv⟩ := List.exists_cons_of_ne_nil t.rest_ne_nil
    rw [hv, hw, List.cons_prefix_cons] at hpre
    rw [hfifo, hv, hpre.1]
    rfl
  | data t old new ts =>
    obtain ⟨⟨hf, htx⟩, hr, hsplit, hne, hpre, hd, hq⟩ := h
    obtain ⟨w, new, rfl⟩ := List.exists_cons_of_ne_nil hne
    obtain ⟨q, hw, hpre'⟩ : ∃ q, s.q = w :: q ∧ new <+: q := by
      obtain ⟨z, hz⟩ := hpre
      exact ⟨new ++ z, hz.symm, List.prefix_append _ _⟩
    obtain ⟨hd', hr'⟩ := data_step i hf hr hw
    have hq' : (s.step i).q ++ (s.step i).todo = new ++ stored ts := by
      rw [step_queue, hr, hw]
      rw [hw] at hq
      exact List.cons.inj hq |>.2
    by_cases hnew : new = []
    · -- the last word of the TLP
      subst hnew
      have hl : isLast w = true := by
        have : w = t.last := by
          have := congrArg List.getLast? hsplit
          simpa [StoredTlp.rest] using this.symm
        rw [this, t.last_last]
      simp only [Job.phase, Phase.next, hw, List.headD_cons, hr, hl, Bool.and_self, if_true] at hnext
      exact ⟨.tail t ts, .last t old w ts, hnext, hq'⟩
    · have hl : isLast w = false := by
        obtain ⟨z, v, rfl⟩ := List.eq_nil_or_concat new |>.resolve_left hnew
        have hz : t.mid ++ [t.last] = (old ++ w :: z) ++ [v] := by
          simpa [StoredTlp.rest] using hsplit
        have hmid : t.mid = old ++ w :: z := List.append_inj_left' hz rfl
        exact StoredTlp.isLast_of_isStart (t.mid_start w (by simp [hmid]))
      simp only [Job.phase, Phase.next, hw, List.headD_cons, hr, hl, Bool.and_false] at hnext
      refine ⟨.data t (old ++ [w]) new ts, .pop t old w new ts hnew, hnext, hr' hl,
        by simp [hsplit], hnew, ?_, by simp [hd'], hq'⟩
      refine hpre'.trans ?_
      simp [Link.step, hr, hw]
  | tail t ts =>
    obtain ⟨⟨hf, hr, -⟩, hq⟩ := h
    rcases arm_or_stay i hf (by simp [hr]) hq with ⟨_, _, -, hs, -, -⟩ | ⟨-, hr', hq'⟩
    · simp [hr] at hs
    · exact ⟨.term ts, .term t ts, hnext, hr', hq'⟩
  | term ts =>
    obtain ⟨⟨hf, -⟩, hr, hq⟩ := h
    rcases arm_or_stay i hf hr hq with ⟨t, ts, rfl, hs, hd, hq'⟩ | ⟨hs, hr', hq'⟩
    · simp only [Job.phase, Phase.next, hs, if_true] at hnext
      exact ⟨.armed t ts, .gapArm t ts, hnext, hd, hq'⟩
    · simp only [Job.phase, Phase.next, hs] at hnext
      exact ⟨.idle ts, .gap ts, hnext, hr', hq'⟩

end Step

end IpNuma
