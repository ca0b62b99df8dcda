import IpNuma.Kc705.TxLink

/-!
# The link drains

Once every word has been written each edge brings the engine nearer to the end of its last frame:
`Job.left` bounds the edges left and drops at every edge (`Job.left_step`), and the run is prompt
from then on whatever happens (`along_prompt_of_todo_nil`).

`Tracks` is the common form of the simulations built on the job: a machine that contains the link,
and a relation between the job, its state and its log which every prompt edge keeps.
-/

namespace IpNuma

open Clocked

/-! ### The edges left -/

/-- The edges a sequence of TLPs needs at most. -/
def cost (ts : List StoredTlp) : ℕ := (stored ts).length + 20 * ts.length

theorem cost_cons (t : StoredTlp) (ts : List StoredTlp) :
    cost (t :: ts) = t.rest.length + 21 + cost ts := by
  simp only [cost, stored, List.flatMap_cons, StoredTlp.words, List.length_append, List.length_cons]
  omega

namespace Job

/-- The TLPs whose frame is not complete. -/
def pending : Job → List StoredTlp
  | idle ts | term ts => ts
  | armed t ts | header _ t ts | first t ts | data t _ _ ts | tail t ts => t :: ts

/-- The edges left until the frame of the last TLP is complete, when every word is written. -/
def left (s : Link) : Job → ℕ
  | idle [] | term [] => 0
  | idle (t :: ts) => cost (t :: ts) + if s.tx.fifo.rdEn then 1 else 2
  | armed t ts => cost ts + t.rest.length + 19
  | header k t ts => cost ts + t.rest.length + 18 - k
  | first t ts => cost ts + t.rest.length + 11
  | data _ _ new ts => cost ts + new.length + 10
  | tail _ ts => cost ts + 10
  | term (t :: ts) => cost (t :: ts) + 3

theorem left_le (s : Link) {j : Job} (hj : j.Holds s) : j.left s ≤ cost j.pending + 3 := by
  cases j with
  | idle ts =>
    cases ts with
    | nil => exact Nat.zero_le _
    | cons t ts => simp only [left, pending]; split_ifs <;> omega
  | data t old new ts =>
    obtain ⟨-, -, hr, -⟩ := hj
    have hlen := congrArg List.length hr
    rw [List.length_append] at hlen
    simp only [left, pending, cost_cons]
    omega
  | term ts =>
    cases ts with
    | nil => exact Nat.zero_le _
    | cons t ts => exact le_rfl
  | armed t ts | header k t ts | first t ts | tail t ts =>
    simp only [left, pending, cost_cons]
    omega

/-- With every word written, `FIFO_IDLE` over a TLP raises `rd_en`, and arms if it is raised. -/
theorem idle_fetches {s : Link} {t : StoredTlp} {ts : List StoredTlp}
    (hj : (idle (t :: ts)).Holds s) (htodo : s.todo = []) (i : LinkIn) :
    if s.tx.fifo.rdEn then (s.step i).tx.fifo.state = .wait
    else (s.step i).tx.fifo.rdEn = true := by
  obtain ⟨⟨hf, -⟩, -, hq⟩ := hj
  rw [htodo, List.append_nil] at hq
  have hhead : s.q.headD i.junk = t.first := by simp [hq, stored, StoredTlp.words]
  cases hr : s.tx.fifo.rdEn with
  | true =>
    have hstep := fifo_step_start s.tx.tx.txCounter (s.q.headD i.junk) s.q.isEmpty hf
      (by rw [hr, hhead, t.first_start]; rfl)
    simp only [if_true, Link.step, XgmiiTx.step, hstep]
  | false =>
    have hstep := fifo_step_idle s.tx.tx.txCounter (s.q.headD i.junk) s.q.isEmpty hf (by simp [hr])
    have hne : s.q.isEmpty = false := by simp [hq, stored, StoredTlp.words]
    rw [hne] at hstep
    simp only [Bool.false_eq_true, if_false, Link.step, XgmiiTx.step, hne, hstep.2, Bool.not_false]

/-- Every edge brings the end nearer. -/
theorem left_step {s : Link} {j j' : Job} (i : LinkIn) (hj : j.Holds s) (htodo : s.todo = [])
    (hn : Next j j') (hj' : j'.Holds (s.step i)) : j'.left (s.step i) ≤ j.left s - 1 := by
  cases hn with
  | wait ts =>
    cases ts with
    | nil => exact Nat.zero_le _
    | cons t ts =>
      have hfetch := idle_fetches hj htodo i
      simp only [left]
      split_ifs at hfetch with hr
      · -- armed, so no longer idle
        have hidle := hj'.1.1
        rw [hfetch] at hidle
        cases hidle
      · rw [if_pos hfetch, if_neg hr]
        omega
  | gap ts =>
    cases ts with
    | nil => exact Nat.zero_le _
    | cons t ts => simp only [left]; split_ifs <;> omega
  | term t ts =>
    cases ts with
    | nil => exact Nat.zero_le _
    | cons t ts => simp only [left]; omega
  | arm t ts => simp only [left, cost_cons]; split_ifs <;> omega
  | pop t old w new ts hne => simp only [left, List.length_cons]; omega
  | begin t ts | header k t ts hk | first t ts | data t ts | last t old w ts | gapArm t ts =>
    simp only [left, cost_cons, List.length_cons, List.length_nil]
    omega

theorem pending_eq_nil {s : Link} {j : Job} (h : j.left s = 0) (hj : j.Holds s) :
    j.pending = [] := by
  cases j with
  | idle ts | term ts =>
    cases ts with
    | nil => rfl
    | cons t ts => simp only [left, cost_cons] at h; omega
  | header k t ts =>
    have hk : k < 7 := hj.1.2.2.2.2.1
    simp only [left] at h
    omega
  | armed t ts | first t ts | data t old new ts | tail t ts =>
    simp only [left] at h
    omega

end Job

theorem step_todo_nil {s : Link} (h : s.todo = []) (i : LinkIn) : (s.step i).todo = [] := by
  simp [Link.step, h]

/-! ### Prompt runs -/

/-- A TLP whose words are all written is complete in the FIFO. -/
theorem prompt_of_todo_nil {s : Link} {j : Job} (hj : j.Holds s) (htodo : s.todo = [])
    (i : LinkIn) : Prompt s i := by
  intro hst _
  cases j with
  | header k t ts =>
    obtain ⟨⟨-, hr, -⟩, -, hq⟩ := hj
    rw [htodo, List.append_nil] at hq
    refine ⟨t.last, (step_q_keep i hr).subset ?_, t.last_last⟩
    simp [hq, StoredTlp.rest]
  | _ => simp_all [Job.Holds, InPhase]

/-- Once every word is written the run is prompt whatever happens, for the link and for every
machine around it. -/
theorem along_prompt_of_todo_nil {σ : Type*} {step : σ → LinkIn → σ} (link : σ → Link)
    (hlink : ∀ s i, link (step s i) = (link s).step i) {s : σ} {j : Job} (hj : j.Holds (link s))
    (htodo : (link s).todo = []) (is : List LinkIn) :
    Along step (fun s i => Prompt (link s) i) s is := by
  refine along_of_invariant (J := fun s => (link s).todo = [] ∧ ∃ j : Job, j.Holds (link s))
    ?_ ?_ ⟨htodo, j, hj⟩ is
  · rintro s i ⟨htodo, j, hj⟩
    exact prompt_of_todo_nil hj htodo i
  · rintro s i ⟨htodo, j, hj⟩
    obtain ⟨j', -, hj'⟩ := holds_step i hj (prompt_of_todo_nil hj htodo i)
    rw [hlink]
    exact ⟨step_todo_nil htodo i, j', hj'⟩

/-! ### Machines that contain the link -/

section Tracks

variable {σ ο : Type*}

/-- The relation `T` between the job, the state of a machine around the link and its log is kept
by every prompt edge. -/
structure Tracks (step : σ → LinkIn → σ) (emit : σ → LinkIn → List ο) (link : σ → Link)
    (T : Job → σ → List ο → Prop) : Prop where
  link_step : ∀ s i, link (step s i) = (link s).step i
  holds : ∀ {j : Job} {s : σ} {l : List ο}, T j s l → j.Holds (link s)
  next : ∀ {j : Job} {s : σ} {l : List ο}, T j s l → ∀ i, Prompt (link s) i →
    ∃ j', Job.Next j j' ∧ T j' (step s i) (l ++ emit s i)

variable {step : σ → LinkIn → σ} {emit : σ → LinkIn → List ο} {link : σ → Link}
  {T : Job → σ → List ο → Prop} {s : σ} {ts : List StoredTlp}

/-- Pending TLPs do not become more. -/
theorem Job.Next.cost_le {j j' : Job} (h : Job.Next j j') : cost j'.pending ≤ cost j.pending := by
  cases h with
  | term t ts => rw [Job.pending, Job.pending, cost_cons]; omega
  | _ => exact le_rfl

theorem Tracks.run (h : Tracks step emit link T) (h0 : T (.idle ts) s []) (is : List LinkIn)
    (hp : Along step (fun s i => Prompt (link s) i) s is) :
    ∃ j, T j (run step s is) (log step emit s is) ∧ cost j.pending ≤ cost ts := by
  refine log_induction (J := fun s l => ∃ j, T j s l ∧ cost j.pending ≤ cost ts)
    ⟨_, h0, le_rfl⟩ ?_ is hp
  rintro s i l ⟨j, hj, hc⟩ hp
  obtain ⟨j', hn, hj'⟩ := h.next hj i hp
  exact ⟨j', hj', hn.cost_le.trans hc⟩

/-- **The link drains.**  When every word has been written, enough further edges complete every
job. -/
theorem Tracks.drains (h : Tracks step emit link T) (h0 : T (.idle ts) s []) (is js : List LinkIn)
    (hp : Along step (fun s i => Prompt (link s) i) s (is ++ js))
    (htodo : (link (Clocked.run step s is)).todo = []) (hlen : cost ts + 3 ≤ js.length) :
    ∃ j, T j (Clocked.run step s (is ++ js)) (log step emit s (is ++ js)) ∧ j.pending = [] := by
  obtain ⟨h1, h2⟩ := (along_append _ _ _ _ _).1 hp
  obtain ⟨j, hj, hc⟩ := h.run h0 is h1
  have hleft : j.left (link (Clocked.run step s is)) ≤ cost ts + 3 := by
    have hle := Job.left_le _ (h.holds hj)
    omega
  have hcount : ∀ s i l n, ((link s).todo = [] ∧ ∃ j, T j s l ∧ j.left (link s) ≤ n) →
      Prompt (link s) i → (link (step s i)).todo = [] ∧
        ∃ j, T j (step s i) (l ++ emit s i) ∧ j.left (link (step s i)) ≤ n - 1 := by
    rintro s i l n ⟨htodo, j, hj, hn⟩ hp
    obtain ⟨j', hnext, hj'⟩ := h.next hj i hp
    have hlink := h.link_step s i
    have hstep := Job.left_step i (h.holds hj) htodo hnext (hlink ▸ h.holds hj')
    rw [← hlink] at hstep
    refine ⟨?_, j', hj', by omega⟩
    rw [hlink]
    exact step_todo_nil htodo i
  obtain ⟨-, j, hj, hn⟩ := log_countdown
    (J := fun s l n => (link s).todo = [] ∧ ∃ j, T j s l ∧ j.left (link s) ≤ n) hcount
    ⟨htodo, j, hj, hleft⟩ js h2
  refine ⟨j, ?_, Job.pending_eq_nil (by omega) (h.holds hj)⟩
  rw [run_append, log_append]
  exact hj

end Tracks

end IpNuma
