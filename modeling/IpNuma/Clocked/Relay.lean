import IpNuma.Clocked.Run
import Mathlib.Logic.Function.Iterate

/-!
# Interleaved systems that follow one sequence of states

Parties that wait for each other can be interleaved in any order, but only one of them can move at
a time.  `Relay step pos next` says so: from a state `pos k` every event either changes nothing or
leads to `pos (next k)`, and some event does the latter.

* `Relay.run_eq` is safety: every run ends in a state of the sequence;
* `Relay.fair` is progress: in a run made of blocks that contain every event, every block advances;
* `Relay.changes_le` bounds the number of events that change something.

Where several parties can move at a time, `Ranked step J rank` asks for less: every change lowers
a rank, and above rank `0` some event does so.  `Ranked.fair` is progress again.
-/

namespace Clocked

variable {σ ι κ : Type*} {step : σ → ι → σ} {pos : κ → σ} {next : κ → κ}

/-- The system follows the sequence. -/
structure Relay (step : σ → ι → σ) (pos : κ → σ) (next : κ → κ) : Prop where
  follows : ∀ k i, step (pos k) i = pos k ∨ step (pos k) i = pos (next k)
  moves : ∀ k, ∃ i, step (pos k) i = pos (next k)

/-- A state that nothing changes is kept. -/
theorem run_of_stays {s : σ} (h : ∀ i, step s i = s) (is : List ι) : run step s is = s := by
  induction is with
  | nil => rfl
  | cons i is ih => rw [run_cons, h, ih]

/-- Every run ends in a state of the sequence. -/
theorem Relay.run_eq (h : Relay step pos next) (is : List ι) (k : κ) :
    ∃ n ≤ is.length, run step (pos k) is = pos (next^[n] k) := by
  induction is generalizing k with
  | nil => exact ⟨0, Nat.le_refl _, rfl⟩
  | cons i is ih =>
    rcases h.follows k i with hstay | hmove
    · obtain ⟨n, hn, hrun⟩ := ih k
      exact ⟨n, by simp; omega, by rw [run_cons, hstay, hrun]⟩
    · obtain ⟨n, hn, hrun⟩ := ih (next k)
      refine ⟨n + 1, by simpa using hn, ?_⟩
      rw [run_cons, hmove, hrun, Function.iterate_succ_apply]

/-- A run with the event that moves advances. -/
theorem Relay.run_of_mem (h : Relay step pos next) {i : ι} {k : κ}
    (hi : step (pos k) i = pos (next k)) {is : List ι} (hmem : i ∈ is) :
    ∃ n ≥ 1, run step (pos k) is = pos (next^[n] k) := by
  induction is with
  | nil => simp at hmem
  | cons j js ih =>
    have hmoved : step (pos k) j = pos (next k) →
        ∃ n ≥ 1, run step (pos k) (j :: js) = pos (next^[n] k) := by
      intro hj
      obtain ⟨n, -, hrun⟩ := h.run_eq js (next k)
      exact ⟨n + 1, by simp, by rw [run_cons, hj, hrun, Function.iterate_succ_apply]⟩
    rcases h.follows k j with hstay | hmove
    · rcases List.mem_cons.1 hmem with rfl | hrest
      · exact hmoved hi
      · obtain ⟨n, hn, hrun⟩ := ih hrest
        exact ⟨n, hn, by rw [run_cons, hstay, hrun]⟩
    · exact hmoved hmove

/-- **Progress.** -/
theorem Relay.fair (h : Relay step pos next) {bs : List (List ι)} (hbs : ∀ b ∈ bs, ∀ i, i ∈ b)
    (k : κ) : ∃ n ≥ bs.length, run step (pos k) bs.flatten = pos (next^[n] k) := by
  induction bs generalizing k with
  | nil => exact ⟨0, Nat.le_refl _, rfl⟩
  | cons b bs ih =>
    obtain ⟨hb, hbs⟩ := List.forall_mem_cons.1 hbs
    obtain ⟨i, hi⟩ := h.moves k
    obtain ⟨m, hm, hblock⟩ := h.run_of_mem hi (hb i)
    obtain ⟨n, hn, hrun⟩ := ih hbs (next^[m] k)
    refine ⟨n + m, by simp; omega, ?_⟩
    rw [List.flatten_cons, run_append, hblock, hrun, Function.iterate_add_apply]

/-- The number of events of a run that change something. -/
def changes [DecidableEq σ] (step : σ → ι → σ) : σ → List ι → ℕ
  | _, [] => 0
  | s, i :: is => (if step s i = s then 0 else 1) + changes step (step s i) is

/-- A sequence that stops bounds the number of changes. -/
theorem Relay.changes_le [DecidableEq σ] (h : Relay step pos next) {k : κ} {n : ℕ}
    (hn : next (next^[n] k) = next^[n] k) (is : List ι) : changes step (pos k) is ≤ n := by
  induction is generalizing k n with
  | nil => exact Nat.zero_le n
  | cons i is ih =>
    by_cases hstay : step (pos k) i = pos k
    · simpa [changes, hstay] using ih hn
    · have hmove := (h.follows k i).resolve_left hstay
      cases n with
      | zero => exact absurd (by rw [hmove]; exact congrArg pos hn) hstay
      | succ n =>
        have hrest := ih (k := next k) (n := n) (by rwa [Function.iterate_succ_apply] at hn)
        rw [changes, if_neg hstay, hmove]
        omega

/-! ### Ranked systems -/

variable {J : σ → Prop} {rank : σ → ℕ}

/-- Changes lower the rank, and above rank `0` there is one. -/
structure Ranked (step : σ → ι → σ) (J : σ → Prop) (rank : σ → ℕ) : Prop where
  keeps : ∀ s i, J s → J (step s i)
  lowers : ∀ s i, J s → step s i = s ∨ rank (step s i) < rank s
  moves : ∀ s, J s → 0 < rank s → ∃ i, rank (step s i) < rank s

theorem Ranked.run_le (h : Ranked step J rank) {s : σ} (hs : J s) (is : List ι) :
    J (run step s is) ∧ rank (run step s is) ≤ rank s := by
  induction is generalizing s with
  | nil => exact ⟨hs, Nat.le_refl _⟩
  | cons i is ih =>
    obtain ⟨hJ, hle⟩ := ih (h.keeps s i hs)
    refine ⟨hJ, ?_⟩
    rw [run_cons]
    rcases h.lowers s i hs with hstay | hlow
    · rwa [hstay] at hle ⊢
    · omega

/-- A run with an event that lowers the rank ends below it. -/
theorem Ranked.run_lt (h : Ranked step J rank) {s : σ} (hs : J s) {i : ι}
    (hi : rank (step s i) < rank s) {is : List ι} (hmem : i ∈ is) :
    rank (run step s is) < rank s := by
  induction is with
  | nil => simp at hmem
  | cons j js ih =>
    rw [run_cons]
    have hle := (h.run_le (h.keeps s j hs) js).2
    rcases h.lowers s j hs with hstay | hlow
    · rcases List.mem_cons.1 hmem with rfl | hrest
      · omega
      · rw [hstay]
        exact ih hrest
    · omega

/-- **Progress.** -/
theorem Ranked.fair (h : Ranked step J rank) {bs : List (List ι)} (hbs : ∀ b ∈ bs, ∀ i, i ∈ b)
    {s : σ} (hs : J s) : rank (run step s bs.flatten) ≤ rank s - bs.length := by
  induction bs generalizing s with
  | nil => exact Nat.le_refl _
  | cons b bs ih =>
    obtain ⟨hb, hbs⟩ := List.forall_mem_cons.1 hbs
    obtain ⟨hJ, hle⟩ := h.run_le hs b
    have hrest := ih hbs hJ
    rw [List.flatten_cons, run_append, List.length_cons]
    by_cases h0 : 0 < rank s
    · obtain ⟨i, hi⟩ := h.moves s hs h0
      have hlt := h.run_lt hs hi (hb i)
      omega
    · omega

end Clocked
