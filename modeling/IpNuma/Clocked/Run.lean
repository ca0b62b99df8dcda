import Mathlib.Data.List.Basic
import Mathlib.Data.List.Induction

/-!
# Runs of a clocked machine

A synchronous machine is a step function `step : σ → ι → σ`: one application per clock edge, the
input being whatever the environment drives in that cycle.  The environment is never modelled
beyond its list of inputs, so a statement about all lists is a statement about all environments.

* `run step s is` is the state after the inputs `is`, `log step emit s is` the concatenation of
  what the machine emits on the way (`emit s i` is seen *before* the edge that consumes `i`);
* `Along step P s is` says that every step of the run meets `P`, a condition on the state before
  the step and the input of the cycle;
* `log_induction` is the invariant rule: a relation between the state and the log that holds at
  the start and is kept by every step meeting `P` holds at the end of every run along `P`;
* `log_countdown` is the progress rule: a relation with a bound on the work left, which every step
  lowers, holds at the end with the bound lowered by the number of steps;
* `inputs v a n` are `n` inputs of an endless stream `v` from `a` on, and `stream_induction` is the
  invariant rule for them, with the time as an index.
-/

namespace Clocked

variable {σ ι ο : Type*} (step : σ → ι → σ) (emit : σ → ι → List ο) (P : σ → ι → Prop)

/-- The state after the inputs `is`. -/
def run (s : σ) (is : List ι) : σ := is.foldl step s

/-- Everything emitted during the run. -/
def log : σ → List ι → List ο
  | _, [] => []
  | s, i :: is => emit s i ++ log (step s i) is

/-- Every step of the run meets `P`. -/
def Along : σ → List ι → Prop
  | _, [] => True
  | s, i :: is => P s i ∧ Along (step s i) is

instance Along.decidable [∀ s i, Decidable (P s i)] (s : σ) (is : List ι) :
    Decidable (Along step P s is) :=
  match is with
  | [] => isTrue trivial
  | i :: is => @instDecidableAnd _ _ _ (Along.decidable (step s i) is)

@[simp] theorem run_nil (s : σ) : run step s [] = s := rfl

@[simp] theorem run_cons (s : σ) (i : ι) (is : List ι) :
    run step s (i :: is) = run step (step s i) is := rfl

theorem run_append (s : σ) (is js : List ι) :
    run step s (is ++ js) = run step (run step s is) js := List.foldl_append

theorem run_concat (s : σ) (is : List ι) (i : ι) :
    run step s (is ++ [i]) = step (run step s is) i := by
  rw [run_append]; rfl

@[simp] theorem log_nil (s : σ) : log step emit s [] = [] := rfl

@[simp] theorem log_cons (s : σ) (i : ι) (is : List ι) :
    log step emit s (i :: is) = emit s i ++ log step emit (step s i) is := rfl

theorem log_append (s : σ) (is js : List ι) :
    log step emit s (is ++ js) = log step emit s is ++ log step emit (run step s is) js := by
  induction is generalizing s with
  | nil => rfl
  | cons i is ih => simp only [List.cons_append, log_cons, run_cons, ih, List.append_assoc]

theorem log_concat (s : σ) (is : List ι) (i : ι) :
    log step emit s (is ++ [i]) = log step emit s is ++ emit (run step s is) i := by
  rw [log_append, log_cons, log_nil, List.append_nil]

/-- What a state shows is seen before the edge that leaves it, or after the edge that leads to it.
-/
theorem log_state (f : σ → List ο) (s : σ) (is : List ι) :
    log step (fun s _ => f s) s is ++ f (run step s is) =
      f s ++ log step (fun s i => f (step s i)) s is := by
  induction is generalizing s with
  | nil => exact (List.append_nil _).symm
  | cons i is ih => rw [log_cons, log_cons, run_cons, List.append_assoc, ih]

@[simp] theorem along_nil (s : σ) : Along step P s [] := trivial

@[simp] theorem along_cons (s : σ) (i : ι) (is : List ι) :
    Along step P s (i :: is) ↔ P s i ∧ Along step P (step s i) is := Iff.rfl

theorem along_append (s : σ) (is js : List ι) :
    Along step P s (is ++ js) ↔ Along step P s is ∧ Along step P (run step s is) js := by
  induction is generalizing s with
  | nil => simp
  | cons i is ih => simp only [List.cons_append, along_cons, run_cons, ih, and_assoc]

theorem along_concat (s : σ) (is : List ι) (i : ι) :
    Along step P s (is ++ [i]) ↔ Along step P s is ∧ P (run step s is) i := by
  simp [along_append]

theorem along_true {s : σ} (is : List ι) : Along step (fun _ _ => True) s is := by
  induction is generalizing s with
  | nil => trivial
  | cons i is ih => exact ⟨trivial, ih⟩

theorem along_of_forall {Q : ι → Prop} {s : σ} {is : List ι} (h : ∀ i ∈ is, Q i) :
    Along step (fun _ i => Q i) s is := by
  induction is generalizing s with
  | nil => trivial
  | cons i is ih =>
    rw [List.forall_mem_cons] at h
    exact ⟨h.1, ih h.2⟩

theorem Along.and {Q : σ → ι → Prop} {s : σ} {is : List ι} (hP : Along step P s is)
    (hQ : Along step Q s is) : Along step (fun s i => P s i ∧ Q s i) s is := by
  induction is generalizing s with
  | nil => trivial
  | cons i is ih => exact ⟨⟨hP.1, hQ.1⟩, ih hP.2 hQ.2⟩

/-- A part of the state that makes steps of its own. -/
theorem run_part {τ κ : Type*} {step' : τ → κ → τ} {f : σ → τ} {g : ι → κ}
    (h : ∀ s i, f (step s i) = step' (f s) (g i)) (s : σ) (is : List ι) :
    f (run step s is) = run step' (f s) (is.map g) := by
  induction is generalizing s with
  | nil => rfl
  | cons i is ih => rw [run_cons, ih, h, List.map_cons, run_cons]

variable {step emit P}

theorem Along.imp {Q : σ → ι → Prop} (h : ∀ s i, P s i → Q s i) {s : σ} {is : List ι}
    (hP : Along step P s is) : Along step Q s is := by
  induction is generalizing s with
  | nil => trivial
  | cons i is ih => exact ⟨h s i hP.1, ih hP.2⟩

/-- **Invariant rule.**  A relation between the state and the log kept by every step that meets
`P` holds after every run along `P`. -/
theorem log_induction {J : σ → List ο → Prop} {s : σ} (h0 : J s [])
    (hstep : ∀ s i l, J s l → P s i → J (step s i) (l ++ emit s i)) :
    ∀ is, Along step P s is → J (run step s is) (log step emit s is) := by
  intro is
  induction is using List.reverseRecOn with
  | nil => intro _; exact h0
  | append_singleton is i ih =>
    intro h
    obtain ⟨h1, h2⟩ := (along_concat step P s is i).1 h
    rw [run_concat, log_concat]
    exact hstep _ _ _ (ih h1) h2

/-- The invariant rule for two logs of one run. -/
theorem log_induction₂ {ο' : Type*} {emit' : σ → ι → List ο'} {J : σ → List ο → List ο' → Prop}
    {s : σ} (h0 : J s [] [])
    (hstep : ∀ s i l l', J s l l' → P s i → J (step s i) (l ++ emit s i) (l' ++ emit' s i)) :
    ∀ is, Along step P s is →
      J (run step s is) (log step emit s is) (log step emit' s is) := by
  intro is
  induction is using List.reverseRecOn with
  | nil => intro _; exact h0
  | append_singleton is i ih =>
    intro h
    obtain ⟨h1, h2⟩ := (along_concat step P s is i).1 h
    rw [run_concat, log_concat, log_concat]
    exact hstep _ _ _ _ (ih h1) h2

/-- The invariant rule for a state predicate. -/
theorem run_induction {J : σ → Prop} {s : σ} (h0 : J s)
    (hstep : ∀ s i, J s → P s i → J (step s i)) :
    ∀ is, Along step P s is → J (run step s is) := by
  intro is
  induction is using List.reverseRecOn with
  | nil => intro _; exact h0
  | append_singleton is i ih =>
    intro h
    obtain ⟨h1, h2⟩ := (along_concat step P s is i).1 h
    rw [run_concat]
    exact hstep _ _ (ih h1) h2

/-- If an invariant of the machine implies `P`, every run from a state with it is along `P`. -/
theorem along_of_invariant {J : σ → Prop} (hP : ∀ s i, J s → P s i)
    (hstep : ∀ s i, J s → J (step s i)) {s : σ} (h0 : J s) (is : List ι) : Along step P s is := by
  induction is generalizing s with
  | nil => trivial
  | cons i is ih => exact ⟨hP s i h0, ih (hstep s i h0)⟩

/-- **Progress rule.**  If every step along `P` keeps the relation and lowers its bound by one,
the relation holds after a run with the bound lowered by the length of the run. -/
theorem log_countdown {J : σ → List ο → ℕ → Prop}
    (hstep : ∀ s i l n, J s l n → P s i → J (step s i) (l ++ emit s i) (n - 1)) {s : σ}
    {l : List ο} {n : ℕ} (h0 : J s l n) (is : List ι) (h : Along step P s is) :
    J (run step s is) (l ++ log step emit s is) (n - is.length) := by
  induction is generalizing s l n with
  | nil => simpa using h0
  | cons i is ih =>
    rw [along_cons] at h
    have h1 := ih (hstep s i l n h0 h.1) h.2
    rw [run_cons, log_cons, ← List.append_assoc, List.length_cons,
      show n - (is.length + 1) = n - 1 - is.length by omega]
    exact h1

/-! ### Inputs from a stream -/

section Stream

/-- The inputs `v a`, `v (a + 1)`, ..., `v (a + n - 1)`. -/
def inputs (v : ℕ → ι) (a n : ℕ) : List ι := (List.range' a n).map v

@[simp] theorem inputs_zero (v : ℕ → ι) (a : ℕ) : inputs v a 0 = [] := rfl

@[simp] theorem inputs_length (v : ℕ → ι) (a n : ℕ) : (inputs v a n).length = n := by
  simp [inputs]

theorem inputs_succ (v : ℕ → ι) (a n : ℕ) : inputs v a (n + 1) = inputs v a n ++ [v (a + n)] := by
  simp [inputs, List.range'_concat]

theorem inputs_add (v : ℕ → ι) (a m n : ℕ) :
    inputs v a (m + n) = inputs v a m ++ inputs v (a + m) n := by
  rw [inputs, ← List.range'_append_1, List.map_append]
  rfl

theorem inputs_congr {v w : ℕ → ι} {a b n : ℕ} (h : ∀ k < n, v (a + k) = w (b + k)) :
    inputs v a n = inputs w b n := by
  induction n with
  | zero => rfl
  | succ n ih =>
    rw [inputs_succ, inputs_succ, ih fun k hk => h k (by omega), h n (by omega)]

/-- **Invariant rule for a stream.**  The invariant may speak of the number of inputs consumed. -/
theorem stream_induction {J : ℕ → σ → List ο → Prop} {s : σ} (v : ℕ → ι) (a n : ℕ) (h0 : J 0 s [])
    (hstep : ∀ k < n, ∀ s l, J k s l → J (k + 1) (step s (v (a + k))) (l ++ emit s (v (a + k)))) :
    J n (run step s (inputs v a n)) (log step emit s (inputs v a n)) := by
  induction n with
  | zero => exact h0
  | succ n ih =>
    rw [inputs_succ, run_concat, log_concat]
    exact hstep n (by omega) _ _ (ih fun k hk => hstep k (by omega))

end Stream

end Clocked
