import IpNuma.Clocked.Run

/-!
# A machine that writes to a full FIFO

The input of a cycle is paired with the `full` flag of the FIFO: what the machine emits in the cycle
is discarded when the flag is set.  `whole_iff` is about a part of a run in which the machine emits
one word in every cycle: the words arrive all or not at all exactly when the flag does not change.
-/

namespace Clocked

variable {σ ι ο : Type*} (step : σ → ι → σ) (emit : σ → ι → List ο)

/-- The machine does not see the flag. -/
def fed (s : σ) (i : ι × Bool) : σ := step s i.1

/-- What the FIFO accepts. -/
def accepted (s : σ) (i : ι × Bool) : List ο := if i.2 then [] else emit s i.1

variable {step emit} {s : σ} {is : List (ι × Bool)}

theorem run_fed (s : σ) (is : List (ι × Bool)) :
    run (fed step) s is = run step s (is.map Prod.fst) := by
  unfold run
  rw [List.foldl_map]
  rfl

theorem log_accepted_of_full (h : ∀ i ∈ is, i.2 = true) :
    log (fed step) (accepted emit) s is = [] := by
  induction is generalizing s with
  | nil => rfl
  | cons i is ih =>
    rw [List.forall_mem_cons] at h
    rw [log_cons, ih h.2, List.append_nil]
    exact if_pos h.1

theorem log_accepted_of_free (h : ∀ i ∈ is, i.2 = false) :
    log (fed step) (accepted emit) s is = log step emit s (is.map Prod.fst) := by
  induction is generalizing s with
  | nil => rfl
  | cons i is ih =>
    rw [List.forall_mem_cons] at h
    rw [log_cons, ih h.2, List.map_cons, log_cons]
    exact congrArg (· ++ _) (if_neg (by rw [h.1]; exact Bool.false_ne_true))

theorem log_accepted_of_nil (h : log step emit s (is.map Prod.fst) = []) :
    log (fed step) (accepted emit) s is = [] := by
  induction is generalizing s with
  | nil => rfl
  | cons i is ih =>
    rw [List.map_cons, log_cons, List.append_eq_nil_iff] at h
    have his : log (fed step) (accepted emit) (fed step s i) is = [] := ih h.2
    rw [log_cons, his, List.append_nil]
    unfold accepted
    rw [h.1, ite_self]

/-- A machine that emits at most a word in a cycle emits at most one for each. -/
theorem length_log_le (hone : ∀ s i, (emit s i).length ≤ 1) (s : σ) (is : List ι) :
    (log step emit s is).length ≤ is.length := by
  induction is generalizing s with
  | nil => exact Nat.le_refl _
  | cons i is ih =>
    have hi := hone s i
    have his := ih (step s i)
    rw [log_cons, List.length_append, List.length_cons]
    omega

/-- Of one word in every cycle those arrive that find room. -/
theorem length_log_accepted (hone : ∀ s i, (emit s i).length ≤ 1)
    (hall : (log step emit s (is.map Prod.fst)).length = is.length) :
    (log (fed step) (accepted emit) s is).length = is.countP fun i => !i.2 := by
  induction is generalizing s with
  | nil => rfl
  | cons i is ih =>
    have hi := hone s i.1
    have his : (log step emit (step s i.1) (is.map Prod.fst)).length ≤ _ := length_log_le hone _ _
    rw [List.map_cons, log_cons, List.length_append, List.length_cons] at hall
    rw [List.length_map] at his
    rw [log_cons, List.length_append, ih (s := fed step s i) (by unfold fed; omega),
      List.countP_cons, Nat.add_comm]
    unfold accepted
    cases i.2 with
    | true => rfl
    | false => exact congrArg _ (show (emit s i.1).length = 1 by omega)

/-- **All or nothing** is a flag that does not change. -/
theorem whole_iff (hone : ∀ s i, (emit s i).length ≤ 1)
    (hall : (log step emit s (is.map Prod.fst)).length = is.length) :
    (log (fed step) (accepted emit) s is = [] ∨
        log (fed step) (accepted emit) s is = log step emit s (is.map Prod.fst)) ↔
      ∀ i ∈ is, ∀ j ∈ is, i.2 = j.2 := by
  have hcount := length_log_accepted hone hall
  constructor
  · rintro (h | h) i hi j hj
    · rw [h, List.length_nil, eq_comm, List.countP_eq_zero] at hcount
      have h1 := hcount i hi
      have h2 := hcount j hj
      simp only [Bool.not_eq_true', Bool.not_eq_false] at h1 h2
      rw [h1, h2]
    · rw [h, hall, eq_comm, List.countP_eq_length] at hcount
      have h1 := hcount i hi
      have h2 := hcount j hj
      simp only [Bool.not_eq_true'] at h1 h2
      rw [h1, h2]
  · intro h
    cases is with
    | nil => exact .inl rfl
    | cons i is =>
      have hflag : ∀ j ∈ i :: is, j.2 = i.2 := fun j hj => h j hj i List.mem_cons_self
      cases hi : i.2 with
      | true => exact .inl (log_accepted_of_full fun j hj => (hflag j hj).trans hi)
      | false => exact .inr (log_accepted_of_free fun j hj => (hflag j hj).trans hi)

end Clocked
