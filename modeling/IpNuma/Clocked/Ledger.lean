import IpNuma.Clocked.Run
import Mathlib.Data.List.Count
import Mathlib.Logic.Function.Basic

/-!
# Ledgers of resources

Parties acquire and release resources.  An event is legal if it acquires a resource that nobody has,
or releases one that the party has.

* `run_of_ne` says that legal events of one party leave the resources of the others alone;
* `count_of_legal` is the balance: along legal events a party has released a resource as often as it
  has acquired it, once less while it has it.
-/

namespace Ledger

open Clocked

variable {R D : Type*} [DecidableEq R]

/-- What happens to a resource. -/
inductive Event (R : Type*)
  | acquire (r : R)
  | release (r : R)
  deriving DecidableEq

/-- Who has which resource after an event of a party. -/
def apply (o : R → Option D) : D × Event R → R → Option D
  | (d, .acquire r) => Function.update o r (some d)
  | (_, .release r) => Function.update o r none

/-- The event is due. -/
def Legal (o : R → Option D) : D × Event R → Prop
  | (_, .acquire r) => o r = none
  | (d, .release r) => o r = some d

variable {o : R → Option D} {d : D}

theorem apply_of_ne {e : D × Event R} (h : Legal o e) (hne : d ≠ e.1) (r : R) :
    apply o e r = some d ↔ o r = some d := by
  obtain ⟨c, e⟩ := e
  cases e with
  | acquire r' =>
    by_cases hr : r = r'
    · subst hr
      have hfree : o r = none := h
      simp [apply, hfree, Ne.symm hne]
    · simp [apply, hr]
  | release r' =>
    by_cases hr : r = r'
    · subst hr
      have hown : o r = some c := h
      simp [apply, hown, Ne.symm hne]
    · simp [apply, hr]

/-- The resources of the others. -/
theorem run_of_ne {es : List (D × Event R)} (hes : ∀ e ∈ es, d ≠ e.1)
    (h : Along apply Legal o es) (r : R) : run apply o es r = some d ↔ o r = some d := by
  induction es generalizing o with
  | nil => rfl
  | cons e es ih =>
    obtain ⟨hne, hes⟩ := List.forall_mem_cons.1 hes
    rw [run_cons, ih hes h.2, apply_of_ne h.1 hne]

/-- A resource that is not released is kept. -/
theorem run_kept {es : List (D × Event R)} {r : R} (h : o r = some d)
    (hes : ∀ e ∈ es, e.2 ≠ .release r ∧ (e.2 = .acquire r → e.1 = d)) :
    run apply o es r = some d := by
  induction es generalizing o with
  | nil => exact h
  | cons e es ih =>
    obtain ⟨⟨hrelease, hacquire⟩, hes⟩ := List.forall_mem_cons.1 hes
    refine ih ?_ hes
    obtain ⟨c, e⟩ := e
    cases e with
    | acquire r' =>
      by_cases hr : r = r'
      · subst hr
        obtain rfl : c = d := hacquire rfl
        simp [apply]
      · simp [apply, hr, h]
    | release r' =>
      have hr : r ≠ r' := fun hr => hrelease (by rw [hr])
      simp [apply, hr, h]

/-- Different resources that nobody has are acquired. -/
theorem acquire_all {rs : List R} (d : D) (hrs : rs.Nodup) (hfree : ∀ r ∈ rs, o r = none) :
    Along apply Legal o (rs.map fun r => (d, .acquire r)) ∧
      run apply o (rs.map fun r => (d, .acquire r)) = fun r => if r ∈ rs then some d else o r := by
  induction rs generalizing o with
  | nil => exact ⟨trivial, by simp⟩
  | cons r rs ih =>
    obtain ⟨hr, hrs⟩ := List.nodup_cons.1 hrs
    obtain ⟨hfree1, hfree⟩ := List.forall_mem_cons.1 hfree
    have hne : ∀ r' ∈ rs, r' ≠ r := fun r' hr' heq => hr (heq ▸ hr')
    obtain ⟨hlegal, hrun⟩ := ih (o := apply o (d, .acquire r)) hrs fun r' hr' => by
      simp [apply, hne r' hr', hfree r' hr']
    refine ⟨⟨hfree1, hlegal⟩, ?_⟩
    rw [List.map_cons, run_cons, hrun]
    funext r'
    by_cases hr' : r' = r
    · simp [apply, hr']
    · simp [apply, hr']

/-- Different resources of a party are released. -/
theorem release_all {rs : List R} (d : D) (hrs : rs.Nodup) (hown : ∀ r ∈ rs, o r = some d) :
    Along apply Legal o (rs.map fun r => (d, .release r)) ∧
      run apply o (rs.map fun r => (d, .release r)) = fun r => if r ∈ rs then none else o r := by
  induction rs generalizing o with
  | nil => exact ⟨trivial, by simp⟩
  | cons r rs ih =>
    obtain ⟨hr, hrs⟩ := List.nodup_cons.1 hrs
    obtain ⟨hown1, hown⟩ := List.forall_mem_cons.1 hown
    have hne : ∀ r' ∈ rs, r' ≠ r := fun r' hr' heq => hr (heq ▸ hr')
    obtain ⟨hlegal, hrun⟩ := ih (o := apply o (d, .release r)) hrs fun r' hr' => by
      simp [apply, hne r' hr', hown r' hr']
    refine ⟨⟨hown1, hlegal⟩, ?_⟩
    rw [List.map_cons, run_cons, hrun]
    funext r'
    by_cases hr' : r' = r
    · simp [apply, hr']
    · simp [apply, hr']

variable [DecidableEq D]

theorem count_step {e : D × Event R} (h : Legal o e) (d : D) (r : R) :
    (if o r = some d then 1 else 0) + (if e = (d, .acquire r) then 1 else 0) =
      (if apply o e r = some d then 1 else 0) + if e = (d, .release r) then 1 else 0 := by
  obtain ⟨c, e⟩ := e
  cases e with
  | acquire r' =>
    have hfree : o r' = none := h
    by_cases hr : r = r'
    · subst hr
      simp [apply, hfree]
    · simp [apply, hr, Ne.symm hr]
  | release r' =>
    have hown : o r' = some c := h
    by_cases hr : r = r'
    · subst hr
      simp [apply, hown]
    · simp [apply, hr, Ne.symm hr]

/-- **Balance.** -/
theorem count_of_legal {es : List (D × Event R)} (h : Along apply Legal o es) (d : D) (r : R) :
    (if o r = some d then 1 else 0) + es.count (d, .acquire r) =
      (if run apply o es r = some d then 1 else 0) + es.count (d, .release r) := by
  induction es generalizing o with
  | nil => rfl
  | cons e es ih =>
    have hstep := count_step h.1 d r
    have hrest := ih h.2
    rw [run_cons, List.count_cons, List.count_cons]
    simp only [beq_iff_eq]
    omega

end Ledger
