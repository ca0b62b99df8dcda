import IpNuma.Clocked.Run
import Mathlib.Logic.Function.Basic

/-!
# Memories written byte by byte

A memory is a function from addresses to bytes, a `Store` a byte for an address.  Of a byte only
the bits of `mask` are kept; the others read as zero, so an address with mask zero is no memory.

* `puts_apply`: after any stores an address holds the byte most recently stored there, and what it
  held before when there is none;
* `view_run`: a machine whose every step is a list of stores, as seen through `view`, holds after a
  run what the stores of the run leave;
* `along_iff`: where that can be said of a step exactly under a condition, it can be said of all
  states of a run exactly when every step meets the condition.
-/

namespace ByteStore

open Clocked

variable {α : Type*} [DecidableEq α]

/-- A byte to be stored at an address. -/
structure Store (α : Type*) where
  addr : α
  byte : BitVec 8
  deriving DecidableEq, Inhabited

variable (mask : α → BitVec 8)

/-- The memory after a store. -/
def put (m : α → BitVec 8) (w : Store α) : α → BitVec 8 :=
  Function.update m w.addr (w.byte &&& mask w.addr)

/-- The memory after a list of stores. -/
def puts (m : α → BitVec 8) (ws : List (Store α)) : α → BitVec 8 := ws.foldl (put mask) m

/-- The byte most recently stored at an address. -/
def latest (ws : List (Store α)) (a : α) : Option (BitVec 8) :=
  ws.foldl (fun b w => if w.addr = a then some w.byte else b) none

@[simp] theorem puts_nil (m : α → BitVec 8) : puts mask m [] = m := rfl

@[simp] theorem puts_cons (m : α → BitVec 8) (w : Store α) (ws : List (Store α)) :
    puts mask m (w :: ws) = puts mask (put mask m w) ws := rfl

theorem puts_append (m : α → BitVec 8) (ws vs : List (Store α)) :
    puts mask m (ws ++ vs) = puts mask (puts mask m ws) vs := List.foldl_append

theorem put_self (m : α → BitVec 8) (a : α) (b : BitVec 8) :
    put mask m ⟨a, b⟩ a = b &&& mask a := Function.update_self ..

theorem put_of_ne (m : α → BitVec 8) {a c : α} (b : BitVec 8) (h : c ≠ a) :
    put mask m ⟨a, b⟩ c = m c := Function.update_of_ne h ..

/-- Stores to different addresses may be exchanged. -/
theorem put_comm (m : α → BitVec 8) {w v : Store α} (h : w.addr ≠ v.addr) :
    put mask (put mask m w) v = put mask (put mask m v) w := Function.update_comm h ..

/-- **The most recent store counts.** -/
theorem puts_apply (m : α → BitVec 8) (ws : List (Store α)) (a : α) :
    puts mask m ws a = match latest ws a with
      | some b => b &&& mask a
      | none => m a := by
  induction ws using List.reverseRecOn with
  | nil => rfl
  | append_singleton ws w ih =>
    rw [puts_append, puts_cons, puts_nil]
    unfold latest at ih ⊢
    rw [List.foldl_append, List.foldl_cons, List.foldl_nil]
    by_cases h : w.addr = a
    · subst h
      rw [if_pos rfl]
      exact put_self mask _ _ _
    · rw [if_neg h, ← ih]
      exact put_of_ne mask _ _ (Ne.symm h)

/-- Stores elsewhere leave an address alone. -/
theorem puts_of_ne (m : α → BitVec 8) {ws : List (Store α)} {a : α} (h : ∀ w ∈ ws, w.addr ≠ a) :
    puts mask m ws a = m a := by
  induction ws generalizing m with
  | nil => rfl
  | cons w ws ih =>
    rw [List.forall_mem_cons] at h
    rw [puts_cons, ih _ h.2]
    exact put_of_ne mask m w.byte (Ne.symm h.1)

/-- The stores of the first `n` bytes at `p` to the addresses from `a` on. -/
def block (a : ℕ) (p : ℕ → BitVec 8) (n : ℕ) : List (Store ℕ) :=
  (List.range n).map fun k => ⟨a + k, p k⟩

/-- **A block of bytes** replaces what was at its addresses. -/
theorem puts_block_apply (mask m : ℕ → BitVec 8) (a : ℕ) (p : ℕ → BitVec 8) (n c : ℕ) :
    puts mask m (block a p n) c = if a ≤ c ∧ c < a + n then p (c - a) &&& mask c else m c := by
  unfold block
  induction n with
  | zero =>
    rw [if_neg (by omega)]
    rfl
  | succ n ih =>
    rw [List.range_succ, List.map_append, puts_append, List.map_cons, List.map_nil, puts_cons,
      puts_nil]
    by_cases hc : c = a + n
    · subst hc
      rw [put_self, if_pos (by omega), Nat.add_sub_cancel_left]
    · rw [put_of_ne _ _ _ hc, ih]
      by_cases hin : a ≤ c ∧ c < a + n
      · rw [if_pos hin, if_pos (by omega)]
      · rw [if_neg hin, if_neg (by omega)]

variable {mask} {σ ι : Type*} {step : σ → ι → σ} {P : σ → ι → Prop} {view : σ → α → BitVec 8}
  {stores : σ → ι → List (Store α)}

/-- **Memory rule.**  If every step along `P` is a list of stores, so is the run. -/
theorem view_run (hstep : ∀ s i, P s i → view (step s i) = puts mask (view s) (stores s i)) {s : σ}
    (is : List ι) (h : Along step P s is) :
    view (run step s is) = puts mask (view s) (log step stores s is) := by
  refine log_induction (J := fun t l => view t = puts mask (view s) l) rfl ?_ is h
  intro t i l hl ht
  rw [hstep t i ht, hl, puts_append]

/-- **Exactness rule.**  If `P` says when a step is its stores, a run is along `P` exactly when
every state of it holds what the stores up to it leave. -/
theorem along_iff (hstep : ∀ s i, P s i ↔ view (step s i) = puts mask (view s) (stores s i)) (s : σ)
    (is : List ι) :
    Along step P s is ↔ ∀ pre, pre <+: is →
      view (run step s pre) = puts mask (view s) (log step stores s pre) := by
  constructor
  · rintro h pre ⟨post, rfl⟩
    rw [along_append] at h
    exact view_run (fun t i => (hstep t i).1) pre h.1
  · induction is using List.reverseRecOn with
    | nil =>
      intro _
      trivial
    | append_singleton is i ih =>
      intro h
      have hpre : ∀ pre, pre <+: is →
          view (run step s pre) = puts mask (view s) (log step stores s pre) :=
        fun pre hp => h pre (hp.trans (List.prefix_append _ _))
      have hall := h _ List.prefix_rfl
      rw [run_concat, log_concat, puts_append, ← hpre is List.prefix_rfl] at hall
      exact (along_concat step P s is i).2 ⟨ih hpre, (hstep _ _).2 hall⟩

end ByteStore
