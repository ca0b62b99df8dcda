import IpNuma.Clocked.Run
import Mathlib.Data.BitVec
import Mathlib.Data.List.Count
import Mathlib.Logic.Function.Basic

/-!
# Show-ahead FIFOs

The ports of a first-word-fall-through FIFO, and what its users rely on: the words come out in the
order in which they went in, `dout` is the oldest one while `empty` is low, and while `full` is low
there is room.  The flags may be late in the safe direction.

* `FifoPorts.IsFifo` is the contract, with a relation between the states and the queues they hold;
* `IsFifo.carries` is what it says about a run;
* `IsFifo.drains`: where `empty` is late by one read at most, all that is held comes out;
* `held` is the queue between the counters of a ring buffer.
-/

namespace Clocked

/-- A component with the ports of a FIFO.  An input may ask for a write, a read, or both. -/
structure FifoPorts (σ ι α : Type*) where
  step : σ → ι → σ
  dout : σ → α
  empty : σ → Bool
  full : σ → Bool
  wr : ι → Option α
  rd : ι → Bool

namespace FifoPorts

variable {σ ι α : Type*} (p : FifoPorts σ ι α)

/-- The word that is taken. -/
def puts (s : σ) (i : ι) : List α := if p.full s then [] else (p.wr i).toList

/-- The word that is given. -/
def gets (s : σ) (i : ι) : List α := if p.rd i && !p.empty s then [p.dout s] else []

/-- The component holds a queue of at most `cap` words. -/
structure IsFifo (cap : ℕ) (holds : σ → List α → Prop) : Prop where
  moves : ∀ {s q} i, holds s q → ∃ q', q ++ p.puts s i = p.gets s i ++ q' ∧ holds (p.step s i) q'
  length_le : ∀ {s q}, holds s q → q.length ≤ cap
  head : ∀ {s q}, holds s q → p.empty s = false → q.head? = some (p.dout s)
  room : ∀ {s q}, holds s q → p.full s = false → q.length < cap

/-- While words are held, `empty` stays low, and a read that finds it high lowers it. -/
def Prompt (holds : σ → List α → Prop) : Prop :=
  ∀ {s q q' i}, holds s q → holds (p.step s i) q' → q ≠ [] → q' ≠ [] →
    p.rd i = true ∨ p.empty s = false → p.empty (p.step s i) = false

variable {p} {cap : ℕ} {holds : σ → List α → Prop} {s : σ} {q : List α}

theorem IsFifo.run (h : p.IsFifo cap holds) (hs : holds s q) (is : List ι) :
    ∃ q', q ++ log p.step p.puts s is = log p.step p.gets s is ++ q' ∧
      holds (run p.step s is) q' := by
  induction is generalizing s q with
  | nil => exact ⟨q, by simp, hs⟩
  | cons i is ih =>
    obtain ⟨q', hmove, hs'⟩ := h.moves i hs
    obtain ⟨q'', hrest, hs''⟩ := ih hs'
    refine ⟨q'', ?_, hs''⟩
    rw [log_cons, log_cons, ← List.append_assoc, hmove, List.append_assoc, hrest,
      List.append_assoc]

/-- **The words come out as they went in**, at most `cap` of them are held, and the flags are
safe. -/
theorem IsFifo.carries (h : p.IsFifo cap holds) (hs : holds s []) (is : List ι) :
    ∃ q, log p.step p.puts s is = log p.step p.gets s is ++ q ∧ q.length ≤ cap ∧
      (p.empty (Clocked.run p.step s is) = false →
        q.head? = some (p.dout (Clocked.run p.step s is))) ∧
      (p.full (Clocked.run p.step s is) = false → q.length < cap) := by
  obtain ⟨q, hlog, hq⟩ := h.run hs is
  exact ⟨q, hlog, h.length_le hq, h.head hq, h.room hq⟩

theorem log_puts_of_none {is : List ι} (h : ∀ i ∈ is, p.wr i = none) :
    log p.step p.puts s is = [] := by
  induction is generalizing s with
  | nil => rfl
  | cons i is ih =>
    rw [List.forall_mem_cons] at h
    rw [log_cons, ih h.2]
    simp [puts, h.1]

/-- **What is held comes out**: without writes, one read more than there are words. -/
theorem IsFifo.drains (h : p.IsFifo cap holds) (hp : p.Prompt holds) {is : List ι}
    (hnone : ∀ i ∈ is, p.wr i = none) (hs : holds s q)
    (hcount : q.length + (if p.empty s then 1 else 0) ≤ is.countP p.rd) :
    log p.step p.gets s is = q := by
  induction is generalizing s q with
  | nil =>
    have hlen : q.length ≤ 0 := Nat.le_trans (Nat.le_add_right _ _) hcount
    have hq : q = [] := List.eq_nil_of_length_eq_zero (Nat.le_zero.1 hlen)
    rw [hq, log_nil]
  | cons i is ih =>
    rw [List.forall_mem_cons] at hnone
    obtain ⟨hi, his⟩ := hnone
    obtain ⟨q', hmove, hs'⟩ := h.moves i hs
    have hputs : p.puts s i = [] := by simp [puts, hi]
    rw [hputs, List.append_nil] at hmove
    rw [log_cons, hmove]
    congr 1
    by_cases hq' : q' = []
    · -- nothing is left, and nothing comes
      obtain ⟨q'', hrest, -⟩ := h.run hs' is
      rw [hq', log_puts_of_none his, List.append_nil] at hrest
      rw [hq', (List.append_eq_nil_iff.1 hrest.symm).1]
    · have hq : q ≠ [] := by
        rintro rfl
        exact hq' (List.append_eq_nil_iff.1 hmove.symm).2
      have hlow := hp hs hs' hq hq'
      refine ih his hs' ?_
      cases hrd : p.rd i with
      | false =>
        have hgets : p.gets s i = [] := by simp [gets, hrd]
        rw [hgets, List.nil_append] at hmove
        rw [List.countP_cons_of_neg (by simp [hrd]), hmove] at hcount
        cases he : p.empty s with
        | true =>
          rw [he, if_pos rfl] at hcount
          split_ifs <;> omega
        | false =>
          rw [he] at hcount
          rwa [hlow (.inr he)]
      | true =>
        rw [hlow (.inl hrd)]
        rw [List.countP_cons_of_pos hrd, hmove, List.length_append] at hcount
        cases he : p.empty s with
        | true => simp [he] at hcount ⊢; omega
        | false => simp [he, gets, hrd] at hcount ⊢; omega

end FifoPorts

/-! ### Ring buffers -/

section Held

variable {α β : Type*} {addr : ℕ → β} {mem : β → α} {r w : ℕ}

/-- What a memory holds from the read counter to the write counter. -/
def held (mem : β → α) (addr : ℕ → β) (r w : ℕ) : List α :=
  (List.range' r (w - r)).map fun k => mem (addr k)

@[simp] theorem held_self (mem : β → α) (addr : ℕ → β) (r : ℕ) : held mem addr r r = [] := by
  simp [held]

@[simp] theorem length_held (mem : β → α) (addr : ℕ → β) (r w : ℕ) :
    (held mem addr r w).length = w - r := by
  simp [held]

theorem held_of_lt (h : r < w) : held mem addr r w = mem (addr r) :: held mem addr (r + 1) w := by
  have hlen : w - r = (w - (r + 1)) + 1 := by omega
  rw [held, hlen, List.range'_succ, List.map_cons, held]

/-- A word is stored at the write counter, where none of those held is. -/
theorem held_update [DecidableEq β] (h : r ≤ w)
    (hne : ∀ k, r ≤ k → k < w → addr k ≠ addr w) (x : α) :
    held (Function.update mem (addr w) x) addr r (w + 1) = held mem addr r w ++ [x] := by
  have hlen : w + 1 - r = (w - r) + 1 := by omega
  have hlast : r + (w - r) = w := by omega
  rw [held, hlen, List.range'_1_concat, List.map_append, List.map_singleton, hlast,
    Function.update_self]
  congr 1
  refine List.map_congr_left fun k hk => ?_
  obtain ⟨hlo, hhi⟩ := List.mem_range'_1.1 hk
  exact Function.update_of_ne (hne k hlo (by omega)) _ _

/-- A write, if there is one. -/
theorem held_write [DecidableEq β] {put : Bool} {x : α} (h : r ≤ w)
    (hne : put = true → ∀ k, r ≤ k → k < w → addr k ≠ addr w) :
    held (if put then Function.update mem (addr w) x else mem) addr r (if put then w + 1 else w) =
      held mem addr r w ++ if put then [x] else [] := by
  cases put with
  | true => exact held_update h (hne rfl) x
  | false => exact (List.append_nil _).symm

/-- A read, if there is one. -/
theorem held_read {get : Bool} (h : get = true → r < w) : held mem addr r w =
    (if get then [mem (addr r)] else []) ++ held mem addr (if get then r + 1 else r) w := by
  cases get with
  | true => exact held_of_lt (h rfl)
  | false => rfl

/-- Counters less than a round apart are different in their lower bits. -/
theorem ofNat_inj_of_lt {n k l : ℕ} (h : BitVec.ofNat n k = BitVec.ofNat n l) (hkl : k ≤ l)
    (hlt : l < k + 2 ^ n) : k = l := by
  have hnat := congrArg BitVec.toNat h
  rw [BitVec.toNat_ofNat, BitVec.toNat_ofNat] at hnat
  have hdvd : 2 ^ n ∣ l - k := (Nat.modEq_iff_dvd' hkl).1 hnat
  have hzero := Nat.eq_zero_of_dvd_of_lt hdvd (by omega)
  omega

end Held

end Clocked
