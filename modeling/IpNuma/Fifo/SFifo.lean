import IpNuma.Fifo.ShowAhead

/-!
# `FIFO`: the synchronous FIFO

The counters have one bit more than an address of the memory, so their difference is the number of
words held, and its top bit is `FULL`.  The module stands for the FIFOs of one clock in the
simulations, `fifo` among them.

`isFifo`: it keeps the contract of a show-ahead FIFO, with `2 ^ n` words; no flag is late.
-/

namespace IpNuma

open Clocked

/-- The registers of the module, for words of `α` and `widthad` of `n`. -/
structure SFifo (α : Type*) (n : ℕ) where
  wcnt : BitVec (n + 1)
  rcnt : BitVec (n + 1)
  data : BitVec n → α

/-- What the module samples at an edge of `CLK`. -/
structure SFifoIn (α : Type*) where
  d : α
  wr : Bool
  rd : Bool
  deriving DecidableEq, Inhabited

namespace SFifo

variable {α : Type*} {n : ℕ}

/-- `CNT`. -/
def cnt (s : SFifo α n) : BitVec (n + 1) := s.wcnt - s.rcnt

def full (s : SFifo α n) : Bool := s.cnt.getLsbD n

def empty (s : SFifo α n) : Bool := s.cnt == 0

/-- `WP`. -/
def wp (s : SFifo α n) : BitVec n := s.wcnt.setWidth n

/-- `RP`. -/
def rp (s : SFifo α n) : BitVec n := s.rcnt.setWidth n

def q (s : SFifo α n) : α := s.data s.rp

/-- After reset. -/
def reset (s : SFifo α n) : SFifo α n := { s with wcnt := 0, rcnt := 0 }

/-- One edge of `CLK` with `nRST` high. -/
def step (s : SFifo α n) (i : SFifoIn α) : SFifo α n where
  wcnt := if i.wr && !s.full then s.wcnt + 1 else s.wcnt
  rcnt := if i.rd && !s.empty then s.rcnt + 1 else s.rcnt
  data := if i.wr && !s.full then Function.update s.data s.wp i.d else s.data

/-- The ports. -/
def ports (α : Type*) (n : ℕ) : FifoPorts (SFifo α n) (SFifoIn α) α where
  step := step
  dout := q
  empty := empty
  full := full
  wr i := if i.wr then some i.d else none
  rd i := i.rd

/-- The counters are `r` and `w`. -/
structure Counts (s : SFifo α n) (r w : ℕ) : Prop where
  wcnt : s.wcnt = BitVec.ofNat (n + 1) w
  rcnt : s.rcnt = BitVec.ofNat (n + 1) r
  le : r ≤ w
  le_add : w ≤ r + 2 ^ n

/-- The queue that is held. -/
def Holds (s : SFifo α n) (l : List α) : Prop :=
  ∃ r w, Counts s r w ∧ l = held s.data (BitVec.ofNat n) r w

variable {s : SFifo α n} {r w : ℕ} {l : List α}

/-- The difference of the counters is the number of words. -/
theorem Counts.cnt (h : Counts s r w) : s.cnt = BitVec.ofNat (n + 1) (w - r) := by
  have hsum : BitVec.ofNat (n + 1) w = BitVec.ofNat (n + 1) (w - r) + BitVec.ofNat (n + 1) r := by
    rw [← BitVec.ofNat_add, Nat.sub_add_cancel h.le]
  rw [SFifo.cnt, h.wcnt, h.rcnt, hsum, BitVec.add_sub_cancel]

theorem Counts.full (h : Counts s r w) : s.full = decide (w = r + 2 ^ n) := by
  have hle := h.le_add
  have hpos : 0 < 2 ^ n := Nat.two_pow_pos n
  rw [SFifo.full, h.cnt, BitVec.getLsbD_ofNat, Nat.testBit_eq_decide_div_mod_eq]
  by_cases hw : w = r + 2 ^ n
  · simp [hw, Nat.div_self hpos]
  · have hdiv : (w - r) / 2 ^ n = 0 := Nat.div_eq_of_lt (by omega)
    simp [hw, hdiv]

theorem Counts.empty (h : Counts s r w) : s.empty = decide (w = r) := by
  have hle := h.le
  have hle' := h.le_add
  have hpos : 0 < 2 ^ n := Nat.two_pow_pos n
  have hlt : w - r < 2 ^ (n + 1) := by
    rw [Nat.pow_succ]
    omega
  rw [SFifo.empty, h.cnt, beq_eq_decide]
  refine decide_eq_decide.2 ⟨fun hz => ?_, fun hz => by rw [hz, Nat.sub_self]; rfl⟩
  have hnat := congrArg BitVec.toNat hz
  rw [BitVec.toNat_ofNat, Nat.mod_eq_of_lt hlt] at hnat
  have hzero : w - r = 0 := hnat
  omega

theorem Counts.wp (h : Counts s r w) : s.wp = BitVec.ofNat n w := by
  rw [SFifo.wp, h.wcnt, BitVec.setWidth_ofNat_of_le (Nat.le_succ n)]

theorem Counts.rp (h : Counts s r w) : s.rp = BitVec.ofNat n r := by
  rw [SFifo.rp, h.rcnt, BitVec.setWidth_ofNat_of_le (Nat.le_succ n)]

/-- One edge moves the counters by what is written and read. -/
theorem Counts.step (h : Counts s r w) (i : SFifoIn α) :
    Counts (s.step i) (if i.rd && !s.empty then r + 1 else r)
      (if i.wr && !s.full then w + 1 else w) := by
  have hle := h.le
  have hle' := h.le_add
  refine ⟨?_, ?_, ?_, ?_⟩
  · have hw : (s.step i).wcnt = if i.wr && !s.full then s.wcnt + 1 else s.wcnt := rfl
    rw [hw, h.wcnt]
    split_ifs
    · rw [BitVec.ofNat_add]
      rfl
    · rfl
  · have hr : (s.step i).rcnt = if i.rd && !s.empty then s.rcnt + 1 else s.rcnt := rfl
    rw [hr, h.rcnt]
    split_ifs
    · rw [BitVec.ofNat_add]
      rfl
    · rfl
  · rw [h.empty]
    split_ifs <;> simp_all <;> omega
  · rw [h.full]
    split_ifs <;> simp_all <;> omega

/-- The words held, with the one written, are the one read and those held then. -/
theorem Holds.moves (h : Holds s l) (i : SFifoIn α) :
    ∃ l', l ++ (ports α n).puts s i = (ports α n).gets s i ++ l' ∧ Holds (s.step i) l' := by
  obtain ⟨r, w, hc, rfl⟩ := h
  have hle := hc.le
  have hle' := hc.le_add
  have hputs : (ports α n).puts s i = if i.wr && !s.full then [i.d] else [] := by
    cases hf : s.full <;> cases hw : i.wr <;> simp [FifoPorts.puts, ports, hf, hw]
  have hgets : (ports α n).gets s i =
      if i.rd && !s.empty then [s.data (BitVec.ofNat n r)] else [] := by
    rw [← hc.rp]
    rfl
  have hnonempty : (i.rd && !s.empty) = true → r < w := by
    rw [hc.empty]
    simp
    omega
  have hroom : (i.wr && !s.full) = true → w < r + 2 ^ n := by
    rw [hc.full]
    simp
    omega
  refine ⟨_, ?_, _, _, hc.step i, rfl⟩
  rw [hputs, hgets, held_read hnonempty, List.append_assoc, SFifo.step, hc.wp, held_write]
  · split_ifs with hr
    · exact hnonempty hr
    · exact hle
  · intro hput k hk hkw heq
    have hkr : r ≤ k := by
      split_ifs at hk <;> omega
    have heq' := ofNat_inj_of_lt heq (Nat.le_of_lt hkw) (by have := hroom hput; omega)
    omega

theorem isFifo : (ports α n).IsFifo (2 ^ n) Holds where
  moves i h := h.moves i
  length_le := by
    rintro s l ⟨r, w, hc, rfl⟩
    rw [length_held]
    exact Nat.sub_le_iff_le_add'.2 hc.le_add
  head := by
    rintro s l ⟨r, w, hc, rfl⟩ hempty
    have hlow : s.empty = false := hempty
    have hle := hc.le
    rw [hc.empty, decide_eq_false_iff_not] at hlow
    rw [held_of_lt (by omega), List.head?_cons, ← hc.rp]
    rfl
  room := by
    rintro s l ⟨r, w, hc, rfl⟩ hfull
    have hlow : s.full = false := hfull
    have hle := hc.le_add
    have hpos : 0 < 2 ^ n := Nat.two_pow_pos n
    rw [hc.full, decide_eq_false_iff_not] at hlow
    rw [length_held]
    omega

theorem holds_reset (s : SFifo α n) : Holds s.reset [] :=
  ⟨0, 0, ⟨rfl, rfl, Nat.le_refl 0, Nat.zero_le _⟩, (held_self _ _ _).symm⟩

/-- **The words come out as they went in**, and the flags are exact. -/
theorem words_pass (s : SFifo α n) (is : List (SFifoIn α)) :
    ∃ l, log step (ports α n).puts s.reset is = log step (ports α n).gets s.reset is ++ l ∧
      ((run step s.reset is).empty = true ↔ l = []) ∧
      ((run step s.reset is).full = true ↔ l.length = 2 ^ n) ∧
      (l ≠ [] → l.head? = some (run step s.reset is).q) := by
  obtain ⟨l, hlog, hl⟩ := isFifo.run (holds_reset s) is
  have hhead := isFifo.head hl
  obtain ⟨r, w, hc, rfl⟩ := hl
  have hle := hc.le
  have hle' := hc.le_add
  have hpos : 0 < 2 ^ n := Nat.two_pow_pos n
  refine ⟨_, hlog, ?_, ?_, ?_⟩
  · refine (Bool.eq_iff_iff.1 hc.empty).trans ?_
    rw [← List.length_eq_zero_iff, length_held, decide_eq_true_iff]
    omega
  · refine (Bool.eq_iff_iff.1 hc.full).trans ?_
    rw [length_held, decide_eq_true_iff]
    omega
  · intro hne
    refine hhead (hc.empty.trans (decide_eq_false fun hw => hne ?_))
    rw [hw, held_self]

/-- `EMPTY` is never late. -/
theorem prompt : (ports α n).Prompt Holds := by
  rintro s l l' i - ⟨r, w, hc, rfl⟩ - hne -
  have hle := hc.le
  refine hc.empty.trans (decide_eq_false fun hw => hne ?_)
  rw [hw, held_self]

end SFifo

end IpNuma
