import IpNuma.Fifo.Gray

/-!
# `asfifo`: the FIFO between two clocks

The pointers are Gray counters.  They are equal when the FIFO is empty and when it is full, and a
latch tells which: it is set when the write pointer is in the quarter behind the read pointer, and
reset when it is in the quarter before.  `full` and `empty` are set as soon as the pointers say so,
and each is released by an edge of its own clock.  The module is the FIFO of all three boards in the
simulations, as `afifo72_w250_r156`, `afifo72_w156_r250` and `afifo9`.

An input is an instant with an edge of one clock or of both.

* `Counts` is the invariant: the latch is right wherever the pointers may become equal;
* `words_cross`: with any order of the edges the words come out as they went in, none is lost or
  read twice, and neither flag is low when it must be high;
* `delivers`: all words written come out, after one read more than there are places.
-/

namespace IpNuma

open Clocked Gray

/-! ### The counters -/

/-- `graycounter`, for `COUNTER_WIDTH` of `n + 2`. -/
structure GrayCounter (n : ℕ) where
  binaryCount : BitVec (n + 2)
  grayCountOut : BitVec (n + 2)
  deriving DecidableEq, Inhabited

namespace GrayCounter

variable {n k : ℕ} {c : GrayCounter n}

def reset : GrayCounter n := ⟨0 + 1, 0⟩

/-- An edge of `Clk` with `rst` low. -/
def step (c : GrayCounter n) (enable : Bool) : GrayCounter n :=
  if enable then
    { binaryCount := c.binaryCount + 1
      grayCountOut := BitVec.cons (c.binaryCount.getLsbD (n + 1))
        (c.binaryCount.extractLsb' 0 (n + 1) ^^^ c.binaryCount.extractLsb' 1 (n + 1)) }
  else c

/-- The counter has counted to `k`; `BinaryCount` is one ahead. -/
structure At (c : GrayCounter n) (k : ℕ) : Prop where
  binary : c.binaryCount = BitVec.ofNat (n + 2) (k + 1)
  gray : c.grayCountOut = code (n + 2) k

theorem at_reset : (reset : GrayCounter n).At 0 := by
  refine ⟨by simp [reset], ?_⟩
  simp [reset, code, encode]

/-- The concatenation is the Gray code. -/
theorem cons_eq_encode (b : BitVec (n + 2)) :
    BitVec.cons (b.getLsbD (n + 1)) (b.extractLsb' 0 (n + 1) ^^^ b.extractLsb' 1 (n + 1)) =
      encode b := by
  apply BitVec.eq_of_getLsbD_eq
  intro i hi
  rw [BitVec.getLsbD_cons, getLsbD_encode]
  by_cases htop : i = n + 1
  · simp [htop]
  · rw [if_neg htop, BitVec.getLsbD_xor, BitVec.getLsbD_extractLsb', BitVec.getLsbD_extractLsb',
      decide_eq_true (show i < n + 1 by omega), Bool.true_and, Bool.true_and, Nat.zero_add,
      Nat.add_comm 1 i]

theorem At.step (h : c.At k) (enable : Bool) :
    (c.step enable).At (if enable then k + 1 else k) := by
  cases enable with
  | false => exact h
  | true =>
    refine ⟨?_, ?_⟩
    · simp only [GrayCounter.step, if_true, h.binary]
      rw [BitVec.ofNat_add (k + 1) 1]
      rfl
    · simp only [GrayCounter.step, if_true, h.binary]
      rw [cons_eq_encode]
      rfl

end GrayCounter

/-! ### The FIFO -/

/-- The registers, for words of `α` and `ADDRESS_WIDTH` of `n + 2`. -/
structure AsFifo (α : Type*) (n : ℕ) where
  mem : BitVec (n + 2) → α
  pWr : GrayCounter n
  pRd : GrayCounter n
  status : Bool
  full : Bool
  empty : Bool

/-- The clocks that have an edge, and what is sampled at it. -/
structure AsFifoIn (α : Type*) where
  wrClk : Bool
  wrEn : Bool
  din : α
  rdClk : Bool
  rdEn : Bool
  deriving DecidableEq, Inhabited

namespace AsFifo

variable {α : Type*} {n : ℕ}

def pNextWordToWrite (s : AsFifo α n) : BitVec (n + 2) := s.pWr.grayCountOut

def pNextWordToRead (s : AsFifo α n) : BitVec (n + 2) := s.pRd.grayCountOut

def dout (s : AsFifo α n) : α := s.mem s.pNextWordToRead

def nextWriteAddressEn (s : AsFifo α n) (i : AsFifoIn α) : Bool := i.wrEn && !s.full

def nextReadAddressEn (s : AsFifo α n) (i : AsFifoIn α) : Bool := i.rdEn && !s.empty

def equalAddresses (s : AsFifo α n) : Bool := s.pNextWordToWrite == s.pNextWordToRead

def setStatus (s : AsFifo α n) : Bool :=
  (s.pNextWordToWrite.getLsbD n == s.pNextWordToRead.getLsbD (n + 1)) &&
    (s.pNextWordToWrite.getLsbD (n + 1) ^^ s.pNextWordToRead.getLsbD n)

def rstStatus (s : AsFifo α n) : Bool :=
  (s.pNextWordToWrite.getLsbD n ^^ s.pNextWordToRead.getLsbD (n + 1)) &&
    (s.pNextWordToWrite.getLsbD (n + 1) == s.pNextWordToRead.getLsbD n)

def presetFull (s : AsFifo α n) : Bool := s.status && s.equalAddresses

def presetEmpty (s : AsFifo α n) : Bool := !s.status && s.equalAddresses

/-- After `rst` with an edge of each clock. -/
def reset (s : AsFifo α n) : AsFifo α n :=
  { s with pWr := .reset, pRd := .reset, status := false, full := false, empty := true }

/-- The registers at the edges. -/
def clock (s : AsFifo α n) (i : AsFifoIn α) : AsFifo α n where
  mem := if i.wrClk && s.nextWriteAddressEn i then
    Function.update s.mem s.pNextWordToWrite i.din else s.mem
  pWr := s.pWr.step (i.wrClk && s.nextWriteAddressEn i)
  pRd := s.pRd.step (i.rdClk && s.nextReadAddressEn i)
  status := s.status
  full := if i.wrClk then s.presetFull else s.full
  empty := if i.rdClk then s.presetEmpty else s.empty

/-- The latch. -/
def latch (s : AsFifo α n) : AsFifo α n :=
  { s with status := if s.rstStatus then false else if s.setStatus then true else s.status }

/-- One instant: the edges, the latch, and the presets of the flags when they rise. -/
def step (s : AsFifo α n) (i : AsFifoIn α) : AsFifo α n :=
  let t := (s.clock i).latch
  { t with
    full := t.full || (!s.presetFull && t.presetFull)
    empty := t.empty || (!s.presetEmpty && t.presetEmpty) }

/-- The ports. -/
def ports (α : Type*) (n : ℕ) : FifoPorts (AsFifo α n) (AsFifoIn α) α where
  step := step
  dout := dout
  empty := empty
  full := full
  wr i := if i.wrClk && i.wrEn then some i.din else none
  rd i := i.rdClk && i.rdEn

/-! ### The latch -/

/-- The pointers have counted to `r` and `w`, and the latch is right where they come near. -/
structure Settled (s : AsFifo α n) (r w : ℕ) : Prop where
  pWr : s.pWr.At w
  pRd : s.pRd.At r
  le : r ≤ w
  le_add : w ≤ r + 2 ^ (n + 2)
  low : quarter n w ≤ quarter n r + 1 → s.status = false
  high : quarter n r + 3 ≤ quarter n w → s.status = true

/-- The flags are high where they must be. -/
structure Counts (s : AsFifo α n) (r w : ℕ) : Prop extends Settled s r w where
  full : w = r + 2 ^ (n + 2) → s.full = true
  empty : w = r → s.empty = true

/-- The queue that is held. -/
def Holds (s : AsFifo α n) (l : List α) : Prop :=
  ∃ r w, Counts s r w ∧ l = held s.mem (code (n + 2)) r w

variable {s : AsFifo α n} {r w r' w' : ℕ} {l : List α} {i : AsFifoIn α}

theorem setStatus_eq (hw : s.pWr.At w) (hr : s.pRd.At r) :
    s.setStatus = decide ((quarter n w + 1) % 4 = quarter n r % 4) := by
  rw [setStatus, pNextWordToWrite, pNextWordToRead, hw.gray, hr.gray, before_eq]

/-- The latch is reset where the pointers are the other way round. -/
theorem rstStatus_eq (hw : s.pWr.At w) (hr : s.pRd.At r) :
    s.rstStatus = decide ((quarter n r + 1) % 4 = quarter n w % 4) := by
  rw [rstStatus, pNextWordToWrite, pNextWordToRead, hw.gray, hr.gray, ← before_eq, Bool.and_comm,
    Bool.beq_comm, Bool.xor_comm]

/-- Equal pointers are those of an empty FIFO or of a full one. -/
theorem Settled.equalAddresses (h : Settled s r w) :
    s.equalAddresses = decide (w = r ∨ w = r + 2 ^ (n + 2)) := by
  have hle := h.le
  have hle' := h.le_add
  rw [AsFifo.equalAddresses, pNextWordToWrite, pNextWordToRead, h.pWr.gray, h.pRd.gray,
    beq_eq_decide]
  refine decide_eq_decide.2 ⟨fun heq => ?_, ?_⟩
  · by_cases hfull : w = r + 2 ^ (n + 2)
    · exact .inr hfull
    · exact .inl (code_inj heq.symm hle (by omega)).symm
  · rintro (rfl | rfl)
    · rfl
    · exact code_add (n + 2) r

theorem Settled.presetFull (h : Settled s r w) :
    s.presetFull = decide (w = r + 2 ^ (n + 2)) := by
  have hpos : 0 < 2 ^ (n + 2) := Nat.two_pow_pos _
  rw [AsFifo.presetFull, h.equalAddresses]
  by_cases hfull : w = r + 2 ^ (n + 2)
  · have hstatus := h.high (by rw [hfull, quarter_add]; omega)
    simp [hfull, hstatus]
  · by_cases hempty : w = r
    · have hstatus := h.low (by rw [hempty]; omega)
      simp [hempty, hstatus]
    · simp [hfull, hempty]

theorem Settled.presetEmpty (h : Settled s r w) : s.presetEmpty = decide (w = r) := by
  have hpos : 0 < 2 ^ (n + 2) := Nat.two_pow_pos _
  rw [AsFifo.presetEmpty, h.equalAddresses]
  by_cases hempty : w = r
  · have hstatus := h.low (by rw [hempty]; omega)
    simp [hempty, hstatus]
  · by_cases hfull : w = r + 2 ^ (n + 2)
    · have hstatus := h.high (by rw [hfull, quarter_add]; omega)
      simp [hfull, hstatus]
    · simp [hfull, hempty]

/-! ### One instant -/

/-- **The latch** after an instant.  The pointers move by one at most, so they come from the quarter
behind before they are equal, on either side. -/
theorem Settled.clock (h : Settled s r w)
    (hw : w' = if i.wrClk && s.nextWriteAddressEn i then w + 1 else w)
    (hr : r' = if i.rdClk && s.nextReadAddressEn i then r + 1 else r)
    (hle : r' ≤ w') (hle' : w' ≤ r' + 2 ^ (n + 2)) : Settled (s.clock i).latch r' w' := by
  have hpWr : (s.clock i).pWr.At w' := by
    rw [hw]
    exact h.pWr.step _
  have hpRd : (s.clock i).pRd.At r' := by
    rw [hr]
    exact h.pRd.step _
  have hqw : quarter n w' = quarter n w ∨ quarter n w' = quarter n w + 1 := by
    rw [hw]
    split_ifs
    · exact quarter_succ n w
    · exact .inl rfl
  have hqr : quarter n r' = quarter n r ∨ quarter n r' = quarter n r + 1 := by
    rw [hr]
    split_ifs
    · exact quarter_succ n r
    · exact .inl rfl
  have hmono : quarter n r' ≤ quarter n w' := quarter_mono n hle
  have hround : quarter n w' ≤ quarter n r' + 4 := by
    rw [← quarter_add]
    exact quarter_mono n hle'
  have hstatus : (s.clock i).latch.status =
      if (quarter n r' + 1) % 4 = quarter n w' % 4 then false
      else if (quarter n w' + 1) % 4 = quarter n r' % 4 then true else s.status := by
    simp only [latch, rstStatus_eq hpWr hpRd, setStatus_eq hpWr hpRd, decide_eq_true_eq]
    rfl
  refine ⟨hpWr, hpRd, hle, hle', fun hlow => ?_, fun hhigh => ?_⟩
  · rw [hstatus]
    split_ifs with hrst hset
    · rfl
    · omega
    · exact h.low (by omega)
  · rw [hstatus]
    split_ifs with hrst hset
    · omega
    · rfl
    · exact h.high (by omega)

/-- The flags after an instant. -/
theorem Counts.flags (h : Counts s r w) (ht : Settled (s.clock i).latch r' w') :
    Counts (s.step i) r' w' := by
  refine ⟨⟨ht.pWr, ht.pRd, ht.le, ht.le_add, ht.low, ht.high⟩, fun hfull => ?_, fun hempty => ?_⟩
  · have hpre : (s.clock i).latch.presetFull = true := by
      rw [ht.presetFull, decide_eq_true hfull]
    cases hs : s.presetFull with
    | false => simp [step, hpre, hs]
    | true =>
      have hflag := h.full (by simpa [h.presetFull] using hs)
      simp [step, clock, latch, hs, hflag]
  · have hpre : (s.clock i).latch.presetEmpty = true := by
      rw [ht.presetEmpty, decide_eq_true hempty]
    cases hs : s.presetEmpty with
    | false => simp [step, hpre, hs]
    | true =>
      have hflag := h.empty (by simpa [h.presetEmpty] using hs)
      simp [step, clock, latch, hs, hflag]

/-- The words held, with the one written, are the one read and those held then. -/
theorem Holds.moves (h : Holds s l) (i : AsFifoIn α) :
    ∃ l', l ++ (ports α n).puts s i = (ports α n).gets s i ++ l' ∧ Holds (s.step i) l' := by
  obtain ⟨r, w, hc, rfl⟩ := h
  have hle := hc.le
  have hle' := hc.le_add
  have hputs : (ports α n).puts s i =
      if i.wrClk && s.nextWriteAddressEn i then [i.din] else [] := by
    cases hf : s.full <;> cases hw : i.wrClk <;> cases he : i.wrEn <;>
      simp [FifoPorts.puts, ports, nextWriteAddressEn, hf, hw, he]
  have hgets : (ports α n).gets s i =
      if i.rdClk && s.nextReadAddressEn i then [s.mem (code (n + 2) r)] else [] := by
    rw [← hc.pRd.gray, nextReadAddressEn, ← Bool.and_assoc]
    rfl
  have hnonempty : (i.rdClk && s.nextReadAddressEn i) = true → r < w := by
    intro hget
    refine Nat.lt_of_le_of_ne hle fun heq => ?_
    simp [nextReadAddressEn, hc.empty heq.symm] at hget
  have hroom : (i.wrClk && s.nextWriteAddressEn i) = true → w < r + 2 ^ (n + 2) := by
    intro hput
    refine Nat.lt_of_le_of_ne hle' fun heq => ?_
    simp [nextWriteAddressEn, hc.full heq] at hput
  have hsettled : Settled (s.clock i).latch (if i.rdClk && s.nextReadAddressEn i then r + 1 else r)
      (if i.wrClk && s.nextWriteAddressEn i then w + 1 else w) := by
    refine hc.toSettled.clock rfl rfl ?_ ?_
    · by_cases hget : (i.rdClk && s.nextReadAddressEn i) = true
      · rw [if_pos hget]
        exact (hnonempty hget).trans_le (by split_ifs <;> omega)
      · rw [if_neg hget]
        exact hle.trans (by split_ifs <;> omega)
    · by_cases hput : (i.wrClk && s.nextWriteAddressEn i) = true
      · rw [if_pos hput]
        exact (hroom hput).trans_le (by split_ifs <;> omega)
      · rw [if_neg hput]
        exact hle'.trans (by split_ifs <;> omega)
  refine ⟨_, ?_, _, _, hc.flags hsettled, rfl⟩
  rw [hputs, hgets, held_read hnonempty, List.append_assoc]
  congr 1
  have hmem : (s.step i).mem = if i.wrClk && s.nextWriteAddressEn i then
      Function.update s.mem (code (n + 2) w) i.din else s.mem := by
    rw [← hc.pWr.gray]
    rfl
  rw [hmem, held_write]
  · split_ifs with hr
    · exact hnonempty hr
    · exact hle
  · intro hput k hk hkw heq
    have hkr : r ≤ k := by
      split_ifs at hk <;> omega
    have heq' := code_inj heq (Nat.le_of_lt hkw) (by have := hroom hput; omega)
    omega

/-! ### Runs -/

theorem isFifo : (ports α n).IsFifo (2 ^ (n + 2)) Holds where
  moves i h := h.moves i
  length_le := by
    rintro s l ⟨r, w, hc, rfl⟩
    rw [length_held]
    exact Nat.sub_le_iff_le_add'.2 hc.le_add
  head := by
    rintro s l ⟨r, w, hc, rfl⟩ hempty
    have hle := hc.le
    have hne : w ≠ r := fun heq => absurd ((hc.empty heq).symm.trans hempty) (by simp)
    rw [held_of_lt (by omega), List.head?_cons, ← hc.pRd.gray]
    rfl
  room := by
    rintro s l ⟨r, w, hc, rfl⟩ hfull
    have hle := hc.le_add
    have hpos : 0 < 2 ^ (n + 2) := Nat.two_pow_pos _
    have hne : w ≠ r + 2 ^ (n + 2) := fun heq => absurd ((hc.full heq).symm.trans hfull) (by simp)
    rw [length_held]
    omega

theorem holds_reset (s : AsFifo α n) : Holds s.reset [] := by
  refine ⟨0, 0, ⟨⟨GrayCounter.at_reset, GrayCounter.at_reset, Nat.le_refl 0, ?_, fun _ => rfl, ?_⟩,
    ?_, fun _ => rfl⟩, (held_self _ _ _).symm⟩
  · exact Nat.zero_le _
  · simp [quarter]
  · intro h
    have hpos : 0 < 2 ^ (n + 2) := Nat.two_pow_pos _
    omega

/-- The words between the pointers. -/
def words (s : AsFifo α n) : List α :=
  held s.mem (code (n + 2)) (s.pRd.binaryCount - 1).toNat
    ((s.pRd.binaryCount - 1).toNat +
      if s.presetFull then 2 ^ (n + 2) else (s.pWr.binaryCount - s.pRd.binaryCount).toNat)

/-- They are the queue. -/
theorem Holds.eq_words (h : Holds s l) : l = s.words := by
  obtain ⟨r, w, hc, rfl⟩ := h
  obtain ⟨k, rfl⟩ := Nat.exists_eq_add_of_le hc.le
  have hle := hc.le_add
  have hpos : 0 < 2 ^ (n + 2) := Nat.two_pow_pos _
  have hread : (s.pRd.binaryCount - 1).toNat = r % 2 ^ (n + 2) := by
    rw [hc.pRd.binary, BitVec.ofNat_add r 1]
    exact (congrArg BitVec.toNat (BitVec.add_sub_cancel _ _)).trans (BitVec.toNat_ofNat _ _)
  have hcount : (s.pWr.binaryCount - s.pRd.binaryCount).toNat = k % 2 ^ (n + 2) := by
    rw [hc.pWr.binary, hc.pRd.binary, show r + k + 1 = k + (r + 1) by omega, BitVec.ofNat_add k]
    exact (congrArg BitVec.toNat (BitVec.add_sub_cancel _ _)).trans (BitVec.toNat_ofNat _ _)
  have hlength : (if s.presetFull then 2 ^ (n + 2) else k % 2 ^ (n + 2)) = k := by
    rw [hc.presetFull]
    by_cases hfull : k = 2 ^ (n + 2)
    · simp [hfull]
    · rw [if_neg (by simpa using hfull)]
      exact Nat.mod_eq_of_lt (by omega)
  rw [words, hread, hcount, hlength, held_mod]

/-- The queue between the pointers is empty where the pointers say so. -/
theorem Settled.isEmpty (h : Settled s r w) (addr : ℕ → BitVec (n + 2)) :
    (held s.mem addr r w).isEmpty = s.presetEmpty := by
  have hle := h.le
  rw [h.presetEmpty, Bool.eq_iff_iff, List.isEmpty_iff, ← List.length_eq_zero_iff, length_held,
    decide_eq_true_iff]
  omega

/-- `empty` rises with the last word, and an edge of `rd_clk` shows whether there was one. -/
theorem Holds.empty_step (h : Holds s l) {l' : List α} (h' : Holds (s.step i) l') :
    (s.step i).empty = ((if i.rdClk then l.isEmpty else s.empty) || (!l.isEmpty && l'.isEmpty)) := by
  obtain ⟨r, w, hc, rfl⟩ := h
  obtain ⟨r', w', hc', rfl⟩ := h'
  rw [hc.isEmpty, hc'.isEmpty]
  rfl

/-- A read that finds `empty` high with a word behind it lowers it. -/
theorem prompt : (ports α n).Prompt (Holds (α := α)) := by
  intro s l l' i h h' hl hl' hrd
  refine (h.empty_step h').trans ?_
  rw [List.isEmpty_eq_false_iff.2 hl, List.isEmpty_eq_false_iff.2 hl']
  rcases hrd with hrd | hrd
  · have hclk : i.rdClk = true := (Bool.and_eq_true_iff.1 hrd).1
    simp [hclk]
  · have hlow : s.empty = false := hrd
    simp [hlow]

/-- **The words cross as they came**: with edges of the two clocks in any order, what has been read
is a beginning of what has been written, the rest is held, and the flags are safe. -/
theorem words_cross (s : AsFifo α n) (is : List (AsFifoIn α)) :
    ∃ q, log step (ports α n).puts s.reset is = log step (ports α n).gets s.reset is ++ q ∧
      q.length ≤ 2 ^ (n + 2) ∧
      ((run step s.reset is).empty = false → q.head? = some (run step s.reset is).dout) ∧
      ((run step s.reset is).full = false → q.length < 2 ^ (n + 2)) :=
  isFifo.carries (holds_reset s) is

/-- **Everything written is read** in the end: after any run, with no more writes, one edge with
`rd_en` more than there are places is enough. -/
theorem delivers (s : AsFifo α n) (is js : List (AsFifoIn α))
    (hnone : ∀ j ∈ js, (j.wrClk && j.wrEn) = false)
    (hreads : 2 ^ (n + 2) < js.countP fun j => j.rdClk && j.rdEn) :
    log step (ports α n).gets s.reset (is ++ js) = log step (ports α n).puts s.reset (is ++ js) := by
  obtain ⟨q, hlog, hq⟩ := isFifo.run (holds_reset s) is
  have hnone' : ∀ j ∈ js, (ports α n).wr j = none := fun j hj =>
    if_neg (by simp [hnone j hj])
  have hlen : q.length ≤ 2 ^ (n + 2) := isFifo.length_le hq
  have hdrain := isFifo.drains prompt hnone' hq (by
    refine Nat.le_trans ?_ hreads
    split_ifs <;> omega)
  have hputs : log step (ports α n).puts (run step s.reset is) js = [] :=
    FifoPorts.log_puts_of_none hnone'
  rw [List.nil_append] at hlog
  rw [log_append, log_append, hputs, List.append_nil]
  exact (congrArg _ hdrain).trans hlog.symm

/-- Four places, before reset. -/
def blank : AsFifo ℕ 0 := ⟨fun _ => 0, default, default, false, false, false⟩

/-- Five writes with a read at two of the edges, and then five reads. -/
theorem delivers_five :
    log step (ports ℕ 0).gets blank.reset
        ((List.range 5).map (fun k => ⟨true, true, k, k ≥ 3, k ≥ 3⟩) ++
          List.replicate 5 ⟨false, false, 0, true, true⟩) =
      log step (ports ℕ 0).puts blank.reset
        ((List.range 5).map (fun k => ⟨true, true, k, k ≥ 3, k ≥ 3⟩) ++
          List.replicate 5 ⟨false, false, 0, true, true⟩) :=
  delivers blank _ _ (by decide) (by decide)

end AsFifo

end IpNuma
