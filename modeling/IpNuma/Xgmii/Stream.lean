import IpNuma.Xgmii.Word
import Mathlib.Data.List.GetD
import Mathlib.Tactic.IntervalCases

/-!
# XGMII as a stream of characters

A word of the bus is eight characters, each with a control flag.  Here the bus is the endless
stream of its characters, `wordAt c q` the word made of those from position `q`, and frames lie
in the stream at any position divisible by four: a start character is in lane 0 or lane 4.
`Carries c p fs` says that from `p` on the stream is the frames `fs` among idle characters.
-/

namespace IpNuma

/-- A character of the bus. -/
structure XChar where
  ctrl : Bool
  octet : BitVec 8
  deriving DecidableEq

namespace XChar

def start : XChar := ⟨true, 0xfb#8⟩
def term : XChar := ⟨true, 0xfd#8⟩
def idle : XChar := ⟨true, 0x07#8⟩
def data (b : BitVec 8) : XChar := ⟨false, b⟩

/-- The control flag as a bit. -/
def flag (x : XChar) : BitVec 1 := BitVec.ofBool x.ctrl

end XChar

/-- Eight control bits, lane 7 first. -/
def flags (b₇ b₆ b₅ b₄ b₃ b₂ b₁ b₀ : BitVec 1) : BitVec 8 :=
  b₇ ++ b₆ ++ b₅ ++ b₄ ++ b₃ ++ b₂ ++ b₁ ++ b₀

/-- The word with the characters `q` to `q + 7` in its lanes. -/
def wordAt (c : ℕ → XChar) (q : ℕ) : XgmiiWord where
  c := flags (c (q + 7)).flag (c (q + 6)).flag (c (q + 5)).flag (c (q + 4)).flag (c (q + 3)).flag
    (c (q + 2)).flag (c (q + 1)).flag (c q).flag
  d := lanes (c (q + 7)).octet (c (q + 6)).octet (c (q + 5)).octet (c (q + 4)).octet
    (c (q + 3)).octet (c (q + 2)).octet (c (q + 1)).octet (c q).octet

/-! ### Lanes of a word -/

section Word

variable (c : ℕ → XChar) (q : ℕ)

theorem octet_wordAt {k : ℕ} (hk : k < 8) : octet (wordAt c q).d k = (c (q + k)).octet := by
  interval_cases k <;>
    simp only [wordAt, lanes, octet_append_succ, octet_append_zero, octet_self, Nat.add_zero]

theorem getLsbD_flags (b : ℕ → BitVec 1) {k : ℕ} (hk : k < 8) :
    (flags (b 7) (b 6) (b 5) (b 4) (b 3) (b 2) (b 1) (b 0)).getLsbD k = (b k).getLsbD 0 := by
  interval_cases k <;> simp only [flags, BitVec.getLsbD_append] <;> rfl

theorem ctrl_wordAt {k : ℕ} (hk : k < 8) : (wordAt c q).c.getLsbD k = (c (q + k)).ctrl := by
  have h : (wordAt c q).c.getLsbD k = (c (q + k)).flag.getLsbD 0 :=
    getLsbD_flags (fun k => (c (q + k)).flag) hk
  rw [h, XChar.flag]
  cases (c (q + k)).ctrl <;> rfl

theorem startIn_wordAt {k : ℕ} (hk : k < 8) :
    startIn (wordAt c q) k = true ↔ c (q + k) = .start := by
  rw [startIn, ctrl_wordAt c q hk, octet_wordAt c q hk, Bool.and_eq_true, beq_iff_eq]
  cases c (q + k)
  simp [XChar.start]

theorem wordAt_c_eq_ff_iff : (wordAt c q).c = 0xff#8 ↔ ∀ k < 8, (c (q + k)).ctrl = true := by
  constructor
  · intro h k hk
    rw [← ctrl_wordAt c q hk, h]
    interval_cases k <;> rfl
  · intro h
    apply BitVec.eq_of_getLsbD_eq
    intro k hk
    rw [ctrl_wordAt c q hk, h k hk]
    interval_cases k <;> rfl

/-- Cutting a concatenation of eight parts in the middle. -/
theorem getLsbD_append_halves {n : ℕ} (x₇ x₆ x₅ x₄ x₃ x₂ x₁ x₀ : BitVec n) (i : ℕ) :
    (x₇ ++ x₆ ++ x₅ ++ x₄ ++ x₃ ++ x₂ ++ x₁ ++ x₀).getLsbD i =
      ((x₇ ++ x₆ ++ x₅ ++ x₄) ++ (x₃ ++ x₂ ++ x₁ ++ x₀)).getLsbD i := by
  simp only [BitVec.getLsbD_append]
  by_cases h : i < n + n + n + n
  · rw [if_pos h]
    split_ifs <;> first | rfl | omega
  · rw [if_neg h, if_neg (by omega), if_neg (by omega), if_neg (by omega), if_neg (by omega),
      show i - n - n - n - n = i - (n + n + n + n) by omega]

theorem lanes_halves (b₇ b₆ b₅ b₄ b₃ b₂ b₁ b₀ : BitVec 8) :
    lanes b₇ b₆ b₅ b₄ b₃ b₂ b₁ b₀ = (b₇ ++ b₆ ++ b₅ ++ b₄) ++ (b₃ ++ b₂ ++ b₁ ++ b₀) :=
  BitVec.eq_of_getLsbD_eq fun i _ => getLsbD_append_halves _ _ _ _ _ _ _ _ i

theorem flags_halves (b₇ b₆ b₅ b₄ b₃ b₂ b₁ b₀ : BitVec 1) :
    flags b₇ b₆ b₅ b₄ b₃ b₂ b₁ b₀ = (b₇ ++ b₆ ++ b₅ ++ b₄) ++ (b₃ ++ b₂ ++ b₁ ++ b₀) :=
  BitVec.eq_of_getLsbD_eq fun i _ => getLsbD_append_halves _ _ _ _ _ _ _ _ i

/-- The upper half of a word below the lower half of the next. -/
theorem wordAt_shift :
    (⟨(wordAt c (q + 8)).c.extractLsb' 0 4 ++ (wordAt c q).c.extractLsb' 4 4,
      (wordAt c (q + 8)).d.extractLsb' 0 32 ++ (wordAt c q).d.extractLsb' 32 32⟩ : XgmiiWord) =
      wordAt c (q + 4) := by
  simp only [wordAt, flags_halves, lanes_halves, BitVec.extractLsb'_append_eq_right,
    BitVec.extractLsb'_append_eq_left]

end Word

/-! ### Frames in the stream -/

/-- The octets of an Ethernet frame after the preamble, FCS included. -/
structure EtherFrame where
  octets : List (BitVec 8)
  min_length : 64 ≤ octets.length
  max_length : octets.length ≤ 16384

/-- Octet `i` of a frame. -/
def EtherFrame.octet (f : EtherFrame) (i : ℕ) : BitVec 8 := f.octets.getD i 0

/-- The frame stands at `s`: the start character, seven octets of preamble and SFD, the octets of
the frame, the terminate character, and idle characters up to the twelfth from it. -/
structure FrameAt (c : ℕ → XChar) (s : ℕ) (f : EtherFrame) : Prop where
  lane : 4 ∣ s
  start : c s = .start
  preamble : ∀ i < 7, (c (s + 1 + i)).ctrl = false
  data : ∀ i < f.octets.length, c (s + 8 + i) = .data (f.octet i)
  term : c (s + 8 + f.octets.length) = .term
  gap : ∀ q, s + 8 + f.octets.length < q → q < s + 20 + f.octets.length → c q = .idle

/-- From `p` on the stream is the frames `fs`, each after any number of idle characters, and idle
after the last. -/
def Carries (c : ℕ → XChar) : ℕ → List EtherFrame → Prop
  | p, [] => ∀ q, p ≤ q → c q = .idle
  | p, f :: fs => ∃ s, p ≤ s ∧ (∀ q, p ≤ q → q < s → c q = .idle) ∧ FrameAt c s f ∧
      Carries c (s + 20 + f.octets.length) fs

/-- No start character at the positions `a` to `b - 1`. -/
def NoStart (c : ℕ → XChar) (a b : ℕ) : Prop := ∀ q, a ≤ q → q < b → c q ≠ .start

section Frames

variable {c : ℕ → XChar} {s p : ℕ} {f : EtherFrame} {fs : List EtherFrame}

theorem ne_start_of_ctrl_false {x : XChar} (h : x.ctrl = false) : x ≠ .start := by
  rintro rfl
  cases h

/-- After its start character a frame has no other. -/
theorem FrameAt.noStart (h : FrameAt c s f) : NoStart c (s + 1) (s + 20 + f.octets.length) := by
  intro q h1 h2
  by_cases hp : q < s + 8
  · obtain ⟨i, rfl⟩ := Nat.exists_eq_add_of_le h1
    exact ne_start_of_ctrl_false (h.preamble i (by omega))
  by_cases hd : q < s + 8 + f.octets.length
  · obtain ⟨i, rfl⟩ := Nat.exists_eq_add_of_le (not_lt.1 hp)
    rw [h.data i (by omega)]
    exact ne_start_of_ctrl_false rfl
  by_cases ht : q = s + 8 + f.octets.length
  · rw [ht, h.term]
    decide
  · rw [h.gap q (by omega) h2]
    decide

/-- In the end the stream is idle. -/
theorem Carries.eventually_idle (h : Carries c p fs) : ∃ e, ∀ q, e ≤ q → c q = .idle := by
  induction fs generalizing p with
  | nil => exact ⟨p, h⟩
  | cons f fs ih =>
    obtain ⟨s, -, -, -, h'⟩ := h
    exact ih h'

end Frames

/-! ### Streams from frames -/

section Layout

/-- A frame as characters, with the shortest gap behind it. -/
def EtherFrame.chars (f : EtherFrame) : List XChar :=
  .start :: (List.replicate 7 (.data 0x55#8) ++
    (f.octets.map .data ++ .term :: List.replicate 11 .idle))

theorem EtherFrame.length_chars (f : EtherFrame) : f.chars.length = 20 + f.octets.length := by
  simp [EtherFrame.chars]
  omega

variable {f : EtherFrame}

theorem getD_chars_preamble {i : ℕ} (hi : i < 7) : f.chars.getD (1 + i) .idle = .data 0x55#8 := by
  rw [Nat.add_comm, EtherFrame.chars, List.getD_cons_succ,
    List.getD_append _ _ _ _ (by simpa using hi)]
  exact List.getD_replicate _ hi

theorem getD_chars_rest (i : ℕ) : f.chars.getD (8 + i) .idle =
    (f.octets.map XChar.data ++ XChar.term :: List.replicate 11 XChar.idle).getD i .idle := by
  rw [show 8 + i = (7 + i) + 1 by omega, EtherFrame.chars, List.getD_cons_succ,
    List.getD_append_right _ _ _ _ (by simp), List.length_replicate, Nat.add_sub_cancel_left]

/-- The characters of a frame stand at `s`. -/
theorem frameAt_of_chars {c : ℕ → XChar} {s : ℕ} (hs : 4 ∣ s)
    (h : ∀ k < 20 + f.octets.length, c (s + k) = f.chars.getD k .idle) : FrameAt c s f where
  lane := hs
  start := h 0 (by omega)
  preamble i hi := by
    rw [Nat.add_assoc, h _ (by omega), getD_chars_preamble hi]
    rfl
  data i hi := by
    rw [Nat.add_assoc, h _ (by omega), getD_chars_rest, List.getD_append _ _ _ _ (by simpa using hi)]
    simp [EtherFrame.octet, List.getD_eq_getElem?_getD, hi]
  term := by
    rw [Nat.add_assoc, h _ (by omega), getD_chars_rest, List.getD_append_right _ _ _ _ (by simp)]
    simp
  gap q h1 h2 := by
    obtain ⟨j, rfl⟩ := Nat.exists_eq_add_of_lt h1
    rw [show s + 8 + f.octets.length + j + 1 = s + (8 + (f.octets.length + (j + 1))) by omega,
      h _ (by omega), getD_chars_rest, List.getD_append_right _ _ _ _ (by simp), List.length_map,
      Nat.add_sub_cancel_left, List.getD_cons_succ]
    exact List.getD_replicate _ (by omega)

/-- The frames `fs` behind the characters `l`. -/
theorem carries_chars (l : List XChar) (hl : 4 ∣ l.length) (fs : List EtherFrame)
    (hfs : ∀ f ∈ fs, 4 ∣ f.octets.length) :
    Carries (fun q => (l ++ fs.flatMap EtherFrame.chars).getD q .idle) l.length fs := by
  induction fs generalizing l with
  | nil =>
    intro q hq
    exact List.getD_eq_default _ _ (by simpa using hq)
  | cons f fs ih =>
    rw [List.forall_mem_cons] at hfs
    have hlen : (l ++ f.chars).length = l.length + 20 + f.octets.length := by
      rw [List.length_append, EtherFrame.length_chars, Nat.add_assoc]
    have hrest := ih (l ++ f.chars) (by omega) hfs.2
    rw [List.append_assoc, ← List.flatMap_cons, hlen] at hrest
    refine ⟨l.length, le_rfl, fun q h1 h2 => absurd h1 (by omega), frameAt_of_chars hl ?_, hrest⟩
    intro k hk
    rw [List.getD_append_right _ _ _ _ (by omega), Nat.add_sub_cancel_left, List.flatMap_cons]
    exact List.getD_append _ _ _ _ (by rw [EtherFrame.length_chars]; exact hk)


/-- The frames at the smallest distance from each other. -/
def streamOf (fs : List EtherFrame) (q : ℕ) : XChar := (fs.flatMap EtherFrame.chars).getD q .idle

theorem streamOf_carries {fs : List EtherFrame} (h : ∀ f ∈ fs, 4 ∣ f.octets.length) :
    Carries (streamOf fs) 0 fs :=
  carries_chars [] (Nat.dvd_zero 4) fs h

theorem streamOf_idle {fs : List EtherFrame} {q : ℕ} (h : (fs.flatMap EtherFrame.chars).length ≤ q) :
    streamOf fs q = .idle := List.getD_eq_default _ _ h

end Layout

end IpNuma
