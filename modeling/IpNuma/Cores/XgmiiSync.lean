import IpNuma.Clocked.Run
import IpNuma.Xgmii.Stream

/-!
# `xgmiisync`: lane alignment

The core delays the bus by one word, or by half a word when the last start character was in lane 4,
so that every frame leaves it with its start character in lane 0.  `pos c t` is the position in the
stream of characters from which output word `t` is taken.
-/

namespace IpNuma

open Clocked

/-- The registers of the core: `rxd` and `rxc`, `xgmii_rxd_o` and `xgmii_rxc_o`, `quad_shift`. -/
structure XgmiiSync where
  rx : XgmiiWord
  out : XgmiiWord
  quadShift : Bool
  deriving DecidableEq

namespace XgmiiSync

def reset : XgmiiSync := ⟨⟨0, 0⟩, ⟨0, 0⟩, false⟩

/-- The next value of `quad_shift`. -/
def nextShift (quadShift : Bool) (w : XgmiiWord) : Bool :=
  if startIn w 4 then true else if startIn w 0 then false else quadShift

/-- The core at a clock edge with `sys_rst` low. -/
def step (s : XgmiiSync) (w : XgmiiWord) : XgmiiSync where
  rx := w
  quadShift := nextShift s.quadShift w
  out :=
    if s.quadShift = false then s.rx
    else ⟨w.c.extractLsb' 0 4 ++ s.rx.c.extractLsb' 4 4,
      w.d.extractLsb' 0 32 ++ s.rx.d.extractLsb' 32 32⟩

/-- `quad_shift` after the first `t` words of a stream. -/
def quad (c : ℕ → XChar) : ℕ → Bool
  | 0 => false
  | t + 1 => nextShift (quad c t) (wordAt c (8 * t))

/-- The position of the characters of output word `t`. -/
def pos (c : ℕ → XChar) (t : ℕ) : ℕ := if quad c (t + 1) then 8 * t + 4 else 8 * t

/-- `xgmii_rxd_o` and `xgmii_rxc_o` after `t` edges: two words of zeros, then the stream. -/
def outs (c : ℕ → XChar) : ℕ → XgmiiWord
  | 0 | 1 => ⟨0, 0⟩
  | t + 2 => wordAt c (pos c t)

/-- The registers after `t` words of a stream. -/
structure After (c : ℕ → XChar) (t : ℕ) (s : XgmiiSync) : Prop where
  quadShift : s.quadShift = quad c t
  out : s.out = outs c t
  rx : s.rx = if t = 0 then ⟨0, 0⟩ else wordAt c (8 * (t - 1))

theorem after_reset (c : ℕ → XChar) : After c 0 reset := ⟨rfl, rfl, rfl⟩

theorem after_step {c : ℕ → XChar} {t : ℕ} {s : XgmiiSync} (h : After c t s) :
    After c (t + 1) (s.step (wordAt c (8 * t))) := by
  refine ⟨by rw [step, h.quadShift]; rfl, ?_, rfl⟩
  simp only [step, h.quadShift, h.rx]
  cases t with
  | zero => rfl
  | succ t =>
    rw [outs, pos, if_neg (Nat.succ_ne_zero t), Nat.add_sub_cancel]
    cases quad c (t + 1) with
    | false => rfl
    | true =>
      rw [if_neg (by decide), if_pos rfl]
      exact wordAt_shift c (8 * t)

/-! ### A frame is read from its start character on -/

section Pos

variable {c : ℕ → XChar} {s : ℕ}

theorem quad_succ_of_noStart {t : ℕ} (h : NoStart c (8 * t) (8 * t + 8)) :
    quad c (t + 1) = quad c t := by
  have h0 : startIn (wordAt c (8 * t)) 0 = false := by
    rw [← Bool.not_eq_true, startIn_wordAt c _ (by decide)]
    exact h _ (by omega) (by omega)
  have h4 : startIn (wordAt c (8 * t)) 4 = false := by
    rw [← Bool.not_eq_true, startIn_wordAt c _ (by decide)]
    exact h _ (by omega) (by omega)
  simp [quad, nextShift, h0, h4]

/-- Before the first start character the core does not shift. -/
theorem pos_of_noStart {b : ℕ} (h : NoStart c 0 (8 * b + 8)) : pos c b = 8 * b := by
  have hq : ∀ t, t ≤ b + 1 → quad c t = false := by
    intro t
    induction t with
    | zero => intro _; rfl
    | succ t ih =>
      intro ht
      rw [quad_succ_of_noStart fun q _ h2 => h q (Nat.zero_le q) (by omega), ih (by omega)]
  rw [pos, hq (b + 1) le_rfl, if_neg (by decide)]

/-- The word with the start character sets the shift. -/
theorem quad_of_start {f : EtherFrame} (hf : FrameAt c s f) :
    quad c (s / 8 + 1) = decide (s % 8 = 4) := by
  have hlane : s % 8 = 0 ∨ s % 8 = 4 := by
    have := hf.lane
    omega
  rw [quad, nextShift]
  rcases hlane with h | h
  · have hs : 8 * (s / 8) = s := by omega
    have h4 : startIn (wordAt c (8 * (s / 8))) 4 = false := by
      rw [← Bool.not_eq_true, startIn_wordAt c _ (by decide), hs]
      exact ne_start_of_ctrl_false (hf.preamble 3 (by decide))
    have h0 : startIn (wordAt c (8 * (s / 8))) 0 = true := by
      rw [startIn_wordAt c _ (by decide), hs]
      exact hf.start
    simp [h0, h4, h]
  · have hs : 8 * (s / 8) + 4 = s := by omega
    have h4 : startIn (wordAt c (8 * (s / 8))) 4 = true := by
      rw [startIn_wordAt c _ (by decide), hs]
      exact hf.start
    simp [h4, h]

/-- Until the next start character the words are those of the frame. -/
theorem pos_of_frame {f : EtherFrame} (hf : FrameAt c s f) (k : ℕ)
    (h : NoStart c (s + 1) (8 * (s / 8 + k) + 8)) : pos c (s / 8 + k) = s + 8 * k := by
  have hq : ∀ j, j ≤ k → quad c (s / 8 + j + 1) = decide (s % 8 = 4) := by
    intro j
    induction j with
    | zero => intro _; exact quad_of_start hf
    | succ j ih =>
      intro hj
      rw [quad_succ_of_noStart fun q h1 h2 => h q (by omega) (by omega)]
      exact ih (by omega)
  have hlane := hf.lane
  rw [pos, hq k le_rfl]
  by_cases h4 : s % 8 = 4
  · rw [decide_eq_true h4, if_pos rfl]
    omega
  · rw [decide_eq_false h4, if_neg (by decide)]
    omega

end Pos

end XgmiiSync

end IpNuma
