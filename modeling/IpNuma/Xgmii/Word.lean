import Mathlib.Data.BitVec
import Mathlib.Tactic.IntervalCases

/-!
# Words of the 64-bit XGMII bus

Every clock cycle the bus carries eight lanes: 64 data bits and one control bit a lane.  Lane `k`
is `octet d k`, the slice `d[8k+7:8k]`; the same slice function reads the octets of the address
registers.
-/

namespace IpNuma

/-- One word on the bus: the control bits (`txc`, `rxc`) and the data (`txd`, `rxd`). -/
structure XgmiiWord where
  c : BitVec 8
  d : BitVec 64
  deriving DecidableEq

/-- The slice `x[8k+7:8k]`. -/
def octet {w : ℕ} (x : BitVec w) (k : ℕ) : BitVec 8 := x.extractLsb' (8 * k) 8

/-- The concatenation of eight octets, lane 7 first. -/
def lanes (b₇ b₆ b₅ b₄ b₃ b₂ b₁ b₀ : BitVec 8) : BitVec 64 :=
  b₇ ++ b₆ ++ b₅ ++ b₄ ++ b₃ ++ b₂ ++ b₁ ++ b₀

/-- All lanes control, all lanes the idle character. -/
def idleWord : XgmiiWord := ⟨0xff#8, 0x0707070707070707#64⟩

/-- A start character in lane `k`. -/
def startIn (w : XgmiiWord) (k : ℕ) : Bool := w.c.getLsbD k && octet w.d k == 0xfb#8

@[simp] theorem octet_self (x : BitVec 8) : octet x 0 = x := by simp [octet]

@[simp] theorem octet_append_zero {v : ℕ} (x : BitVec v) (y : BitVec 8) : octet (x ++ y) 0 = y := by
  apply BitVec.eq_of_getLsbD_eq
  intro i hi
  simp [octet, BitVec.getLsbD_append, hi]

@[simp] theorem octet_append_succ {v : ℕ} (x : BitVec v) (y : BitVec 8) (k : ℕ) :
    octet (x ++ y) (k + 1) = octet x k := by
  apply BitVec.eq_of_getLsbD_eq
  intro i hi
  simp [octet, BitVec.getLsbD_append, hi, show ¬ 8 * (k + 1) + i < 8 by omega,
    show 8 * (k + 1) + i - 8 = 8 * k + i by omega]

theorem octet_not {w : ℕ} (x : BitVec w) {k : ℕ} (h : 8 * k + 8 ≤ w) :
    octet (~~~x) k = ~~~octet x k := by
  apply BitVec.eq_of_getLsbD_eq
  intro i hi
  simp [octet, hi, show 8 * k + i < w by omega]

theorem octet_reverse (q : BitVec 32) {k : ℕ} (hk : k < 4) :
    octet q.reverse k = (octet q (3 - k)).reverse := by
  apply BitVec.eq_of_getLsbD_eq
  intro i hi
  have hk' : 32 - 1 - (8 * k + i) = 8 * (3 - k) + (8 - 1 - i) := by omega
  simp only [octet, BitVec.getLsbD_extractLsb', BitVec.getLsbD_reverse, BitVec.getMsbD_eq_getLsbD,
    hi, decide_true, Bool.true_and, hk', decide_eq_true (show 8 * k + i < 32 by omega),
    decide_eq_true (show 8 - 1 - i < 8 by omega)]

/-- The octets with their bits in the other order are those of the reversed word, from the other
end. -/
theorem octet_reversed (q : BitVec 32) {k : ℕ} (hk : k < 4) :
    octet (~~~((octet q 3).reverse ++ (octet q 2).reverse ++ (octet q 1).reverse ++
      (octet q 0).reverse)) (3 - k) = octet (~~~q.reverse) k := by
  rw [octet_not _ (by omega), octet_not _ (by omega), octet_reverse q hk]
  interval_cases k <;> simp

end IpNuma
