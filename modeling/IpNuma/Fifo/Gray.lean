import IpNuma.Fifo.ShowAhead
import Mathlib.Tactic.IntervalCases

/-!
# Gray codes of counters

The reflected Gray code of a word, and the two bits on top of it: they tell in which quarter of its
range a counter is.
-/

namespace Gray

variable {w n k l : ℕ}

/-- The Gray code. -/
def encode (b : BitVec w) : BitVec w := b ^^^ (b >>> 1)

@[simp] theorem getLsbD_encode (b : BitVec w) (i : ℕ) :
    (encode b).getLsbD i = (b.getLsbD i ^^ b.getLsbD (i + 1)) := by
  simp [encode, Nat.add_comm 1 i]

/-- From the top bit down, the code determines the word. -/
theorem encode_injective : Function.Injective (encode (w := w)) := by
  intro a b h
  have hbits : ∀ d i, w ≤ i + d → a.getLsbD i = b.getLsbD i := by
    intro d
    induction d with
    | zero =>
      intro i hi
      rw [BitVec.getLsbD_of_ge a i hi, BitVec.getLsbD_of_ge b i hi]
    | succ d ih =>
      intro i hi
      have hbit := congrArg (fun c : BitVec w => c.getLsbD i) h
      simp only [getLsbD_encode, ih (i + 1) (by omega)] at hbit
      simpa using hbit
  exact BitVec.eq_of_getLsbD_eq fun i _ => hbits w i (by omega)

/-- The code of a counter. -/
def code (w k : ℕ) : BitVec w := encode (BitVec.ofNat w k)

/-- Counters less than a round apart have different codes. -/
theorem code_inj (h : code w k = code w l) (hkl : k ≤ l) (hlt : l < k + 2 ^ w) : k = l :=
  Clocked.ofNat_inj_of_lt (encode_injective h) hkl hlt

/-- A round on they are the same. -/
theorem code_add (w k : ℕ) : code w (k + 2 ^ w) = code w k := by
  unfold code
  congr 1
  apply BitVec.eq_of_toNat_eq
  rw [BitVec.toNat_ofNat, BitVec.toNat_ofNat, Nat.add_mod_right]

theorem code_mod (w k j : ℕ) : code w (k % 2 ^ w + j) = code w (k + j) := by
  unfold code
  congr 1
  apply BitVec.eq_of_toNat_eq
  rw [BitVec.toNat_ofNat, BitVec.toNat_ofNat, Nat.mod_add_mod]

/-- The words held do not depend on the round. -/
theorem held_mod {α : Type*} (mem : BitVec w → α) (k l : ℕ) :
    Clocked.held mem (code w) (k % 2 ^ w) (k % 2 ^ w + l) =
      Clocked.held mem (code w) k (k + l) := by
  simp [Clocked.held, List.range'_eq_map_range, code_mod]

/-- The quarter in which a counter is, on from the first of the first round. -/
def quarter (n k : ℕ) : ℕ := k / 2 ^ n

theorem getLsbD_code_top (n k : ℕ) :
    (code (n + 2) k).getLsbD (n + 1) = decide (quarter n k / 2 % 2 = 1) := by
  have hbit : (BitVec.ofNat (n + 2) k).getLsbD (n + 2) = false := BitVec.getLsbD_of_ge _ _ (by omega)
  rw [code, getLsbD_encode, hbit, Bool.xor_false, BitVec.getLsbD_ofNat, quarter,
    Nat.div_div_eq_div_mul, ← Nat.pow_succ, Nat.testBit_eq_decide_div_mod_eq]
  simp

theorem getLsbD_code_next (n k : ℕ) :
    (code (n + 2) k).getLsbD n =
      (decide (quarter n k % 2 = 1) ^^ decide (quarter n k / 2 % 2 = 1)) := by
  have htop := getLsbD_code_top n k
  rw [code, getLsbD_encode, BitVec.getLsbD_of_ge _ (n + 1 + 1) (by omega), Bool.xor_false] at htop
  rw [code, getLsbD_encode, htop, BitVec.getLsbD_ofNat, quarter, Nat.testBit_eq_decide_div_mod_eq]
  simp

/-- The two top bits of two codes tell whether one counter is in the quarter before the other. -/
theorem before_eq (n k l : ℕ) :
    (((code (n + 2) k).getLsbD n == (code (n + 2) l).getLsbD (n + 1)) &&
      ((code (n + 2) k).getLsbD (n + 1) ^^ (code (n + 2) l).getLsbD n)) =
        decide ((quarter n k + 1) % 4 = quarter n l % 4) := by
  rw [getLsbD_code_top, getLsbD_code_top, getLsbD_code_next, getLsbD_code_next]
  generalize quarter n k = a
  generalize quarter n l = b
  have ha : a % 2 = a % 4 % 2 ∧ a / 2 % 2 = a % 4 / 2 ∧ (a + 1) % 4 = (a % 4 + 1) % 4 := by omega
  have hb : b % 2 = b % 4 % 2 ∧ b / 2 % 2 = b % 4 / 2 := by omega
  have hx : a % 4 < 4 := Nat.mod_lt _ (by decide)
  have hy : b % 4 < 4 := Nat.mod_lt _ (by decide)
  rw [ha.1, ha.2.1, ha.2.2, hb.1, hb.2]
  generalize a % 4 = x at hx
  generalize b % 4 = y at hy
  interval_cases x <;> interval_cases y <;> rfl

theorem quarter_succ (n k : ℕ) : quarter n (k + 1) = quarter n k ∨
    quarter n (k + 1) = quarter n k + 1 := by
  unfold quarter
  rw [Nat.succ_div]
  split_ifs <;> simp

theorem quarter_mono (n : ℕ) : Monotone (quarter n) := fun _ _ h => Nat.div_le_div_right h

theorem quarter_add (n k : ℕ) : quarter n (k + 2 ^ (n + 2)) = quarter n k + 4 := by
  rw [quarter, Nat.pow_add, Nat.add_mul_div_left _ _ (Nat.two_pow_pos _)]
  rfl

end Gray
