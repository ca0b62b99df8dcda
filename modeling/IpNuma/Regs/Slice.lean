import IpNuma.Xgmii.Word

/-!
# Assigning a slice of a register

`setSlice x lo v` is what `x[lo+k-1:lo] <= v` leaves in `x`, and `setOctet x k b` the case of the
octet `k`.  The lemmas say what a slice reads after such an assignment: the new value inside, the
old one elsewhere.
-/

namespace IpNuma

variable {n k m : ℕ}

/-- The value of `x` after `x[lo+k-1:lo] <= v`. -/
def setSlice (x : BitVec n) (lo : ℕ) (v : BitVec k) : BitVec n :=
  x &&& ~~~((BitVec.allOnes k).setWidth n <<< lo) ||| v.setWidth n <<< lo

/-- The value of `x` after `x[8j+7:8j] <= b`. -/
def setOctet (x : BitVec n) (j : ℕ) (b : BitVec 8) : BitVec n := setSlice x (8 * j) b

theorem getLsbD_setSlice (x : BitVec n) {lo : ℕ} (v : BitVec k) (h : lo + k ≤ n) (i : ℕ) :
    (setSlice x lo v).getLsbD i = if lo ≤ i ∧ i < lo + k then v.getLsbD (i - lo) else x.getLsbD i := by
  unfold setSlice
  simp only [BitVec.getLsbD_or, BitVec.getLsbD_and, BitVec.getLsbD_not, BitVec.getLsbD_shiftLeft,
    BitVec.getLsbD_setWidth, BitVec.getLsbD_allOnes]
  by_cases hn : i < n
  · by_cases hlo : i < lo
    · simp [hlo, hn, show ¬ lo ≤ i by omega]
    · by_cases hk : i < lo + k
      · simp [hn, hlo, hk, show lo ≤ i by omega, show i - lo < n by omega, show i - lo < k by omega]
      · simp [hn, hlo, hk, show ¬ i - lo < k by omega,
          BitVec.getLsbD_of_ge v (i - lo) (by omega)]
  · simp [hn, show ¬ i < lo + k by omega, BitVec.getLsbD_of_ge x i (by omega)]

/-- A slice within the assigned one reads the new value. -/
theorem extractLsb'_setSlice (x : BitVec n) {lo : ℕ} (v : BitVec k) (h : lo + k ≤ n) {a : ℕ}
    (ha : lo ≤ a) (hm : a + m ≤ lo + k) :
    (setSlice x lo v).extractLsb' a m = v.extractLsb' (a - lo) m := by
  apply BitVec.eq_of_getLsbD_eq
  intro i hi
  rw [BitVec.getLsbD_extractLsb', BitVec.getLsbD_extractLsb', getLsbD_setSlice x v h,
    if_pos (by omega), show a + i - lo = a - lo + i by omega]

theorem extractLsb'_setSlice_self (x : BitVec n) {lo : ℕ} (v : BitVec k) (h : lo + k ≤ n) :
    (setSlice x lo v).extractLsb' lo k = v := by
  rw [extractLsb'_setSlice x v h le_rfl le_rfl, Nat.sub_self, BitVec.extractLsb'_eq_self]

/-- A slice apart from the assigned one reads the old value. -/
theorem extractLsb'_setSlice_of_apart (x : BitVec n) {lo : ℕ} (v : BitVec k) (h : lo + k ≤ n)
    {a : ℕ} (ha : a + m ≤ lo ∨ lo + k ≤ a) :
    (setSlice x lo v).extractLsb' a m = x.extractLsb' a m := by
  apply BitVec.eq_of_getLsbD_eq
  intro i hi
  rw [BitVec.getLsbD_extractLsb', BitVec.getLsbD_extractLsb', getLsbD_setSlice x v h,
    if_neg (by omega)]

/-- A slice of the lower part. -/
theorem extractLsb'_append_low (x : BitVec n) (y : BitVec m) (a k : ℕ) (h : a + k ≤ m) :
    (x ++ y).extractLsb' a k = y.extractLsb' a k := by
  apply BitVec.eq_of_getLsbD_eq
  intro i hi
  rw [BitVec.getLsbD_extractLsb', BitVec.getLsbD_extractLsb', BitVec.getLsbD_append,
    if_pos (by omega)]

/-- A slice of the upper part. -/
theorem extractLsb'_append_high (x : BitVec n) (y : BitVec m) (a k : ℕ) (h : m ≤ a) :
    (x ++ y).extractLsb' a k = x.extractLsb' (a - m) k := by
  apply BitVec.eq_of_getLsbD_eq
  intro i hi
  rw [BitVec.getLsbD_extractLsb', BitVec.getLsbD_extractLsb', BitVec.getLsbD_append,
    if_neg (by omega), show a + i - m = a - m + i by omega]

/-- A slice assigned before bits are appended. -/
theorem setSlice_append (x : BitVec n) (y : BitVec m) {lo : ℕ} (v : BitVec k) (h : lo + k ≤ n) :
    setSlice x lo v ++ y = setSlice (x ++ y) (lo + m) v := by
  apply BitVec.eq_of_getLsbD_eq
  intro i hi
  rw [getLsbD_setSlice _ _ (by omega), BitVec.getLsbD_append, BitVec.getLsbD_append]
  by_cases him : i < m
  · rw [if_pos him, if_neg (by omega), if_pos him]
  · rw [if_neg him, if_neg him, getLsbD_setSlice _ _ h]
    by_cases hs : lo ≤ i - m ∧ i - m < lo + k
    · rw [if_pos hs, if_pos (by omega), show i - (lo + m) = i - m - lo by omega]
    · rw [if_neg hs, if_neg (by omega)]

/-- An octet after the assignment of an octet. -/
theorem octet_setOctet (x : BitVec n) {j : ℕ} (b : BitVec 8) (h : 8 * j + 8 ≤ n) (i : ℕ) :
    octet (setOctet x j b) i = if i = j then b else octet x i := by
  unfold octet setOctet
  by_cases hi : i = j
  · subst hi
    rw [if_pos rfl, extractLsb'_setSlice_self x b h]
  · rw [if_neg hi, extractLsb'_setSlice_of_apart x b h (by omega)]

theorem octet_extractLsb' (x : BitVec n) {a j : ℕ} (h : 8 * j + 8 ≤ m) :
    octet (x.extractLsb' (8 * a) m) j = octet x (a + j) := by
  apply BitVec.eq_of_getLsbD_eq
  intro i hi
  simp [octet, show i < 8 from hi, show 8 * j + i < m by omega, Nat.mul_add, Nat.add_assoc]

theorem octet_append_high (x : BitVec n) (q : ℕ) (y : BitVec (8 * q)) (j : ℕ) :
    octet (x ++ y) (q + j) = octet x j := by
  apply BitVec.eq_of_getLsbD_eq
  intro i hi
  unfold octet
  rw [BitVec.getLsbD_extractLsb', BitVec.getLsbD_extractLsb', BitVec.getLsbD_append,
    if_neg (by omega), show 8 * (q + j) + i - 8 * q = 8 * j + i by omega]

theorem octet_append_low (x : BitVec n) {q : ℕ} (y : BitVec (8 * q)) {j : ℕ} (h : j < q) :
    octet (x ++ y) j = octet y j := by
  apply BitVec.eq_of_getLsbD_eq
  intro i hi
  unfold octet
  rw [BitVec.getLsbD_extractLsb', BitVec.getLsbD_extractLsb', BitVec.getLsbD_append,
    if_pos (by omega)]

theorem toNat_append_add (x : BitVec n) (y : BitVec m) :
    (x ++ y).toNat = x.toNat * 2 ^ m + y.toNat := by
  rw [BitVec.toNat_append, ← Nat.shiftLeft_add_eq_or_of_lt y.isLt, Nat.shiftLeft_eq]

/-- A register is the list of its octets. -/
theorem eq_of_octet (x y : BitVec (8 * n)) (h : ∀ i < n, octet x i = octet y i) : x = y := by
  apply BitVec.eq_of_getLsbD_eq
  intro i hi
  have hbit := congrArg (fun b => b.getLsbD (i % 8)) (h (i / 8) (by omega))
  simp only [octet, BitVec.getLsbD_extractLsb', show i % 8 < 8 by omega, decide_true,
    Bool.true_and, Nat.div_add_mod] at hbit
  exact hbit

/-- Two octets side by side. -/
theorem octet_append_octet (x : BitVec n) (k : ℕ) :
    octet x (k + 1) ++ octet x k = x.extractLsb' (8 * k) 16 := by
  apply BitVec.eq_of_getLsbD_eq
  intro i hi
  rw [BitVec.getLsbD_append, BitVec.getLsbD_extractLsb']
  simp only [octet, BitVec.getLsbD_extractLsb']
  split_ifs with h8
  · simp [h8, hi]
  · simp [hi, show i - 8 < 8 by omega, show 8 * (k + 1) + (i - 8) = 8 * k + i by omega]

end IpNuma
