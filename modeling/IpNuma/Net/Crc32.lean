import Mathlib.Data.BitVec

/-!
# CRC-32 one bit at a time

The CRC of IEEE 802.3 in its reflected form: the register starts as all ones, every bit of the
message moves it towards its low end, and the result is complemented.  The bits of an octet come
lowest first.

* `word` takes in the bits of a whole word, and `word_xor` says that this is linear over the
  field of two elements;
* `eq_of_twoPow` is the principle behind wide implementations: linear functions that agree on the
  words with a single bit agree, and `reverse_eq_word` says so of a circuit that takes in a word at
  once.
-/

namespace Crc32

/-- The polynomial, `x^31` in bit 0. -/
def poly : BitVec 32 := 0xedb88320#32

/-- One bit of the message. -/
def bit (r : BitVec 32) (b : Bool) : BitVec 32 :=
  if r.getLsbD 0 ^^ b then (r >>> 1) ^^^ poly else r >>> 1

/-- The bits of a word in the order in which they are sent. -/
def bits {w : ℕ} (x : BitVec w) : List Bool := (List.range w).map x.getLsbD

/-- The register after the bits of a word. -/
def word {w : ℕ} (r : BitVec 32) (x : BitVec w) : BitVec 32 := (bits x).foldl bit r

/-- The register after a message. -/
def register (bs : List (BitVec 8)) : BitVec 32 := bs.foldl word (BitVec.allOnes 32)

/-- The CRC of a message. -/
def crc32 (bs : List (BitVec 8)) : BitVec 32 := ~~~register bs

/-- The check value of the digits 1 to 9. -/
example : crc32 [0x31, 0x32, 0x33, 0x34, 0x35, 0x36, 0x37, 0x38, 0x39] = 0xcbf43926#32 := by
  decide +kernel

theorem register_append (bs cs : List (BitVec 8)) :
    register (bs ++ cs) = cs.foldl word (register bs) := List.foldl_append

/-- Octets are taken in bit by bit. -/
theorem foldl_word (bs : List (BitVec 8)) (r : BitVec 32) :
    bs.foldl word r = (bs.flatMap bits).foldl bit r := List.foldl_flatMap.symm

/-! ### Linearity -/

theorem bit_eq (r : BitVec 32) (b : Bool) :
    bit r b = (r >>> 1) ^^^ if r.getLsbD 0 ^^ b then poly else 0 := by
  unfold bit
  split_ifs
  · rfl
  · exact BitVec.xor_zero.symm

theorem xor_xor_comm : ∀ a b c d : Bool, ((a ^^ b) ^^ (c ^^ d)) = ((a ^^ c) ^^ (b ^^ d)) := by
  decide

theorem bit_xor (r s : BitVec 32) (b c : Bool) : bit (r ^^^ s) (b ^^ c) = bit r b ^^^ bit s c := by
  have hpoly : ∀ p q : Bool, (if p ^^ q then poly else 0) =
      (if p then poly else 0) ^^^ (if q then poly else 0) := by decide
  have hflag : ((r ^^^ s).getLsbD 0 ^^ (b ^^ c)) = ((r.getLsbD 0 ^^ b) ^^ (s.getLsbD 0 ^^ c)) := by
    rw [BitVec.getLsbD_xor, xor_xor_comm]
  rw [bit_eq, bit_eq, bit_eq, hflag, hpoly, BitVec.ushiftRight_xor_distrib]
  ac_rfl

theorem foldl_bit_xor {ι : Type*} (f g : ι → Bool) (l : List ι) (r s : BitVec 32) :
    (l.map fun i => f i ^^ g i).foldl bit (r ^^^ s) =
      (l.map f).foldl bit r ^^^ (l.map g).foldl bit s := by
  induction l generalizing r s with
  | nil => rfl
  | cons i l ih =>
    simp only [List.map_cons, List.foldl_cons, bit_xor]
    exact ih _ _

theorem word_xor {w : ℕ} (r s : BitVec 32) (x y : BitVec w) :
    word (r ^^^ s) (x ^^^ y) = word r x ^^^ word s y := by
  have hbits : bits (x ^^^ y) = (List.range w).map fun i => x.getLsbD i ^^ y.getLsbD i := by
    rw [bits]
    exact List.map_congr_left fun i _ => BitVec.getLsbD_xor
  rw [word, hbits]
  exact foldl_bit_xor x.getLsbD y.getLsbD (List.range w) r s

/-! ### Linear functions of words -/

section Linear

variable {n m : ℕ} {f g : BitVec n → BitVec m}

theorem map_zero_of_xor (hf : ∀ x y, f (x ^^^ y) = f x ^^^ f y) : f 0 = 0 := by
  have h := hf 0 0
  rw [BitVec.xor_self, BitVec.xor_self] at h
  exact h

/-- Two linear functions that agree on the words with a single bit agree. -/
theorem eq_of_twoPow (hf : ∀ x y, f (x ^^^ y) = f x ^^^ f y) (hg : ∀ x y, g (x ^^^ y) = g x ^^^ g y)
    (h : ∀ i < n, f (BitVec.twoPow n i) = g (BitVec.twoPow n i)) (x : BitVec n) : f x = g x := by
  suffices hall : ∀ k (x : BitVec n), (∀ i, k ≤ i → x.getLsbD i = false) → f x = g x from
    hall n x fun i hi => BitVec.getLsbD_of_ge x i hi
  intro k
  induction k with
  | zero =>
    intro x hx
    have hzero : x = 0 := BitVec.eq_of_getLsbD_eq fun i _ => by simpa using hx i (Nat.zero_le i)
    rw [hzero, map_zero_of_xor hf, map_zero_of_xor hg]
  | succ k ih =>
    intro x hx
    by_cases hk : x.getLsbD k = true
    · -- take the bit `k` out
      have hkn : k < n := BitVec.lt_of_getLsbD hk
      have hsplit : x = (x ^^^ BitVec.twoPow n k) ^^^ BitVec.twoPow n k := by
        rw [BitVec.xor_assoc, BitVec.xor_self, BitVec.xor_zero]
      have hlow := ih (x ^^^ BitVec.twoPow n k) fun i hi => by
        rw [BitVec.getLsbD_xor, BitVec.getLsbD_twoPow]
        rcases Nat.eq_or_lt_of_le hi with rfl | hlt
        · simp [hk, hkn]
        · simp [hx i hlt, show k ≠ i by omega]
      rw [hsplit, hf, hg, hlow, h k hkn]
    · exact ih x fun i hi => by
        rcases Nat.eq_or_lt_of_le hi with rfl | hlt
        · exact Bool.eq_false_iff.2 hk
        · exact hx i hlt

end Linear

/-! ### Wide circuits -/

theorem reverse_xor {w : ℕ} (x y : BitVec w) : (x ^^^ y).reverse = x.reverse ^^^ y.reverse := by
  apply BitVec.eq_of_getLsbD_eq
  intro i hi
  simp [BitVec.getLsbD_reverse, BitVec.getMsbD_xor]

/-- A linear circuit with its words in the other order does `w` steps of the serial CRC if it does
so on single bits. -/
theorem reverse_eq_word {w : ℕ} {f : BitVec 32 → BitVec w → BitVec 32}
    (hf : ∀ q q' d d', f (q ^^^ q') (d ^^^ d') = f q d ^^^ f q' d')
    (hleft : ∀ i < 32, (f (BitVec.twoPow 32 i).reverse (0#w).reverse).reverse =
      word (BitVec.twoPow 32 i) 0#w)
    (hright : ∀ i < w, (f (0#32).reverse (BitVec.twoPow w i).reverse).reverse =
      word 0#32 (BitVec.twoPow w i)) (r : BitVec 32) (d : BitVec w) :
    (f r.reverse d.reverse).reverse = word r d := by
  have hlinear : ∀ (r r' : BitVec 32) (d d' : BitVec w),
      (f (r ^^^ r').reverse (d ^^^ d').reverse).reverse =
        (f r.reverse d.reverse).reverse ^^^ (f r'.reverse d'.reverse).reverse := by
    intro r r' d d'
    rw [reverse_xor, reverse_xor, hf, reverse_xor]
  have hregister : ∀ r, (f r.reverse (0#w).reverse).reverse = word r 0#w := by
    refine eq_of_twoPow (fun r r' => ?_) (fun r r' => ?_) hleft
    · have h := hlinear r r' 0#w 0#w
      rw [BitVec.xor_zero] at h
      exact h
    · have h := word_xor r r' 0#w 0#w
      rw [BitVec.xor_zero] at h
      exact h
  have hdata : ∀ d, (f (0#32).reverse d.reverse).reverse = word 0#32 d := by
    refine eq_of_twoPow (fun d d' => ?_) (fun d d' => ?_) hright
    · have h := hlinear 0#32 0#32 d d'
      rw [BitVec.xor_zero] at h
      exact h
    · have h := word_xor 0#32 0#32 d d'
      rw [BitVec.xor_zero] at h
      exact h
  calc (f r.reverse d.reverse).reverse
      = (f (r ^^^ 0#32).reverse (0#w ^^^ d).reverse).reverse := by
        rw [BitVec.xor_zero, BitVec.zero_xor]
    _ = word r 0#w ^^^ word 0#32 d := by rw [hlinear, hregister, hdata]
    _ = word r d := by rw [← word_xor, BitVec.xor_zero, BitVec.zero_xor]

end Crc32
