import IpNuma.Net.Crc32
import Mathlib.Data.List.GetD

/-!
# `crc32_d64`: the 64-bit parallel CRC-32 register

`CRC32_D64.v` lists, for each bit of the next register value, the register bits and data bits that
are exclusive-ored into it.  `taps` is that list, row `i` being the right-hand side of
`lfsr_c[i]`: first the indices into `lfsr_q`, then the indices into `data_in`.
-/

namespace IpNuma

namespace Crc32D64

/-- The exclusive or of the bits of `x` at the given indices. -/
def xorBits {w : ℕ} (x : BitVec w) (ks : List ℕ) : Bool :=
  ks.foldl (fun b k => b ^^ x.getLsbD k) false

/-- The right-hand sides of `lfsr_c[0]`, …, `lfsr_c[31]`. -/
def taps : List (List ℕ × List ℕ) :=
  [([0, 2, 5, 12, 13, 15, 16, 18, 21, 22, 23, 26, 28, 29, 31],
    [0, 6, 9, 10, 12, 16, 24, 25, 26, 28, 29, 30, 31, 32, 34, 37, 44, 45, 47, 48, 50, 53, 54,
     55, 58, 60, 61, 63]),
   ([1, 2, 3, 5, 6, 12, 14, 15, 17, 18, 19, 21, 24, 26, 27, 28, 30, 31],
    [0, 1, 6, 7, 9, 11, 12, 13, 16, 17, 24, 27, 28, 33, 34, 35, 37, 38, 44, 46, 47, 49, 50, 51,
     53, 56, 58, 59, 60, 62, 63]),
   ([0, 3, 4, 5, 6, 7, 12, 19, 20, 21, 23, 25, 26, 27],
    [0, 1, 2, 6, 7, 8, 9, 13, 14, 16, 17, 18, 24, 26, 30, 31, 32, 35, 36, 37, 38, 39, 44, 51,
     52, 53, 55, 57, 58, 59]),
   ([0, 1, 4, 5, 6, 7, 8, 13, 20, 21, 22, 24, 26, 27, 28],
    [1, 2, 3, 7, 8, 9, 10, 14, 15, 17, 18, 19, 25, 27, 31, 32, 33, 36, 37, 38, 39, 40, 45, 52,
     53, 54, 56, 58, 59, 60]),
   ([1, 6, 7, 8, 9, 12, 13, 14, 15, 16, 18, 25, 26, 27, 31],
    [0, 2, 3, 4, 6, 8, 11, 12, 15, 18, 19, 20, 24, 25, 29, 30, 31, 33, 38, 39, 40, 41, 44, 45,
     46, 47, 48, 50, 57, 58, 59, 63]),
   ([5, 7, 8, 9, 10, 12, 14, 17, 18, 19, 21, 22, 23, 27, 29, 31],
    [0, 1, 3, 4, 5, 6, 7, 10, 13, 19, 20, 21, 24, 28, 29, 37, 39, 40, 41, 42, 44, 46, 49, 50,
     51, 53, 54, 55, 59, 61, 63]),
   ([6, 8, 9, 10, 11, 13, 15, 18, 19, 20, 22, 23, 24, 28, 30],
    [1, 2, 4, 5, 6, 7, 8, 11, 14, 20, 21, 22, 25, 29, 30, 38, 40, 41, 42, 43, 45, 47, 50, 51,
     52, 54, 55, 56, 60, 62]),
   ([0, 2, 5, 7, 9, 10, 11, 13, 14, 15, 18, 19, 20, 22, 24, 25, 26, 28],
    [0, 2, 3, 5, 7, 8, 10, 15, 16, 21, 22, 23, 24, 25, 28, 29, 32, 34, 37, 39, 41, 42, 43, 45,
     46, 47, 50, 51, 52, 54, 56, 57, 58, 60]),
   ([0, 1, 2, 3, 5, 6, 8, 10, 11, 13, 14, 18, 19, 20, 22, 25, 27, 28, 31],
    [0, 1, 3, 4, 8, 10, 11, 12, 17, 22, 23, 28, 31, 32, 33, 34, 35, 37, 38, 40, 42, 43, 45, 46,
     50, 51, 52, 54, 57, 59, 60, 63]),
   ([0, 1, 2, 3, 4, 6, 7, 9, 11, 12, 14, 15, 19, 20, 21, 23, 26, 28, 29],
    [1, 2, 4, 5, 9, 11, 12, 13, 18, 23, 24, 29, 32, 33, 34, 35, 36, 38, 39, 41, 43, 44, 46, 47,
     51, 52, 53, 55, 58, 60, 61]),
   ([0, 1, 3, 4, 7, 8, 10, 18, 20, 23, 24, 26, 27, 28, 30, 31],
    [0, 2, 3, 5, 9, 13, 14, 16, 19, 26, 28, 29, 31, 32, 33, 35, 36, 39, 40, 42, 50, 52, 55, 56,
     58, 59, 60, 62, 63]),
   ([1, 4, 8, 9, 11, 12, 13, 15, 16, 18, 19, 22, 23, 24, 25, 26, 27],
    [0, 1, 3, 4, 9, 12, 14, 15, 16, 17, 20, 24, 25, 26, 27, 28, 31, 33, 36, 40, 41, 43, 44, 45,
     47, 48, 50, 51, 54, 55, 56, 57, 58, 59]),
   ([9, 10, 14, 15, 17, 18, 19, 20, 21, 22, 24, 25, 27, 29, 31],
    [0, 1, 2, 4, 5, 6, 9, 12, 13, 15, 17, 18, 21, 24, 27, 30, 31, 41, 42, 46, 47, 49, 50, 51,
     52, 53, 54, 56, 57, 59, 61, 63]),
   ([0, 10, 11, 15, 16, 18, 19, 20, 21, 22, 23, 25, 26, 28, 30],
    [1, 2, 3, 5, 6, 7, 10, 13, 14, 16, 18, 19, 22, 25, 28, 31, 32, 42, 43, 47, 48, 50, 51, 52,
     53, 54, 55, 57, 58, 60, 62]),
   ([0, 1, 11, 12, 16, 17, 19, 20, 21, 22, 23, 24, 26, 27, 29, 31],
    [2, 3, 4, 6, 7, 8, 11, 14, 15, 17, 19, 20, 23, 26, 29, 32, 33, 43, 44, 48, 49, 51, 52, 53,
     54, 55, 56, 58, 59, 61, 63]),
   ([1, 2, 12, 13, 17, 18, 20, 21, 22, 23, 24, 25, 27, 28, 30],
    [3, 4, 5, 7, 8, 9, 12, 15, 16, 18, 20, 21, 24, 27, 30, 33, 34, 44, 45, 49, 50, 52, 53, 54,
     55, 56, 57, 59, 60, 62]),
   ([0, 3, 5, 12, 14, 15, 16, 19, 24, 25],
    [0, 4, 5, 8, 12, 13, 17, 19, 21, 22, 24, 26, 29, 30, 32, 35, 37, 44, 46, 47, 48, 51, 56, 57]),
   ([1, 4, 6, 13, 15, 16, 17, 20, 25, 26],
    [1, 5, 6, 9, 13, 14, 18, 20, 22, 23, 25, 27, 30, 31, 33, 36, 38, 45, 47, 48, 49, 52, 57, 58]),
   ([0, 2, 5, 7, 14, 16, 17, 18, 21, 26, 27],
    [2, 6, 7, 10, 14, 15, 19, 21, 23, 24, 26, 28, 31, 32, 34, 37, 39, 46, 48, 49, 50, 53, 58,
     59]),
   ([0, 1, 3, 6, 8, 15, 17, 18, 19, 22, 27, 28],
    [3, 7, 8, 11, 15, 16, 20, 22, 24, 25, 27, 29, 32, 33, 35, 38, 40, 47, 49, 50, 51, 54, 59,
     60]),
   ([1, 2, 4, 7, 9, 16, 18, 19, 20, 23, 28, 29],
    [4, 8, 9, 12, 16, 17, 21, 23, 25, 26, 28, 30, 33, 34, 36, 39, 41, 48, 50, 51, 52, 55, 60,
     61]),
   ([2, 3, 5, 8, 10, 17, 19, 20, 21, 24, 29, 30],
    [5, 9, 10, 13, 17, 18, 22, 24, 26, 27, 29, 31, 34, 35, 37, 40, 42, 49, 51, 52, 53, 56, 61,
     62]),
   ([2, 3, 4, 5, 6, 9, 11, 12, 13, 15, 16, 20, 23, 25, 26, 28, 29, 30],
    [0, 9, 11, 12, 14, 16, 18, 19, 23, 24, 26, 27, 29, 31, 34, 35, 36, 37, 38, 41, 43, 44, 45,
     47, 48, 52, 55, 57, 58, 60, 61, 62]),
   ([2, 3, 4, 6, 7, 10, 14, 15, 17, 18, 22, 23, 24, 27, 28, 30],
    [0, 1, 6, 9, 13, 15, 16, 17, 19, 20, 26, 27, 29, 31, 34, 35, 36, 38, 39, 42, 46, 47, 49, 50,
     54, 55, 56, 59, 60, 62]),
   ([0, 3, 4, 5, 7, 8, 11, 15, 16, 18, 19, 23, 24, 25, 28, 29, 31],
    [1, 2, 7, 10, 14, 16, 17, 18, 20, 21, 27, 28, 30, 32, 35, 36, 37, 39, 40, 43, 47, 48, 50,
     51, 55, 56, 57, 60, 61, 63]),
   ([1, 4, 5, 6, 8, 9, 12, 16, 17, 19, 20, 24, 25, 26, 29, 30],
    [2, 3, 8, 11, 15, 17, 18, 19, 21, 22, 28, 29, 31, 33, 36, 37, 38, 40, 41, 44, 48, 49, 51,
     52, 56, 57, 58, 61, 62]),
   ([6, 7, 9, 10, 12, 15, 16, 17, 20, 22, 23, 25, 27, 28, 29, 30],
    [0, 3, 4, 6, 10, 18, 19, 20, 22, 23, 24, 25, 26, 28, 31, 38, 39, 41, 42, 44, 47, 48, 49, 52,
     54, 55, 57, 59, 60, 61, 62]),
   ([0, 7, 8, 10, 11, 13, 16, 17, 18, 21, 23, 24, 26, 28, 29, 30, 31],
    [1, 4, 5, 7, 11, 19, 20, 21, 23, 24, 25, 26, 27, 29, 32, 39, 40, 42, 43, 45, 48, 49, 50, 53,
     55, 56, 58, 60, 61, 62, 63]),
   ([1, 8, 9, 11, 12, 14, 17, 18, 19, 22, 24, 25, 27, 29, 30, 31],
    [2, 5, 6, 8, 12, 20, 21, 22, 24, 25, 26, 27, 28, 30, 33, 40, 41, 43, 44, 46, 49, 50, 51, 54,
     56, 57, 59, 61, 62, 63]),
   ([2, 9, 10, 12, 13, 15, 18, 19, 20, 23, 25, 26, 28, 30, 31],
    [3, 6, 7, 9, 13, 21, 22, 23, 25, 26, 27, 28, 29, 31, 34, 41, 42, 44, 45, 47, 50, 51, 52, 55,
     57, 58, 60, 62, 63]),
   ([0, 3, 10, 11, 13, 14, 16, 19, 20, 21, 24, 26, 27, 29, 31],
    [4, 7, 8, 10, 14, 22, 23, 24, 26, 27, 28, 29, 30, 32, 35, 42, 43, 45, 46, 48, 51, 52, 53,
     56, 58, 59, 61, 63]),
   ([1, 4, 11, 12, 14, 15, 17, 20, 21, 22, 25, 27, 28, 30],
    [5, 8, 9, 11, 15, 23, 24, 25, 27, 28, 29, 30, 31, 33, 36, 43, 44, 46, 47, 49, 52, 53, 54,
     57, 59, 60, 62])]

/-- The combinational next value `lfsr_c`. -/
def lfsrC (lfsrQ : BitVec 32) (dataIn : BitVec 64) : BitVec 32 :=
  (BitVec.ofBoolListLE (taps.map fun t => xorBits lfsrQ t.1 ^^ xorBits dataIn t.2)).setWidth 32

/-- The register after a clock edge: the asynchronous `rst` holds it at all ones. -/
def step (rst crcEn : Bool) (lfsrQ : BitVec 32) (dataIn : BitVec 64) : BitVec 32 :=
  if rst then BitVec.allOnes 32 else if crcEn then lfsrC lfsrQ dataIn else lfsrQ

theorem xorBits_xor {w : ℕ} (x y : BitVec w) (ks : List ℕ) :
    xorBits (x ^^^ y) ks = (xorBits x ks ^^ xorBits y ks) := by
  suffices h : ∀ b c : Bool, ks.foldl (fun b k => b ^^ (x ^^^ y).getLsbD k) (b ^^ c) =
      (ks.foldl (fun b k => b ^^ x.getLsbD k) b ^^ ks.foldl (fun b k => b ^^ y.getLsbD k) c) from
    h false false
  intro b c
  induction ks generalizing b c with
  | nil => rfl
  | cons k ks ih =>
    rw [List.foldl_cons, List.foldl_cons, List.foldl_cons, ← ih, BitVec.getLsbD_xor,
      Crc32.xor_xor_comm]

/-- Exclusive ors of bits are linear. -/
theorem xorTaps_xor {w : ℕ} (ts : List (List ℕ × List ℕ)) (q q' : BitVec 32) (d d' : BitVec w) :
    (BitVec.ofBoolListLE (ts.map fun t =>
        xorBits (q ^^^ q') t.1 ^^ xorBits (d ^^^ d') t.2)).setWidth 32 =
      (BitVec.ofBoolListLE (ts.map fun t => xorBits q t.1 ^^ xorBits d t.2)).setWidth 32 ^^^
        (BitVec.ofBoolListLE (ts.map fun t => xorBits q' t.1 ^^ xorBits d' t.2)).setWidth 32 := by
  have hbit : ∀ (q : BitVec 32) (d : BitVec w) {i : ℕ}, i < 32 →
      ((BitVec.ofBoolListLE (ts.map fun t =>
        xorBits q t.1 ^^ xorBits d t.2)).setWidth 32).getLsbD i =
          (xorBits q (ts.getD i ([], [])).1 ^^ xorBits d (ts.getD i ([], [])).2) := by
    intro q d i hi
    rw [BitVec.getLsbD_setWidth, BitVec.getLsbD_ofBoolListLE, decide_eq_true hi, Bool.true_and]
    exact List.getD_map ts ([], []) (fun t => xorBits q t.1 ^^ xorBits d t.2)
  apply BitVec.eq_of_getLsbD_eq
  intro i hi
  rw [BitVec.getLsbD_xor, hbit _ _ hi, hbit _ _ hi, hbit _ _ hi, xorBits_xor, xorBits_xor,
    Crc32.xor_xor_comm]

theorem lfsrC_twoPow_left : ∀ i < 32,
    (lfsrC (BitVec.twoPow 32 i).reverse (0#64).reverse).reverse =
      Crc32.word (BitVec.twoPow 32 i) 0#64 := by
  decide +kernel

theorem lfsrC_twoPow_right : ∀ i < 64,
    (lfsrC (0#32).reverse (BitVec.twoPow 64 i).reverse).reverse =
      Crc32.word 0#32 (BitVec.twoPow 64 i) := by
  decide +kernel

/-- The circuit does 64 steps of the serial CRC. -/
theorem lfsrC_eq_word (r : BitVec 32) (d : BitVec 64) :
    (lfsrC r.reverse d.reverse).reverse = Crc32.word r d :=
  Crc32.reverse_eq_word (xorTaps_xor taps) lfsrC_twoPow_left lfsrC_twoPow_right r d

end Crc32D64

end IpNuma
