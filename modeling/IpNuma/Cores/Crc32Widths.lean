import IpNuma.Cores.Crc32D64
import IpNuma.Clocked.Run
import IpNuma.Xgmii.Word

/-!
# The other widths of the parallel CRC-32 register

`CRC32_D8.v` to `CRC32_D56.v` are written like `CRC32_D64.v`: for each bit of the next register
value, the register bits and data bits that are exclusive-ored into it.  `crc32_d32` has no register
of its own and takes the old value at `crc_in`.  Each list is given as in the source.

`lfsrC_eq_word` says that the circuit for `n` octets does `8 * n` steps of the serial CRC, and
`register_words` that a message can be cut into words of any of these widths.
-/

namespace IpNuma

namespace Crc32Widths

/-- The combinational next value `lfsr_c` of a list of right-hand sides. -/
def lfsrC {w : ℕ} (taps : List (List ℕ × List ℕ)) (lfsrQ : BitVec 32) (dataIn : BitVec w) :
    BitVec 32 :=
  (BitVec.ofBoolListLE (taps.map fun t =>
    Crc32D64.xorBits lfsrQ t.1 ^^ Crc32D64.xorBits dataIn t.2)).setWidth 32

/-- The register after a clock edge: the asynchronous `rst` holds it at all ones. -/
def step {w : ℕ} (taps : List (List ℕ × List ℕ)) (rst crcEn : Bool) (lfsrQ : BitVec 32)
    (dataIn : BitVec w) : BitVec 32 :=
  if rst then BitVec.allOnes 32 else if crcEn then lfsrC taps lfsrQ dataIn else lfsrQ

/-- The right-hand sides in `crc32_d8`. -/
def taps8 : List (List ℕ × List ℕ) :=
  [([24, 30], [0, 6]), ([24, 25, 30, 31], [0, 1, 6, 7]), ([24, 25, 26, 30, 31], [0, 1, 2, 6, 7]),
   ([25, 26, 27, 31], [1, 2, 3, 7]), ([24, 26, 27, 28, 30], [0, 2, 3, 4, 6]),
   ([24, 25, 27, 28, 29, 30, 31], [0, 1, 3, 4, 5, 6, 7]),
   ([25, 26, 28, 29, 30, 31], [1, 2, 4, 5, 6, 7]), ([24, 26, 27, 29, 31], [0, 2, 3, 5, 7]),
   ([0, 24, 25, 27, 28], [0, 1, 3, 4]), ([1, 25, 26, 28, 29], [1, 2, 4, 5]),
   ([2, 24, 26, 27, 29], [0, 2, 3, 5]), ([3, 24, 25, 27, 28], [0, 1, 3, 4]),
   ([4, 24, 25, 26, 28, 29, 30], [0, 1, 2, 4, 5, 6]),
   ([5, 25, 26, 27, 29, 30, 31], [1, 2, 3, 5, 6, 7]), ([6, 26, 27, 28, 30, 31], [2, 3, 4, 6, 7]),
   ([7, 27, 28, 29, 31], [3, 4, 5, 7]), ([8, 24, 28, 29], [0, 4, 5]), ([9, 25, 29, 30], [1, 5, 6]),
   ([10, 26, 30, 31], [2, 6, 7]), ([11, 27, 31], [3, 7]), ([12, 28], [4]), ([13, 29], [5]),
   ([14, 24], [0]), ([15, 24, 25, 30], [0, 1, 6]), ([16, 25, 26, 31], [1, 2, 7]),
   ([17, 26, 27], [2, 3]), ([18, 24, 27, 28, 30], [0, 3, 4, 6]),
   ([19, 25, 28, 29, 31], [1, 4, 5, 7]), ([20, 26, 29, 30], [2, 5, 6]),
   ([21, 27, 30, 31], [3, 6, 7]), ([22, 28, 31], [4, 7]), ([23, 29], [5])]

/-- The right-hand sides in `crc32_d16`. -/
def taps16 : List (List ℕ × List ℕ) :=
  [([16, 22, 25, 26, 28], [0, 6, 9, 10, 12]),
   ([16, 17, 22, 23, 25, 27, 28, 29], [0, 1, 6, 7, 9, 11, 12, 13]),
   ([16, 17, 18, 22, 23, 24, 25, 29, 30], [0, 1, 2, 6, 7, 8, 9, 13, 14]),
   ([17, 18, 19, 23, 24, 25, 26, 30, 31], [1, 2, 3, 7, 8, 9, 10, 14, 15]),
   ([16, 18, 19, 20, 22, 24, 27, 28, 31], [0, 2, 3, 4, 6, 8, 11, 12, 15]),
   ([16, 17, 19, 20, 21, 22, 23, 26, 29], [0, 1, 3, 4, 5, 6, 7, 10, 13]),
   ([17, 18, 20, 21, 22, 23, 24, 27, 30], [1, 2, 4, 5, 6, 7, 8, 11, 14]),
   ([16, 18, 19, 21, 23, 24, 26, 31], [0, 2, 3, 5, 7, 8, 10, 15]),
   ([16, 17, 19, 20, 24, 26, 27, 28], [0, 1, 3, 4, 8, 10, 11, 12]),
   ([17, 18, 20, 21, 25, 27, 28, 29], [1, 2, 4, 5, 9, 11, 12, 13]),
   ([16, 18, 19, 21, 25, 29, 30], [0, 2, 3, 5, 9, 13, 14]),
   ([16, 17, 19, 20, 25, 28, 30, 31], [0, 1, 3, 4, 9, 12, 14, 15]),
   ([16, 17, 18, 20, 21, 22, 25, 28, 29, 31], [0, 1, 2, 4, 5, 6, 9, 12, 13, 15]),
   ([17, 18, 19, 21, 22, 23, 26, 29, 30], [1, 2, 3, 5, 6, 7, 10, 13, 14]),
   ([18, 19, 20, 22, 23, 24, 27, 30, 31], [2, 3, 4, 6, 7, 8, 11, 14, 15]),
   ([19, 20, 21, 23, 24, 25, 28, 31], [3, 4, 5, 7, 8, 9, 12, 15]),
   ([0, 16, 20, 21, 24, 28, 29], [0, 4, 5, 8, 12, 13]),
   ([1, 17, 21, 22, 25, 29, 30], [1, 5, 6, 9, 13, 14]),
   ([2, 18, 22, 23, 26, 30, 31], [2, 6, 7, 10, 14, 15]),
   ([3, 19, 23, 24, 27, 31], [3, 7, 8, 11, 15]), ([4, 20, 24, 25, 28], [4, 8, 9, 12]),
   ([5, 21, 25, 26, 29], [5, 9, 10, 13]), ([6, 16, 25, 27, 28, 30], [0, 9, 11, 12, 14]),
   ([7, 16, 17, 22, 25, 29, 31], [0, 1, 6, 9, 13, 15]),
   ([8, 17, 18, 23, 26, 30], [1, 2, 7, 10, 14]), ([9, 18, 19, 24, 27, 31], [2, 3, 8, 11, 15]),
   ([10, 16, 19, 20, 22, 26], [0, 3, 4, 6, 10]), ([11, 17, 20, 21, 23, 27], [1, 4, 5, 7, 11]),
   ([12, 18, 21, 22, 24, 28], [2, 5, 6, 8, 12]), ([13, 19, 22, 23, 25, 29], [3, 6, 7, 9, 13]),
   ([14, 20, 23, 24, 26, 30], [4, 7, 8, 10, 14]), ([15, 21, 24, 25, 27, 31], [5, 8, 9, 11, 15])]

/-- The right-hand sides in `crc32_d24`. -/
def taps24 : List (List ℕ × List ℕ) :=
  [([8, 14, 17, 18, 20, 24], [0, 6, 9, 10, 12, 16]),
   ([8, 9, 14, 15, 17, 19, 20, 21, 24, 25], [0, 1, 6, 7, 9, 11, 12, 13, 16, 17]),
   ([8, 9, 10, 14, 15, 16, 17, 21, 22, 24, 25, 26], [0, 1, 2, 6, 7, 8, 9, 13, 14, 16, 17, 18]),
   ([9, 10, 11, 15, 16, 17, 18, 22, 23, 25, 26, 27], [1, 2, 3, 7, 8, 9, 10, 14, 15, 17, 18, 19]),
   ([8, 10, 11, 12, 14, 16, 19, 20, 23, 26, 27, 28], [0, 2, 3, 4, 6, 8, 11, 12, 15, 18, 19, 20]),
   ([8, 9, 11, 12, 13, 14, 15, 18, 21, 27, 28, 29], [0, 1, 3, 4, 5, 6, 7, 10, 13, 19, 20, 21]),
   ([9, 10, 12, 13, 14, 15, 16, 19, 22, 28, 29, 30], [1, 2, 4, 5, 6, 7, 8, 11, 14, 20, 21, 22]),
   ([8, 10, 11, 13, 15, 16, 18, 23, 24, 29, 30, 31], [0, 2, 3, 5, 7, 8, 10, 15, 16, 21, 22, 23]),
   ([8, 9, 11, 12, 16, 18, 19, 20, 25, 30, 31], [0, 1, 3, 4, 8, 10, 11, 12, 17, 22, 23]),
   ([9, 10, 12, 13, 17, 19, 20, 21, 26, 31], [1, 2, 4, 5, 9, 11, 12, 13, 18, 23]),
   ([8, 10, 11, 13, 17, 21, 22, 24, 27], [0, 2, 3, 5, 9, 13, 14, 16, 19]),
   ([8, 9, 11, 12, 17, 20, 22, 23, 24, 25, 28], [0, 1, 3, 4, 9, 12, 14, 15, 16, 17, 20]),
   ([8, 9, 10, 12, 13, 14, 17, 20, 21, 23, 25, 26, 29],
    [0, 1, 2, 4, 5, 6, 9, 12, 13, 15, 17, 18, 21]),
   ([9, 10, 11, 13, 14, 15, 18, 21, 22, 24, 26, 27, 30],
    [1, 2, 3, 5, 6, 7, 10, 13, 14, 16, 18, 19, 22]),
   ([10, 11, 12, 14, 15, 16, 19, 22, 23, 25, 27, 28, 31],
    [2, 3, 4, 6, 7, 8, 11, 14, 15, 17, 19, 20, 23]),
   ([11, 12, 13, 15, 16, 17, 20, 23, 24, 26, 28, 29], [3, 4, 5, 7, 8, 9, 12, 15, 16, 18, 20, 21]),
   ([8, 12, 13, 16, 20, 21, 25, 27, 29, 30], [0, 4, 5, 8, 12, 13, 17, 19, 21, 22]),
   ([9, 13, 14, 17, 21, 22, 26, 28, 30, 31], [1, 5, 6, 9, 13, 14, 18, 20, 22, 23]),
   ([10, 14, 15, 18, 22, 23, 27, 29, 31], [2, 6, 7, 10, 14, 15, 19, 21, 23]),
   ([11, 15, 16, 19, 23, 24, 28, 30], [3, 7, 8, 11, 15, 16, 20, 22]),
   ([12, 16, 17, 20, 24, 25, 29, 31], [4, 8, 9, 12, 16, 17, 21, 23]),
   ([13, 17, 18, 21, 25, 26, 30], [5, 9, 10, 13, 17, 18, 22]),
   ([8, 17, 19, 20, 22, 24, 26, 27, 31], [0, 9, 11, 12, 14, 16, 18, 19, 23]),
   ([8, 9, 14, 17, 21, 23, 24, 25, 27, 28], [0, 1, 6, 9, 13, 15, 16, 17, 19, 20]),
   ([0, 9, 10, 15, 18, 22, 24, 25, 26, 28, 29], [1, 2, 7, 10, 14, 16, 17, 18, 20, 21]),
   ([1, 10, 11, 16, 19, 23, 25, 26, 27, 29, 30], [2, 3, 8, 11, 15, 17, 18, 19, 21, 22]),
   ([2, 8, 11, 12, 14, 18, 26, 27, 28, 30, 31], [0, 3, 4, 6, 10, 18, 19, 20, 22, 23]),
   ([3, 9, 12, 13, 15, 19, 27, 28, 29, 31], [1, 4, 5, 7, 11, 19, 20, 21, 23]),
   ([4, 10, 13, 14, 16, 20, 28, 29, 30], [2, 5, 6, 8, 12, 20, 21, 22]),
   ([5, 11, 14, 15, 17, 21, 29, 30, 31], [3, 6, 7, 9, 13, 21, 22, 23]),
   ([6, 12, 15, 16, 18, 22, 30, 31], [4, 7, 8, 10, 14, 22, 23]),
   ([7, 13, 16, 17, 19, 23, 31], [5, 8, 9, 11, 15, 23])]

/-- The right-hand sides in `crc32_d32`. -/
def taps32 : List (List ℕ × List ℕ) :=
  [([0, 6, 9, 10, 12, 16, 24, 25, 26, 28, 29, 30, 31],
    [0, 6, 9, 10, 12, 16, 24, 25, 26, 28, 29, 30, 31]),
   ([0, 1, 6, 7, 9, 11, 12, 13, 16, 17, 24, 27, 28],
    [0, 1, 6, 7, 9, 11, 12, 13, 16, 17, 24, 27, 28]),
   ([0, 1, 2, 6, 7, 8, 9, 13, 14, 16, 17, 18, 24, 26, 30, 31],
    [0, 1, 2, 6, 7, 8, 9, 13, 14, 16, 17, 18, 24, 26, 30, 31]),
   ([1, 2, 3, 7, 8, 9, 10, 14, 15, 17, 18, 19, 25, 27, 31],
    [1, 2, 3, 7, 8, 9, 10, 14, 15, 17, 18, 19, 25, 27, 31]),
   ([0, 2, 3, 4, 6, 8, 11, 12, 15, 18, 19, 20, 24, 25, 29, 30, 31],
    [0, 2, 3, 4, 6, 8, 11, 12, 15, 18, 19, 20, 24, 25, 29, 30, 31]),
   ([0, 1, 3, 4, 5, 6, 7, 10, 13, 19, 20, 21, 24, 28, 29],
    [0, 1, 3, 4, 5, 6, 7, 10, 13, 19, 20, 21, 24, 28, 29]),
   ([1, 2, 4, 5, 6, 7, 8, 11, 14, 20, 21, 22, 25, 29, 30],
    [1, 2, 4, 5, 6, 7, 8, 11, 14, 20, 21, 22, 25, 29, 30]),
   ([0, 2, 3, 5, 7, 8, 10, 15, 16, 21, 22, 23, 24, 25, 28, 29],
    [0, 2, 3, 5, 7, 8, 10, 15, 16, 21, 22, 23, 24, 25, 28, 29]),
   ([0, 1, 3, 4, 8, 10, 11, 12, 17, 22, 23, 28, 31],
    [0, 1, 3, 4, 8, 10, 11, 12, 17, 22, 23, 28, 31]),
   ([1, 2, 4, 5, 9, 11, 12, 13, 18, 23, 24, 29], [1, 2, 4, 5, 9, 11, 12, 13, 18, 23, 24, 29]),
   ([0, 2, 3, 5, 9, 13, 14, 16, 19, 26, 28, 29, 31],
    [0, 2, 3, 5, 9, 13, 14, 16, 19, 26, 28, 29, 31]),
   ([0, 1, 3, 4, 9, 12, 14, 15, 16, 17, 20, 24, 25, 26, 27, 28, 31],
    [0, 1, 3, 4, 9, 12, 14, 15, 16, 17, 20, 24, 25, 26, 27, 28, 31]),
   ([0, 1, 2, 4, 5, 6, 9, 12, 13, 15, 17, 18, 21, 24, 27, 30, 31],
    [0, 1, 2, 4, 5, 6, 9, 12, 13, 15, 17, 18, 21, 24, 27, 30, 31]),
   ([1, 2, 3, 5, 6, 7, 10, 13, 14, 16, 18, 19, 22, 25, 28, 31],
    [1, 2, 3, 5, 6, 7, 10, 13, 14, 16, 18, 19, 22, 25, 28, 31]),
   ([2, 3, 4, 6, 7, 8, 11, 14, 15, 17, 19, 20, 23, 26, 29],
    [2, 3, 4, 6, 7, 8, 11, 14, 15, 17, 19, 20, 23, 26, 29]),
   ([3, 4, 5, 7, 8, 9, 12, 15, 16, 18, 20, 21, 24, 27, 30],
    [3, 4, 5, 7, 8, 9, 12, 15, 16, 18, 20, 21, 24, 27, 30]),
   ([0, 4, 5, 8, 12, 13, 17, 19, 21, 22, 24, 26, 29, 30],
    [0, 4, 5, 8, 12, 13, 17, 19, 21, 22, 24, 26, 29, 30]),
   ([1, 5, 6, 9, 13, 14, 18, 20, 22, 23, 25, 27, 30, 31],
    [1, 5, 6, 9, 13, 14, 18, 20, 22, 23, 25, 27, 30, 31]),
   ([2, 6, 7, 10, 14, 15, 19, 21, 23, 24, 26, 28, 31],
    [2, 6, 7, 10, 14, 15, 19, 21, 23, 24, 26, 28, 31]),
   ([3, 7, 8, 11, 15, 16, 20, 22, 24, 25, 27, 29], [3, 7, 8, 11, 15, 16, 20, 22, 24, 25, 27, 29]),
   ([4, 8, 9, 12, 16, 17, 21, 23, 25, 26, 28, 30], [4, 8, 9, 12, 16, 17, 21, 23, 25, 26, 28, 30]),
   ([5, 9, 10, 13, 17, 18, 22, 24, 26, 27, 29, 31], [5, 9, 10, 13, 17, 18, 22, 24, 26, 27, 29, 31]),
   ([0, 9, 11, 12, 14, 16, 18, 19, 23, 24, 26, 27, 29, 31],
    [0, 9, 11, 12, 14, 16, 18, 19, 23, 24, 26, 27, 29, 31]),
   ([0, 1, 6, 9, 13, 15, 16, 17, 19, 20, 26, 27, 29, 31],
    [0, 1, 6, 9, 13, 15, 16, 17, 19, 20, 26, 27, 29, 31]),
   ([1, 2, 7, 10, 14, 16, 17, 18, 20, 21, 27, 28, 30],
    [1, 2, 7, 10, 14, 16, 17, 18, 20, 21, 27, 28, 30]),
   ([2, 3, 8, 11, 15, 17, 18, 19, 21, 22, 28, 29, 31],
    [2, 3, 8, 11, 15, 17, 18, 19, 21, 22, 28, 29, 31]),
   ([0, 3, 4, 6, 10, 18, 19, 20, 22, 23, 24, 25, 26, 28, 31],
    [0, 3, 4, 6, 10, 18, 19, 20, 22, 23, 24, 25, 26, 28, 31]),
   ([1, 4, 5, 7, 11, 19, 20, 21, 23, 24, 25, 26, 27, 29],
    [1, 4, 5, 7, 11, 19, 20, 21, 23, 24, 25, 26, 27, 29]),
   ([2, 5, 6, 8, 12, 20, 21, 22, 24, 25, 26, 27, 28, 30],
    [2, 5, 6, 8, 12, 20, 21, 22, 24, 25, 26, 27, 28, 30]),
   ([3, 6, 7, 9, 13, 21, 22, 23, 25, 26, 27, 28, 29, 31],
    [3, 6, 7, 9, 13, 21, 22, 23, 25, 26, 27, 28, 29, 31]),
   ([4, 7, 8, 10, 14, 22, 23, 24, 26, 27, 28, 29, 30],
    [4, 7, 8, 10, 14, 22, 23, 24, 26, 27, 28, 29, 30]),
   ([5, 8, 9, 11, 15, 23, 24, 25, 27, 28, 29, 30, 31],
    [5, 8, 9, 11, 15, 23, 24, 25, 27, 28, 29, 30, 31])]

/-- The right-hand sides in `crc32_d40`. -/
def taps40 : List (List ℕ × List ℕ) :=
  [([1, 2, 4, 8, 16, 17, 18, 20, 21, 22, 23, 24, 26, 29],
    [0, 6, 9, 10, 12, 16, 24, 25, 26, 28, 29, 30, 31, 32, 34, 37]),
   ([1, 3, 4, 5, 8, 9, 16, 19, 20, 25, 26, 27, 29, 30],
    [0, 1, 6, 7, 9, 11, 12, 13, 16, 17, 24, 27, 28, 33, 34, 35, 37, 38]),
   ([0, 1, 5, 6, 8, 9, 10, 16, 18, 22, 23, 24, 27, 28, 29, 30, 31],
    [0, 1, 2, 6, 7, 8, 9, 13, 14, 16, 17, 18, 24, 26, 30, 31, 32, 35, 36, 37, 38, 39]),
   ([0, 1, 2, 6, 7, 9, 10, 11, 17, 19, 23, 24, 25, 28, 29, 30, 31],
    [1, 2, 3, 7, 8, 9, 10, 14, 15, 17, 18, 19, 25, 27, 31, 32, 33, 36, 37, 38, 39]),
   ([0, 3, 4, 7, 10, 11, 12, 16, 17, 21, 22, 23, 25, 30, 31],
    [0, 2, 3, 4, 6, 8, 11, 12, 15, 18, 19, 20, 24, 25, 29, 30, 31, 33, 38, 39]),
   ([2, 5, 11, 12, 13, 16, 20, 21, 29, 31],
    [0, 1, 3, 4, 5, 6, 7, 10, 13, 19, 20, 21, 24, 28, 29, 37, 39]),
   ([0, 3, 6, 12, 13, 14, 17, 21, 22, 30],
    [1, 2, 4, 5, 6, 7, 8, 11, 14, 20, 21, 22, 25, 29, 30, 38]),
   ([0, 2, 7, 8, 13, 14, 15, 16, 17, 20, 21, 24, 26, 29, 31],
    [0, 2, 3, 5, 7, 8, 10, 15, 16, 21, 22, 23, 24, 25, 28, 29, 32, 34, 37, 39]),
   ([0, 2, 3, 4, 9, 14, 15, 20, 23, 24, 25, 26, 27, 29, 30],
    [0, 1, 3, 4, 8, 10, 11, 12, 17, 22, 23, 28, 31, 32, 33, 34, 35, 37, 38]),
   ([1, 3, 4, 5, 10, 15, 16, 21, 24, 25, 26, 27, 28, 30, 31],
    [1, 2, 4, 5, 9, 11, 12, 13, 18, 23, 24, 29, 32, 33, 34, 35, 36, 38, 39]),
   ([1, 5, 6, 8, 11, 18, 20, 21, 23, 24, 25, 27, 28, 31],
    [0, 2, 3, 5, 9, 13, 14, 16, 19, 26, 28, 29, 31, 32, 33, 35, 36, 39]),
   ([1, 4, 6, 7, 8, 9, 12, 16, 17, 18, 19, 20, 23, 25, 28],
    [0, 1, 3, 4, 9, 12, 14, 15, 16, 17, 20, 24, 25, 26, 27, 28, 31, 33, 36]),
   ([1, 4, 5, 7, 9, 10, 13, 16, 19, 22, 23],
    [0, 1, 2, 4, 5, 6, 9, 12, 13, 15, 17, 18, 21, 24, 27, 30, 31]),
   ([2, 5, 6, 8, 10, 11, 14, 17, 20, 23, 24],
    [1, 2, 3, 5, 6, 7, 10, 13, 14, 16, 18, 19, 22, 25, 28, 31, 32]),
   ([0, 3, 6, 7, 9, 11, 12, 15, 18, 21, 24, 25],
    [2, 3, 4, 6, 7, 8, 11, 14, 15, 17, 19, 20, 23, 26, 29, 32, 33]),
   ([0, 1, 4, 7, 8, 10, 12, 13, 16, 19, 22, 25, 26],
    [3, 4, 5, 7, 8, 9, 12, 15, 16, 18, 20, 21, 24, 27, 30, 33, 34]),
   ([0, 4, 5, 9, 11, 13, 14, 16, 18, 21, 22, 24, 27, 29],
    [0, 4, 5, 8, 12, 13, 17, 19, 21, 22, 24, 26, 29, 30, 32, 35, 37]),
   ([1, 5, 6, 10, 12, 14, 15, 17, 19, 22, 23, 25, 28, 30],
    [1, 5, 6, 9, 13, 14, 18, 20, 22, 23, 25, 27, 30, 31, 33, 36, 38]),
   ([2, 6, 7, 11, 13, 15, 16, 18, 20, 23, 24, 26, 29, 31],
    [2, 6, 7, 10, 14, 15, 19, 21, 23, 24, 26, 28, 31, 32, 34, 37, 39]),
   ([0, 3, 7, 8, 12, 14, 16, 17, 19, 21, 24, 25, 27, 30],
    [3, 7, 8, 11, 15, 16, 20, 22, 24, 25, 27, 29, 32, 33, 35, 38]),
   ([0, 1, 4, 8, 9, 13, 15, 17, 18, 20, 22, 25, 26, 28, 31],
    [4, 8, 9, 12, 16, 17, 21, 23, 25, 26, 28, 30, 33, 34, 36, 39]),
   ([1, 2, 5, 9, 10, 14, 16, 18, 19, 21, 23, 26, 27, 29],
    [5, 9, 10, 13, 17, 18, 22, 24, 26, 27, 29, 31, 34, 35, 37]),
   ([1, 3, 4, 6, 8, 10, 11, 15, 16, 18, 19, 21, 23, 26, 27, 28, 29, 30],
    [0, 9, 11, 12, 14, 16, 18, 19, 23, 24, 26, 27, 29, 31, 34, 35, 36, 37, 38]),
   ([1, 5, 7, 8, 9, 11, 12, 18, 19, 21, 23, 26, 27, 28, 30, 31],
    [0, 1, 6, 9, 13, 15, 16, 17, 19, 20, 26, 27, 29, 31, 34, 35, 36, 38, 39]),
   ([2, 6, 8, 9, 10, 12, 13, 19, 20, 22, 24, 27, 28, 29, 31],
    [1, 2, 7, 10, 14, 16, 17, 18, 20, 21, 27, 28, 30, 32, 35, 36, 37, 39]),
   ([0, 3, 7, 9, 10, 11, 13, 14, 20, 21, 23, 25, 28, 29, 30],
    [2, 3, 8, 11, 15, 17, 18, 19, 21, 22, 28, 29, 31, 33, 36, 37, 38]),
   ([2, 10, 11, 12, 14, 15, 16, 17, 18, 20, 23, 30, 31],
    [0, 3, 4, 6, 10, 18, 19, 20, 22, 23, 24, 25, 26, 28, 31, 38, 39]),
   ([3, 11, 12, 13, 15, 16, 17, 18, 19, 21, 24, 31],
    [1, 4, 5, 7, 11, 19, 20, 21, 23, 24, 25, 26, 27, 29, 32, 39]),
   ([0, 4, 12, 13, 14, 16, 17, 18, 19, 20, 22, 25],
    [2, 5, 6, 8, 12, 20, 21, 22, 24, 25, 26, 27, 28, 30, 33]),
   ([1, 5, 13, 14, 15, 17, 18, 19, 20, 21, 23, 26],
    [3, 6, 7, 9, 13, 21, 22, 23, 25, 26, 27, 28, 29, 31, 34]),
   ([0, 2, 6, 14, 15, 16, 18, 19, 20, 21, 22, 24, 27],
    [4, 7, 8, 10, 14, 22, 23, 24, 26, 27, 28, 29, 30, 32, 35]),
   ([0, 1, 3, 7, 15, 16, 17, 19, 20, 21, 22, 23, 25, 28],
    [5, 8, 9, 11, 15, 23, 24, 25, 27, 28, 29, 30, 31, 33, 36])]

/-- The right-hand sides in `crc32_d48`. -/
def taps48 : List (List ℕ × List ℕ) :=
  [([0, 8, 9, 10, 12, 13, 14, 15, 16, 18, 21, 28, 29, 31],
    [0, 6, 9, 10, 12, 16, 24, 25, 26, 28, 29, 30, 31, 32, 34, 37, 44, 45, 47]),
   ([0, 1, 8, 11, 12, 17, 18, 19, 21, 22, 28, 30, 31],
    [0, 1, 6, 7, 9, 11, 12, 13, 16, 17, 24, 27, 28, 33, 34, 35, 37, 38, 44, 46, 47]),
   ([0, 1, 2, 8, 10, 14, 15, 16, 19, 20, 21, 22, 23, 28],
    [0, 1, 2, 6, 7, 8, 9, 13, 14, 16, 17, 18, 24, 26, 30, 31, 32, 35, 36, 37, 38, 39, 44]),
   ([1, 2, 3, 9, 11, 15, 16, 17, 20, 21, 22, 23, 24, 29],
    [1, 2, 3, 7, 8, 9, 10, 14, 15, 17, 18, 19, 25, 27, 31, 32, 33, 36, 37, 38, 39, 40, 45]),
   ([2, 3, 4, 8, 9, 13, 14, 15, 17, 22, 23, 24, 25, 28, 29, 30, 31],
    [0, 2, 3, 4, 6, 8, 11, 12, 15, 18, 19, 20, 24, 25, 29, 30, 31, 33, 38, 39, 40, 41, 44, 45, 46,
     47]),
   ([3, 4, 5, 8, 12, 13, 21, 23, 24, 25, 26, 28, 30],
    [0, 1, 3, 4, 5, 6, 7, 10, 13, 19, 20, 21, 24, 28, 29, 37, 39, 40, 41, 42, 44, 46]),
   ([4, 5, 6, 9, 13, 14, 22, 24, 25, 26, 27, 29, 31],
    [1, 2, 4, 5, 6, 7, 8, 11, 14, 20, 21, 22, 25, 29, 30, 38, 40, 41, 42, 43, 45, 47]),
   ([0, 5, 6, 7, 8, 9, 12, 13, 16, 18, 21, 23, 25, 26, 27, 29, 30, 31],
    [0, 2, 3, 5, 7, 8, 10, 15, 16, 21, 22, 23, 24, 25, 28, 29, 32, 34, 37, 39, 41, 42, 43, 45, 46,
     47]),
   ([1, 6, 7, 12, 15, 16, 17, 18, 19, 21, 22, 24, 26, 27, 29, 30],
    [0, 1, 3, 4, 8, 10, 11, 12, 17, 22, 23, 28, 31, 32, 33, 34, 35, 37, 38, 40, 42, 43, 45, 46]),
   ([2, 7, 8, 13, 16, 17, 18, 19, 20, 22, 23, 25, 27, 28, 30, 31],
    [1, 2, 4, 5, 9, 11, 12, 13, 18, 23, 24, 29, 32, 33, 34, 35, 36, 38, 39, 41, 43, 44, 46, 47]),
   ([0, 3, 10, 12, 13, 15, 16, 17, 19, 20, 23, 24, 26],
    [0, 2, 3, 5, 9, 13, 14, 16, 19, 26, 28, 29, 31, 32, 33, 35, 36, 39, 40, 42]),
   ([0, 1, 4, 8, 9, 10, 11, 12, 15, 17, 20, 24, 25, 27, 28, 29, 31],
    [0, 1, 3, 4, 9, 12, 14, 15, 16, 17, 20, 24, 25, 26, 27, 28, 31, 33, 36, 40, 41, 43, 44, 45,
     47]),
   ([1, 2, 5, 8, 11, 14, 15, 25, 26, 30, 31],
    [0, 1, 2, 4, 5, 6, 9, 12, 13, 15, 17, 18, 21, 24, 27, 30, 31, 41, 42, 46, 47]),
   ([0, 2, 3, 6, 9, 12, 15, 16, 26, 27, 31],
    [1, 2, 3, 5, 6, 7, 10, 13, 14, 16, 18, 19, 22, 25, 28, 31, 32, 42, 43, 47]),
   ([1, 3, 4, 7, 10, 13, 16, 17, 27, 28],
    [2, 3, 4, 6, 7, 8, 11, 14, 15, 17, 19, 20, 23, 26, 29, 32, 33, 43, 44]),
   ([0, 2, 4, 5, 8, 11, 14, 17, 18, 28, 29],
    [3, 4, 5, 7, 8, 9, 12, 15, 16, 18, 20, 21, 24, 27, 30, 33, 34, 44, 45]),
   ([1, 3, 5, 6, 8, 10, 13, 14, 16, 19, 21, 28, 30, 31],
    [0, 4, 5, 8, 12, 13, 17, 19, 21, 22, 24, 26, 29, 30, 32, 35, 37, 44, 46, 47]),
   ([2, 4, 6, 7, 9, 11, 14, 15, 17, 20, 22, 29, 31],
    [1, 5, 6, 9, 13, 14, 18, 20, 22, 23, 25, 27, 30, 31, 33, 36, 38, 45, 47]),
   ([3, 5, 7, 8, 10, 12, 15, 16, 18, 21, 23, 30],
    [2, 6, 7, 10, 14, 15, 19, 21, 23, 24, 26, 28, 31, 32, 34, 37, 39, 46]),
   ([0, 4, 6, 8, 9, 11, 13, 16, 17, 19, 22, 24, 31],
    [3, 7, 8, 11, 15, 16, 20, 22, 24, 25, 27, 29, 32, 33, 35, 38, 40, 47]),
   ([0, 1, 5, 7, 9, 10, 12, 14, 17, 18, 20, 23, 25],
    [4, 8, 9, 12, 16, 17, 21, 23, 25, 26, 28, 30, 33, 34, 36, 39, 41]),
   ([1, 2, 6, 8, 10, 11, 13, 15, 18, 19, 21, 24, 26],
    [5, 9, 10, 13, 17, 18, 22, 24, 26, 27, 29, 31, 34, 35, 37, 40, 42]),
   ([0, 2, 3, 7, 8, 10, 11, 13, 15, 18, 19, 20, 21, 22, 25, 27, 28, 29, 31],
    [0, 9, 11, 12, 14, 16, 18, 19, 23, 24, 26, 27, 29, 31, 34, 35, 36, 37, 38, 41, 43, 44, 45, 47]),
   ([0, 1, 3, 4, 10, 11, 13, 15, 18, 19, 20, 22, 23, 26, 30, 31],
    [0, 1, 6, 9, 13, 15, 16, 17, 19, 20, 26, 27, 29, 31, 34, 35, 36, 38, 39, 42, 46, 47]),
   ([0, 1, 2, 4, 5, 11, 12, 14, 16, 19, 20, 21, 23, 24, 27, 31],
    [1, 2, 7, 10, 14, 16, 17, 18, 20, 21, 27, 28, 30, 32, 35, 36, 37, 39, 40, 43, 47]),
   ([1, 2, 3, 5, 6, 12, 13, 15, 17, 20, 21, 22, 24, 25, 28],
    [2, 3, 8, 11, 15, 17, 18, 19, 21, 22, 28, 29, 31, 33, 36, 37, 38, 40, 41, 44]),
   ([2, 3, 4, 6, 7, 8, 9, 10, 12, 15, 22, 23, 25, 26, 28, 31],
    [0, 3, 4, 6, 10, 18, 19, 20, 22, 23, 24, 25, 26, 28, 31, 38, 39, 41, 42, 44, 47]),
   ([3, 4, 5, 7, 8, 9, 10, 11, 13, 16, 23, 24, 26, 27, 29],
    [1, 4, 5, 7, 11, 19, 20, 21, 23, 24, 25, 26, 27, 29, 32, 39, 40, 42, 43, 45]),
   ([4, 5, 6, 8, 9, 10, 11, 12, 14, 17, 24, 25, 27, 28, 30],
    [2, 5, 6, 8, 12, 20, 21, 22, 24, 25, 26, 27, 28, 30, 33, 40, 41, 43, 44, 46]),
   ([5, 6, 7, 9, 10, 11, 12, 13, 15, 18, 25, 26, 28, 29, 31],
    [3, 6, 7, 9, 13, 21, 22, 23, 25, 26, 27, 28, 29, 31, 34, 41, 42, 44, 45, 47]),
   ([6, 7, 8, 10, 11, 12, 13, 14, 16, 19, 26, 27, 29, 30],
    [4, 7, 8, 10, 14, 22, 23, 24, 26, 27, 28, 29, 30, 32, 35, 42, 43, 45, 46]),
   ([7, 8, 9, 11, 12, 13, 14, 15, 17, 20, 27, 28, 30, 31],
    [5, 8, 9, 11, 15, 23, 24, 25, 27, 28, 29, 30, 31, 33, 36, 43, 44, 46, 47])]

/-- The right-hand sides in `crc32_d56`. -/
def taps56 : List (List ℕ × List ℕ) :=
  [([0, 1, 2, 4, 5, 6, 7, 8, 10, 13, 20, 21, 23, 24, 26, 29, 30, 31],
    [0, 6, 9, 10, 12, 16, 24, 25, 26, 28, 29, 30, 31, 32, 34, 37, 44, 45, 47, 48, 50, 53, 54, 55]),
   ([0, 3, 4, 9, 10, 11, 13, 14, 20, 22, 23, 25, 26, 27, 29],
    [0, 1, 6, 7, 9, 11, 12, 13, 16, 17, 24, 27, 28, 33, 34, 35, 37, 38, 44, 46, 47, 49, 50, 51,
     53]),
   ([0, 2, 6, 7, 8, 11, 12, 13, 14, 15, 20, 27, 28, 29, 31],
    [0, 1, 2, 6, 7, 8, 9, 13, 14, 16, 17, 18, 24, 26, 30, 31, 32, 35, 36, 37, 38, 39, 44, 51, 52,
     53, 55]),
   ([1, 3, 7, 8, 9, 12, 13, 14, 15, 16, 21, 28, 29, 30],
    [1, 2, 3, 7, 8, 9, 10, 14, 15, 17, 18, 19, 25, 27, 31, 32, 33, 36, 37, 38, 39, 40, 45, 52, 53,
     54]),
   ([0, 1, 5, 6, 7, 9, 14, 15, 16, 17, 20, 21, 22, 23, 24, 26],
    [0, 2, 3, 4, 6, 8, 11, 12, 15, 18, 19, 20, 24, 25, 29, 30, 31, 33, 38, 39, 40, 41, 44, 45, 46,
     47, 48, 50]),
   ([0, 4, 5, 13, 15, 16, 17, 18, 20, 22, 25, 26, 27, 29, 30, 31],
    [0, 1, 3, 4, 5, 6, 7, 10, 13, 19, 20, 21, 24, 28, 29, 37, 39, 40, 41, 42, 44, 46, 49, 50, 51,
     53, 54, 55]),
   ([1, 5, 6, 14, 16, 17, 18, 19, 21, 23, 26, 27, 28, 30, 31],
    [1, 2, 4, 5, 6, 7, 8, 11, 14, 20, 21, 22, 25, 29, 30, 38, 40, 41, 42, 43, 45, 47, 50, 51, 52,
     54, 55]),
   ([0, 1, 4, 5, 8, 10, 13, 15, 17, 18, 19, 21, 22, 23, 26, 27, 28, 30],
    [0, 2, 3, 5, 7, 8, 10, 15, 16, 21, 22, 23, 24, 25, 28, 29, 32, 34, 37, 39, 41, 42, 43, 45, 46,
     47, 50, 51, 52, 54]),
   ([4, 7, 8, 9, 10, 11, 13, 14, 16, 18, 19, 21, 22, 26, 27, 28, 30],
    [0, 1, 3, 4, 8, 10, 11, 12, 17, 22, 23, 28, 31, 32, 33, 34, 35, 37, 38, 40, 42, 43, 45, 46, 50,
     51, 52, 54]),
   ([0, 5, 8, 9, 10, 11, 12, 14, 15, 17, 19, 20, 22, 23, 27, 28, 29, 31],
    [1, 2, 4, 5, 9, 11, 12, 13, 18, 23, 24, 29, 32, 33, 34, 35, 36, 38, 39, 41, 43, 44, 46, 47, 51,
     52, 53, 55]),
   ([2, 4, 5, 7, 8, 9, 11, 12, 15, 16, 18, 26, 28, 31],
    [0, 2, 3, 5, 9, 13, 14, 16, 19, 26, 28, 29, 31, 32, 33, 35, 36, 39, 40, 42, 50, 52, 55]),
   ([0, 1, 2, 3, 4, 7, 9, 12, 16, 17, 19, 20, 21, 23, 24, 26, 27, 30, 31],
    [0, 1, 3, 4, 9, 12, 14, 15, 16, 17, 20, 24, 25, 26, 27, 28, 31, 33, 36, 40, 41, 43, 44, 45, 47,
     48, 50, 51, 54, 55]),
   ([0, 3, 6, 7, 17, 18, 22, 23, 25, 26, 27, 28, 29, 30],
    [0, 1, 2, 4, 5, 6, 9, 12, 13, 15, 17, 18, 21, 24, 27, 30, 31, 41, 42, 46, 47, 49, 50, 51, 52,
     53, 54]),
   ([1, 4, 7, 8, 18, 19, 23, 24, 26, 27, 28, 29, 30, 31],
    [1, 2, 3, 5, 6, 7, 10, 13, 14, 16, 18, 19, 22, 25, 28, 31, 32, 42, 43, 47, 48, 50, 51, 52, 53,
     54, 55]),
   ([2, 5, 8, 9, 19, 20, 24, 25, 27, 28, 29, 30, 31],
    [2, 3, 4, 6, 7, 8, 11, 14, 15, 17, 19, 20, 23, 26, 29, 32, 33, 43, 44, 48, 49, 51, 52, 53, 54,
     55]),
   ([0, 3, 6, 9, 10, 20, 21, 25, 26, 28, 29, 30, 31],
    [3, 4, 5, 7, 8, 9, 12, 15, 16, 18, 20, 21, 24, 27, 30, 33, 34, 44, 45, 49, 50, 52, 53, 54, 55]),
   ([0, 2, 5, 6, 8, 11, 13, 20, 22, 23, 24, 27],
    [0, 4, 5, 8, 12, 13, 17, 19, 21, 22, 24, 26, 29, 30, 32, 35, 37, 44, 46, 47, 48, 51]),
   ([1, 3, 6, 7, 9, 12, 14, 21, 23, 24, 25, 28],
    [1, 5, 6, 9, 13, 14, 18, 20, 22, 23, 25, 27, 30, 31, 33, 36, 38, 45, 47, 48, 49, 52]),
   ([0, 2, 4, 7, 8, 10, 13, 15, 22, 24, 25, 26, 29],
    [2, 6, 7, 10, 14, 15, 19, 21, 23, 24, 26, 28, 31, 32, 34, 37, 39, 46, 48, 49, 50, 53]),
   ([0, 1, 3, 5, 8, 9, 11, 14, 16, 23, 25, 26, 27, 30],
    [3, 7, 8, 11, 15, 16, 20, 22, 24, 25, 27, 29, 32, 33, 35, 38, 40, 47, 49, 50, 51, 54]),
   ([1, 2, 4, 6, 9, 10, 12, 15, 17, 24, 26, 27, 28, 31],
    [4, 8, 9, 12, 16, 17, 21, 23, 25, 26, 28, 30, 33, 34, 36, 39, 41, 48, 50, 51, 52, 55]),
   ([0, 2, 3, 5, 7, 10, 11, 13, 16, 18, 25, 27, 28, 29],
    [5, 9, 10, 13, 17, 18, 22, 24, 26, 27, 29, 31, 34, 35, 37, 40, 42, 49, 51, 52, 53]),
   ([0, 2, 3, 5, 7, 10, 11, 12, 13, 14, 17, 19, 20, 21, 23, 24, 28, 31],
    [0, 9, 11, 12, 14, 16, 18, 19, 23, 24, 26, 27, 29, 31, 34, 35, 36, 37, 38, 41, 43, 44, 45, 47,
     48, 52, 55]),
   ([2, 3, 5, 7, 10, 11, 12, 14, 15, 18, 22, 23, 25, 26, 30, 31],
    [0, 1, 6, 9, 13, 15, 16, 17, 19, 20, 26, 27, 29, 31, 34, 35, 36, 38, 39, 42, 46, 47, 49, 50, 54,
     55]),
   ([3, 4, 6, 8, 11, 12, 13, 15, 16, 19, 23, 24, 26, 27, 31],
    [1, 2, 7, 10, 14, 16, 17, 18, 20, 21, 27, 28, 30, 32, 35, 36, 37, 39, 40, 43, 47, 48, 50, 51,
     55]),
   ([4, 5, 7, 9, 12, 13, 14, 16, 17, 20, 24, 25, 27, 28],
    [2, 3, 8, 11, 15, 17, 18, 19, 21, 22, 28, 29, 31, 33, 36, 37, 38, 40, 41, 44, 48, 49, 51, 52]),
   ([0, 1, 2, 4, 7, 14, 15, 17, 18, 20, 23, 24, 25, 28, 30, 31],
    [0, 3, 4, 6, 10, 18, 19, 20, 22, 23, 24, 25, 26, 28, 31, 38, 39, 41, 42, 44, 47, 48, 49, 52, 54,
     55]),
   ([0, 1, 2, 3, 5, 8, 15, 16, 18, 19, 21, 24, 25, 26, 29, 31],
    [1, 4, 5, 7, 11, 19, 20, 21, 23, 24, 25, 26, 27, 29, 32, 39, 40, 42, 43, 45, 48, 49, 50, 53,
     55]),
   ([0, 1, 2, 3, 4, 6, 9, 16, 17, 19, 20, 22, 25, 26, 27, 30],
    [2, 5, 6, 8, 12, 20, 21, 22, 24, 25, 26, 27, 28, 30, 33, 40, 41, 43, 44, 46, 49, 50, 51, 54]),
   ([1, 2, 3, 4, 5, 7, 10, 17, 18, 20, 21, 23, 26, 27, 28, 31],
    [3, 6, 7, 9, 13, 21, 22, 23, 25, 26, 27, 28, 29, 31, 34, 41, 42, 44, 45, 47, 50, 51, 52, 55]),
   ([0, 2, 3, 4, 5, 6, 8, 11, 18, 19, 21, 22, 24, 27, 28, 29],
    [4, 7, 8, 10, 14, 22, 23, 24, 26, 27, 28, 29, 30, 32, 35, 42, 43, 45, 46, 48, 51, 52, 53]),
   ([0, 1, 3, 4, 5, 6, 7, 9, 12, 19, 20, 22, 23, 25, 28, 29, 30],
    [5, 8, 9, 11, 15, 23, 24, 25, 27, 28, 29, 30, 31, 33, 36, 43, 44, 46, 47, 49, 52, 53, 54])]

/-- The widths. -/
inductive Width
  | d8
  | d16
  | d24
  | d32
  | d40
  | d48
  | d56
  | d64
  deriving DecidableEq

/-- The number of octets of a word. -/
def Width.octets : Width → ℕ
  | .d8 => 1
  | .d16 => 2
  | .d24 => 3
  | .d32 => 4
  | .d40 => 5
  | .d48 => 6
  | .d56 => 7
  | .d64 => 8

/-- The right-hand sides. -/
def Width.taps : Width → List (List ℕ × List ℕ)
  | .d8 => taps8
  | .d16 => taps16
  | .d24 => taps24
  | .d32 => taps32
  | .d40 => taps40
  | .d48 => taps48
  | .d56 => taps56
  | .d64 => Crc32D64.taps

theorem lfsrC_twoPow_left (n : Width) : ∀ i < 32,
    (lfsrC n.taps (BitVec.twoPow 32 i).reverse (0#(8 * n.octets)).reverse).reverse =
      Crc32.word (BitVec.twoPow 32 i) 0#(8 * n.octets) := by
  cases n with
  | d64 => exact Crc32D64.lfsrC_twoPow_left
  | _ => decide +kernel

theorem lfsrC_twoPow_right (n : Width) : ∀ i < 8 * n.octets,
    (lfsrC n.taps (0#32).reverse (BitVec.twoPow (8 * n.octets) i).reverse).reverse =
      Crc32.word 0#32 (BitVec.twoPow (8 * n.octets) i) := by
  cases n with
  | d64 => exact Crc32D64.lfsrC_twoPow_right
  | _ => decide +kernel

/-- The circuit for `n` octets does `8 * n` steps of the serial CRC. -/
theorem lfsrC_eq_word (n : Width) (r : BitVec 32) (d : BitVec (8 * n.octets)) :
    (lfsrC n.taps r.reverse d.reverse).reverse = Crc32.word r d :=
  Crc32.reverse_eq_word (Crc32D64.xorTaps_xor n.taps) (lfsrC_twoPow_left n) (lfsrC_twoPow_right n)
    r d

/-! ### Words and octets -/

theorem range_octets (k : ℕ) :
    List.range (8 * k) = (List.range k).flatMap fun j => (List.range 8).map (8 * j + ·) := by
  induction k with
  | zero => rfl
  | succ k ih =>
    rw [Nat.mul_succ, List.range_add, ih, List.range_succ (n := k), List.flatMap_append,
      List.flatMap_singleton]

/-- The octets of a word, lowest first. -/
def octets {k : ℕ} (d : BitVec (8 * k)) : List (BitVec 8) := (List.range k).map (octet d)

/-- The bits of a word are those of its octets. -/
theorem flatMap_bits_octets {k : ℕ} (d : BitVec (8 * k)) :
    (octets d).flatMap Crc32.bits = Crc32.bits d := by
  rw [octets, List.flatMap_map, Crc32.bits, range_octets, List.map_flatMap]
  refine List.flatMap_congr fun j _ => ?_
  rw [Crc32.bits, List.map_map]
  refine List.map_congr_left fun i hi => ?_
  simp [octet, List.mem_range.1 hi]

theorem foldl_octets {k : ℕ} (r : BitVec 32) (d : BitVec (8 * k)) :
    (octets d).foldl Crc32.word r = Crc32.word r d := by
  rw [Crc32.foldl_word, flatMap_bits_octets]
  rfl

theorem reverse_allOnes : (BitVec.allOnes 32).reverse = BitVec.allOnes 32 := by
  decide +kernel

/-- **Any cutting.**  A message is cut into words of one to eight octets, in any way, and each word
goes through the circuit of its width, the register being handed on: the register ends with the CRC
of the message. -/
theorem register_words (ws : List (Σ n : Width, BitVec (8 * n.octets))) :
    (ws.foldl (fun q w => lfsrC w.1.taps q w.2.reverse) (BitVec.allOnes 32)).reverse =
      Crc32.register (ws.flatMap fun w => octets w.2) := by
  induction ws using List.reverseRecOn with
  | nil => exact reverse_allOnes
  | append_singleton ws w ih =>
    rw [List.foldl_append, List.foldl_cons, List.foldl_nil, List.flatMap_append,
      List.flatMap_singleton, Crc32.register_append, foldl_octets, ← ih, ← lfsrC_eq_word,
      BitVec.reverse_reverse_eq]

/-- What a clock edge does to the serial register. -/
def serial {k : ℕ} (r : BitVec 32) (i : Bool × Bool × BitVec (8 * k)) : BitVec 32 :=
  if i.1 then BitVec.allOnes 32 else if i.2.1 then Crc32.word r i.2.2 else r

/-- The register over any clock edges, whatever `rst` and `crc_en` do. -/
theorem register_run (n : Width) (q : BitVec 32)
    (is : List (Bool × Bool × BitVec (8 * n.octets))) :
    (Clocked.run (fun q i => step n.taps i.1 i.2.1 q i.2.2.reverse) q is).reverse =
      Clocked.run serial q.reverse is := by
  have hstep : ∀ (q : BitVec 32) (i : Bool × Bool × BitVec (8 * n.octets)),
      (step n.taps i.1 i.2.1 q i.2.2.reverse).reverse = serial q.reverse (id i) := by
    rintro q ⟨rst, crcEn, d⟩
    cases rst with
    | true => exact reverse_allOnes
    | false => cases crcEn <;> simp [step, serial, ← lfsrC_eq_word, BitVec.reverse_reverse_eq]
  have hrun := Clocked.run_part _ hstep q is
  rwa [List.map_id] at hrun

end Crc32Widths

end IpNuma
