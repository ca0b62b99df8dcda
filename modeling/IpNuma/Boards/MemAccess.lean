import IpNuma.Regs.Bar0
import Mathlib.Tactic.IntervalCases

/-!
# `PIO_EP_MEM_ACCESS`: the user registers of the Xilinx boards

The module of the KC705 and its copy for the VC709.  Both decode a word of BAR0 from the low bits of
the address and assign the octets whose byte enable is set; they read a word a cycle later.  The
KC705 decodes six bits of the word address and the VC709 eight.

The slice written for the third octet of `if_macaddr` is one bit too wide, `[31:23]` for `[31:24]`:
`KeepsSlices` is when this does no harm.  The VC709 masks what is read with the bits of `rd_be` in
the opposite order to those of `wr_be`: `KeepsLanes` is when this does no harm.  `byteWritable_iff`
says that the registers are storage for bytes exactly in the runs whose writes and reads all meet
the two, whichever octets a read with some byte enables is asked for.
-/

namespace IpNuma

open Clocked ByteStore

/-- The registers. -/
structure UserRegs extends Addrs where
  /-- `mem0_paddr[47:12]`. -/
  mem0Paddr : BitVec 36
  deriving DecidableEq, Inhabited

namespace UserRegs

def reset : UserRegs where
  ifV4addr := 10#8 ++ 0#8 ++ 21#8 ++ 199#8
  ifMacaddr := 0x003776000001#48
  destV4addr := 10#8 ++ 0#8 ++ 21#8 ++ 255#8
  destMacaddr := 0xffffffffffff#48
  mem0Paddr := 0xd0000#36

/-- The assignment under `if (wr_be[lane])` in a word, `b` the octet of `wr_data` that goes with
the lane. -/
def writeLane (r : UserRegs) (word lane : ℕ) (b : BitVec 8) : UserRegs :=
  match word, lane with
  | 0x00, 0 => { r with ifV4addr := setSlice r.ifV4addr 24 b }
  | 0x00, 1 => { r with ifV4addr := setSlice r.ifV4addr 16 b }
  | 0x00, 2 => { r with ifV4addr := setSlice r.ifV4addr 8 b }
  | 0x00, 3 => { r with ifV4addr := setSlice r.ifV4addr 0 b }
  | 0x02, 0 => { r with ifMacaddr := setSlice r.ifMacaddr 40 b }
  | 0x02, 1 => { r with ifMacaddr := setSlice r.ifMacaddr 32 b }
  -- `if_macaddr[31:23] <= wr_data[15: 8]`
  | 0x02, 2 => { r with ifMacaddr := setSlice r.ifMacaddr 23 (b.setWidth 9) }
  | 0x02, 3 => { r with ifMacaddr := setSlice r.ifMacaddr 16 b }
  | 0x03, 0 => { r with ifMacaddr := setSlice r.ifMacaddr 8 b }
  | 0x03, 1 => { r with ifMacaddr := setSlice r.ifMacaddr 0 b }
  | 0x04, 0 => { r with destV4addr := setSlice r.destV4addr 24 b }
  | 0x04, 1 => { r with destV4addr := setSlice r.destV4addr 16 b }
  | 0x04, 2 => { r with destV4addr := setSlice r.destV4addr 8 b }
  | 0x04, 3 => { r with destV4addr := setSlice r.destV4addr 0 b }
  | 0x06, 0 => { r with destMacaddr := setSlice r.destMacaddr 40 b }
  | 0x06, 1 => { r with destMacaddr := setSlice r.destMacaddr 32 b }
  | 0x06, 2 => { r with destMacaddr := setSlice r.destMacaddr 24 b }
  | 0x06, 3 => { r with destMacaddr := setSlice r.destMacaddr 16 b }
  | 0x07, 0 => { r with destMacaddr := setSlice r.destMacaddr 8 b }
  | 0x07, 1 => { r with destMacaddr := setSlice r.destMacaddr 0 b }
  -- `mem0_paddr[15:12] <= wr_data[23:20]`
  | 0x0A, 1 => { r with mem0Paddr := setSlice r.mem0Paddr 0 (b.extractLsb' 4 4) }
  | 0x0A, 2 => { r with mem0Paddr := setSlice r.mem0Paddr 4 b }
  | 0x0A, 3 => { r with mem0Paddr := setSlice r.mem0Paddr 12 b }
  | 0x0B, 0 => { r with mem0Paddr := setSlice r.mem0Paddr 20 b }
  | 0x0B, 1 => { r with mem0Paddr := setSlice r.mem0Paddr 28 b }
  | _, _ => r

/-- The octet of a data word that goes with a lane. -/
def laneOf (data : BitVec 32) (lane : ℕ) : BitVec 8 := octet data (3 - lane)

/-- The assignments of some lanes of a word, each under its byte enable. -/
def writeLanes (r : UserRegs) (word : ℕ) (be : BitVec 8) (data : BitVec 32) (lanes : List ℕ) :
    UserRegs :=
  lanes.foldl (fun r lane =>
    if be.getLsbD lane then r.writeLane word lane (laneOf data lane) else r) r

/-- A write to a word: the assignments in the order of the source. -/
def write (r : UserRegs) (word : ℕ) (be : BitVec 8) (data : BitVec 32) : UserRegs :=
  r.writeLanes word be data [0, 1, 2, 3]

/-- A word as it is read. -/
def read (r : UserRegs) (word : ℕ) (debug : BitVec 8) : BitVec 32 :=
  match word with
  | 0x00 => r.ifV4addr
  | 0x02 => r.ifMacaddr.extractLsb' 16 32
  | 0x03 => r.ifMacaddr.extractLsb' 0 16 ++ 0#8 ++ debug
  | 0x04 => r.destV4addr
  | 0x06 => r.destMacaddr.extractLsb' 16 32
  | 0x07 => r.destMacaddr.extractLsb' 0 16 ++ 0#16
  | 0x0A => 0#8 ++ r.mem0Paddr.extractLsb' 0 4 ++ 0#4 ++ r.mem0Paddr.extractLsb' 4 8 ++
      r.mem0Paddr.extractLsb' 12 8
  | 0x0B => r.mem0Paddr.extractLsb' 20 8 ++ r.mem0Paddr.extractLsb' 28 8 ++ 0#16
  | _ => 0

end UserRegs

/-- The registers of the module. -/
structure MemAccess where
  regs : UserRegs
  readData : BitVec 32
  deriving DecidableEq, Inhabited

/-- The inputs of the module, of `wr_data` the low word. -/
structure MemAccessIn where
  rdAddr : BitVec 14
  rdBe : BitVec 4
  wrAddr : BitVec 14
  wrBe : BitVec 8
  wrData : BitVec 32
  wrEn : Bool
  debug : BitVec 8
  /-- The word of the BIOS ROM. -/
  biosData : BitVec 32
  deriving DecidableEq, Inhabited

/-- The boards with the module. -/
inductive XilinxBoard
  | kc705
  | vc709
  deriving DecidableEq, Inhabited

namespace XilinxBoard

/-- How many bits of a word address are decoded. -/
def wordBits : XilinxBoard → ℕ
  | kc705 => 6
  | vc709 => 8

/-- The word of BAR0 at an address. -/
def word (b : XilinxBoard) (addr : BitVec 14) : ℕ := (addr.extractLsb' 0 b.wordBits).toNat

end XilinxBoard

namespace UserRegs

/-! ### The octets -/

/-- Where the registers are. -/
def addrMap : Bar0Map where
  ifMac := 0x08
  destMac := 0x18
  le_ifMac := by decide
  ifMac_le := by decide
  le_destMac := by decide
  destMac_le := by decide

/-- The bits of `mem0_paddr` below 12 are not stored. -/
def mask (o : ℕ) : BitVec 8 :=
  if o = 0x28 then 0
  else if o = 0x29 then 0xf0#8
  else if (addrMap.locate o).isSome then 0xff#8
  else 0

/-- The registers as software sees them. -/
def toBar0 (r : UserRegs) : Bar0 := ⟨r.toAddrs, r.mem0Paddr ++ 0#12⟩

/-- The octet at an offset. -/
def byteAt (r : UserRegs) : ℕ → BitVec 8 := r.toBar0.byteAt addrMap

variable {r : UserRegs} {word lane : ℕ} {b : BitVec 8}

/-- `[15:12]` of a register without its low bits. -/
theorem setSlice_nibble (x : BitVec 36) :
    setSlice (x ++ 0#12) 12 (b.extractLsb' 4 4) = setOctet (x ++ 0#12) 1 (b &&& 0xf0#8) := by
  apply BitVec.eq_of_getLsbD_eq
  intro i hi
  unfold setOctet
  rw [getLsbD_setSlice _ _ (by omega), getLsbD_setSlice _ _ (by omega)]
  by_cases h1 : 12 ≤ i ∧ i < 12 + 4
  · obtain ⟨h2, h3⟩ := h1
    rw [if_pos (by omega), if_pos (by omega)]
    interval_cases i <;> simp
  · rw [if_neg h1]
    by_cases h2 : 8 * 1 ≤ i ∧ i < 8 * 1 + 8
    · rw [if_pos h2, BitVec.getLsbD_append, if_pos (by omega)]
      have h3 : 8 ≤ i := by omega
      have h4 : i < 12 := by omega
      interval_cases i <;> simp
    · rw [if_neg h2]

theorem byteAt_of_setAt {r' : UserRegs} {o : ℕ} (h : r'.toBar0 = r.toBar0.setAt addrMap o b)
    (ho : o < 0x28 ∨ 0x2a ≤ o) : r'.byteAt = put mask r.byteAt ⟨o, b⟩ := by
  have hm : mask o = if (addrMap.locate o).isSome then 0xff#8 else 0 := by
    unfold mask
    rw [if_neg (by omega), if_neg (by omega)]
  unfold byteAt
  rw [h]
  exact Bar0.byteAt_setAt hm

theorem byteAt_of_set {r' : UserRegs} {f : Bar0Reg} {j : ℕ} (hj : j < f.octets)
    (h : r'.toBar0 = r.toBar0.set f j (b &&& mask (addrMap.offset f j))) :
    r'.byteAt = put mask r.byteAt ⟨addrMap.offset f j, b⟩ := by
  unfold byteAt
  rw [h]
  exact Bar0.byteAt_set hj

/-- An octet of `mem0_paddr` is one of the whole address. -/
theorem toBar0_setSlice (j : ℕ) (hj : 2 ≤ j ∧ j < 6) :
    ({ r with mem0Paddr := setSlice r.mem0Paddr (8 * j - 12) b } : UserRegs).toBar0 =
      r.toBar0.set .mem0Paddr j (b &&& mask (addrMap.offset .mem0Paddr j)) := by
  have hmask : b &&& mask (addrMap.offset .mem0Paddr j) = b := by
    obtain ⟨h2, h6⟩ := hj
    have hm : mask (addrMap.offset .mem0Paddr j) = BitVec.allOnes 8 := by
      interval_cases j <;> decide
    rw [hm, BitVec.and_allOnes]
  rw [hmask]
  unfold toBar0 Bar0.set setOctet
  rw [setSlice_append _ _ _ (by omega), show 8 * j - 12 + 12 = 8 * j by omega]

/-- The octet of `mem0_paddr` of which only the upper half is stored. -/
theorem toBar0_setNibble :
    ({ r with mem0Paddr := setSlice r.mem0Paddr 0 (b.extractLsb' 4 4) } : UserRegs).toBar0 =
      r.toBar0.set .mem0Paddr 1 (b &&& mask (addrMap.offset .mem0Paddr 1)) := by
  unfold toBar0 Bar0.set
  rw [setSlice_append _ _ _ (by omega), setSlice_nibble]
  rfl

/-- The octet of `mem0_paddr` that is not stored. -/
theorem octet_mem0_zero (x : BitVec 36) : octet (x ++ 0#12) 0 = 0 := by
  apply BitVec.eq_of_getLsbD_eq
  intro i hi
  unfold octet
  rw [BitVec.getLsbD_extractLsb', BitVec.getLsbD_append, if_pos (by omega)]
  simp

/-- The assignments in the first word of `mem0_paddr`. -/
theorem byteAt_writeLane_mem0 (hl : lane < 4) :
    (r.writeLane 0x0A lane b).byteAt = put mask r.byteAt ⟨0x28 + lane, b⟩ := by
  have hzero : r.toBar0.byteAt addrMap 0x28 = 0 :=
    (Bar0.byteAt_offset (M := addrMap) (f := .mem0Paddr) (j := 0) (by decide)).trans
      (octet_mem0_zero r.mem0Paddr)
  interval_cases lane
  · exact (Bar0.put_of_byteAt hzero rfl).symm
  · exact byteAt_of_set (f := .mem0Paddr) (j := 1) (by decide) toBar0_setNibble
  · exact byteAt_of_set (f := .mem0Paddr) (j := 2) (by decide) (toBar0_setSlice 2 (by omega))
  · exact byteAt_of_set (f := .mem0Paddr) (j := 3) (by decide) (toBar0_setSlice 3 (by omega))

/-- No register is behind the last word. -/
theorem locate_of_le {o : ℕ} (h : 0x2e ≤ o) : addrMap.locate o = none := by
  unfold Bar0Map.locate addrMap
  simp only
  split_ifs <;> first | omega | rfl

theorem mask_of_le {o : ℕ} (h : 0x2e ≤ o) : mask o = 0 := by
  unfold mask
  rw [locate_of_le h, if_neg (by omega), if_neg (by omega)]
  rfl

/-- **An assignment is a store** at the offset of its lane, but for the third octet of
`if_macaddr`. -/
theorem byteAt_writeLane (hl : lane < 4) (h : ¬ (word = 0x02 ∧ lane = 2)) :
    (r.writeLane word lane b).byteAt = put mask r.byteAt ⟨4 * word + lane, b⟩ := by
  by_cases hw : word < 0x0A
  · interval_cases word <;> interval_cases lane <;>
      first
        | exact absurd ⟨rfl, rfl⟩ h
        | exact byteAt_of_setAt rfl (by omega)
  · by_cases hA : word = 0x0A
    · subst hA
      exact byteAt_writeLane_mem0 hl
    · by_cases hB : word = 0x0B
      · subst hB
        interval_cases lane
        · exact byteAt_of_set (f := .mem0Paddr) (j := 4) (by decide) (toBar0_setSlice 4 (by omega))
        · exact byteAt_of_set (f := .mem0Paddr) (j := 5) (by decide) (toBar0_setSlice 5 (by omega))
        · exact byteAt_of_setAt rfl (by omega)
        · exact byteAt_of_setAt rfl (by omega)
      · have hself : r.writeLane word lane b = r := by
          unfold writeLane
          split
          iterate 25 omega
          rfl
        have hzero : r.byteAt (4 * word + lane) = 0 :=
          Bar0.byteAt_of_locate (locate_of_le (by omega))
        rw [hself]
        exact (Bar0.put_of_byteAt hzero (mask_of_le (by omega))).symm

/-- The stores of a write: the lanes with their byte enable set. -/
def stores (word : ℕ) (be : BitVec 8) (data : BitVec 32) (lanes : List ℕ) : List (Store ℕ) :=
  (lanes.filter fun lane => be.getLsbD lane).map fun lane => ⟨4 * word + lane, laneOf data lane⟩

theorem byteAt_writeLanes {be : BitVec 8} {data : BitVec 32} {lanes : List ℕ}
    (h : ∀ lane ∈ lanes, lane < 4 ∧ ¬ (word = 0x02 ∧ lane = 2 ∧ be.getLsbD 2 = true)) :
    (r.writeLanes word be data lanes).byteAt = puts mask r.byteAt (stores word be data lanes) := by
  induction lanes generalizing r with
  | nil => rfl
  | cons lane lanes ih =>
    rw [List.forall_mem_cons] at h
    unfold writeLanes at ih ⊢
    rw [List.foldl_cons, ih h.2]
    unfold stores
    by_cases hbe : be.getLsbD lane
    · have hlane : ¬ (word = 0x02 ∧ lane = 2) := by
        rintro ⟨hword, rfl⟩
        exact h.1.2 ⟨hword, rfl, hbe⟩
      rw [if_pos hbe, List.filter_cons_of_pos hbe, byteAt_writeLane h.1.1 hlane]
      rfl
    · rw [if_neg hbe, List.filter_cons_of_neg hbe]

/-! ### The slice that is too wide -/

/-- `if_macaddr[31:23]` holds the octet shifted down by one bit. -/
theorem setSlice_wide (x : BitVec 48) :
    setSlice x 23 (b.setWidth 9) =
      setOctet (setOctet x 3 (b >>> 1)) 2 (BitVec.ofBool (b.getLsbD 0) ++ x.extractLsb' 16 7) := by
  apply BitVec.eq_of_getLsbD_eq
  intro i hi
  unfold setOctet
  rw [getLsbD_setSlice _ _ (by omega), getLsbD_setSlice _ _ (by omega),
    getLsbD_setSlice _ _ (by omega)]
  by_cases h16 : 16 ≤ i ∧ i < 24
  · rw [if_pos (show 8 * 2 ≤ i ∧ i < 8 * 2 + 8 by omega), BitVec.getLsbD_append]
    by_cases h23 : i = 23
    · subst h23
      simp
    · rw [if_neg (by omega), if_pos (by omega), BitVec.getLsbD_extractLsb',
        Nat.add_sub_cancel' h16.1]
      simp [show i - 16 < 7 by omega]
  · rw [if_neg (show ¬ (8 * 2 ≤ i ∧ i < 8 * 2 + 8) by omega)]
    by_cases h24 : 24 ≤ i ∧ i < 32
    · rw [if_pos (by omega), if_pos (show 8 * 3 ≤ i ∧ i < 8 * 3 + 8 by omega),
        BitVec.getLsbD_ushiftRight, show 1 + (i - 8 * 3) = i - 23 by omega]
      simp [show i - 23 < 9 by omega]
    · rw [if_neg (by omega), if_neg (show ¬ (8 * 3 ≤ i ∧ i < 8 * 3 + 8) by omega)]

theorem byteAt_wide :
    (r.writeLane 0x02 2 b).byteAt =
      put mask (put mask r.byteAt ⟨0x0a, b >>> 1⟩)
        ⟨0x0b, BitVec.ofBool (b.getLsbD 0) ++ r.ifMacaddr.extractLsb' 16 7⟩ := by
  have hset : (r.writeLane 0x02 2 b).toBar0 = (r.toBar0.setAt addrMap 0x0a (b >>> 1)).setAt addrMap
      0x0b (BitVec.ofBool (b.getLsbD 0) ++ r.ifMacaddr.extractLsb' 16 7) := by
    unfold writeLane toBar0
    simp only [setSlice_wide]
    rfl
  unfold byteAt
  have hA : mask 0x0a = 0xff#8 := by decide
  have hB : mask 0x0b = 0xff#8 := by decide
  rw [hset, Bar0.byteAt_setAt hB, Bar0.byteAt_setAt hA]

/-- The write does not come by the slice, or it writes zero to where the slice does no harm. -/
def KeepsSlices (r : UserRegs) (word : ℕ) (be : BitVec 8) (data : BitVec 32) : Prop :=
  word = 0x02 → be.getLsbD 2 = true →
    laneOf data 2 = 0 ∧ (be.getLsbD 3 = true ∨ r.ifMacaddr.getLsbD 23 = false)

instance (r : UserRegs) (word : ℕ) (be : BitVec 8) (data : BitVec 32) :
    Decidable (r.KeepsSlices word be data) := by
  unfold KeepsSlices
  infer_instance

theorem ushiftRight_eq_self_iff (b : BitVec 8) : b >>> 1 = b ↔ b = 0 := by
  revert b
  decide

theorem getLsbD_octet_two (x : BitVec 48) : (octet x 2).getLsbD 7 = x.getLsbD 23 := by
  simp only [octet, BitVec.getLsbD_extractLsb']
  rfl

/-- Bit 23 is what the slice spoils of the octet below. -/
theorem wide_eq_iff (x : BitVec 48) :
    BitVec.ofBool false ++ x.extractLsb' 16 7 = octet x 2 ↔ x.getLsbD 23 = false := by
  constructor
  · intro h
    rw [← getLsbD_octet_two, ← h, BitVec.getLsbD_append]
    rfl
  · intro h
    apply BitVec.eq_of_getLsbD_eq
    intro i hi
    by_cases h7 : i = 7
    · subst h7
      rw [getLsbD_octet_two, h, BitVec.getLsbD_append]
      rfl
    · rw [BitVec.getLsbD_append, if_pos (by omega)]
      simp [octet, hi, show i < 7 by omega]

/-- Two bytes stored in the place of one. -/
theorem put_put_eq_iff {m : ℕ → BitVec 8} {a a' w : BitVec 8} :
    put mask (put mask m ⟨0x0a, a'⟩) ⟨0x0b, w⟩ = put mask m ⟨0x0a, a⟩ ↔ a' = a ∧ w = m 0x0b := by
  have hA : ∀ c : BitVec 8, c &&& mask 0x0a = c := fun c => BitVec.and_allOnes
  have hB : ∀ c : BitVec 8, c &&& mask 0x0b = c := fun c => BitVec.and_allOnes
  constructor
  · intro h
    have h1 := congrFun h 0x0a
    have h2 := congrFun h 0x0b
    rw [put_of_ne _ _ _ (by decide), put_self, put_self, hA, hA] at h1
    rw [put_self, put_of_ne _ _ _ (by decide), hB] at h2
    exact ⟨h1, h2⟩
  · rintro ⟨rfl, rfl⟩
    funext o
    by_cases ho : o = 0x0b
    · subst ho
      rw [put_self, hB, put_of_ne _ _ _ (by decide)]
    · rw [put_of_ne _ _ _ ho]

/-- The same where a store behind them hides the second. -/
theorem put_put_put_eq_iff {m : ℕ → BitVec 8} {a a' w d : BitVec 8} :
    put mask (put mask (put mask m ⟨0x0a, a'⟩) ⟨0x0b, w⟩) ⟨0x0b, d⟩ =
      put mask (put mask m ⟨0x0a, a⟩) ⟨0x0b, d⟩ ↔ a' = a := by
  have hA : ∀ c : BitVec 8, c &&& mask 0x0a = c := fun c => BitVec.and_allOnes
  constructor
  · intro h
    have h1 := congrFun h 0x0a
    rwa [put_of_ne _ _ _ (by decide), put_of_ne _ _ _ (by decide), put_self,
      put_of_ne _ _ _ (by decide), put_self, hA, hA] at h1
  · rintro rfl
    funext o
    by_cases ho : o = 0x0b
    · rw [ho, put_self, put_self]
    · rw [put_of_ne _ _ _ ho, put_of_ne _ _ _ ho, put_of_ne _ _ _ ho]

/-- **A write is its stores** exactly when it keeps to its slices. -/
theorem byteAt_write_iff (r : UserRegs) (word : ℕ) (be : BitVec 8) (data : BitVec 32) :
    r.KeepsSlices word be data ↔
      (r.write word be data).byteAt = puts mask r.byteAt (stores word be data [0, 1, 2, 3]) := by
  by_cases hw : word = 0x02 ∧ be.getLsbD 2 = true
  · obtain ⟨rfl, h2⟩ := hw
    -- the lanes before the slice, and the one behind it
    have h01 : (r.writeLanes 0x02 be data [0, 1]).byteAt =
        puts mask r.byteAt (stores 0x02 be data [0, 1]) := byteAt_writeLanes (by simp)
    have h3 : ∀ s : UserRegs, (s.writeLanes 0x02 be data [3]).byteAt =
        puts mask s.byteAt (stores 0x02 be data [3]) := fun s => byteAt_writeLanes (by simp)
    have hwrite : (r.write 0x02 be data).byteAt = puts mask
        ((r.writeLanes 0x02 be data [0, 1]).writeLane 0x02 2 (laneOf data 2)).byteAt
        (stores 0x02 be data [3]) := by
      rw [← h3]
      unfold write writeLanes
      simp only [List.foldl_cons, List.foldl_nil, if_pos h2]
    have hstores : stores 0x02 be data [0, 1, 2, 3] =
        stores 0x02 be data [0, 1] ++ ⟨0x0a, laneOf data 2⟩ :: stores 0x02 be data [3] := by
      unfold stores
      rw [show [0, 1, 2, 3] = [0, 1] ++ 2 :: [3] from rfl, List.filter_append,
        List.filter_cons_of_pos h2, List.map_append, List.map_cons]
    have hmac : octet (r.writeLanes 0x02 be data [0, 1]).ifMacaddr 2 = octet r.ifMacaddr 2 := by
      have hB := congrFun h01 0x0b
      rwa [puts_of_ne] at hB
      intro w hwm
      obtain ⟨lane, hlane, rfl⟩ := List.mem_map.1 hwm
      have hmem := List.mem_of_mem_filter hlane
      simp only [List.mem_cons, List.not_mem_nil, or_false] at hmem
      rcases hmem with rfl | rfl <;> dsimp only <;> omega
    have hbit : (r.writeLanes 0x02 be data [0, 1]).ifMacaddr.getLsbD 23 =
        r.ifMacaddr.getLsbD 23 := by
      rw [← getLsbD_octet_two, hmac, getLsbD_octet_two]
    rw [hwrite, hstores, puts_append, puts_cons, ← h01, byteAt_wide]
    unfold KeepsSlices
    rw [← hbit, ← ushiftRight_eq_self_iff]
    generalize r.writeLanes 0x02 be data [0, 1] = t
    cases hbe : be.getLsbD 3 with
    | true =>
      have hlast : stores 0x02 be data [3] = [⟨0x0b, laneOf data 3⟩] := by
        unfold stores
        rw [List.filter_cons_of_pos hbe]
        rfl
      rw [hlast, puts_cons, puts_cons, puts_nil, puts_nil, put_put_put_eq_iff]
      simp [h2]
    | false =>
      have hlast : stores 0x02 be data [3] = [] := by
        unfold stores
        rw [List.filter_cons_of_neg (by rw [hbe]; exact Bool.false_ne_true)]
        rfl
      rw [hlast, puts_nil, puts_nil, put_put_eq_iff, ← wide_eq_iff]
      simp only [h2, true_imp_iff, Bool.false_eq_true, false_or]
      refine and_congr_right fun hzero => ?_
      rw [(ushiftRight_eq_self_iff _).1 hzero]
      rfl
  · constructor
    · intro _
      refine byteAt_writeLanes fun lane hlane => ⟨?_, ?_⟩
      · simp only [List.mem_cons, List.not_mem_nil, or_false] at hlane
        omega
      · rintro ⟨hword, -, h2⟩
        exact hw ⟨hword, h2⟩
    · exact fun _ hword h2 => absurd ⟨hword, h2⟩ hw

/-! ### Reads -/

/-- The octets of `mem0_paddr` that are stored as a whole. -/
theorem octet_mem0 (x : BitVec 36) {j lo : ℕ} (h : 8 * j = lo + 12) :
    octet (x ++ 0#12) j = x.extractLsb' lo 8 := by
  apply BitVec.eq_of_getLsbD_eq
  intro i hi
  unfold octet
  rw [BitVec.getLsbD_extractLsb', BitVec.getLsbD_extractLsb', BitVec.getLsbD_append,
    if_neg (by omega), show 8 * j + i - 12 = lo + i by omega]

/-- The octet of `mem0_paddr` of which the upper half is stored. -/
theorem octet_mem0_one (x : BitVec 36) : octet (x ++ 0#12) 1 = x.extractLsb' 0 4 ++ 0#4 := by
  apply BitVec.eq_of_getLsbD_eq
  intro i hi
  unfold octet
  rw [BitVec.getLsbD_extractLsb', BitVec.getLsbD_append, BitVec.getLsbD_append]
  by_cases h4 : i < 4
  · rw [if_pos (by omega), if_pos h4]
    simp
  · rw [if_neg (by omega), if_neg h4, BitVec.getLsbD_extractLsb',
      show 8 * 1 + i - 12 = 0 + (i - 4) by omega]
    simp [hi, show i - 4 < 4 by omega]

/-- The octets of the first half of its first word. -/
theorem octet_nibble (x : BitVec 4) : octet (0#8 ++ x ++ 0#4) 0 = x ++ 0#4 := by
  revert x
  decide

theorem octet_nibble_one (x : BitVec 4) : octet (0#8 ++ x ++ 0#4) 1 = 0 := by
  revert x
  decide

/-- **A read returns the octets** of the word, each in its lane, but where it shows `debug`. -/
theorem laneOf_read (r : UserRegs) (word : ℕ) (debug : BitVec 8) (hl : lane < 4)
    (hdebug : ¬ (word = 0x03 ∧ lane = 3)) :
    laneOf (r.read word debug) lane = r.byteAt (4 * word + lane) := by
  have hnone : ∀ {w : ℕ}, r.read w debug = 0 → addrMap.locate (4 * w + lane) = none →
      laneOf (r.read w debug) lane = r.byteAt (4 * w + lane) := by
    intro w hzero hlocate
    rw [hzero, show r.byteAt (4 * w + lane) = 0 from Bar0.byteAt_of_locate hlocate]
    interval_cases lane <;> rfl
  by_cases hword : 0x0c ≤ word
  · refine hnone ?_ (locate_of_le (by omega))
    unfold read
    split
    iterate 8 omega
    rfl
  rw [not_le] at hword
  interval_cases word
  · interval_cases lane <;> rfl
  · exact hnone rfl (by interval_cases lane <;> rfl)
  · interval_cases lane <;> exact octet_extractLsb' r.ifMacaddr (a := 2) (by omega)
  · have hhalf := fun j (h : 8 * j + 8 ≤ 16) => octet_extractLsb' r.ifMacaddr (a := 0) h
    interval_cases lane
    · exact ((octet_append_succ _ debug 2).trans (octet_append_succ _ 0#8 1)).trans
        (hhalf 1 (by omega))
    · exact ((octet_append_succ _ debug 1).trans (octet_append_succ _ 0#8 0)).trans
        (hhalf 0 (by omega))
    · exact (octet_append_succ _ debug 0).trans (octet_append_zero _ _)
    · exact absurd ⟨rfl, rfl⟩ hdebug
  · interval_cases lane <;> rfl
  · exact hnone rfl (by interval_cases lane <;> rfl)
  · interval_cases lane <;> exact octet_extractLsb' r.destMacaddr (a := 2) (by omega)
  · have hhalf := fun j (h : 8 * j + 8 ≤ 16) => octet_extractLsb' r.destMacaddr (a := 0) h
    interval_cases lane
    · exact (octet_append_high _ 2 0#16 1).trans (hhalf 1 (by omega))
    · exact (octet_append_high _ 2 0#16 0).trans (hhalf 0 (by omega))
    · exact octet_append_low _ (q := 2) 0#16 (by omega)
    · exact octet_append_low _ (q := 2) 0#16 (by omega)
  · exact hnone rfl (by interval_cases lane <;> rfl)
  · exact hnone rfl (by interval_cases lane <;> rfl)
  · interval_cases lane
    · exact (((octet_append_succ _ _ 2).trans (octet_append_succ _ _ 1)).trans
        (octet_nibble_one _)).trans (octet_mem0_zero r.mem0Paddr).symm
    · exact ((octet_append_succ _ _ 1).trans (octet_append_succ _ _ 0)).trans
        ((octet_nibble _).trans (octet_mem0_one r.mem0Paddr).symm)
    · exact ((octet_append_succ _ _ 0).trans (octet_append_zero _ _)).trans
        (octet_mem0 r.mem0Paddr rfl).symm
    · exact (octet_append_zero _ _).trans (octet_mem0 r.mem0Paddr rfl).symm
  · interval_cases lane
    · exact ((octet_append_high _ 2 0#16 1).trans (octet_append_succ _ _ 0)).trans
        ((octet_self _).trans (octet_mem0 r.mem0Paddr rfl).symm)
    · exact ((octet_append_high _ 2 0#16 0).trans (octet_append_zero _ _)).trans
        (octet_mem0 r.mem0Paddr rfl).symm
    · exact octet_append_low _ (q := 2) 0#16 (by omega)
    · exact octet_append_low _ (q := 2) 0#16 (by omega)

end UserRegs

namespace MemAccess

/-- An address in BAR0. -/
def inBar0 (addr : BitVec 14) : Bool := addr.extractLsb' 12 2 == 0b01#2

/-- After an edge with the reset active, from any `read_data`. -/
def reset (s : MemAccess) : MemAccess := { s with regs := .reset }

variable (board : XilinxBoard)

/-- The module at an edge of the clock with the reset inactive. -/
def step (s : MemAccess) (i : MemAccessIn) : MemAccess where
  regs := if inBar0 i.wrAddr && i.wrEn then s.regs.write (board.word i.wrAddr) i.wrBe i.wrData
    else s.regs
  readData := if inBar0 i.rdAddr then s.regs.read (board.word i.rdAddr) i.debug else s.readData

/-- `rd_data`. -/
def rdData (s : MemAccess) (i : MemAccessIn) : BitVec 32 :=
  match board with
  | .kc705 =>
      if i.rdAddr.extractLsb' 12 2 = 0b01#2 then s.readData
      else if i.rdAddr.extractLsb' 12 2 = 0b11#2 then i.biosData
      else 0
  | .vc709 =>
      let raw := if i.rdAddr.extractLsb' 12 2 = 0b01#2 then s.readData
        else if i.rdAddr.extractLsb' 12 2 = 0b10#2 then i.biosData
        else 0xffffffff#32
      (if i.rdBe.getLsbD 3 then octet raw 3 else 0) ++
        (if i.rdBe.getLsbD 2 then octet raw 2 else 0) ++
        (if i.rdBe.getLsbD 1 then octet raw 1 else 0) ++
        (if i.rdBe.getLsbD 0 then octet raw 0 else 0)

/-! ### Runs -/

/-- The octet at an offset. -/
def byteAt (s : MemAccess) : ℕ → BitVec 8 := s.regs.byteAt

/-- The stores of a cycle: those of the write when there is one to BAR0. -/
def stores (_ : MemAccess) (i : MemAccessIn) : List (Store ℕ) :=
  if inBar0 i.wrAddr && i.wrEn then
    UserRegs.stores (board.word i.wrAddr) i.wrBe i.wrData [0, 1, 2, 3]
  else []

/-- The write of the cycle, if any, keeps to its slices. -/
def KeepsSlices (s : MemAccess) (i : MemAccessIn) : Prop :=
  (inBar0 i.wrAddr && i.wrEn) = true → s.regs.KeepsSlices (board.word i.wrAddr) i.wrBe i.wrData

instance (s : MemAccess) (i : MemAccessIn) : Decidable (KeepsSlices board s i) := by
  unfold KeepsSlices
  infer_instance

theorem byteAt_step_iff (s : MemAccess) (i : MemAccessIn) :
    KeepsSlices board s i ↔
      (step board s i).byteAt = puts UserRegs.mask s.byteAt (stores board s i) := by
  unfold KeepsSlices step stores byteAt
  by_cases hw : (inBar0 i.wrAddr && i.wrEn) = true
  · rw [if_pos hw, if_pos hw, ← UserRegs.byteAt_write_iff]
    exact ⟨fun h => h hw, fun h _ => h⟩
  · rw [if_neg hw, if_neg hw]
    exact ⟨fun _ => rfl, fun _ h => absurd h hw⟩

/-- `rd_be` lets through what `rd_data` has in a lane.  The KC705 does not look at `rd_be`; the
VC709 has the lanes in the opposite order, `rd_data[7:0]` under `rd_be[0]`. -/
def drives (be : BitVec 4) (lane : ℕ) : Bool :=
  match board with
  | .kc705 => true
  | .vc709 => be.getLsbD (3 - lane)

/-- **A lane of `rd_data`** while BAR0 is addressed. -/
theorem laneOf_rdData {i : MemAccessIn} {lane : ℕ} (h : inBar0 i.rdAddr = true) (hl : lane < 4)
    (s : MemAccess) : UserRegs.laneOf (rdData board s i) lane =
      if drives board i.rdBe lane then UserRegs.laneOf s.readData lane else 0 := by
  have hsel : i.rdAddr.extractLsb' 12 2 = 0b01#2 := eq_of_beq h
  cases board with
  | kc705 =>
    unfold rdData
    simp only [if_pos hsel]
    rfl
  | vc709 =>
    have happend : ∀ a b c d : BitVec 8, octet (a ++ b ++ c ++ d) 0 = d ∧
        octet (a ++ b ++ c ++ d) 1 = c ∧ octet (a ++ b ++ c ++ d) 2 = b ∧
        octet (a ++ b ++ c ++ d) 3 = a := fun a b c d =>
      ⟨octet_append_zero _ d, (octet_append_succ _ d 0).trans (octet_append_zero _ c),
        ((octet_append_succ _ d 1).trans (octet_append_succ _ c 0)).trans (octet_append_zero _ b),
        (((octet_append_succ _ d 2).trans (octet_append_succ _ c 1)).trans
          (octet_append_succ _ b 0)).trans (octet_self a)⟩
    unfold rdData UserRegs.laneOf
    simp only [if_pos hsel]
    interval_cases lane
    · exact (happend _ _ _ _).2.2.2
    · exact (happend _ _ _ _).2.2.1
    · exact (happend _ _ _ _).2.1
    · exact (happend _ _ _ _).1

/-- `rd_data` is `read_data` while BAR0 is addressed with all bytes enabled. -/
theorem rdData_of_inBar0 {i : MemAccessIn} (h : inBar0 i.rdAddr = true) (hbe : i.rdBe = 0xf#4)
    (s : MemAccess) : rdData board s i = s.readData := by
  apply eq_of_octet (n := 4)
  intro k hk
  have hlane := laneOf_rdData board h (show 3 - k < 4 by omega) s
  have hdrives : drives board i.rdBe (3 - k) = true := by
    cases board with
    | kc705 => rfl
    | vc709 =>
      rw [hbe]
      interval_cases k <;> rfl
  rw [if_pos hdrives] at hlane
  unfold UserRegs.laneOf at hlane
  rwa [show 3 - (3 - k) = k by omega] at hlane

/-- A read is asked for the octets that a write with the same byte enables assigns. -/
def enabled (be : BitVec 4) (lane : ℕ) : Bool := be.getLsbD lane

variable (asked : BitVec 4 → ℕ → Bool)

/-- After the cycles `is` the registers are storage: an octet is the one most recently written at
its offset, as far as it is stored; and the word whose address was there in the last cycle but one
goes out with its octets in their lanes, where the byte enables of the last cycle ask for them. -/
structure ByteWritable (s : MemAccess) (is : List MemAccessIn) : Prop where
  stored : ∀ o, (run (step board) s.reset is).byteAt o =
    match latest (log (step board) (stores board) s.reset is) o with
    | some b => b &&& UserRegs.mask o
    | none => UserRegs.reset.byteAt o
  reads : ∀ pre i j, is = pre ++ [i, j] → inBar0 i.rdAddr = true → inBar0 j.rdAddr = true →
    ∀ lane < 4, UserRegs.mask (4 * board.word i.rdAddr + lane) ≠ 0 →
      UserRegs.laneOf (rdData board (step board (run (step board) s.reset pre) i) j) lane =
          (run (step board) s.reset pre).byteAt (4 * board.word i.rdAddr + lane) ∨
        asked j.rdBe lane = false ∧
          UserRegs.laneOf (rdData board (step board (run (step board) s.reset pre) i) j) lane = 0

/-- The read of two cycles: an octet that is asked for is let through, or it is zero. -/
def KeepsLanes (s : MemAccess) (i j : MemAccessIn) : Prop :=
  inBar0 i.rdAddr = true → inBar0 j.rdAddr = true →
    ∀ lane < 4, UserRegs.mask (4 * board.word i.rdAddr + lane) ≠ 0 → asked j.rdBe lane = true →
      drives board j.rdBe lane = true ∨ s.byteAt (4 * board.word i.rdAddr + lane) = 0

/-- A register that is read goes out in the lanes that `rd_be` lets through. -/
theorem laneOf_readBack {s : MemAccess} {i j : MemAccessIn} {lane : ℕ}
    (hi : inBar0 i.rdAddr = true) (hj : inBar0 j.rdAddr = true) (hl : lane < 4)
    (hm : UserRegs.mask (4 * board.word i.rdAddr + lane) ≠ 0) :
    UserRegs.laneOf (rdData board (step board s i) j) lane =
      if drives board j.rdBe lane then s.byteAt (4 * board.word i.rdAddr + lane) else 0 := by
  have hdebug : ¬ (board.word i.rdAddr = 0x03 ∧ lane = 3) := by
    rintro ⟨hword, rfl⟩
    rw [hword] at hm
    exact hm rfl
  rw [laneOf_rdData board hj hl]
  unfold step
  simp only [if_pos hi]
  rw [UserRegs.laneOf_read _ _ _ hl hdebug]
  rfl

/-- **The registers are storage for bytes** all through a run exactly when every write of it keeps
to its slices and every read of it to its lanes. -/
theorem byteWritable_iff (s : MemAccess) (is : List MemAccessIn) :
    (∀ pre, pre <+: is → ByteWritable board asked s pre) ↔
      Along (step board) (KeepsSlices board) s.reset is ∧
        ∀ pre i j, pre ++ [i, j] <+: is →
          KeepsLanes board asked (run (step board) s.reset pre) i j := by
  rw [ByteStore.along_iff (byteAt_step_iff board)]
  constructor
  · intro h
    constructor
    · intro pre hpre
      funext o
      rw [(h pre hpre).stored o]
      exact (puts_apply _ _ _ o).symm
    · intro pre i j hpre hi hj lane hl hm hasked
      rcases (h _ hpre).reads pre i j rfl hi hj lane hl hm with hread | ⟨hnot, -⟩
      · rw [laneOf_readBack board hi hj hl hm] at hread
        split_ifs at hread with hdrives
        · exact Or.inl hdrives
        · exact Or.inr hread.symm
      · rw [hasked] at hnot
        cases hnot
  · rintro ⟨hslices, hlanes⟩ pre hpre
    constructor
    · intro o
      rw [hslices pre hpre]
      exact puts_apply _ _ _ o
    · rintro pre i j rfl hi hj lane hl hm
      rw [laneOf_readBack board hi hj hl hm]
      split_ifs with hdrives
      · exact Or.inl rfl
      · cases hasked : asked j.rdBe lane with
        | true =>
          rcases hlanes pre i j hpre hi hj lane hl hm hasked with hd | hzero
          · exact absurd hd hdrives
          · exact Or.inl hzero.symm
        | false => exact Or.inr ⟨rfl, rfl⟩

/-- A write of the first four octets of a MAC address. -/
def macWrite : MemAccessIn where
  rdAddr := 0
  rdBe := 0
  wrAddr := 0x1002#14
  wrBe := 0x0f#8
  wrData := 0x00377601#32
  wrEn := true
  debug := 0
  biosData := 0

/-- A read of the first octet of `if_v4addr`. -/
def addrRead : MemAccessIn where
  rdAddr := 0x1000#14
  rdBe := 0x1#4
  wrAddr := 0
  wrBe := 0
  wrData := 0
  wrEn := false
  debug := 0
  biosData := 0

/-- The third octet that is written is shifted by a bit, and the VC709 reads the last octet of a
word in place of the first. -/
theorem macWrite_shifted :
    ¬ ByteWritable .kc705 enabled default [macWrite] ∧
      ¬ ByteWritable .vc709 enabled default [macWrite] ∧
      ¬ ByteWritable .vc709 enabled default [addrRead, addrRead] := by
  refine ⟨fun h => ?_, fun h => ?_, fun h => ?_⟩
  · have hA := h.stored 0x0a
    revert hA
    decide
  · have hA := h.stored 0x0a
    revert hA
    decide
  · have hread := h.reads [] addrRead addrRead rfl rfl rfl 0 (by decide) (by decide)
    revert hread
    decide

end MemAccess

end IpNuma
