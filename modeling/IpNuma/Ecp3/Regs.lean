import IpNuma.Regs.Bar0
import Mathlib.Tactic.IntervalCases

/-!
# The registers behind BAR0 of the ECP3 board

The part of `ipnuma.v` between the slave bus of `pcie_tlp` and the registers.  The bus has words of
two octets, the first on its upper lane, and nine bits of the word address are decoded, so BAR0
repeats itself every kilobyte.  Reads are registered.

`byteAt_write` and `octet_read` say that a write is the stores of its selected lanes and that a word
that is read has its octets in their lanes.
-/

namespace IpNuma

open Clocked ByteStore

/-- A cycle of the slave bus. -/
structure SlvBus where
  bar : BitVec 7
  ce : Bool
  we : Bool
  /-- `slv_adr_i[19:1]`. -/
  adr : BitVec 19
  dat : BitVec 16
  sel : BitVec 2
  deriving DecidableEq, Inhabited

/-- The registers. -/
structure Ecp3Regs where
  regs : Bar0
  slvDat0 : BitVec 16
  deriving DecidableEq, Inhabited

namespace Ecp3Regs

def reset : Ecp3Regs where
  regs :=
    { ifV4addr := 10#8 ++ 0#8 ++ 21#8 ++ 199#8
      ifMacaddr := 0x003776000001#48
      destV4addr := 10#8 ++ 0#8 ++ 21#8 ++ 255#8
      destMacaddr := 0xffffffffffff#48
      mem0Paddr := 0#48 }
  slvDat0 := 0

/-- The assignment under `if (slv_sel_i[k])` in a word, `b` the octet of `slv_dat_i` on the lane. -/
def writeSel (r : Bar0) (word k : ℕ) (b : BitVec 8) : Bar0 :=
  match word, k with
  | 0x000, 0 => { r with ifV4addr := setSlice r.ifV4addr 16 b }
  | 0x000, 1 => { r with ifV4addr := setSlice r.ifV4addr 24 b }
  | 0x001, 0 => { r with ifV4addr := setSlice r.ifV4addr 0 b }
  | 0x001, 1 => { r with ifV4addr := setSlice r.ifV4addr 8 b }
  | 0x002, 0 => { r with ifMacaddr := setSlice r.ifMacaddr 32 b }
  | 0x002, 1 => { r with ifMacaddr := setSlice r.ifMacaddr 40 b }
  | 0x003, 0 => { r with ifMacaddr := setSlice r.ifMacaddr 16 b }
  | 0x003, 1 => { r with ifMacaddr := setSlice r.ifMacaddr 24 b }
  | 0x004, 0 => { r with ifMacaddr := setSlice r.ifMacaddr 0 b }
  | 0x004, 1 => { r with ifMacaddr := setSlice r.ifMacaddr 8 b }
  | 0x008, 0 => { r with destV4addr := setSlice r.destV4addr 16 b }
  | 0x008, 1 => { r with destV4addr := setSlice r.destV4addr 24 b }
  | 0x009, 0 => { r with destV4addr := setSlice r.destV4addr 0 b }
  | 0x009, 1 => { r with destV4addr := setSlice r.destV4addr 8 b }
  | 0x00a, 0 => { r with destMacaddr := setSlice r.destMacaddr 32 b }
  | 0x00a, 1 => { r with destMacaddr := setSlice r.destMacaddr 40 b }
  | 0x00b, 0 => { r with destMacaddr := setSlice r.destMacaddr 16 b }
  | 0x00b, 1 => { r with destMacaddr := setSlice r.destMacaddr 24 b }
  | 0x00c, 0 => { r with destMacaddr := setSlice r.destMacaddr 0 b }
  | 0x00c, 1 => { r with destMacaddr := setSlice r.destMacaddr 8 b }
  | 0x014, 0 => { r with mem0Paddr := setSlice r.mem0Paddr 8 b }
  | 0x014, 1 => { r with mem0Paddr := setSlice r.mem0Paddr 0 b }
  | 0x015, 0 => { r with mem0Paddr := setSlice r.mem0Paddr 24 b }
  | 0x015, 1 => { r with mem0Paddr := setSlice r.mem0Paddr 16 b }
  | 0x016, 0 => { r with mem0Paddr := setSlice r.mem0Paddr 40 b }
  | 0x016, 1 => { r with mem0Paddr := setSlice r.mem0Paddr 32 b }
  | _, _ => r

/-- The assignments of some lanes of a word, each under its select bit. -/
def writeSels (r : Bar0) (word : ℕ) (sel : BitVec 2) (dat : BitVec 16) (ks : List ℕ) : Bar0 :=
  ks.foldl (fun r k => if sel.getLsbD k then writeSel r word k (octet dat k) else r) r

/-- A word as it is read; `none` where the source has no arm of its own for the word. -/
def read (r : Bar0) (word : ℕ) : Option (BitVec 16) :=
  match word with
  | 0x000 => some (r.ifV4addr.extractLsb' 16 16)
  | 0x001 => some (r.ifV4addr.extractLsb' 0 16)
  | 0x002 => some (r.ifMacaddr.extractLsb' 32 16)
  | 0x003 => some (r.ifMacaddr.extractLsb' 16 16)
  | 0x004 => some (r.ifMacaddr.extractLsb' 0 16)
  | 0x008 => some (r.destV4addr.extractLsb' 16 16)
  | 0x009 => some (r.destV4addr.extractLsb' 0 16)
  | 0x00a => some (r.destMacaddr.extractLsb' 32 16)
  | 0x00b => some (r.destMacaddr.extractLsb' 16 16)
  | 0x00c => some (r.destMacaddr.extractLsb' 0 16)
  | 0x014 => some (r.mem0Paddr.extractLsb' 0 8 ++ r.mem0Paddr.extractLsb' 8 8)
  | 0x015 => some (r.mem0Paddr.extractLsb' 16 8 ++ r.mem0Paddr.extractLsb' 24 8)
  | 0x016 => some (r.mem0Paddr.extractLsb' 32 8 ++ r.mem0Paddr.extractLsb' 40 8)
  | _ => none

/-- `slv_adr_i[9:1]`. -/
def word (adr : BitVec 19) : ℕ := (adr.extractLsb' 0 9).toNat

/-- The registers at an edge of the clock with the reset inactive. -/
def step (s : Ecp3Regs) (i : SlvBus) : Ecp3Regs :=
  if i.bar.getLsbD 0 && i.ce then
    match read s.regs (word i.adr) with
    | some x =>
        if i.we then { s with regs := writeSels s.regs (word i.adr) i.sel i.dat [0, 1] }
        else { s with slvDat0 := x }
    -- the default arm does not look at `slv_we_i`
    | none => { s with slvDat0 := 0 }
  else s

/-! ### The octets -/

/-- Where the registers are. -/
def addrMap : Bar0Map where
  ifMac := 0x04
  destMac := 0x14
  le_ifMac := by decide
  ifMac_le := by decide
  le_destMac := by decide
  destMac_le := by decide

/-- All bits of the registers are stored. -/
def mask (o : ℕ) : BitVec 8 := if (addrMap.locate o).isSome then 0xff#8 else 0

/-- The octet at an offset. -/
def byteAt (s : Ecp3Regs) : ℕ → BitVec 8 := s.regs.byteAt addrMap

/-- The offset of the octet on a lane of a word. -/
def laneOffset (word k : ℕ) : ℕ := 2 * word + (1 - k)

variable {r : Bar0} {w k : ℕ} {b : BitVec 8}

theorem locate_of_le {o : ℕ} (h : 0x2e ≤ o) : addrMap.locate o = none := by
  unfold Bar0Map.locate addrMap
  simp only
  split_ifs <;> first | omega | rfl

/-- No register is in the words without an arm. -/
theorem locate_of_read (h : read r w = none) (hk : k < 2) :
    addrMap.locate (laneOffset w k) = none := by
  by_cases hw : w < 0x017
  · interval_cases w <;> first | cases h; done | interval_cases k <;> rfl
  · unfold laneOffset
    exact locate_of_le (by omega)

theorem writeSel_eq_setAt (hk : k < 2) :
    writeSel r w k b = r.setAt addrMap (laneOffset w k) b := by
  by_cases hw : w < 0x017
  · interval_cases w <;> interval_cases k <;> rfl
  · have hself : writeSel r w k b = r := by
      unfold writeSel
      split
      iterate 26 omega
      rfl
    unfold Bar0.setAt laneOffset
    rw [hself, locate_of_le (by omega)]

/-- The stores of a write: the lanes that are selected. -/
def stores (w : ℕ) (sel : BitVec 2) (dat : BitVec 16) (ks : List ℕ) : List (Store ℕ) :=
  (ks.filter fun k => sel.getLsbD k).map fun k => ⟨laneOffset w k, octet dat k⟩

/-- **A write is the stores** of its selected lanes. -/
theorem byteAt_write {sel : BitVec 2} {dat : BitVec 16} {ks : List ℕ} (h : ∀ k ∈ ks, k < 2) :
    (writeSels r w sel dat ks).byteAt addrMap =
      puts mask (r.byteAt addrMap) (stores w sel dat ks) := by
  induction ks generalizing r with
  | nil => rfl
  | cons k ks ih =>
    rw [List.forall_mem_cons] at h
    unfold writeSels at ih ⊢
    rw [List.foldl_cons, ih h.2]
    unfold stores
    by_cases hsel : sel.getLsbD k
    · have hset : (r.setAt addrMap (laneOffset w k) (octet dat k)).byteAt addrMap =
          put mask (r.byteAt addrMap) ⟨laneOffset w k, octet dat k⟩ := Bar0.byteAt_setAt rfl
      rw [if_pos hsel, List.filter_cons_of_pos hsel, writeSel_eq_setAt h.1, hset]
      rfl
    · rw [if_neg hsel, List.filter_cons_of_neg hsel]

/-- The octets of a half of an address. -/
theorem octet_half {n : ℕ} (x : BitVec n) (a : ℕ) (hk : k < 2) :
    octet (x.extractLsb' (8 * a) 16) k = octet x (a + k) :=
  octet_extractLsb' x (by omega)

/-- The octets of two octets. -/
theorem octet_pair (x y : BitVec 8) (hk : k < 2) :
    octet (x ++ y) k = if k = 0 then y else x := by
  interval_cases k
  · exact octet_append_zero _ _
  · exact (octet_append_succ _ _ 0).trans (octet_self _)

/-- **A read returns the octets** of the word, each in its lane. -/
theorem octet_read (hk : k < 2) :
    octet ((read r w).getD 0) k = r.byteAt addrMap (laneOffset w k) := by
  cases h : read r w with
  | none =>
    rw [Bar0.byteAt_of_locate (locate_of_read h hk)]
    interval_cases k <;> rfl
  | some x =>
    have hw : w < 0x017 := by
      by_contra hge
      unfold read at h
      split at h
      iterate 13 omega
      cases h
    rw [Option.getD_some]
    interval_cases w <;> cases h
    · exact (octet_half r.ifV4addr 2 hk).trans (by interval_cases k <;> rfl)
    · exact (octet_half r.ifV4addr 0 hk).trans (by interval_cases k <;> rfl)
    · exact (octet_half r.ifMacaddr 4 hk).trans (by interval_cases k <;> rfl)
    · exact (octet_half r.ifMacaddr 2 hk).trans (by interval_cases k <;> rfl)
    · exact (octet_half r.ifMacaddr 0 hk).trans (by interval_cases k <;> rfl)
    · exact (octet_half r.destV4addr 2 hk).trans (by interval_cases k <;> rfl)
    · exact (octet_half r.destV4addr 0 hk).trans (by interval_cases k <;> rfl)
    · exact (octet_half r.destMacaddr 4 hk).trans (by interval_cases k <;> rfl)
    · exact (octet_half r.destMacaddr 2 hk).trans (by interval_cases k <;> rfl)
    · exact (octet_half r.destMacaddr 0 hk).trans (by interval_cases k <;> rfl)
    · exact (octet_pair _ _ hk).trans (by interval_cases k <;> rfl)
    · exact (octet_pair _ _ hk).trans (by interval_cases k <;> rfl)
    · exact (octet_pair _ _ hk).trans (by interval_cases k <;> rfl)

/-! ### A cycle of the bus -/

/-- A cycle that writes to BAR0. -/
def writesBar0 (i : SlvBus) : Bool := i.bar.getLsbD 0 && i.ce && i.we

/-- The stores of a cycle. -/
def busStores (i : SlvBus) : List (Store ℕ) :=
  if writesBar0 i then stores (word i.adr) i.sel i.dat [0, 1] else []

/-- An assignment in a word without an arm is none. -/
theorem writeSels_of_read {sel : BitVec 2} {dat : BitVec 16} {ks : List ℕ}
    (hr : read r w = none) (h : ∀ k ∈ ks, k < 2) : writeSels r w sel dat ks = r := by
  unfold writeSels
  induction ks with
  | nil => rfl
  | cons k ks ih =>
    rw [List.forall_mem_cons] at h
    have hself : writeSel r w k (octet dat k) = r := by
      rw [writeSel_eq_setAt h.1]
      unfold Bar0.setAt
      rw [locate_of_read hr h.1]
    rw [List.foldl_cons, hself, ite_self]
    exact ih h.2

/-- **A cycle is its stores.** -/
theorem byteAt_step (s : Ecp3Regs) (i : SlvBus) :
    (step s i).byteAt = puts mask s.byteAt (busStores i) := by
  have hks : ∀ k ∈ [0, 1], k < 2 := by simp
  unfold step busStores writesBar0
  by_cases hce : (i.bar.getLsbD 0 && i.ce) = true
  · rw [if_pos hce, hce, Bool.true_and]
    cases hr : read s.regs (word i.adr) with
    | none =>
      cases i.we with
      | false => rfl
      | true =>
        rw [if_pos rfl]
        unfold byteAt
        rw [← byteAt_write hks, writeSels_of_read hr hks]
    | some x =>
      cases i.we with
      | false => rfl
      | true => exact byteAt_write hks
  · rw [if_neg hce, Bool.eq_false_of_not_eq_true hce]
    rfl

/-- What a cycle that reads BAR0 leaves on the bus. -/
theorem slvDat0_step {s : Ecp3Regs} {i : SlvBus} (hbar : i.bar.getLsbD 0 = true) (hce : i.ce = true)
    (hwe : i.we = false) : (step s i).slvDat0 = (read s.regs (word i.adr)).getD 0 := by
  unfold step
  rw [hbar, hce, hwe, Bool.true_and, if_pos rfl]
  cases read s.regs (word i.adr) <;> rfl

end Ecp3Regs

end IpNuma
