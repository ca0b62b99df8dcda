import IpNuma.Kc705.XgmiiTx
import IpNuma.Regs.ByteStore
import IpNuma.Regs.Slice

/-!
# BAR0: the registers software sees

All boards have the same registers behind BAR0: the addresses of the two ends and the physical
address of the remote page.  The former stand there in network byte order, the latter with its
lowest octet first.  The boards differ in where the two MAC addresses are.

* `Bar0Map.offset` is where an octet of a register stands, `Bar0Map.locate` which one stands at an
  offset;
* `Bar0.byteAt` is the octet at an offset, zero where there is none;
* `byteAt_set`: to assign an octet of a register is a store at its offset.
-/

namespace IpNuma

open ByteStore

/-- The registers behind BAR0. -/
structure Bar0 extends Addrs where
  mem0Paddr : BitVec 48
  deriving DecidableEq, Inhabited

/-- One of the registers. -/
inductive Bar0Reg
  | ifV4addr
  | ifMacaddr
  | destV4addr
  | destMacaddr
  | mem0Paddr
  deriving DecidableEq, Inhabited

/-- The number of its octets. -/
def Bar0Reg.octets : Bar0Reg → ℕ
  | ifV4addr | destV4addr => 4
  | ifMacaddr | destMacaddr | mem0Paddr => 6

/-- The offsets of the two MAC addresses, between those of the other registers. -/
structure Bar0Map where
  ifMac : ℕ
  destMac : ℕ
  le_ifMac : 0x04 ≤ ifMac
  ifMac_le : ifMac + 6 ≤ 0x10
  le_destMac : 0x14 ≤ destMac
  destMac_le : destMac + 6 ≤ 0x28

namespace Bar0Map

variable (M : Bar0Map)

/-- The offset of the octet `j` of a register. -/
def offset : Bar0Reg → ℕ → ℕ
  | .ifV4addr, j => 0x03 - j
  | .ifMacaddr, j => M.ifMac + 5 - j
  | .destV4addr, j => 0x13 - j
  | .destMacaddr, j => M.destMac + 5 - j
  | .mem0Paddr, j => 0x28 + j

/-- The octet at an offset. -/
def locate (o : ℕ) : Option (Bar0Reg × ℕ) :=
  if o < 0x04 then some (.ifV4addr, 0x03 - o)
  else if M.ifMac ≤ o ∧ o < M.ifMac + 6 then some (.ifMacaddr, M.ifMac + 5 - o)
  else if 0x10 ≤ o ∧ o < 0x14 then some (.destV4addr, 0x13 - o)
  else if M.destMac ≤ o ∧ o < M.destMac + 6 then some (.destMacaddr, M.destMac + 5 - o)
  else if 0x28 ≤ o ∧ o < 0x2e then some (.mem0Paddr, o - 0x28)
  else none

theorem locate_eq_some_iff {o j : ℕ} {f : Bar0Reg} :
    M.locate o = some (f, j) ↔ j < f.octets ∧ o = M.offset f j := by
  have h1 := M.le_ifMac
  have h2 := M.ifMac_le
  have h3 := M.le_destMac
  have h4 := M.destMac_le
  constructor
  · intro h
    unfold locate at h
    split_ifs at h <;> cases h <;> simp only [Bar0Reg.octets, offset] <;> omega
  · rintro ⟨hj, ho⟩
    unfold locate
    cases f <;> simp only [Bar0Reg.octets, offset] at hj ho <;> split_ifs <;>
      first | omega | exact congrArg some (Prod.ext rfl (by dsimp only; omega))

end Bar0Map

namespace Bar0

variable (M : Bar0Map) (r : Bar0)

/-- The octet `j` of a register. -/
def octetOf : Bar0Reg → ℕ → BitVec 8
  | .ifV4addr, j => octet r.ifV4addr j
  | .ifMacaddr, j => octet r.ifMacaddr j
  | .destV4addr, j => octet r.destV4addr j
  | .destMacaddr, j => octet r.destMacaddr j
  | .mem0Paddr, j => octet r.mem0Paddr j

/-- The assignment of an octet. -/
def set (f : Bar0Reg) (j : ℕ) (b : BitVec 8) : Bar0 :=
  match f with
  | .ifV4addr => { r with ifV4addr := setOctet r.ifV4addr j b }
  | .ifMacaddr => { r with ifMacaddr := setOctet r.ifMacaddr j b }
  | .destV4addr => { r with destV4addr := setOctet r.destV4addr j b }
  | .destMacaddr => { r with destMacaddr := setOctet r.destMacaddr j b }
  | .mem0Paddr => { r with mem0Paddr := setOctet r.mem0Paddr j b }

/-- The octet at an offset, zero where no register is. -/
def byteAt (o : ℕ) : BitVec 8 :=
  match M.locate o with
  | some (f, j) => r.octetOf f j
  | none => 0

variable {M r} {f : Bar0Reg} {j o : ℕ} {b : BitVec 8} {mask : ℕ → BitVec 8}

theorem octetOf_set (hj : j < f.octets) (f' : Bar0Reg) (j' : ℕ) :
    (r.set f j b).octetOf f' j' = if f' = f ∧ j' = j then b else r.octetOf f' j' := by
  cases f <;> cases f' <;> simp only [Bar0Reg.octets] at hj <;> simp only [set, octetOf] <;>
    first | simp; done | rw [octet_setOctet _ _ (by omega)]; simp

theorem byteAt_offset (hj : j < f.octets) : r.byteAt M (M.offset f j) = r.octetOf f j := by
  unfold byteAt
  rw [M.locate_eq_some_iff.2 ⟨hj, rfl⟩]

theorem byteAt_of_locate (h : M.locate o = none) : r.byteAt M o = 0 := by
  unfold byteAt
  rw [h]

/-- A store of no bit where none reads. -/
theorem put_of_byteAt (h : r.byteAt M o = 0) (hm : mask o = 0) :
    put mask (r.byteAt M) ⟨o, b⟩ = r.byteAt M := by
  funext c
  by_cases hc : c = o
  · rw [hc, put_self, hm, h]
    exact BitVec.and_zero
  · rw [put_of_ne _ _ _ hc]

/-- To assign an octet is to store it at its offset. -/
theorem byteAt_set (hj : j < f.octets) :
    (r.set f j (b &&& mask (M.offset f j))).byteAt M = put mask (r.byteAt M) ⟨M.offset f j, b⟩ := by
  funext c
  by_cases hc : c = M.offset f j
  · rw [hc, put_self, byteAt_offset hj, octetOf_set hj, if_pos ⟨rfl, rfl⟩]
  · rw [put_of_ne _ _ _ hc]
    unfold byteAt
    cases hl : M.locate c with
    | none => rfl
    | some p =>
      obtain ⟨f', j'⟩ := p
      obtain ⟨-, ho⟩ := M.locate_eq_some_iff.1 hl
      have hne : ¬ (f' = f ∧ j' = j) := by
        rintro ⟨rfl, rfl⟩
        exact hc ho
      simp only [octetOf_set hj, if_neg hne]

variable (M r) in
/-- The assignment of the octet at an offset. -/
def setAt (o : ℕ) (b : BitVec 8) : Bar0 :=
  match M.locate o with
  | some (f, j) => r.set f j b
  | none => r

/-- A store of a whole octet. -/
theorem byteAt_setAt (hm : mask o = if (M.locate o).isSome then 0xff#8 else 0) :
    (r.setAt M o b).byteAt M = put mask (r.byteAt M) ⟨o, b⟩ := by
  unfold setAt
  cases hl : M.locate o with
  | none =>
    rw [hl] at hm
    exact (put_of_byteAt (byteAt_of_locate hl) hm).symm
  | some p =>
    obtain ⟨f, j⟩ := p
    rw [hl] at hm
    obtain ⟨hj, rfl⟩ := M.locate_eq_some_iff.1 hl
    have hb : b &&& mask (M.offset f j) = b := by
      rw [hm]
      exact BitVec.and_allOnes
    have hset : (r.set f j (b &&& mask (M.offset f j))).byteAt M = _ := byteAt_set hj
    rwa [hb] at hset

end Bar0

end IpNuma
