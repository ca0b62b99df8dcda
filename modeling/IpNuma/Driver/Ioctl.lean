import IpNuma.Driver.Mmio

/-!
# `ipnuma_ioctl`

The commands copy between the caller's buffer and fixed offsets of BAR0.  The buffer is the memory
from `arg` on, a function from offsets to bytes.

`IPNUMA_IOCTL_SETMEM0PADDR` copies eight bytes in two halves, and `IPNUMA_IOCTL_GETMEM0PADDR` gets
them so; both take the first four bytes of the buffer for either half.  `remoteAddrAgrees_iff` says
for which addresses this makes no difference.
-/

namespace IpNuma

open Clocked ByteStore

/-- The commands. -/
inductive Ioctl
  | getPaddr
  | getIfv4addr
  | setIfv4addr
  | getIfmacaddr
  | setIfmacaddr
  | getDestv4addr
  | setDestv4addr
  | getDestmacaddr
  | setDestmacaddr
  | getMem0paddr
  | setMem0paddr
  | getBaraddr
  /-- Any other number. -/
  | other
  deriving DecidableEq, Inhabited

/-- What the driver knows of the host. -/
structure Host where
  anyV2p : BitVec 64 → BitVec 64
  mmio1Start : BitVec 64

/-- What a call leaves. -/
structure IoctlResult (B : Board) where
  state : B.State
  /-- The buffer at `arg`. -/
  ptr : ℕ → BitVec 8
  ret : ℤ

namespace Board

/-- `*ptr` of an `unsigned long`. -/
def longAt (ptr : ℕ → BitVec 8) : BitVec 64 :=
  lanes (ptr 7) (ptr 6) (ptr 5) (ptr 4) (ptr 3) (ptr 2) (ptr 1) (ptr 0)

/-- The buffer after `*ptr = x`. -/
def setLong (ptr : ℕ → BitVec 8) (x : BitVec 64) : ℕ → BitVec 8 :=
  fun k => if k < 8 then octet x k else ptr k

variable (B : Board)

/-- A command that gets `n` bytes. -/
def ioctlGet (s : B.State) (ptr : ℕ → BitVec 8) (o n : ℕ) : IoctlResult B :=
  let (t, p) := B.memcpyFrom s ptr o n
  ⟨t, p, 0⟩

/-- A command that sets `n` bytes. -/
def ioctlSet (s : B.State) (ptr : ℕ → BitVec 8) (o n : ℕ) : IoctlResult B :=
  ⟨B.memcpyTo s o ptr n, ptr, 0⟩

/-- `ipnuma_ioctl`. -/
def ioctl (host : Host) (s : B.State) (cmd : Ioctl) (ptr : ℕ → BitVec 8) : IoctlResult B :=
  match cmd with
  | .getPaddr => ⟨s, setLong ptr (host.anyV2p (longAt ptr)), 0⟩
  | .getIfv4addr => B.ioctlGet s ptr 0 4
  | .setIfv4addr => B.ioctlSet s ptr 0 4
  | .getIfmacaddr => B.ioctlGet s ptr 4 6
  | .setIfmacaddr => B.ioctlSet s ptr 4 6
  | .getDestv4addr => B.ioctlGet s ptr 0x10 4
  | .setDestv4addr => B.ioctlSet s ptr 0x10 4
  | .getDestmacaddr => B.ioctlGet s ptr 0x14 6
  | .setDestmacaddr => B.ioctlSet s ptr 0x14 6
  | .getMem0paddr =>
      let (t, p) := B.memcpyFrom s ptr 0x28 4
      let (t, p) := B.memcpyFrom t p 0x2c 4
      ⟨t, p, 0⟩
  | .setMem0paddr =>
      let t := B.memcpyTo s 0x28 ptr 4
      ⟨B.memcpyTo t 0x2c ptr 4, ptr, 0⟩
  | .getBaraddr => ⟨s, setLong ptr host.mmio1Start, 0⟩
  -- `-ENOTTY`
  | .other => ⟨s, ptr, -25⟩

variable {B} {s : B.State} {ptr : ℕ → BitVec 8} {o n : ℕ}

theorem byteAt_ioctlSet (h : ∀ k < n, Plain (o + k)) (c : ℕ) :
    B.byteAt (B.ioctlSet s ptr o n).state c =
      if o ≤ c ∧ c < o + n then ptr (c - o) &&& B.mask c else B.byteAt s c := by
  rw [← puts_block_apply]
  exact congrFun (byteAt_memcpyTo B s ptr h) c

theorem ptr_ioctlGet (h : ∀ k < n, Plain (o + k)) (k : ℕ) :
    (B.ioctlGet s ptr o n).ptr k = if k < n then B.byteAt s (o + k) else ptr k :=
  congrFun (memcpyFrom_eq B s ptr h).2 k

/-! ### The remote address -/

theorem plain_mem0 : ∀ k < 4, Plain (0x28 + k) := by decide

theorem plain_mem0_high : ∀ k < 4, Plain (0x2c + k) := by decide

/-- Both halves of the register are set to the first four bytes. -/
theorem byteAt_setMem0paddr (host : Host) (c : ℕ) :
    B.byteAt (B.ioctl host s .setMem0paddr ptr).state c =
      if 0x2c ≤ c ∧ c < 0x30 then ptr (c - 0x2c) &&& B.mask c
      else if 0x28 ≤ c ∧ c < 0x2c then ptr (c - 0x28) &&& B.mask c
      else B.byteAt s c := by
  refine (congrFun (byteAt_memcpyTo B _ ptr plain_mem0_high) c).trans ?_
  rw [puts_block_apply, byteAt_memcpyTo B s ptr plain_mem0, puts_block_apply]

/-- Both halves of the register are got into the first four bytes. -/
theorem ptr_getMem0paddr (host : Host) (k : ℕ) :
    (B.ioctl host s .getMem0paddr ptr).ptr k = if k < 4 then B.byteAt s (0x2c + k) else ptr k := by
  obtain ⟨hregs, hbuf⟩ := memcpyFrom_eq B s ptr plain_mem0
  refine (congrFun (memcpyFrom_eq B (B.memcpyFrom s ptr 0x28 4).1 (B.memcpyFrom s ptr 0x28 4).2
    plain_mem0_high).2 k).trans ?_
  rw [hbuf]
  unfold byteAt
  rw [hregs]
  by_cases hk : k < 4
  · rw [if_pos hk, if_pos hk]
  · rw [if_neg hk, if_neg hk]
    exact if_neg hk

/-- The eight bytes of an address. -/
def bufferOf (x : BitVec 48) (k : ℕ) : BitVec 8 := if k < 6 then octet x k else 0

/-- The address that is used is the one that was set, and it is the one that is got. -/
def RemoteAddrAgrees (B : Board) (host : Host) (s : B.State) (x : BitVec 48) (ptr : ℕ → BitVec 8) :
    Prop :=
  let t := (B.ioctl host s .setMem0paddr (bufferOf x)).state
  (B.bar0 t).mem0Paddr.extractLsb' 12 36 = x.extractLsb' 12 36 ∧
    ∀ k < 8, (B.ioctl host t .getMem0paddr ptr).ptr k = bufferOf x k

variable (p : BitVec 36)

/-- The bits that are not stored are zero in the address of a page. -/
theorem octet_page_mask (B : Board) {j : ℕ} (hj : j < 6) :
    octet (p ++ 0#12) j &&& B.mask (0x28 + j) = octet (p ++ 0#12) j := by
  have hall : ∀ b : BitVec 8, b &&& 0xff#8 = b := fun b => BitVec.and_allOnes
  have hnib : ∀ x : BitVec 4, (x ++ 0#4) &&& 0xf0#8 = x ++ 0#4 := by decide
  cases B with
  | ecp3 =>
    have hm : Ecp3Regs.mask (0x28 + j) = 0xff#8 := by
      revert j
      decide
    show _ &&& Ecp3Regs.mask (0x28 + j) = _
    rw [hm, hall]
  | kc705 =>
    show _ &&& UserRegs.mask (0x28 + j) = _
    by_cases h0 : j = 0
    · subst h0
      rw [UserRegs.octet_mem0_zero]
      exact BitVec.zero_and
    · by_cases h1 : j = 1
      · subst h1
        rw [UserRegs.octet_mem0_one]
        exact hnib _
      · have hm : UserRegs.mask (0x28 + j) = 0xff#8 := by
          revert j
          decide
        rw [hm, hall]

/-- The register after an address of a page is set. -/
theorem mem0Paddr_setMem0paddr (host : Host) :
    (B.bar0 (B.ioctl host s .setMem0paddr (bufferOf (p ++ 0#12))).state).mem0Paddr =
      (p ++ 0#12).extractLsb' 0 16 ++ (p ++ 0#12).extractLsb' 0 32 := by
  generalize ht : (B.ioctl host s .setMem0paddr (bufferOf (p ++ 0#12))).state = t
  have hbyte : ∀ c, B.byteAt (B.ioctl host s .setMem0paddr (bufferOf (p ++ 0#12))).state c = _ :=
    byteAt_setMem0paddr host
  rw [ht] at hbyte
  refine eq_of_octet (n := 6) _ _ fun j hj => ?_
  have hj' : octet (B.bar0 t).mem0Paddr j = B.byteAt t (0x28 + j) :=
    (Bar0.byteAt_offset (M := B.addrMap) (f := .mem0Paddr) hj).symm
  rw [hj', hbyte]
  by_cases h4 : j < 4
  · rw [if_neg (by omega), if_pos (by omega), Nat.add_sub_cancel_left]
    unfold bufferOf
    rw [if_pos hj, octet_page_mask p B hj]
    refine Eq.symm ((octet_append_low _ (q := 4) _ h4).trans ?_)
    exact (octet_extractLsb' (p ++ 0#12) (a := 0) (by omega)).trans (by rw [Nat.zero_add])
  · obtain ⟨i, rfl⟩ : ∃ i, j = 4 + i := ⟨j - 4, by omega⟩
    have hmask : ∀ i < 2, B.mask (0x28 + (4 + i)) = 0xff#8 := by
      cases B <;> decide
    rw [if_pos (by omega), hmask i (by omega), show 0x28 + (4 + i) - 0x2c = i by omega]
    unfold bufferOf
    rw [if_pos (by omega), show octet (p ++ 0#12) i &&& 0xff#8 = octet (p ++ 0#12) i from
      BitVec.and_allOnes]
    refine Eq.symm ((octet_append_high _ 4 _ i).trans ?_)
    exact (octet_extractLsb' (p ++ 0#12) (a := 0) (by omega)).trans (by rw [Nat.zero_add])

theorem halves_append (x : BitVec 48) : x.extractLsb' 32 16 ++ x.extractLsb' 0 32 = x := by
  apply BitVec.eq_of_getLsbD_eq
  intro i hi
  rw [BitVec.getLsbD_append]
  by_cases h : i < 32
  · simp [h]
  · simp [h, show i - 32 < 16 by omega, show 32 + (i - 32) = i by omega]

/-- Addresses with the same low half. -/
theorem extractLsb'_append_eq_iff (a c : BitVec 16) (b : BitVec 32) :
    (a ++ b).extractLsb' 12 36 = (c ++ b).extractLsb' 12 36 ↔ a = c := by
  constructor
  · intro h
    apply BitVec.eq_of_getLsbD_eq
    intro i hi
    have hbit := congrArg (fun x => x.getLsbD (20 + i)) h
    simp only [BitVec.getLsbD_extractLsb', BitVec.getLsbD_append, show 20 + i < 36 by omega,
      decide_true, Bool.true_and, show ¬ 12 + (20 + i) < 32 by omega, if_false,
      show 12 + (20 + i) - 32 = i by omega] at hbit
    exact hbit
  · rintro rfl
    rfl

/-- The octets between the halves of the lower half. -/
theorem middle_eq_zero_iff (x : BitVec 48) :
    x.extractLsb' 16 16 = 0 ↔ octet x 2 = 0 ∧ octet x 3 = 0 := by
  have h0 : octet (x.extractLsb' 16 16) 0 = octet x 2 := octet_extractLsb' x (a := 2) (by omega)
  have h1 : octet (x.extractLsb' 16 16) 1 = octet x 3 := octet_extractLsb' x (a := 2) (by omega)
  constructor
  · intro h
    rw [← h0, ← h1, h]
    exact ⟨rfl, rfl⟩
  · rintro ⟨h2, h3⟩
    refine eq_of_octet (n := 2) _ _ fun j hj => ?_
    interval_cases j
    · exact h0.trans h2
    · exact h1.trans h3

/-- The bytes that are got after an address is set. -/
theorem ptr_getMem0paddr_setMem0paddr (host : Host) (x : BitVec 48) {k : ℕ} (hk : k < 8) :
    (B.ioctl host (B.ioctl host s .setMem0paddr (bufferOf x)).state .getMem0paddr ptr).ptr k =
      if k < 2 then bufferOf x k else if k < 4 then 0 else ptr k := by
  have hmask : ∀ i < 4, B.mask (0x2c + i) = if i < 2 then 0xff#8 else 0 := by
    cases B <;> decide
  have hall : ∀ b : BitVec 8, b &&& 0xff#8 = b := fun b => BitVec.and_allOnes
  rw [ptr_getMem0paddr, byteAt_setMem0paddr]
  by_cases h4 : k < 4
  · rw [if_pos h4, if_pos (by omega), Nat.add_sub_cancel_left, hmask k h4]
    by_cases h2 : k < 2
    · rw [if_pos h2, if_pos h2, hall]
    · rw [if_neg h2, if_neg h2, if_pos h4]
      exact BitVec.and_zero
  · rw [if_neg h4, if_neg (by omega), if_neg h4]

/-- **The driver and the boards agree** on the address of a page exactly when its upper 16 bits
repeat its lower ones, those in between are zero, and the buffer already ends with its last four
bytes. -/
theorem remoteAddrAgrees_iff (B : Board) (host : Host) (s : B.State) (p : BitVec 36)
    (ptr : ℕ → BitVec 8) :
    RemoteAddrAgrees B host s (p ++ 0#12) ptr ↔
      (p ++ 0#12).extractLsb' 32 16 = (p ++ 0#12).extractLsb' 0 16 ∧
        (p ++ 0#12).extractLsb' 16 16 = 0 ∧
          ∀ k, 4 ≤ k → k < 8 → ptr k = bufferOf (p ++ 0#12) k := by
  have hget : ∀ k < 8, (B.ioctl host (B.ioctl host s .setMem0paddr (bufferOf (p ++ 0#12))).state
      .getMem0paddr ptr).ptr k = _ := fun k hk => ptr_getMem0paddr_setMem0paddr host (p ++ 0#12) hk
  unfold RemoteAddrAgrees
  simp only
  rw [mem0Paddr_setMem0paddr]
  generalize p ++ 0#12 = x at hget ⊢
  refine and_congr ?_ ?_
  · rw [show x.extractLsb' 12 36 = (x.extractLsb' 32 16 ++ x.extractLsb' 0 32).extractLsb' 12 36 by
      rw [halves_append], extractLsb'_append_eq_iff]
    exact eq_comm
  · rw [middle_eq_zero_iff]
    constructor
    · intro h
      refine ⟨⟨?_, ?_⟩, fun k h4 h8 => ?_⟩
      · exact ((h 2 (by omega)).symm.trans (hget 2 (by omega)))
      · exact ((h 3 (by omega)).symm.trans (hget 3 (by omega)))
      · rw [← h k h8, hget k h8, if_neg (by omega), if_neg (by omega)]
    · rintro ⟨⟨h2, h3⟩, hptr⟩ k h8
      rw [hget k h8]
      by_cases hlt : k < 2
      · rw [if_pos hlt]
      · by_cases h4 : k < 4
        · rw [if_neg hlt, if_pos h4]
          obtain rfl | rfl : k = 2 ∨ k = 3 := by omega
          · exact h2.symm
          · exact h3.symm
        · rw [if_neg hlt, if_neg h4, hptr k (by omega) h8]

/-- The address of a page where the driver redirects what is sent to it. -/
theorem remoteAddr_redirected :
    ¬ RemoteAddrAgrees .ecp3 ⟨id, 0⟩ Ecp3Regs.reset (0x123456#36 ++ 0#12) (fun _ => 0) ∧
      ¬ RemoteAddrAgrees .kc705 ⟨id, 0⟩ (default : MemAccess).reset (0x123456#36 ++ 0#12)
        (fun _ => 0) := by
  constructor <;>
  · intro h
    have h1 := h.1
    revert h1
    decide

end Board

end IpNuma
