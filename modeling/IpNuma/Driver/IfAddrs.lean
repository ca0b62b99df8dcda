import IpNuma.Driver.Ioctl

/-!
# The interface addresses

Four registers are set and got as a whole, at the offsets they have on the ECP3 board.  On the KC705
the two MAC addresses are four bytes further on (`Board.shift`), so of six bytes that are set the
last two arrive, as the first two octets.

`octetOf_calls` says what the registers hold after any sequence of calls, `addrsAgree_iff` when this
is what the last calls set.
-/

namespace IpNuma

open Clocked ByteStore

/-- The registers. -/
inductive AddrReg
  | ifV4addr
  | ifMacaddr
  | destV4addr
  | destMacaddr
  deriving DecidableEq, Inhabited

namespace AddrReg

def reg : AddrReg → Bar0Reg
  | ifV4addr => .ifV4addr
  | ifMacaddr => .ifMacaddr
  | destV4addr => .destV4addr
  | destMacaddr => .destMacaddr

def getCmd : AddrReg → Ioctl
  | ifV4addr => .getIfv4addr
  | ifMacaddr => .getIfmacaddr
  | destV4addr => .getDestv4addr
  | destMacaddr => .getDestmacaddr

def setCmd : AddrReg → Ioctl
  | ifV4addr => .setIfv4addr
  | ifMacaddr => .setIfmacaddr
  | destV4addr => .setDestv4addr
  | destMacaddr => .setDestmacaddr

/-- The offset in the driver. -/
def offset : AddrReg → ℕ
  | ifV4addr => 0
  | ifMacaddr => 4
  | destV4addr => 0x10
  | destMacaddr => 0x14

def IsMac (f : AddrReg) : Prop := f = ifMacaddr ∨ f = destMacaddr

theorem reg_inj {f g : AddrReg} : f.reg = g.reg ↔ f = g := by
  cases f <;> cases g <;> decide

theorem plain (f : AddrReg) : ∀ k < f.reg.octets, Board.Plain (f.offset + k) := by
  cases f <;> decide

end AddrReg

/-- A call that sets a register. -/
structure SetCall where
  reg : AddrReg
  arg : ℕ → BitVec 8

/-- The argument of the last call for a register. -/
def lastArg (cs : List SetCall) (f : AddrReg) : Option (ℕ → BitVec 8) :=
  cs.foldl (fun a c => if c.reg = f then some c.arg else a) none

namespace Board

variable (B : Board) (host : Host)

/-- How far a register is behind where the driver has it. -/
def shift : Board → AddrReg → ℕ
  | kc705, .ifMacaddr | kc705, .destMacaddr => 4
  | _, _ => 0

/-- The board after a call. -/
def call (s : B.State) (c : SetCall) : B.State := (B.ioctl host s c.reg.setCmd c.arg).state

/-- After the calls every register holds, in network order, what was set last, and this is what is
got; no call changes another register. -/
structure AddrsAgree (s : B.State) (cs : List SetCall) : Prop where
  held : ∀ f : AddrReg, ∀ k < f.reg.octets,
    (B.bar0 (run (B.call host) s cs)).octetOf f.reg (f.reg.octets - 1 - k) =
      match lastArg cs f with
      | some a => a k
      | none => (B.bar0 s).octetOf f.reg (f.reg.octets - 1 - k)
  got : ∀ f a, lastArg cs f = some a → ∀ ptr, ∀ k < f.reg.octets,
    (B.ioctl host (run (B.call host) s cs) f.getCmd ptr).ptr k = a k
  kept : ∀ pre c post, cs = pre ++ c :: post → ∀ g, g ≠ c.reg.reg → ∀ j < g.octets,
    (B.bar0 (run (B.call host) s (pre ++ [c]))).octetOf g j =
      (B.bar0 (run (B.call host) s pre)).octetOf g j

variable {B host} {s : B.State} {f : AddrReg} {j k : ℕ}

/-! ### Where the bytes go -/

theorem offset_reg (B : Board) (f : AddrReg) (hj : j < f.reg.octets) :
    B.addrMap.offset f.reg j + j = f.offset + (f.reg.octets - 1 + B.shift f) := by
  cases B <;> cases f <;> simp only [AddrReg.reg, Bar0Reg.octets] at hj <;>
    simp only [Bar0Map.offset, addrMap, Ecp3Regs.addrMap, UserRegs.addrMap, AddrReg.reg,
      AddrReg.offset, Bar0Reg.octets, shift] <;> omega

/-- The bytes of a register are apart from those of the others. -/
theorem offset_apart (B : Board) {f : AddrReg} {g : Bar0Reg} (hg : g ≠ f.reg) (hj : j < g.octets) :
    ¬ (f.offset ≤ B.addrMap.offset g j ∧ B.addrMap.offset g j < f.offset + f.reg.octets) := by
  cases B <;> cases f <;> cases g <;> first
    | exact absurd rfl hg
    | (simp only [Bar0Reg.octets] at hj
       simp only [Bar0Map.offset, addrMap, Ecp3Regs.addrMap, UserRegs.addrMap, AddrReg.reg,
        AddrReg.offset, Bar0Reg.octets]
       omega)

theorem shift_lt (B : Board) (f : AddrReg) : B.shift f < f.reg.octets := by
  cases B <;> cases f <;> decide

theorem mask_reg (B : Board) (f : AddrReg) :
    ∀ j < f.reg.octets, B.mask (B.addrMap.offset f.reg j) = 0xff#8 := by
  cases B <;> cases f <;> decide

/-- What is left between the MAC addresses and where the driver has them. -/
theorem locate_shift (B : Board) (f : AddrReg) :
    ∀ k < B.shift f, B.addrMap.locate (f.offset + k) = none := by
  cases B <;> cases f <;> decide

theorem ioctl_setCmd (f : AddrReg) (ptr : ℕ → BitVec 8) :
    B.ioctl host s f.setCmd ptr = B.ioctlSet s ptr f.offset f.reg.octets := by
  cases f <;> rfl

theorem ioctl_getCmd (f : AddrReg) (ptr : ℕ → BitVec 8) :
    B.ioctl host s f.getCmd ptr = B.ioctlGet s ptr f.offset f.reg.octets := by
  cases f <;> rfl

/-! ### The registers after calls -/

/-- A call leaves the other registers alone. -/
theorem octetOf_call_of_ne {c : SetCall} {g : Bar0Reg} (hg : g ≠ c.reg.reg) (hj : j < g.octets) :
    (B.bar0 (B.call host s c)).octetOf g j = (B.bar0 s).octetOf g j := by
  unfold call
  rw [← Bar0.byteAt_offset (M := B.addrMap) hj, ← Bar0.byteAt_offset (M := B.addrMap) hj,
    ioctl_setCmd]
  refine (byteAt_ioctlSet c.reg.plain _).trans ?_
  rw [if_neg (offset_apart B hg hj)]
  rfl

/-- An octet of its register after a call. -/
theorem octetOf_call (c : SetCall) (hj : j < c.reg.reg.octets) :
    (B.bar0 (B.call host s c)).octetOf c.reg.reg j =
      if B.shift c.reg ≤ j then c.arg (c.reg.reg.octets - 1 + B.shift c.reg - j)
      else (B.bar0 s).octetOf c.reg.reg j := by
  have hoff := offset_reg B c.reg hj
  have hlt := shift_lt B c.reg
  unfold call
  rw [← Bar0.byteAt_offset (M := B.addrMap) hj, ← Bar0.byteAt_offset (M := B.addrMap) hj,
    ioctl_setCmd]
  refine (byteAt_ioctlSet c.reg.plain _).trans ?_
  rw [mask_reg B c.reg j hj]
  by_cases hs : B.shift c.reg ≤ j
  · rw [if_pos (by omega), if_pos hs, show B.addrMap.offset c.reg.reg j - c.reg.offset =
      c.reg.reg.octets - 1 + B.shift c.reg - j by omega]
    exact BitVec.and_allOnes
  · rw [if_neg (by omega), if_neg hs]
    rfl

/-- **The registers after calls**: the octets that a call reaches hold what was set last, the others
what they held before. -/
theorem octetOf_calls (cs : List SetCall) (hj : j < f.reg.octets) :
    (B.bar0 (run (B.call host) s cs)).octetOf f.reg j =
      match lastArg cs f with
      | some a =>
          if B.shift f ≤ j then a (f.reg.octets - 1 + B.shift f - j)
          else (B.bar0 s).octetOf f.reg j
      | none => (B.bar0 s).octetOf f.reg j := by
  induction cs using List.reverseRecOn with
  | nil => rfl
  | append_singleton cs c ih =>
    have hlast : lastArg (cs ++ [c]) f = if c.reg = f then some c.arg else lastArg cs f := by
      unfold lastArg
      rw [List.foldl_append]
      rfl
    rw [run_concat, hlast]
    by_cases hc : c.reg = f
    · subst hc
      rw [if_pos rfl, octetOf_call c hj, ih]
      by_cases hs : B.shift c.reg ≤ j
      · rw [if_pos hs]
        exact (if_pos hs).symm
      · rw [if_neg hs]
        refine Eq.trans ?_ (if_neg hs).symm
        cases lastArg cs c.reg with
        | none => rfl
        | some a => exact if_neg hs
    · rw [if_neg hc, octetOf_call_of_ne (fun h => hc (AddrReg.reg_inj.1 h).symm) hj, ih]

/-- What is got: nothing as far as the register is behind. -/
theorem ptr_getCmd (f : AddrReg) (ptr : ℕ → BitVec 8) (hk : k < f.reg.octets) :
    (B.ioctl host s f.getCmd ptr).ptr k =
      if B.shift f ≤ k then (B.bar0 s).octetOf f.reg (f.reg.octets - 1 + B.shift f - k) else 0 := by
  rw [ioctl_getCmd, ptr_ioctlGet f.plain, if_pos hk]
  by_cases hs : B.shift f ≤ k
  · have hj : f.reg.octets - 1 + B.shift f - k < f.reg.octets := by omega
    have hoff := offset_reg B f hj
    have hlt := shift_lt B f
    rw [if_pos hs, ← Bar0.byteAt_offset (M := B.addrMap) hj, show f.offset + k =
      B.addrMap.offset f.reg (f.reg.octets - 1 + B.shift f - k) by omega]
    rfl
  · rw [if_neg hs]
    exact Bar0.byteAt_of_locate (locate_shift B f k (by omega))

theorem kept_calls (s : B.State) (pre : List SetCall) (c : SetCall) {g : Bar0Reg}
    (hg : g ≠ c.reg.reg) (hj : j < g.octets) :
    (B.bar0 (run (B.call host) s (pre ++ [c]))).octetOf g j =
      (B.bar0 (run (B.call host) s pre)).octetOf g j := by
  rw [run_concat]
  exact octetOf_call_of_ne hg hj

theorem shift_eq (h : B.shift f ≠ 0) : B.shift f = 4 ∧ f.reg.octets = 6 := by
  revert h
  cases B <;> cases f <;> decide

/-- Agreement, register by register. -/
theorem addrsAgree_iff_forall (cs : List SetCall) :
    AddrsAgree B host s cs ↔ ∀ f a, lastArg cs f = some a → B.shift f ≠ 0 →
      (∀ k < 6, a k = 0) ∧ ∀ j < 4, (B.bar0 s).octetOf f.reg j = 0 := by
  constructor
  · intro h f a hf hs
    obtain ⟨h4, h6⟩ := shift_eq hs
    -- what the register holds, and what is got of it
    have hheld : ∀ k < 6, (if 4 ≤ 5 - k then a (9 - (5 - k))
        else (B.bar0 s).octetOf f.reg (5 - k)) = a k := by
      intro k hk
      have hk' := h.held f k (by omega)
      rw [octetOf_calls cs (by omega), hf, h4, h6] at hk'
      exact hk'
    have hlow : ∀ k < 4, a k = 0 := by
      intro k hk
      rw [← h.got f a hf (fun _ => 0) k (by omega), ptr_getCmd f _ (by omega), if_neg (by omega)]
    have ha : ∀ k < 6, a k = 0 := by
      intro k hk
      by_cases hk4 : k < 4
      · exact hlow k hk4
      · have hrep := hheld (k - 4) (by omega)
        rw [if_pos (by omega), show 9 - (5 - (k - 4)) = k by omega] at hrep
        rw [hrep]
        exact hlow _ (by omega)
    refine ⟨ha, fun j hj => ?_⟩
    have hold := hheld (5 - j) (by omega)
    rwa [if_neg (by omega), show 5 - (5 - j) = j by omega, ha _ (by omega)] at hold
  · intro h
    have hheld : ∀ f : AddrReg, ∀ k < f.reg.octets,
        (B.bar0 (run (B.call host) s cs)).octetOf f.reg (f.reg.octets - 1 - k) =
          match lastArg cs f with
          | some a => a k
          | none => (B.bar0 s).octetOf f.reg (f.reg.octets - 1 - k) := by
      intro f k hk
      rw [octetOf_calls cs (by omega)]
      cases hf : lastArg cs f with
      | none => rfl
      | some a =>
        by_cases hs : B.shift f = 0
        · simp only [hs, if_pos (Nat.zero_le _)]
          exact congrArg a (by omega)
        · obtain ⟨ha, hold⟩ := h f a hf hs
          obtain ⟨h4, h6⟩ := shift_eq hs
          simp only
          by_cases hk1 : k ≤ 1
          · rw [if_pos (by omega), ha _ (by omega), ha _ (by omega)]
          · rw [if_neg (by omega), hold _ (by omega), ha _ (by omega)]
    refine ⟨hheld, fun f a hf ptr k hk => ?_, fun pre c post _ g hg j hj => kept_calls s pre c hg hj⟩
    rw [ptr_getCmd f ptr hk]
    by_cases hs : B.shift f = 0
    · have hk' := hheld f k hk
      rw [hf] at hk'
      rw [hs, if_pos (Nat.zero_le _)]
      exact hk'
    · obtain ⟨ha, -⟩ := h f a hf hs
      obtain ⟨h4, h6⟩ := shift_eq hs
      by_cases hk4 : 4 ≤ k
      · rw [if_pos (by omega), octetOf_calls cs (by omega), hf]
        simp only
        rw [if_pos (by omega)]
        exact congrArg a (by omega)
      · rw [if_neg (by omega), ha k (by omega)]

/-- **The driver and the boards agree** on the addresses on the ECP3 board, and on the KC705 exactly
when every MAC address was left alone, or was set to zero last with its lower octets zero before. -/
theorem addrsAgree_iff (B : Board) (host : Host) (s : B.State) (cs : List SetCall) :
    AddrsAgree B host s cs ↔ B = .ecp3 ∨ ∀ f a, f.IsMac → lastArg cs f = some a →
      (∀ k < 6, a k = 0) ∧ ∀ j < 4, (B.bar0 s).octetOf f.reg j = 0 := by
  rw [addrsAgree_iff_forall]
  cases B with
  | ecp3 => exact ⟨fun _ => .inl rfl, fun _ f a _ h => absurd rfl h⟩
  | kc705 =>
    constructor
    · intro h
      refine .inr fun f a hmac hf => h f a hf ?_
      rcases hmac with rfl | rfl <;> decide
    · rintro (h | h) f a hf hs
      · cases h
      · refine h f a ?_ hf
        cases f with
        | ifMacaddr => exact .inl rfl
        | destMacaddr => exact .inr rfl
        | ifV4addr => exact absurd rfl hs
        | destV4addr => exact absurd rfl hs

/-- The MAC address the server of the ping-pong program sets. -/
def srvMac : SetCall where
  reg := .ifMacaddr
  arg := fun k => [0x00#8, 0x37#8, 0x76#8, 0x10#8, 0x00#8, 0x01#8].getD k 0

/-- It does not arrive on the KC705. -/
theorem srvMac_misplaced :
    ¬ AddrsAgree .kc705 ⟨id, 0⟩ (default : MemAccess).reset [srvMac] := by
  intro h
  have h1 := h.held .ifMacaddr 1 (by decide)
  revert h1
  decide

end Board

end IpNuma
