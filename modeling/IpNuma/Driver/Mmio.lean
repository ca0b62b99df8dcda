import IpNuma.Boards.MemAccess
import IpNuma.Ecp3.Regs

/-!
# BAR0 as the driver maps it

The driver copies bytes to and from the mapping of BAR0.  A byte that is stored becomes a write with
one byte enabled, a byte that is loaded a read of the word it is in.

Both boards behave as memory at the offsets that are `Plain`: not at `0x0a`, where the KC705 assigns
a slice that is too wide, and not at `0x0f`, where it shows `debug`.
-/

namespace IpNuma

open Clocked ByteStore

/-- The boards with the register maps the driver is used on. -/
inductive Board
  | ecp3
  | kc705
  deriving DecidableEq, Inhabited

namespace Board

/-- The machine behind BAR0. -/
abbrev State : Board → Type
  | ecp3 => Ecp3Regs
  | kc705 => MemAccess

/-- The cycle of the ECP3 slave bus for one byte. -/
def slvCycle (we : Bool) (o : ℕ) (b : BitVec 8) : SlvBus where
  bar := 1
  ce := true
  we := we
  adr := BitVec.ofNat 19 (o / 2)
  dat := setOctet 0 (1 - o % 2) b
  sel := BitVec.twoPow 2 (1 - o % 2)

/-- The cycle of the KC705 ports for one byte: the read port is always on. -/
def memCycle (wrEn : Bool) (o : ℕ) (b : BitVec 8) : MemAccessIn where
  rdAddr := 0b01#2 ++ BitVec.ofNat 12 (o / 4)
  rdBe := 0xf#4
  wrAddr := 0b01#2 ++ BitVec.ofNat 12 (o / 4)
  wrBe := BitVec.twoPow 8 (o % 4)
  wrData := setOctet 0 (3 - o % 4) b
  wrEn := wrEn
  debug := 0
  biosData := 0

/-- The store of a byte. -/
def store : (B : Board) → B.State → ℕ → BitVec 8 → B.State
  | ecp3, s, o, b => Ecp3Regs.step s (slvCycle true o b)
  | kc705, s, o, b => MemAccess.step .kc705 s (memCycle true o b)

/-- The load of a byte. -/
def load : (B : Board) → B.State → ℕ → B.State × BitVec 8
  | ecp3, s, o =>
      let t := Ecp3Regs.step s (slvCycle false o 0)
      (t, octet t.slvDat0 (1 - o % 2))
  | kc705, s, o =>
      let t := MemAccess.step .kc705 s (memCycle false o 0)
      (t, UserRegs.laneOf (MemAccess.rdData .kc705 t (memCycle false o 0)) (o % 4))

/-- The registers the datapath uses. -/
def bar0 : (B : Board) → B.State → Bar0
  | ecp3, s => Ecp3Regs.regs s
  | kc705, s => (MemAccess.regs s).toBar0

/-- Where they are. -/
def addrMap : Board → Bar0Map
  | ecp3 => Ecp3Regs.addrMap
  | kc705 => UserRegs.addrMap

/-- The bits that are stored. -/
def mask : Board → ℕ → BitVec 8
  | ecp3 => Ecp3Regs.mask
  | kc705 => UserRegs.mask

variable {B : Board} {s : B.State} {o : ℕ} {b : BitVec 8}

/-- The octet at an offset. -/
def byteAt (B : Board) (s : B.State) : ℕ → BitVec 8 := (B.bar0 s).byteAt B.addrMap

/-- An offset where all boards are memory. -/
def Plain (o : ℕ) : Prop := o < 0x30 ∧ o ≠ 0x0a ∧ o ≠ 0x0f

instance (o : ℕ) : Decidable (Plain o) := by
  unfold Plain
  infer_instance

/-! ### One byte -/

theorem slvCycle_bar (we : Bool) : (slvCycle we o b).bar.getLsbD 0 = true := by
  show (1 : BitVec 7).getLsbD 0 = true
  decide

theorem slvCycle_word (we : Bool) (ho : o < 0x30) :
    Ecp3Regs.word (slvCycle we o b).adr = o / 2 := by
  unfold Ecp3Regs.word slvCycle
  simp only [BitVec.extractLsb'_toNat, BitVec.toNat_ofNat, Nat.shiftRight_zero]
  omega

theorem memCycle_wrAddr (wrEn : Bool) (ho : o < 0x30) :
    MemAccess.inBar0 (memCycle wrEn o b).wrAddr = true ∧
      XilinxBoard.kc705.word (memCycle wrEn o b).wrAddr = o / 4 := by
  have hk : o / 4 < 12 := by omega
  unfold memCycle
  simp only
  generalize o / 4 = k at hk
  revert k
  decide

theorem laneOffset_div (o : ℕ) : Ecp3Regs.laneOffset (o / 2) (1 - o % 2) = o := by
  unfold Ecp3Regs.laneOffset
  omega

theorem slvCycle_stores (o : ℕ) (b : BitVec 8) :
    Ecp3Regs.stores (o / 2) (slvCycle true o b).sel (slvCycle true o b).dat [0, 1] = [⟨o, b⟩] := by
  have hoctet : octet (slvCycle true o b).dat (1 - o % 2) = b :=
    (octet_setOctet 0 b (by omega) (1 - o % 2)).trans (if_pos rfl)
  have hfilter : ([0, 1].filter fun k => (slvCycle true o b).sel.getLsbD k) = [1 - o % 2] := by
    have hmod : o % 2 < 2 := Nat.mod_lt _ (by omega)
    unfold slvCycle
    simp only
    generalize o % 2 = k at hmod
    revert k
    decide
  unfold Ecp3Regs.stores
  rw [hfilter, List.map_cons, List.map_nil, hoctet, laneOffset_div]

theorem memCycle_stores (o : ℕ) (b : BitVec 8) :
    UserRegs.stores (o / 4) (memCycle true o b).wrBe (memCycle true o b).wrData [0, 1, 2, 3] =
      [⟨o, b⟩] := by
  have hmod : o % 4 < 4 := Nat.mod_lt _ (by omega)
  have hlane : UserRegs.laneOf (memCycle true o b).wrData (o % 4) = b :=
    (octet_setOctet 0 b (by omega) (3 - o % 4)).trans (if_pos rfl)
  have hfilter :
      ([0, 1, 2, 3].filter fun lane => (memCycle true o b).wrBe.getLsbD lane) = [o % 4] := by
    unfold memCycle
    simp only
    generalize o % 4 = k at hmod
    revert k
    decide
  unfold UserRegs.stores
  rw [hfilter, List.map_cons, List.map_nil, hlane, show 4 * (o / 4) + o % 4 = o by omega]

/-- **A store** goes to its offset and nowhere else. -/
theorem byteAt_store (ho : Plain o) : B.byteAt (B.store s o b) = put B.mask (B.byteAt s) ⟨o, b⟩ := by
  obtain ⟨h30, h0a, -⟩ := ho
  cases B with
  | ecp3 =>
    refine (Ecp3Regs.byteAt_step s (slvCycle true o b)).trans ?_
    unfold Ecp3Regs.busStores
    have hbar : Ecp3Regs.writesBar0 (slvCycle true o b) = true := by
      unfold Ecp3Regs.writesBar0
      rw [slvCycle_bar]
      rfl
    rw [if_pos hbar, slvCycle_word true h30, slvCycle_stores]
    rfl
  | kc705 =>
    obtain ⟨hbar, hword⟩ := memCycle_wrAddr (b := b) true h30
    have hkeeps : MemAccess.KeepsSlices .kc705 s (memCycle true o b) := by
      intro _ h2 hbe
      rw [hword] at h2
      have hmod : o % 4 ≠ 2 := by omega
      have hlt : o % 4 < 4 := Nat.mod_lt _ (by omega)
      revert hbe
      unfold memCycle
      simp only
      generalize o % 4 = k at hmod hlt
      interval_cases k <;> first | exact absurd rfl hmod | (intro h; cases h)
    refine ((MemAccess.byteAt_step_iff .kc705 s (memCycle true o b)).1 hkeeps).trans ?_
    unfold MemAccess.stores
    rw [hbar, hword, memCycle_stores]
    rfl

/-- **A load** leaves the registers alone. -/
theorem bar0_load (B : Board) (s : B.State) (o : ℕ) : B.bar0 (B.load s o).1 = B.bar0 s := by
  cases B with
  | ecp3 =>
    show (Ecp3Regs.step s (slvCycle false o 0)).regs = Ecp3Regs.regs s
    unfold Ecp3Regs.step
    rw [if_pos (by rw [slvCycle_bar]; rfl)]
    cases Ecp3Regs.read (Ecp3Regs.regs s) (Ecp3Regs.word (slvCycle false o 0).adr) <;> rfl
  | kc705 =>
    show (MemAccess.step .kc705 s (memCycle false o 0)).regs.toBar0 = (MemAccess.regs s).toBar0
    unfold MemAccess.step
    rw [if_neg (by simp [memCycle])]

/-- **A load** returns the byte at its offset. -/
theorem load_snd (B : Board) (s : B.State) (ho : Plain o) : (B.load s o).2 = B.byteAt s o := by
  obtain ⟨h30, -, h0f⟩ := ho
  cases B with
  | ecp3 =>
    show octet (Ecp3Regs.step s (slvCycle false o 0)).slvDat0 (1 - o % 2) = _
    rw [Ecp3Regs.slvDat0_step (slvCycle_bar false) rfl rfl, slvCycle_word false h30,
      Ecp3Regs.octet_read (by omega), laneOffset_div]
    rfl
  | kc705 =>
    obtain ⟨hbar, hword⟩ := memCycle_wrAddr (b := 0) false h30
    show UserRegs.laneOf (MemAccess.rdData .kc705 (MemAccess.step .kc705 s (memCycle false o 0))
      (memCycle false o 0)) (o % 4) = _
    rw [MemAccess.rdData_of_inBar0 .kc705 (i := memCycle false o 0) hbar rfl]
    have hread : (MemAccess.step .kc705 s (memCycle false o 0)).readData =
        (MemAccess.regs s).read (o / 4) 0 := by
      rw [← hword]
      exact if_pos hbar
    rw [hread, UserRegs.laneOf_read _ _ _ (Nat.mod_lt _ (by omega)) (by omega),
      show 4 * (o / 4) + o % 4 = o by omega]
    rfl

/-! ### `memcpy` -/

/-- `memcpy(mmio0_ptr + o, ptr, n)`. -/
def memcpyTo (B : Board) (s : B.State) (o : ℕ) (ptr : ℕ → BitVec 8) (n : ℕ) : B.State :=
  (List.range n).foldl (fun s k => B.store s (o + k) (ptr k)) s

/-- `memcpy(ptr, mmio0_ptr + o, n)`. -/
def memcpyFrom (B : Board) (s : B.State) (ptr : ℕ → BitVec 8) (o n : ℕ) : B.State × (ℕ → BitVec 8) :=
  (List.range n).foldl (fun (s, ptr) k =>
    let (t, b) := B.load s (o + k)
    (t, Function.update ptr k b)) (s, ptr)

theorem byteAt_memcpyTo (B : Board) (s : B.State) {o n : ℕ} (ptr : ℕ → BitVec 8)
    (h : ∀ k < n, Plain (o + k)) :
    B.byteAt (B.memcpyTo s o ptr n) = puts B.mask (B.byteAt s) (block o ptr n) := by
  unfold memcpyTo block
  induction n with
  | zero => rfl
  | succ n ih =>
    rw [List.range_succ, List.foldl_append, List.map_append, puts_append,
      ← ih fun k hk => h k (by omega)]
    exact byteAt_store (h n (by omega))

theorem memcpyFrom_eq (B : Board) (s : B.State) (ptr : ℕ → BitVec 8) {o n : ℕ}
    (h : ∀ k < n, Plain (o + k)) :
    B.bar0 (B.memcpyFrom s ptr o n).1 = B.bar0 s ∧
      (B.memcpyFrom s ptr o n).2 = fun k => if k < n then B.byteAt s (o + k) else ptr k := by
  unfold memcpyFrom
  induction n with
  | zero =>
    refine ⟨rfl, ?_⟩
    funext k
    exact (if_neg (Nat.not_lt_zero k)).symm
  | succ n ih =>
    obtain ⟨hregs, hbuf⟩ := ih fun k hk => h k (by omega)
    rw [List.range_succ, List.foldl_append]
    refine ⟨(bar0_load B _ _).trans hregs, ?_⟩
    have hbyte := load_snd B ((List.range n).foldl (fun (s, ptr) k =>
      let (t, b) := B.load s (o + k)
      (t, Function.update ptr k b)) (s, ptr)).1 (h n (by omega))
    unfold byteAt at hbyte ⊢
    rw [hregs] at hbyte
    refine (congrArg₂ (fun f b => Function.update f n b) hbuf hbyte).trans ?_
    funext k
    by_cases hk : k = n
    · subst hk
      rw [Function.update_self, if_pos (by omega)]
    · rw [Function.update_of_ne hk]
      by_cases hlt : k < n
      · rw [if_pos hlt, if_pos (by omega)]
        rfl
      · rw [if_neg hlt, if_neg (by omega)]

end Board

end IpNuma
