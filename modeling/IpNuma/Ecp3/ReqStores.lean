import IpNuma.Ecp3.MemReq

/-!
# The bytes that a write stores

For the host a write behind BAR0 is a list of bytes, each with its byte enable, at consecutive
offsets of a register file of one kilobyte.  `puts_accesses` says that this is what the accesses of
the slave bus leave in the registers.
-/

namespace IpNuma

open ByteStore

namespace MemReq

variable (r : MemReq)

/-- The byte enable of byte `b` of the data. -/
def enabled (b : ℕ) : Bool :=
  (if b / 4 = 0 then r.firstbe else if b / 4 + 1 = r.dws then r.lastbe else 0b1111#4).getLsbD (b % 4)

/-- Byte `b` of the data, the first of a word being its upper octet. -/
def byte (b : ℕ) : BitVec 8 := octet (r.data.getD (b / 2) 0) (1 - b % 2)

/-- The offset of byte `b` in a register file of one kilobyte. -/
def offset (b : ℕ) : ℕ := (r.addr.toNat / 4 * 4 + b) % 1024

/-- The stores of some bytes. -/
def storesOf (bs : List ℕ) : List (Store ℕ) :=
  (bs.filter r.enabled).map fun b => ⟨r.offset b, r.byte b⟩

/-- The stores of a write. -/
def stores : List (Store ℕ) := r.storesOf (List.range (2 * r.data.length))

variable {r} {j k : ℕ} {d : BitVec 16} {e : Bool}

theorem word_adr (r : MemReq) (j : ℕ) :
    Ecp3Regs.word (r.adr + BitVec.ofNat 19 j) = (r.addr.toNat / 4 * 2 + j) % 512 := by
  have hbase : r.adr.toNat = r.addr.toNat / 4 % 2 ^ 18 * 2 := by
    unfold adr
    rw [toNat_append_add, BitVec.extractLsb'_toNat, Nat.shiftRight_eq_div_pow]
    rfl
  unfold Ecp3Regs.word
  rw [BitVec.extractLsb'_toNat, BitVec.toNat_add, BitVec.toNat_ofNat, hbase, Nat.shiftRight_zero]
  omega

/-- The lanes of a word are two bytes. -/
theorem laneOffset_adr (r : MemReq) (j : ℕ) (hk : k < 2) :
    Ecp3Regs.laneOffset (Ecp3Regs.word (r.adr + BitVec.ofNat 19 j)) k =
      r.offset (2 * j + (1 - k)) := by
  unfold Ecp3Regs.laneOffset offset
  rw [word_adr]
  omega

theorem getLsbD_lanes (be : BitVec 4) (odd : Bool) (hk : k < 2) :
    (lanes be odd).getLsbD k = be.getLsbD (2 * odd.toNat + (1 - k)) := by
  unfold lanes
  have hcase : k = 0 ∨ k = 1 := by omega
  rcases hcase with rfl | rfl <;> cases odd
  all_goals
    simp only [Bool.false_eq_true, if_false, if_true, BitVec.getLsbD_append]
    simp

/-- The select bits are the byte enables. -/
theorem getLsbD_select (hk : k < 2) :
    (r.select j).getLsbD k = r.enabled (2 * j + (1 - k)) := by
  have hdiv : (2 * j + (1 - k)) / 4 = j / 2 := by omega
  have hmod : (2 * j + (1 - k)) % 4 = 2 * (decide (j % 2 = 1)).toNat + (1 - k) := by
    rcases Nat.mod_two_eq_zero_or_one j with h | h
    · rw [h]
      simp only [Nat.zero_ne_one, decide_false, Bool.toNat_false]
      omega
    · rw [h]
      simp only [decide_true, Bool.toNat_true]
      omega
  unfold select enabled
  rw [hdiv, hmod]
  by_cases h0 : j / 2 = 0
  · rw [if_pos h0, if_pos h0, getLsbD_lanes _ _ hk]
  · rw [if_neg h0, if_neg h0]
    by_cases h1 : j / 2 + 1 = r.dws
    · rw [if_pos h1, if_pos h1, getLsbD_lanes _ _ hk]
    · rw [if_neg h1, if_neg h1]
      have hcase : k = 0 ∨ k = 1 := by omega
      rcases hcase with rfl | rfl <;> cases decide (j % 2 = 1) <;> rfl

theorem byte_word (hd : r.data[j]? = some d) (hk : k < 2) :
    r.byte (2 * j + (1 - k)) = octet d k := by
  unfold byte
  rw [show (2 * j + (1 - k)) / 2 = j by omega, show 1 - (2 * j + (1 - k)) % 2 = k by omega,
    List.getD_eq_getElem?_getD, hd]
  rfl

theorem storesOf_append (r : MemReq) (bs cs : List ℕ) :
    r.storesOf (bs ++ cs) = r.storesOf bs ++ r.storesOf cs := by
  unfold storesOf
  rw [List.filter_append, List.map_append]

/-- A request for BAR0 has it on the bus, in both builds. -/
theorem getLsbD_slvBar (hbar : r.barHit.getLsbD 0 = true) : (r.slvBar e).getLsbD 0 = true := by
  have hne : r.barHit ≠ 0 := by
    intro hzero
    rw [hzero] at hbar
    cases hbar
  unfold slvBar
  rwa [TlpSlave.barOf_of_ne hne]

/-- The stores of an access, the lower lane first. -/
theorem busStores_access (hbar : r.barHit.getLsbD 0 = true) (hd : r.data[j]? = some d) :
    Ecp3Regs.busStores (r.access e j d) = r.storesOf [2 * j + 1] ++ r.storesOf [2 * j] := by
  have hlane : ∀ k < 2,
      Ecp3Regs.stores (Ecp3Regs.word (r.access e j d).adr) (r.access e j d).sel d [k] =
      r.storesOf [2 * j + (1 - k)] := by
    intro k hk
    unfold Ecp3Regs.stores storesOf
    have hsel : (r.access e j d).sel.getLsbD k = r.enabled (2 * j + (1 - k)) := getLsbD_select hk
    have hoff := laneOffset_adr r j hk
    by_cases hen : r.enabled (2 * j + (1 - k)) = true
    · rw [List.filter_cons_of_pos hen, List.filter_cons_of_pos (hsel.trans hen)]
      change [Store.mk _ _] = [Store.mk _ _]
      rw [byte_word hd hk, ← hoff]
      rfl
    · rw [List.filter_cons_of_neg hen, List.filter_cons_of_neg (by rw [hsel]; exact hen)]
      rfl
  have hwrites : Ecp3Regs.writesBar0 (r.access e j d) = true := by
    unfold Ecp3Regs.writesBar0 access
    rw [getLsbD_slvBar hbar]
    rfl
  have hsplit : Ecp3Regs.stores (Ecp3Regs.word (r.access e j d).adr) (r.access e j d).sel d [0, 1] =
      Ecp3Regs.stores (Ecp3Regs.word (r.access e j d).adr) (r.access e j d).sel d [0] ++
        Ecp3Regs.stores (Ecp3Regs.word (r.access e j d).adr) (r.access e j d).sel d [1] := by
    unfold Ecp3Regs.stores
    rw [← List.map_append, ← List.filter_append]
    rfl
  unfold Ecp3Regs.busStores
  rw [if_pos hwrites]
  exact hsplit.trans (congrArg₂ _ (hlane 0 (by omega)) (hlane 1 (by omega)))

theorem puts_swap (m : ℕ → BitVec 8) (r : MemReq) (j : ℕ) :
    puts Ecp3Regs.mask m (r.storesOf [2 * j + 1] ++ r.storesOf [2 * j]) =
      puts Ecp3Regs.mask m (r.storesOf [2 * j] ++ r.storesOf [2 * j + 1]) := by
  have hne : r.offset (2 * j + 1) ≠ r.offset (2 * j) := by
    unfold offset
    omega
  unfold storesOf
  by_cases h0 : r.enabled (2 * j) = true
  · by_cases h1 : r.enabled (2 * j + 1) = true
    · rw [List.filter_cons_of_pos h0, List.filter_cons_of_pos h1]
      exact put_comm _ _ hne
    · rw [List.filter_cons_of_neg h1]
      exact congrArg _ (List.append_nil _).symm
  · rw [List.filter_cons_of_neg h0]
    exact congrArg _ (List.append_nil _)

theorem puts_take (hbar : r.barHit.getLsbD 0 = true) (m : ℕ → BitVec 8) {n : ℕ}
    (hn : n ≤ r.data.length) :
    puts Ecp3Regs.mask m (((r.accesses e).take n).flatMap Ecp3Regs.busStores) =
      puts Ecp3Regs.mask m (r.storesOf (List.range (2 * n))) := by
  induction n with
  | zero => rfl
  | succ n ih =>
    have hd : r.data[n]? = some r.data[n] := List.getElem?_eq_getElem (by omega)
    have haccess : (r.accesses e)[n]? = some (r.access e n r.data[n]) := by
      unfold accesses
      rw [List.getElem?_mapIdx, hd]
      rfl
    rw [List.take_add_one, haccess, List.flatMap_append, puts_append, ih (by omega),
      show 2 * (n + 1) = 2 * n + 1 + 1 by omega, List.range_succ, List.range_succ, storesOf_append,
      storesOf_append, List.append_assoc, puts_append, ← puts_swap, ← busStores_access hbar hd]
    change puts _ _ (List.flatMap _ [_]) = _
    rw [List.flatMap_singleton]

/-- **The accesses of a write** store its bytes. -/
theorem puts_accesses (hbar : r.barHit.getLsbD 0 = true) (m : ℕ → BitVec 8) :
    puts Ecp3Regs.mask m ((r.accesses e).flatMap Ecp3Regs.busStores) =
      puts Ecp3Regs.mask m r.stores := by
  have hlen : (r.accesses e).length = r.data.length := List.length_mapIdx
  have htake := puts_take (e := e) hbar m (le_refl r.data.length)
  rw [← hlen, List.take_length, hlen] at htake
  exact htake

end MemReq

end IpNuma
