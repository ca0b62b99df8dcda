import IpNuma.Ecp3.ReqStores
import IpNuma.Ecp3.SlaveWrites

/-!
# Byte enables

The enabled bytes of a request are those of its first and its last DW that the byte enables select,
and all between them.  From the first and the last one come the byte count and the lower address of
a completion; `byteCount_eq` and `lowerAddress_eq` say that what `SLV_MREADH` computes, a table of
27 rows and a priority encoder, are these two.
-/

namespace IpNuma

/-- The bits of a byte enable that are set. -/
def bitsOf (be : BitVec 4) : List ℕ := (List.range 4).filter be.getLsbD

/-- The number of bytes from the first to the last enabled one; one byte if none is enabled. -/
def span : Option ℕ → Option ℕ → ℕ
  | some first, some last => last + 1 - first
  | _, _ => 1

namespace MemReq

variable (r : MemReq)

/-- The bytes that the request is for, as offsets from the address of its first DW. -/
def enabledBytes : List ℕ := (List.range (4 * r.dws)).filter r.enabled

/-- The number of bytes from the first to the last enabled one. -/
def byteCount : ℕ := span r.enabledBytes.head? r.enabledBytes.getLast?

/-- The address of the first enabled byte, or that of the first DW if none is enabled. -/
def byteAddr : ℕ := r.addr.toNat / 4 * 4 + r.enabledBytes.head?.getD 0

/-- What the byte enables of a request have to be. -/
structure Enables (r : MemReq) : Prop where
  last : r.lastbe = 0 ↔ r.dws = 1
  first : 1 < r.dws → r.firstbe ≠ 0

variable {r}

theorem enabled_first {o : ℕ} (h : o < 4) : r.enabled o = r.firstbe.getLsbD o := by
  unfold enabled
  rw [Nat.div_eq_of_lt h, Nat.mod_eq_of_lt h, if_pos rfl]

theorem enabled_last {o : ℕ} (hdws : 1 < r.dws) (h : o < 4) :
    r.enabled (4 * (r.dws - 1) + o) = r.lastbe.getLsbD o := by
  unfold enabled
  rw [show (4 * (r.dws - 1) + o) / 4 = r.dws - 1 by omega, if_neg (by omega),
    if_pos (by omega), show (4 * (r.dws - 1) + o) % 4 = o by omega]

theorem filter_first : (List.range 4).filter r.enabled = bitsOf r.firstbe :=
  List.filter_congr fun _ ho => enabled_first (List.mem_range.1 ho)

theorem filter_last (hdws : 1 < r.dws) :
    ((List.range 4).map (4 * (r.dws - 1) + ·)).filter r.enabled =
      (bitsOf r.lastbe).map (4 * (r.dws - 1) + ·) := by
  unfold bitsOf
  rw [List.filter_map]
  congr 1
  exact List.filter_congr fun _ ho => enabled_last hdws (List.mem_range.1 ho)

/-- With one DW only the first byte enables count. -/
theorem enabledBytes_one (hdws : r.dws = 1) : r.enabledBytes = bitsOf r.firstbe := by
  unfold enabledBytes
  rw [hdws]
  exact filter_first

/-- With more than one DW the enabled bytes begin in the first and end in the last one. -/
theorem enabledBytes_more (hdws : 1 < r.dws) : ∃ mid, r.enabledBytes =
    bitsOf r.firstbe ++ (mid ++ (bitsOf r.lastbe).map (4 * (r.dws - 1) + ·)) := by
  unfold enabledBytes
  have hsplit : 4 * r.dws = 4 + (4 * (r.dws - 2) + 4) := by omega
  have hshift : (4 + ·) ∘ (4 * (r.dws - 2) + ·) = (4 * (r.dws - 1) + ·) := by
    funext o
    change 4 + (4 * (r.dws - 2) + o) = 4 * (r.dws - 1) + o
    omega
  rw [hsplit, List.range_add, List.filter_append, filter_first, List.range_add, List.map_append,
    List.filter_append, List.map_map, hshift, filter_last hdws]
  exact ⟨_, rfl⟩

theorem bitsOf_ne_nil : ∀ {be : BitVec 4}, be ≠ 0 → bitsOf be ≠ [] := by
  decide

/-- The first enabled byte is in the first DW. -/
theorem head?_enabledBytes (h : r.Enables) : r.enabledBytes.head? = (bitsOf r.firstbe).head? := by
  have hpos := r.dws_pos
  by_cases hdws : r.dws = 1
  · rw [enabledBytes_one hdws]
  · obtain ⟨mid, heq⟩ := enabledBytes_more (r := r) (by omega)
    rw [heq]
    exact List.head?_append_of_ne_nil _ (bitsOf_ne_nil (h.first (by omega)))

/-- The last enabled byte is in the last DW. -/
theorem getLast?_enabledBytes (h : r.Enables) (hdws : 1 < r.dws) :
    r.enabledBytes.getLast? = (bitsOf r.lastbe).getLast?.map (4 * (r.dws - 1) + ·) := by
  obtain ⟨mid, heq⟩ := enabledBytes_more hdws
  have hlast : r.lastbe ≠ 0 := fun hz => absurd (h.last.1 hz) (by omega)
  have hne : (bitsOf r.lastbe).map (4 * (r.dws - 1) + ·) ≠ [] := fun hnil =>
    bitsOf_ne_nil hlast (List.map_eq_nil_iff.1 hnil)
  rw [heq, List.getLast?_append_of_ne_nil _ (List.append_ne_nil_of_right_ne_nil _ hne),
    List.getLast?_append_of_ne_nil _ hne, List.getLast?_map]

end MemReq

/-! ### The table -/

namespace TlpSlave

/-- The row of the table that byte enables select. -/
def row (n : BitVec 12) (bes : BitVec 8) : Option (BitVec 8 × BitVec 8 × BitVec 12) :=
  (byteCounts n).find? fun arm => bes &&& arm.1 == arm.2.1

/-- The rows for more than one DW have `n` in them. -/
def shift (n : BitVec 12) (arm : BitVec 8 × BitVec 8 × BitVec 12) :
    BitVec 8 × BitVec 8 × BitVec 12 :=
  (arm.1, arm.2.1, if arm.2.1.extractLsb' 0 4 = 0 then arm.2.2 else n + arm.2.2)

theorem byteCounts_eq (n : BitVec 12) : byteCounts n = (byteCounts 0).map (shift n) := by
  have hsub : ∀ k : BitVec 12, n - k = n + (0 - k) := fun k => by
    rw [BitVec.sub_eq_add_neg, BitVec.sub_eq_add_neg]
    exact congrArg (n + ·) (BitVec.zero_add _).symm
  unfold byteCounts
  simp only [List.map_cons, List.map_nil]
  rw [hsub 1, hsub 2, hsub 3, hsub 4, hsub 5, hsub 6]
  simp [shift]

theorem row_eq (n : BitVec 12) (bes : BitVec 8) : row n bes = (row 0 bes).map (shift n) := by
  unfold row
  rw [byteCounts_eq, List.find?_map]
  rfl

/-- The row of a request with one DW. -/
theorem row_one : ∀ first : BitVec 4,
    (row 0 (first ++ 0#4)).map (fun arm => (decide (arm.2.1.extractLsb' 0 4 = 0), arm.2.2)) =
      some (true, BitVec.ofNat 12 (span (bitsOf first).head? (bitsOf first).getLast?)) := by
  decide +kernel

/-- The row of a request with more than one DW. -/
theorem row_more : ∀ first last : BitVec 4, first ≠ 0 → last ≠ 0 →
    (row 0 (first ++ last)).map (fun arm => (decide (arm.2.1.extractLsb' 0 4 = 0), arm.2.2)) =
      some (false, BitVec.ofNat 12
        (span (bitsOf first).head? ((bitsOf last).getLast?.map (4092 + ·)))) := by
  decide +kernel

variable {s : TlpSlave} {rx : TlpRx} {r : MemReq}

theorem byteCount_of_row {bes : BitVec 8} {k : BitVec 12} {short : Bool}
    (hbes : rx.rxFirstbe ++ rx.rxLastbe = bes)
    (h : (row 0 bes).map (fun arm => (decide (arm.2.1.extractLsb' 0 4 = 0), arm.2.2)) =
      some (short, k)) :
    byteCount s rx = if short then k else rx.rxLength.setWidth 12 * 4 + k := by
  obtain ⟨arm, harm, heq⟩ := Option.map_eq_some_iff.1 h
  obtain ⟨hshort, hk⟩ := Prod.mk.inj heq
  have hrow := row_eq (rx.rxLength.setWidth 12 * 4) bes
  rw [harm] at hrow
  unfold row at hrow
  unfold byteCount
  simp only [hbes, hrow, Option.map_some]
  unfold shift
  rw [← hshort, ← hk]
  simp only [decide_eq_true_eq]

/-- The first and the last enabled byte of a request with more than one DW. -/
theorem span_more (hfirst : r.firstbe ≠ 0) (hlast : r.lastbe ≠ 0) :
    ∃ first < 4, ∃ last < 4, ∀ n, span (bitsOf r.firstbe).head?
      ((bitsOf r.lastbe).getLast?.map (n + ·)) = n + last + 1 - first := by
  have hbits : ∀ be : BitVec 4, ∀ o ∈ bitsOf be, o < 4 := fun be o ho =>
    List.mem_range.1 (List.mem_of_mem_filter ho)
  obtain ⟨first, hf⟩ := Option.isSome_iff_exists.1
    (List.isSome_head?.2 (MemReq.bitsOf_ne_nil hfirst))
  obtain ⟨last, hl⟩ := Option.isSome_iff_exists.1
    (List.getLast?_isSome.2 (MemReq.bitsOf_ne_nil hlast))
  refine ⟨first, hbits _ _ (List.mem_of_head? hf), last, hbits _ _ (List.mem_of_getLast? hl),
    fun n => ?_⟩
  rw [hf, hl]
  rfl

/-- The table has the byte count. -/
theorem byteCount_eq (h : rx.Holds r r.headLen) (hbe : r.Enables) (hzero : r.length ≠ 0) :
    byteCount s rx = BitVec.ofNat 12 r.byteCount := by
  have hlen := r.six_le_headLen
  have hpos := r.dws_pos
  have hdws : r.dws = r.length.toNat := if_neg hzero
  have hlt := r.length.isLt
  obtain ⟨-, hlast, hfirst⟩ := h.bytes (by omega)
  have hlength := h.length (by omega)
  unfold MemReq.byteCount
  rw [MemReq.head?_enabledBytes hbe]
  by_cases hone : r.dws = 1
  · have hbes : rx.rxFirstbe ++ rx.rxLastbe = r.firstbe ++ 0#4 := by
      rw [hfirst, hlast, hbe.last.2 hone]
      rfl
    rw [byteCount_of_row hbes (row_one r.firstbe), if_pos rfl, MemReq.enabledBytes_one hone]
  · have hf := hbe.first (by omega)
    have hl : r.lastbe ≠ 0 := fun hz => hone (hbe.last.1 hz)
    have hbes : rx.rxFirstbe ++ rx.rxLastbe = r.firstbe ++ r.lastbe := by rw [hfirst, hlast]
    rw [byteCount_of_row hbes (row_more r.firstbe r.lastbe hf hl), if_neg Bool.false_ne_true,
      MemReq.getLast?_enabledBytes hbe (by omega), hlength]
    -- the rows have the count for no DW, to which four bytes for each DW are added
    obtain ⟨first, hf4, last, hl4, hspan⟩ := span_more hf hl
    rw [hspan, hspan]
    apply BitVec.eq_of_toNat_eq
    rw [BitVec.toNat_add, BitVec.toNat_mul, BitVec.toNat_setWidth, BitVec.toNat_ofNat,
      BitVec.toNat_ofNat, ← hdws]
    change (r.dws % 4096 * 4 % 4096 + _) % 4096 = _
    omega

/-- The lower bits of the lower address. -/
theorem lowerAddress_first : ∀ first : BitVec 4,
    (if first = 0 ∨ first.getLsbD 0 then 0b00#2 else if first.getLsbD 1 then 0b01#2
      else if first.getLsbD 2 then 0b10#2 else 0b11#2) =
      BitVec.ofNat 2 ((bitsOf first).head?.getD 0) := by
  decide

theorem lowest_lt : ∀ first : BitVec 4, (bitsOf first).head?.getD 0 < 4 := by
  decide

/-- The lower address is that of the first enabled byte modulo 128. -/
theorem lowerAddress_eq (h : rx.Holds r r.headLen) (hbe : r.Enables) :
    (lowerAddress rx).extractLsb' 0 7 = BitVec.ofNat 7 r.byteAddr := by
  have hlen := r.six_le_headLen
  obtain ⟨-, -, hfirst⟩ := h.bytes (by omega)
  have haddr : (rx.rxAddr.extractLsb' 0 6).toNat = r.addr.toNat / 4 % 64 := by
    have h18 := congrArg BitVec.toNat (addr_of_holds h)
    rw [BitVec.extractLsb'_toNat, BitVec.extractLsb'_toNat, Nat.shiftRight_eq_div_pow,
      Nat.shiftRight_eq_div_pow] at h18
    rw [BitVec.extractLsb'_toNat, Nat.shiftRight_eq_div_pow]
    omega
  have hoff : (bitsOf r.firstbe).head?.getD 0 < 4 := lowest_lt r.firstbe
  unfold lowerAddress MemReq.byteAddr
  rw [MemReq.head?_enabledBytes hbe, hfirst, lowerAddress_first]
  apply BitVec.eq_of_toNat_eq
  rw [BitVec.extractLsb'_toNat, toNat_append_add, haddr, BitVec.toNat_ofNat, BitVec.toNat_ofNat,
    Nat.shiftRight_eq_div_pow]
  omega

end TlpSlave

end IpNuma
