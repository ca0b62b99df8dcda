import Mathlib.Data.BitVec
import Mathlib.Data.List.Induction
import Mathlib.Algebra.BigOperators.Group.List.Basic

/-!
# The ones' complement sum

Words of sixteen bits are added with the carry put back at the low end.  A header carries the
complement of the sum of its other words, so that the sum of all its words is `0xffff`.

* `ocSum_eq_ffff_iff`: the sum is `0xffff` exactly when the sum of the numbers is a multiple of
  65535 other than zero;
* `ocSum_complement_iff`: a complement taken after one round of carries is right exactly when that
  round leaves no carry.
-/

namespace OnesComplement

/-- The sum with the carry added at the low end. -/
def ocAdd (x y : BitVec 16) : BitVec 16 :=
  let s := x.setWidth 17 + y.setWidth 17
  s.extractLsb' 0 16 + (s.extractLsb' 16 1).setWidth 16

/-- The ones' complement sum of a sequence of words. -/
def ocSum (ws : List (BitVec 16)) : BitVec 16 := ws.foldl ocAdd 0

/-- The sum of the numbers. -/
def total (ws : List (BitVec 16)) : ℕ := (ws.map BitVec.toNat).sum

theorem total_append (ws vs : List (BitVec 16)) : total (ws ++ vs) = total ws + total vs := by
  simp [total]

theorem total_cons (w : BitVec 16) (ws : List (BitVec 16)) :
    total (w :: ws) = w.toNat + total ws := by
  simp [total]

theorem toNat_ocAdd (x y : BitVec 16) : (ocAdd x y).toNat =
    if x.toNat + y.toNat < 65536 then x.toNat + y.toNat else x.toNat + y.toNat - 65535 := by
  have hx := x.isLt
  have hy := y.isLt
  simp only [ocAdd, BitVec.toNat_add, BitVec.extractLsb'_toNat, BitVec.toNat_setWidth,
    Nat.shiftRight_eq_div_pow]
  split_ifs <;> omega

theorem ocSum_concat (ws : List (BitVec 16)) (w : BitVec 16) :
    ocSum (ws ++ [w]) = ocAdd (ocSum ws) w := by
  rw [ocSum, List.foldl_append]
  rfl

/-- The sum is that of the numbers modulo 65535, and zero for zeros alone. -/
theorem ocSum_spec (ws : List (BitVec 16)) :
    (ocSum ws).toNat % 65535 = total ws % 65535 ∧ ((ocSum ws).toNat = 0 ↔ total ws = 0) := by
  induction ws using List.reverseRecOn with
  | nil => exact ⟨rfl, iff_of_true rfl rfl⟩
  | append_singleton ws w ih =>
    obtain ⟨hmod, hzero⟩ := ih
    have hlt := (ocSum ws).isLt
    have htotal : total (ws ++ [w]) = total ws + w.toNat := by simp [total]
    rw [ocSum_concat, toNat_ocAdd, htotal]
    constructor
    · split_ifs <;> omega
    · split_ifs <;> omega

theorem ocSum_eq_ffff_iff (ws : List (BitVec 16)) :
    ocSum ws = 0xffff#16 ↔ total ws ≠ 0 ∧ total ws % 65535 = 0 := by
  obtain ⟨hmod, hzero⟩ := ocSum_spec ws
  have hlt := (ocSum ws).isLt
  rw [← BitVec.toNat_inj, show (0xffff#16).toNat = 65535 from rfl]
  omega

/-- The complement of the sum `t` after one round of carries. -/
def complementOnce (t : ℕ) : ℕ := 65535 - (t % 65536 + t / 65536) % 65536

/-- **One round of carries.**  A header with the words `ws`, `vs` and a complement taken after one
round adds up to `0xffff` exactly when that round leaves no carry. -/
theorem ocSum_complement_iff (ws vs : List (BitVec 16)) {c : BitVec 16} {t : ℕ}
    (ht : total (ws ++ vs) = t) (hlt : t < 2 ^ 32) (hc : c.toNat = complementOnce t) :
    ocSum (ws ++ c :: vs) = 0xffff#16 ↔ t % 65536 + t / 65536 < 65536 := by
  have hsplit : 65536 * (t / 65536) + t % 65536 = t := Nat.div_add_mod t 65536
  have hlo : t % 65536 < 65536 := Nat.mod_lt t (by decide)
  have hhi : t / 65536 < 65536 := by omega
  rw [complementOnce] at hc
  rw [total_append] at ht
  rw [ocSum_eq_ffff_iff, total_append, total_cons]
  generalize t / 65536 = hi, t % 65536 = lo at hsplit hlo hhi hc ⊢
  by_cases hcarry : lo + hi < 65536
  · -- the sum of the numbers is `65535 * (hi + 1)`
    rw [Nat.mod_eq_of_lt hcarry] at hc
    have hsum : total ws + (c.toNat + total vs) = 65535 * (hi + 1) := by omega
    rw [hsum]
    omega
  · -- and one more here
    have hmod : (lo + hi) % 65536 = lo + hi - 65536 := by omega
    rw [hmod] at hc
    have hsum : total ws + (c.toNat + total vs) = 65535 * (hi + 2) + 1 := by omega
    rw [hsum]
    omega

/-! ### The header of an IPv4 packet -/

/-- The words of sixteen bits of a sequence of octets, the high octet first. -/
def words16 : List (BitVec 8) → List (BitVec 16)
  | a :: b :: bs => (a ++ b) :: words16 bs
  | _ => []

/-- The header without options of the packet in an Ethernet frame. -/
def ipv4Header (frame : List (BitVec 8)) : List (BitVec 8) := (frame.drop 14).take 20

/-- The checksum of the header is right. -/
def ChecksumOk (frame : List (BitVec 8)) : Prop := ocSum (words16 (ipv4Header frame)) = 0xffff#16

instance : DecidablePred ChecksumOk := fun frame =>
  inferInstanceAs (Decidable (ocSum (words16 (ipv4Header frame)) = 0xffff#16))

end OnesComplement
