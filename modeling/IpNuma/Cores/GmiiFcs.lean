import IpNuma.Cores.Fifo9ToGmii

/-!
# The frame check sequence on GMII

`crc_gen` holds the CRC register with its bits in the other order and takes in an octet at once.
Like eight steps of the serial CRC it is linear, so the two agree because they agree on single bits:
`nextCRC_eq_word`.  The bytes of `CRC_out` are those of the CRC of the octets taken in.
-/

namespace IpNuma

namespace CrcGen

/-- The circuit is linear. -/
theorem nextCRC_xor (q q' : BitVec 32) (d d' : BitVec 8) :
    nextCRC (d ^^^ d') (q ^^^ q') = nextCRC d q ^^^ nextCRC d' q' :=
  Crc32D64.xorTaps_xor taps q q' d d'

theorem nextCRC_twoPow_left : ∀ i < 32,
    (nextCRC (0#8).reverse.reverse (BitVec.twoPow 32 i).reverse).reverse =
      Crc32.word (BitVec.twoPow 32 i) 0#8 := by
  decide +kernel

theorem nextCRC_twoPow_right : ∀ i < 8,
    (nextCRC (BitVec.twoPow 8 i).reverse.reverse (0#32).reverse).reverse =
      Crc32.word 0#32 (BitVec.twoPow 8 i) := by
  decide +kernel

/-- The circuit does eight steps of the serial CRC.  The bits of the octet are not reversed. -/
theorem nextCRC_eq_word (r : BitVec 32) (d : BitVec 8) :
    (nextCRC d r.reverse).reverse = Crc32.word r d := by
  have hword := Crc32.reverse_eq_word (f := fun q d => nextCRC d.reverse q)
    (fun q q' d d' => by rw [Crc32.reverse_xor, nextCRC_xor])
    nextCRC_twoPow_left nextCRC_twoPow_right r d
  rw [BitVec.reverse_reverse_eq] at hword
  exact hword

/-- The register holds the CRC of the octets `l`. -/
def Holds (crcReg : BitVec 32) (l : List (BitVec 8)) : Prop :=
  crcReg.reverse = Crc32.register l

theorem holds_init : Holds (BitVec.allOnes 32) [] := by
  unfold Holds
  decide +kernel

theorem Holds.next {q : BitVec 32} {l : List (BitVec 8)} (h : Holds q l) (d : BitVec 8) :
    Holds (nextCRC d q) (l ++ [d]) := by
  have hq : q = (Crc32.register l).reverse := by rw [← h, BitVec.reverse_reverse_eq]
  rw [Holds, Crc32.register_append, hq, nextCRC_eq_word]
  rfl

end CrcGen

/-- The bytes of the frame check sequence: those of the CRC-32 of the octets, the lowest first. -/
def gmiiFcs (l : List (BitVec 8)) : List (BitVec 8) :=
  (List.range 4).map (octet (Crc32.crc32 l))

theorem length_gmiiFcs (l : List (BitVec 8)) : (gmiiFcs l).length = 4 := rfl

/-- `CRC_out` has the lowest octet in front. -/
theorem CrcGen.Holds.crcOut {q : BitVec 32} {l : List (BitVec 8)} (h : CrcGen.Holds q l) {k : ℕ}
    (hk : k < 4) : (gmiiFcs l).take (k + 1) =
      (gmiiFcs l).take k ++ [octet (CrcGen.crcOut q) (3 - k)] := by
  have hoctet : octet (CrcGen.crcOut q) (3 - k) = octet (Crc32.crc32 l) k := by
    rw [Crc32.crc32, ← h]
    exact octet_reversed q hk
  rw [hoctet]
  interval_cases k <;> rfl

end IpNuma
