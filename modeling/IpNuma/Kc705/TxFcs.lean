import IpNuma.Kc705.TxFrame

/-!
# The frame check sequence

`crc32_d64` holds the CRC register with its bits in the other order and takes in the 64 bits of a
word at once.  Both the circuit and 64 steps of the serial CRC are linear, so they agree because
they agree on single bits: `lfsrC_eq_word`.  The words of a frame behind the SFD then leave the CRC
of their octets in the register, and `fcs_wire` says that this is what the terminate word carries,
in every frame of every run.
-/

namespace IpNuma

open Clocked

/-! ### The octets of a frame -/

/-- The bits of a word are those of its octets, lane 0 first. -/
theorem flatMap_bits_octets (w : XgmiiWord) : w.octets.flatMap Crc32.bits = Crc32.bits w.d := by
  have hoctet : ∀ k,
      Crc32.bits (octet w.d k) = (List.range 8).map fun i => w.d.getLsbD (8 * k + i) := by
    intro k
    refine List.map_congr_left fun i hi => ?_
    rw [octet, BitVec.getLsbD_extractLsb', decide_eq_true (List.mem_range.1 hi), Bool.true_and]
  have hrange : List.range 64 = (List.range 8).flatMap fun k => (List.range 8).map (8 * k + ·) := by
    decide
  rw [XgmiiWord.octets, List.flatMap_map, Crc32.bits, hrange, List.map_flatMap]
  refine List.flatMap_congr fun k _ => ?_
  rw [hoctet, List.map_map]
  rfl

theorem foldl_octets (w : XgmiiWord) (r : BitVec 32) :
    w.octets.foldl Crc32.word r = Crc32.word r w.d := by
  rw [Crc32.foldl_word, flatMap_bits_octets]
  rfl

/-- The register after the words holds the CRC of their octets, its bits in the other order. -/
theorem reverse_crcOfWords (ws : List XgmiiWord) :
    (crcOfWords ws).reverse = Crc32.register (ws.flatMap XgmiiWord.octets) := by
  induction ws using List.reverseRecOn with
  | nil => decide +kernel
  | append_singleton ws w ih =>
    have hq : crcOfWords ws = (Crc32.register (ws.flatMap XgmiiWord.octets)).reverse := by
      rw [← ih, BitVec.reverse_reverse_eq]
    rw [crcOfWords_concat, List.flatMap_append, List.flatMap_singleton, Crc32.register_append,
      foldl_octets, hq, Crc32D64.lfsrC_eq_word]

/-- `crc64_outrev` has the lowest octet of the CRC in front. -/
theorem octet_fcsOf (q : BitVec 32) {k : ℕ} (hk : k < 4) :
    octet (XgmiiTx.fcsOf q) (3 - k) = octet (~~~q.reverse) k := octet_reversed q hk

/-- The octets in lanes 0 to 3 of the last word. -/
def fcsOctets (f : List XgmiiWord) : List (BitVec 8) := (f.getLastD idleWord).octets.take 4

namespace SentFrame

variable (g : SentFrame)

theorem getLastD_words :
    g.words.getLastD idleWord = TxSide.termWord (XgmiiTx.fcsOf (crcOfWords g.body)) :=
  List.getLastD_concat

theorem fcs : fcsOctets g.words =
    (List.range 4).map (octet (Crc32.crc32 (frameOctets g.words.dropLast))) := by
  have hne : headWords g.addrs ≠ [] := by
    rw [← List.length_pos_iff, length_headWords, g.length_addrs]
    decide
  have hbody : frameOctets g.words.dropLast = g.body.flatMap XgmiiWord.octets := by
    rw [frameOctets, words, List.dropLast_concat, List.tail_append_of_ne_nil hne, body]
  have hcrc : Crc32.crc32 (g.body.flatMap XgmiiWord.octets) = ~~~(crcOfWords g.body).reverse := by
    rw [Crc32.crc32, reverse_crcOfWords]
  rw [fcsOctets, g.getLastD_words, TxSide.termWord, octets_lanes, hbody, hcrc]
  simp only [List.range_succ, List.range_zero, List.nil_append, List.map_cons, List.map_nil,
    List.cons_append, List.take_succ_cons, List.take_zero]
  rw [← octet_fcsOf _ (by decide : 0 < 4), ← octet_fcsOf _ (by decide : 1 < 4),
    ← octet_fcsOf _ (by decide : 2 < 4), ← octet_fcsOf _ (by decide : 3 < 4)]

end SentFrame

/-- **The frame check sequence.**  In every complete frame of every run from reset, whatever the
addresses and the FIFO, lanes 0 to 3 of the terminate word are the CRC-32 of the octets between the
SFD and these lanes, the lowest octet first. -/
theorem fcs_wire (s : XgmiiTx) (is : List TxIn) : ∀ f ∈ frames (s.reset.wire is),
    IsTermWord (f.getLastD idleWord) ∧
      fcsOctets f = (List.range 4).map (octet (Crc32.crc32 (frameOctets f.dropLast))) := by
  intro f hf
  obtain ⟨g, -, rfl⟩ := frames_wire (P := fun _ => True) s (fun _ _ => trivial) f hf
  exact ⟨by rw [g.getLastD_words]; exact termWord_isTerm _, g.fcs⟩

/-- A TLP of two words goes through the engine. -/
def twoWordsTx : List TxIn :=
  let i : TxIn := ⟨⟨0xc0a86401#32, 0x020000000001#48, 0xc0a86402#32, 0x020000000002#48⟩, 0, true⟩
  List.replicate 2 { i with dout := 0x10fff00004000000f#72, empty := false } ++
    List.replicate 12 { i with dout := 0x36745230100000000#72, empty := false } ++
      List.replicate 3 i

theorem fcs_wire_twoWords : ∃ f ∈ frames ((default : XgmiiTx).reset.wire twoWordsTx),
    IsTermWord (f.getLastD idleWord) ∧ fcsOctets f = [0x80#8, 0xe8#8, 0x93#8, 0xe4#8] ∧
      fcsOctets f = (List.range 4).map (octet (Crc32.crc32 (frameOctets f.dropLast))) := by
  have hf : ∃ f ∈ frames ((default : XgmiiTx).reset.wire twoWordsTx),
      fcsOctets f = [0x80#8, 0xe8#8, 0x93#8, 0xe4#8] := by decide +kernel
  obtain ⟨f, hf, hoctets⟩ := hf
  obtain ⟨hterm, hfcs⟩ := fcs_wire default twoWordsTx f hf
  exact ⟨f, hf, hterm, hoctets, hfcs⟩

end IpNuma
