import IpNuma.Ecp3.Requester
import IpNuma.Kc705.TxFrame
import IpNuma.Net.Checksum
import Mathlib.Data.List.GetD

/-!
# The IPv4 headers of the two transmitters

`XGMII_TX_ENGINE` and the requester of the ECP3 board make the checksum in the same way: one cycle
adds the words of the header in a register of 24 bits, the next one adds the carries to the lower
sixteen bits and complements.  The carry of that second addition is lost, so the checksum is right
exactly for the addresses for which there is none: `checksum_iff`.
-/

namespace IpNuma

open Clocked OnesComplement

/-! ### The words of a header -/

/-- The header with the checksum `c`, in words. -/
def ipv4Words (len ident c : BitVec 16) (src dst : BitVec 32) : List (BitVec 16) :=
  [0x4500#16, len, ident, 0x0000#16, 0x4011#16, c, src.extractLsb' 16 16, src.extractLsb' 0 16,
    dst.extractLsb' 16 16, dst.extractLsb' 0 16]

/-- The sum of the other words. -/
def headerTotal (len ident : BitVec 16) (src dst : BitVec 32) : ℕ :=
  0x4500 + len.toNat + ident.toNat + 0x4011 + (src.extractLsb' 16 16).toNat +
    (src.extractLsb' 0 16).toNat + (dst.extractLsb' 16 16).toNat + (dst.extractLsb' 0 16).toNat

/-- The carries of a sum, added to its lower sixteen bits, leave no carry. -/
def FoldsOnce (t : ℕ) : Prop := t % 65536 + t / 65536 < 65536

instance : DecidablePred FoldsOnce := fun t =>
  inferInstanceAs (Decidable (t % 65536 + t / 65536 < 65536))

theorem headerTotal_lt (len ident : BitVec 16) (src dst : BitVec 32) :
    headerTotal len ident src dst < 2 ^ 24 := by
  have hlen := len.isLt
  have hid := ident.isLt
  have h1 := (src.extractLsb' 16 16).isLt
  have h2 := (src.extractLsb' 0 16).isLt
  have h3 := (dst.extractLsb' 16 16).isLt
  have h4 := (dst.extractLsb' 0 16).isLt
  unfold headerTotal
  omega

/-- The sum in the register of 24 bits, with the words of the header as its terms. -/
theorem toNat_headerTotal (len ident proto : BitVec 16) (src dst : BitVec 32)
    (hproto : proto = 0x4011#16) :
    (0x4500#24 + len.setWidth 24 + ident.setWidth 24 + proto.setWidth 24 +
      (src.extractLsb' 16 16).setWidth 24 + (src.extractLsb' 0 16).setWidth 24 +
      (dst.extractLsb' 16 16).setWidth 24 + (dst.extractLsb' 0 16).setWidth 24).toNat =
        headerTotal len ident src dst := by
  have hlt := headerTotal_lt len ident src dst
  have hword : ∀ w : BitVec 16, (w.setWidth 24).toNat = w.toNat := fun w =>
    (BitVec.toNat_setWidth 24 w).trans (Nat.mod_eq_of_lt (w.isLt.trans (by decide)))
  unfold headerTotal at hlt ⊢
  simp only [BitVec.toNat_add, hword, hproto, BitVec.toNat_ofNat]
  omega

/-- The checksum of one folding is right when there is no carry. -/
theorem ocSum_ipv4Words {len ident c : BitVec 16} {src dst : BitVec 32}
    (hc : c.toNat = complementOnce (headerTotal len ident src dst)) :
    ocSum (ipv4Words len ident c src dst) = 0xffff#16 ↔
      FoldsOnce (headerTotal len ident src dst) := by
  have ht : total ([0x4500#16, len, ident, 0x0000#16, 0x4011#16] ++ [src.extractLsb' 16 16,
      src.extractLsb' 0 16, dst.extractLsb' 16 16, dst.extractLsb' 0 16]) =
      headerTotal len ident src dst := by
    simp only [total, List.cons_append, List.nil_append, List.map_cons, List.map_nil, List.sum_cons,
      List.sum_nil, headerTotal, BitVec.toNat_ofNat]
    omega
  have hlt := headerTotal_lt len ident src dst
  exact ocSum_complement_iff _ _ ht (by omega) hc

/-- Both transmitters fold once. -/
theorem toNat_foldSum {s : BitVec 24} {t : ℕ} (hs : s.toNat = t) :
    ((TxSide.foldSum s).extractLsb' 0 16).toNat = complementOnce t := by
  have hlt := s.isLt
  rw [hs] at hlt
  have hfold : ((s.extractLsb' 0 16).setWidth 24 + (s.extractLsb' 16 8).setWidth 24).toNat =
      t % 65536 + t / 65536 := by
    simp only [BitVec.toNat_add, BitVec.toNat_setWidth, BitVec.extractLsb'_toNat, hs,
      Nat.shiftRight_eq_div_pow, pow_zero, Nat.div_one]
    have hhi : t / 2 ^ 16 < 2 ^ 8 := by omega
    have hlo : t % 2 ^ 16 < 2 ^ 16 := Nat.mod_lt t (by decide)
    rw [Nat.mod_eq_of_lt hhi, Nat.mod_eq_of_lt (hlo.trans (by decide)),
      Nat.mod_eq_of_lt (hhi.trans (by decide)), Nat.mod_eq_of_lt (by omega)]
    rfl
  rw [TxSide.foldSum, BitVec.extractLsb'_toNat, BitVec.toNat_not, hfold, complementOnce,
    Nat.shiftRight_zero]
  omega

theorem foldSum_eq : ReqPhy.foldSum = TxSide.foldSum := rfl

/-! ### `XGMII_TX_ENGINE` -/

section Engine

/-- The v4 addresses in the registers. -/
def Addrs.HasV4 (src dst : BitVec 32) (a : Addrs) : Prop := a.ifV4addr = src ∧ a.destV4addr = dst

instance (src dst : BitVec 32) : DecidablePred (Addrs.HasV4 src dst) := fun a =>
  inferInstanceAs (Decidable (a.ifV4addr = src ∧ a.destV4addr = dst))

variable {src dst : BitVec 32}

theorem toNat_headerSum {a : Addrs} (h : a.HasV4 src dst) :
    (TxSide.headerSum a).toNat = headerTotal 0x0032#16 0x0000#16 src dst := by
  obtain ⟨rfl, rfl⟩ := h
  exact toNat_headerTotal (0#4 ++ TxSide.ipLen.extractLsb' 0 12)
    (TxSide.ipv4Id.extractLsb' 0 16) _ _ _ (by decide)

/-- The header in a frame. -/
theorem words16_frame {f : SentFrame} (h : ∀ a ∈ f.addrs, a.HasV4 src dst) :
    words16 (ipv4Header (frameOctets f.words)) = ipv4Words 0x0032#16 0x0000#16
      ((TxSide.foldSum (TxSide.headerSum (f.addrs.headD default))).extractLsb' 0 16) src dst := by
  obtain ⟨a₀, a₁, a₂, a₃, a₄, a₅, a₆, has⟩ := f.exists_addrs
  rw [has] at h
  obtain ⟨h₄, h₄'⟩ : a₄.HasV4 src dst := h _ (by simp)
  obtain ⟨-, h₅⟩ : a₅.HasV4 src dst := h _ (by simp)
  simp only [SentFrame.words, has, headWords, List.mapIdx_cons, List.mapIdx_nil, Phase.headerWord,
    frameOctets, List.cons_append, List.tail_cons, List.flatMap_cons, TxSide.header08,
    TxSide.header10, TxSide.header18, TxSide.header20, TxSide.header28, octets_lanes,
    List.nil_append, ipv4Header, List.drop_succ_cons, List.drop_zero, List.take_succ_cons,
    List.take_zero, words16, octet_append_octet, h₄, h₄', h₅]
  rfl

/-- The headers on the wire. -/
theorem frame_checksum {f : SentFrame} (h : ∀ a ∈ f.addrs, a.HasV4 src dst) :
    ChecksumOk (frameOctets f.words) ↔ FoldsOnce (headerTotal 0x0032#16 0x0000#16 src dst) := by
  have hmem : f.addrs.headD default ∈ f.addrs := by
    obtain ⟨a, as, hcons⟩ := List.exists_cons_of_ne_nil
      (List.ne_nil_of_length_eq_add_one f.length_addrs)
    rw [hcons]
    exact List.mem_cons_self
  rw [ChecksumOk, words16_frame h]
  exact ocSum_ipv4Words (toNat_foldSum (toNat_headerSum (h _ hmem)))

end Engine

/-! ### The requester -/

section Requester

/-- The v4 addresses in the registers. -/
def IfConfig.HasV4 (src dst : BitVec 32) (c : IfConfig) : Prop :=
  c.ifV4addr = src ∧ c.destV4addr = dst

instance (src dst : BitVec 32) : DecidablePred (IfConfig.HasV4 src dst) := fun c =>
  inferInstanceAs (Decidable (c.ifV4addr = src ∧ c.destV4addr = dst))

variable {src dst : BitVec 32}

theorem toNat_reqHeaderSum {c : IfConfig} (h : c.HasV4 src dst) :
    (ReqPhy.headerSum c).toNat = headerTotal 0x002e#16 0x0001#16 src dst := by
  obtain ⟨rfl, rfl⟩ := h
  exact toNat_headerTotal (0#4 ++ ReqPhy.txIpLen.extractLsb' 0 12) ReqPhy.ipv4Id _ _ _ (by decide)

/-- The bytes `0x0e` to `0x21` need the v4 addresses only. -/
theorem txBytes_header {c : IfConfig} (h : c.HasV4 src dst) (s : BitVec 24) (d : BitVec 32) :
    words16 (ipv4Header (ReqPhy.txBytes c s d)) =
      ipv4Words 0x002e#16 0x0001#16 (s.extractLsb' 0 16) src dst := by
  obtain ⟨rfl, rfl⟩ := h
  simp only [ReqPhy.txBytes, ipv4Header, List.drop_succ_cons, List.drop_zero, List.take_succ_cons,
    List.take_zero, words16, octet_append_octet]
  rfl

theorem txBytes_header_congr {c c' : IfConfig} (h : c.HasV4 src dst) (h' : c'.HasV4 src dst)
    (s : BitVec 24) (d d' : BitVec 32) :
    ipv4Header (ReqPhy.txBytes c s d) = ipv4Header (ReqPhy.txBytes c' s d') := by
  simp only [ReqPhy.txBytes, ipv4Header, List.drop_succ_cons, List.drop_zero, List.take_succ_cons,
    List.take_zero, h.1, h.2, h'.1, h'.2]

theorem getElem_ipv4Header {bs : List (BitVec 8)} {k : ℕ} (hk : k < (ipv4Header bs).length) :
    (ipv4Header bs)[k] = bs.getD (14 + k) 0x00#8 := by
  have hlen : 14 + k < bs.length := by
    rw [ipv4Header, List.length_take, List.length_drop] at hk
    omega
  rw [List.getD_eq_getElem _ _ hlen]
  simp only [ipv4Header, List.getElem_take, List.getElem_drop]

/-- The header of a frame is made as if the configuration were that of its first cycle. -/
theorem ipv4Header_sent {cs : List ReqSample} (hlen : cs.length = 60)
    (h : ∀ x ∈ cs, x.1.HasV4 src dst) {c : IfConfig} (hc : c.HasV4 src dst) (s : BitVec 24)
    (d : BitVec 32) : ipv4Header (cs.mapIdx fun n x => ReqPhy.txByte x.1 s x.2 n) =
      ipv4Header (ReqPhy.txBytes c s d) := by
  refine List.ext_getElem (by simp [ipv4Header, hlen, length_txBytes]) fun k hk hk' => ?_
  have hk20 : k < 20 := by
    rw [ipv4Header, List.length_take] at hk'
    omega
  have hcs : 14 + k < cs.length := by omega
  rw [getElem_ipv4Header, List.getD_eq_getElem _ _ (by rw [List.length_mapIdx]; omega),
    List.getElem_mapIdx, ReqPhy.txByte]
  have hmem : cs[14 + k].1.HasV4 src dst := h _ (List.getElem_mem hcs)
  have hlen' : k < (ipv4Header (ReqPhy.txBytes cs[14 + k].1 s cs[14 + k].2)).length := by
    rw [ipv4Header, List.length_take, List.length_drop, length_txBytes]
    omega
  rw [← getElem_ipv4Header hlen']
  simp only [txBytes_header_congr hmem hc s _ d]

/-- The headers in the FIFO. -/
theorem req_checksum {f : ReqFrame} (h : ∀ x ∈ f.samples, x.1.HasV4 src dst) :
    ChecksumOk (phyOctets f.words) ↔ FoldsOnce (headerTotal 0x002e#16 0x0001#16 src dst) := by
  have hmem : f.samples.headD default ∈ f.samples := by
    obtain ⟨x, xs, hcons⟩ := List.exists_cons_of_ne_nil
      (List.ne_nil_of_length_eq_add_one f.length_samples)
    rw [hcons]
    exact List.mem_cons_self
  have hc := h _ hmem
  rw [ChecksumOk, phyOctets_words, ipv4Header_sent f.length_samples h hc _ 0, txBytes_header hc,
    checksumOf, foldSum_eq]
  exact ocSum_ipv4Words (toNat_foldSum (toNat_reqHeaderSum hc))

end Requester

/-- **The checksum.**  With the v4 addresses `src` and `dst` in the registers, the checksum in
every frame of a transmitter is right exactly when folding the sum of its header once leaves no
carry. -/
theorem checksum_iff (src dst : BitVec 32) :
    (∀ (s : XgmiiTx) (is : List TxIn), (∀ i ∈ is, i.addrs.HasV4 src dst) →
      ∀ f ∈ frames (s.reset.wire is), (ChecksumOk (frameOctets f) ↔
        FoldsOnce (headerTotal 0x0032#16 0x0000#16 src dst))) ∧
    (∀ (s : Requester) (is : List RequesterIn), (∀ i ∈ is, i.cfg.HasV4 src dst) →
      ∀ f ∈ phyFrames (log Requester.step Requester.push s.reset is),
        (ChecksumOk (phyOctets f) ↔ FoldsOnce (headerTotal 0x002e#16 0x0001#16 src dst))) := by
  constructor
  · intro s is hv f hf
    obtain ⟨g, hg, rfl⟩ := frames_wire s hv f hf
    exact frame_checksum hg
  · intro s is hv f hf
    obtain ⟨g, hg, rfl⟩ := frames_push s hv f hf
    exact req_checksum hg

/-- 192.168.100.1 sends to 192.168.149.106. -/
def carryAddrs : Addrs := ⟨0xc0a86401#32, 0, 0xc0a8956a#32, 0⟩

/-- A TLP of two words goes through the engine. -/
def carryTx : List TxIn :=
  List.replicate 2 ⟨carryAddrs, 0x10000000000000000#72, false⟩ ++
    List.replicate 12 ⟨carryAddrs, 0x30000000000000000#72, false⟩ ++
      List.replicate 3 ⟨carryAddrs, 0, true⟩

/-- A write to the trigger address, seen by the requester with the same addresses. -/
def carryReq : List RequesterIn :=
  [0x4000#16, 0x0001#16, 0x0000#16, 0x000f#16, 0x0003#16, 0x7760#16, 0x1234#16, 0x5678#16].mapIdx
      (fun n x => ⟨⟨n == 0, n == 7, x, 0b0000100#7⟩, 0xc0a86401#32, 0, 0xc0a8956a#32, 0, 0⟩) ++
    List.replicate 70 ⟨default, 0xc0a86401#32, 0, 0xc0a8956a#32, 0, 0⟩

/-- The engine's sum is `0x2fffe`, which needs a second folding; the requester's is `0x2fffb`. -/
theorem carry_checksums :
    (∀ f ∈ frames ((default : XgmiiTx).reset.wire carryTx), ¬ ChecksumOk (frameOctets f)) ∧
    (frames ((default : XgmiiTx).reset.wire carryTx)).length = 1 ∧
    (∀ f ∈ phyFrames (log Requester.step Requester.push (default : Requester).reset carryReq),
      ChecksumOk (phyOctets f)) ∧
    (phyFrames (log Requester.step Requester.push (default : Requester).reset carryReq)).length =
      1 := by
  obtain ⟨htx, hreq⟩ := checksum_iff 0xc0a86401#32 0xc0a8956a#32
  refine ⟨fun f hf => ?_, by decide +kernel, fun f hf => ?_, by decide +kernel⟩
  · rw [htx default carryTx (by decide) f hf]
    decide
  · rw [hreq default carryReq (by decide) f hf]
    decide

/-- The words of the header add up to one. -/
theorem carryTx_wrong : (∀ i ∈ carryTx, i.addrs.HasV4 0xc0a86401#32 0xc0a8956a#32) ∧
    ∃ f ∈ frames ((default : XgmiiTx).reset.wire carryTx),
      ocSum (words16 (ipv4Header (frameOctets f))) = 0x0001#16 := by
  decide +kernel

end IpNuma
