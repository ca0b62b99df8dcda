import IpNuma.Ecp3.FrameIsolation
import IpNuma.Ecp3.MasterFifo

/-!
# The commands in a frame

Behind the magic code come the commands: a command byte, the byte enables, four or five bytes of
address and four bytes for each word of data, and a zero byte behind the last.  The server makes two
bytes into a word of the master FIFO; `writes` are the words it has completed at an edge.

`blen` has seven bits, so it counts the bytes of at most 32 words.
-/

namespace IpNuma

open Clocked PhyFrame

namespace Server

/-- The registers within a command; `w` says that a word is pushed. -/
structure Within (st : SrvState) (long : Bool) (din : BitVec 18) (n : BitVec 7) (d : BitVec 8)
    (w : Bool) (k : ℕ) (s : Server) : Prop where
  reading : s.phyRdEn = true
  status : s.srvStatus = st
  long : s.srv64bit = long
  blen : s.blen = n
  dout : s.phyDout2 = d
  din : s.mstDin = din
  wrEn : s.mstWrEn = w
  counter : s.counter = BitVec.ofNat 12 k

variable {s : Server} {st : SrvState} {long : Bool} {din : BitVec 18} {n : BitVec 7}
  {d b : BitVec 8} {w : Bool} {k : ℕ}

theorem push_eq_within (h : Within st long din n d w k s) (i : PhyOut) :
    push s i = if w then [din] else [] := by
  rw [push, h.wrEn, h.din]

theorem counter_succ (k : ℕ) : BitVec.ofNat 12 k + 1 = BitVec.ofNat 12 (k + 1) :=
  (BitVec.ofNat_add k 1).symm

/-- A byte is taken. -/
theorem step_within (h : Within st long din n d w k s) (b : BitVec 8) :
    step s (deliver (byteWord b)) = next (byte (cleared s) b) (BitVec.ofNat 12 (k + 1)) b := by
  rw [step_byte h.reading, h.counter, counter_succ]

/-- `SRV_HEAD0`: the command byte. -/
theorem within_head0 (hr : s.phyRdEn = true) (hst : s.srvStatus = .head0)
    (hc : s.counter = BitVec.ofNat 12 k) (b : BitVec 8) (hne : b ≠ 0) :
    Within .head1 (b.getLsbD 6) (upper (cleared s) (0b10#2 ++ b))
      ((b.extractLsb' 0 6 ++ 0#2).setWidth 7) b false (k + 1) (step s (deliver (byteWord b))) := by
  have hst' : (cleared s).srvStatus = .head0 := hst
  rw [step_byte hr, byte_head0 hst', hc, counter_succ]
  exact ⟨rfl, if_neg hne, rfl, rfl, rfl, rfl, rfl, rfl⟩

/-- `SRV_HEAD1`. -/
theorem within_head1 (h : Within .head1 long din n d w k s) (b : BitVec 8) :
    Within (if long then .addr64 else .addr32) long (din.extractLsb' 8 10 ++ b) n b true (k + 1)
      (step s (deliver (byteWord b))) := by
  have hst : (cleared s).srvStatus = .head1 := h.status
  rw [step_within h, byte_head1 hst]
  refine ⟨rfl, ?_, h.long, h.blen, rfl, congrArg (·.extractLsb' 8 10 ++ b) h.din, rfl, rfl⟩
  change (if s.srv64bit = true then SrvState.addr64 else .addr32) = _
  rw [h.long]

/-- `SRV_ADDR64`. -/
theorem within_addr64 (h : Within .addr64 long din n d w k s) (b : BitVec 8) :
    Within .addr48 long 0 n b true (k + 1) (step s (deliver (byteWord b))) := by
  have hst : (cleared s).srvStatus = .addr64 := h.status
  have hbyte : byte (cleared s) b =
      { cleared s with mstDin := 0, mstWrEn := true, srvStatus := .addr48 } := by
    unfold byte
    rw [hst]
  rw [step_within h, hbyte]
  exact ⟨rfl, rfl, h.long, h.blen, rfl, rfl, rfl, rfl⟩

/-- `SRV_ADDR48`: the byte before. -/
theorem within_addr48 (h : Within .addr48 long 0 n d w k s) (b : BitVec 8) :
    Within .addr32 long (0#10 ++ d) n b true (k + 1) (step s (deliver (byteWord b))) := by
  have hst : (cleared s).srvStatus = .addr48 := h.status
  have hbyte : byte (cleared s) b =
      { cleared s with
        mstDin := lower (cleared s) (cleared s).phyDout2, mstWrEn := true
        srvStatus := .addr32 } := by
    unfold byte
    rw [hst]
  have hdin : lower (cleared s) (cleared s).phyDout2 = 0#10 ++ d := by
    change s.mstDin.extractLsb' 8 10 ++ s.phyDout2 = _
    rw [h.din, h.dout]
    rfl
  rw [step_within h, hbyte, hdin]
  exact ⟨rfl, rfl, h.long, h.blen, rfl, rfl, rfl, rfl⟩

/-- `SRV_ADDR32` of a long address: the byte before and this one. -/
theorem within_addr32_long (h : Within .addr32 true din n d w k s) (b : BitVec 8) :
    Within .addr16 true (0b00#2 ++ d ++ b) n b true (k + 1) (step s (deliver (byteWord b))) := by
  have hst : (cleared s).srvStatus = .addr32 := h.status
  have hlong : (cleared s).srv64bit = true := h.long
  have hdout : (cleared s).phyDout2 = d := h.dout
  rw [step_within h, byte_addr32 hst, if_pos hlong, hdout]
  exact ⟨rfl, rfl, h.long, h.blen, rfl, rfl, rfl, rfl⟩

/-- `SRV_ADDR32` of a short address. -/
theorem within_addr32_short (h : Within .addr32 false din n d w k s) (b : BitVec 8) :
    Within .addr24 false (0b00#2 ++ b ++ din.extractLsb' 0 8) n b false (k + 1)
      (step s (deliver (byteWord b))) := by
  have hst : (cleared s).srvStatus = .addr32 := h.status
  have hlong : (cleared s).srv64bit = false := h.long
  rw [step_within h, byte_addr32 hst, if_neg (by simp [hlong])]
  exact ⟨rfl, rfl, h.long, h.blen, rfl, congrArg (0b00#2 ++ b ++ ·.extractLsb' 0 8) h.din, rfl, rfl⟩

/-- `SRV_ADDR24`, which only a short address comes to. -/
theorem within_addr24 (h : Within .addr24 false din n d w k s) (b : BitVec 8) :
    Within .addr16 false (din.extractLsb' 8 10 ++ b) n b true (k + 1)
      (step s (deliver (byteWord b))) := by
  have hst : (cleared s).srvStatus = .addr24 := h.status
  have hlong : (cleared s).srv64bit = false := h.long
  have hbyte : byte (cleared s) b =
      { cleared s with
        mstDin := lower (cleared s) (if (cleared s).srv64bit then (cleared s).phyDout2 else b)
        mstWrEn := true, srvStatus := .addr16 } := by
    unfold byte
    rw [hst]
  rw [step_within h, hbyte, if_neg (by simp [hlong])]
  exact ⟨rfl, rfl, h.long, h.blen, rfl, congrArg (·.extractLsb' 8 10 ++ b) h.din, rfl, rfl⟩

/-- `SRV_ADDR16`. -/
theorem within_addr16 (h : Within .addr16 long din n d w k s) (b : BitVec 8) :
    Within .addr8 long (setSlice din 8 b) n b false (k + 1) (step s (deliver (byteWord b))) := by
  have hst : (cleared s).srvStatus = .addr16 := h.status
  rw [step_within h, byte_addr16 hst]
  exact ⟨rfl, rfl, h.long, h.blen, rfl, congrArg (setSlice · 8 b) h.din, rfl, rfl⟩

/-- `SRV_ADDR8`. -/
theorem within_addr8 (h : Within .addr8 long din n d w k s) (b : BitVec 8) :
    Within .data long (din.extractLsb' 8 10 ++ b) n b true (k + 1)
      (step s (deliver (byteWord b))) := by
  have hst : (cleared s).srvStatus = .addr8 := h.status
  have hbyte : byte (cleared s) b =
      { cleared s with mstDin := lower (cleared s) b, mstWrEn := true, srvStatus := .data } := by
    unfold byte
    rw [hst]
  rw [step_within h, hbyte]
  exact ⟨rfl, rfl, h.long, h.blen, rfl, congrArg (·.extractLsb' 8 10 ++ b) h.din, rfl, rfl⟩

/-- `SRV_DATA`, the upper byte of a word. -/
theorem within_upper (h : Within .data long din n d w k s) (hn : n.getLsbD 0 = false)
    (b : BitVec 8) : Within .data long (0b00#2 ++ (setSlice din 8 b).extractLsb' 0 16) (n - 1) b
      false (k + 1) (step s (deliver (byteWord b))) := by
  have hst : (cleared s).srvStatus = .data := h.status
  have hblen : (cleared s).blen = n := h.blen
  have hdin : (cleared s).mstDin = din := h.din
  have hlast : (n == 1#7) = false := by
    rw [beq_eq_false_iff_ne]
    rintro rfl
    exact absurd hn (by decide)
  rw [step_within h, byte_data hst]
  simp only [data, hblen, hlast, hn, hdin, Bool.false_eq_true, if_false]
  exact ⟨rfl, rfl, h.long, rfl, rfl, rfl, rfl, rfl⟩

/-- `SRV_DATA`, the lower byte of a word. -/
theorem within_lower (h : Within .data long din n d w k s) (hn : n.getLsbD 0 = true)
    (b : BitVec 8) : Within (if n = 1 then .head0 else .data) long
      ((if n = 1 then 0b01#2 else 0b00#2) ++ (din.extractLsb' 8 10 ++ b).extractLsb' 0 16) (n - 1) b
      true (k + 1) (step s (deliver (byteWord b))) := by
  have hst : (cleared s).srvStatus = .data := h.status
  have hblen : (cleared s).blen = n := h.blen
  have hdin : (cleared s).mstDin = din := h.din
  rw [step_within h, byte_data hst]
  simp only [data, hblen, hn, hdin, if_true, beq_iff_eq]
  exact ⟨rfl, rfl, h.long, rfl, rfl, rfl, rfl, rfl⟩

/-! ### Two bytes -/

/-- The tag of a word and its upper byte. -/
theorem high_setSlice (x : BitVec 18) (b : BitVec 8) :
    (setSlice x 8 b).extractLsb' 8 10 = x.extractLsb' 16 2 ++ b := by
  apply BitVec.eq_of_getLsbD_eq
  intro i hi
  rw [BitVec.getLsbD_extractLsb', getLsbD_setSlice _ _ (by decide), BitVec.getLsbD_append]
  by_cases h8 : i < 8
  · rw [if_pos (by omega), if_pos h8, Nat.add_sub_cancel_left, decide_eq_true hi, Bool.true_and]
  · rw [if_neg (by omega), if_neg h8, BitVec.getLsbD_extractLsb', decide_eq_true hi,
      decide_eq_true (by omega), show 16 + (i - 8) = 8 + i by omega]

/-- A data word made of two bytes. -/
theorem dataWord_eq (x : BitVec 18) (a b : BitVec 8) :
    ((0b00#2 ++ (setSlice x 8 a).extractLsb' 0 16).extractLsb' 8 10 ++ b).extractLsb' 0 16 =
      a ++ b := by
  apply BitVec.eq_of_getLsbD_eq
  intro i hi
  rw [BitVec.getLsbD_extractLsb', BitVec.getLsbD_append, BitVec.getLsbD_append, decide_eq_true hi,
    Bool.true_and, Nat.zero_add]
  by_cases h8 : i < 8
  · rw [if_pos h8, if_pos h8]
  · rw [if_neg h8, if_neg h8, BitVec.getLsbD_extractLsb', BitVec.getLsbD_append, if_pos (by omega),
      BitVec.getLsbD_extractLsb', getLsbD_setSlice _ _ (by decide), if_pos (by omega)]
    simp [show i - 8 < 10 by omega, show 8 + (i - 8) < 16 by omega]

/-- The lowest word of the address. -/
theorem within_low {t : BitVec 2} {x y : BitVec 8} (h : Within .addr16 long (t ++ x ++ y) n d w k s)
    (a b : BitVec 8) : Within .data long (t ++ a ++ b) n b true (k + 1 + 1)
      (step (step s (deliver (byteWord a))) (deliver (byteWord b))) := by
  have hlow := within_addr8 (within_addr16 h a) b
  have htag : (t ++ x ++ y : BitVec 18).extractLsb' 16 2 = t := by
    rw [extractLsb'_append_high _ _ _ _ (by decide), extractLsb'_append_high _ _ _ _ (by decide),
      BitVec.extractLsb'_eq_self]
  rwa [high_setSlice, htag] at hlow

/-- A word of the data. -/
theorem within_word (h : Within .data long din n d w k s) (hn : n.getLsbD 0 = false)
    (a b : BitVec 8) : Within (if n - 1 = 1 then .head0 else .data) long
      ((if n - 1 = 1 then 0b01#2 else 0b00#2) ++ (a ++ b)) (n - 1 - 1) b true (k + 1 + 1)
      (step (step s (deliver (byteWord a))) (deliver (byteWord b))) := by
  have hword := within_lower (within_upper h hn a) (getLsbD_sub_one n hn) b
  rwa [dataWord_eq] at hword

/-- Behind the header the server waits for a command. -/
theorem head0_of_matches {l : List (BitVec 8)} (hlen : l.length = 0x2e) (hm : Matches l 0) :
    log step push ready (byteCycles l) = [] ∧
      (run step ready (byteCycles l)).phyRdEn = true ∧
      (run step ready (byteCycles l)).srvStatus = .head0 ∧
      (run step ready (byteCycles l)).mstWrEn = false ∧
      (run step ready (byteCycles l)).counter = BitVec.ofNat 12 0x2e := by
  obtain ⟨hr, ⟨hlog, q, hq⟩ | ⟨-, q, -, hlt, -⟩⟩ := quiet_or_opens l
  · have hsize := hq.length
    rw [hlen] at hsize
    have hc := (run step ready (byteCycles l)).counter.isLt
    obtain rfl : q = 0 := by omega
    have hcounter : (run step ready (byteCycles l)).counter.toNat = 0x2e := by omega
    refine ⟨hlog, hr, ?_, hq.wrEn, BitVec.eq_of_toNat_eq hcounter⟩
    rcases hq.place with ⟨-, hno, -⟩ | ⟨hst, -⟩ | ⟨-, hc, -⟩
    · exact absurd hm (hno hcounter)
    · exact hst
    · omega
  · omega

theorem append_assoc (t : BitVec 2) (a b : BitVec 8) :
    (t ++ a ++ b : BitVec 18) = t ++ (a ++ b) :=
  BitVec.append_assoc.trans (BitVec.cast_eq _ _)

theorem byteCycles_append (l l' : List (BitVec 8)) :
    byteCycles (l ++ l') = byteCycles l ++ byteCycles l' := by
  unfold byteCycles
  rw [List.map_append, List.map_append]

end Server

end IpNuma
