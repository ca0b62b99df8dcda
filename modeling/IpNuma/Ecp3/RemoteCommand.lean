import IpNuma.Ecp3.Commands

/-!
# The command in a frame of the requester

The server at the receiving node takes the header up to the magic code, then the command with its
long address, then two bytes of data for each word, and is in `SRV_IDLE` again after the zero byte
behind the data.  The address has five bytes: the first one goes into the upper word of the address
alone, and the byte above it stays zero.
-/

namespace IpNuma

open Clocked PhyFrame

namespace Server

variable {s : Server} {din : BitVec 18} {b : BitVec 8} {k : ℕ}

/-- Behind the magic code a header byte does nothing. -/
theorem header_of_le (h : 0x2e ≤ s.counter.toNat) (b : BitVec 8) : header s b = s := by
  unfold header
  split <;> first | rfl | omega

/-- The bytes behind the command. -/
theorem log_tail (hr : s.phyRdEn = true) (hst : s.srvStatus = .idle) (hw : s.mstWrEn = false)
    (l : List (BitVec 8)) (hk : 0x2e ≤ s.counter.toNat) (hl : s.counter.toNat + l.length < 4096) :
    log step push s ((l.map byteWord ++ [gapWord 0]).map deliver) = [] := by
  induction l generalizing s with
  | nil =>
    have hpush : push s (deliver (gapWord 0)) = [] := push_eq_nil_iff.2 hw
    simp only [List.map_nil, List.nil_append, List.map_cons, log_cons, log_nil, hpush]
  | cons b l ih =>
    rw [List.length_cons] at hl
    have hsucc := toNat_succ (c := s.counter) (by omega)
    have hstep : step s (deliver (byteWord b)) = next (cleared s) (s.counter + 1) b := by
      rw [step_byte hr, byte_idle (s := cleared s) hst, header_of_le (s := cleared s) hk]
    have hcounter : (step s (deliver (byteWord b))).counter.toNat = s.counter.toNat + 1 := by
      rw [hstep]
      exact hsucc
    simp only [List.map_cons, List.cons_append, log_cons]
    rw [push_eq_nil_iff.2 hw, ih (s := step s (deliver (byteWord b))) (by rw [hstep]; rfl)
      (by rw [hstep]; exact hst) (by rw [hstep]; rfl) (by omega) (by omega)]
    rfl

/-- The bytes of a command to write `d` to the lower forty bits of an address. -/
def commandOctets (addr : BitVec 48) (d : BitVec 32) : List (BitVec 8) :=
  [0xc1#8, 0xff#8, octet addr 4, octet addr 3, octet addr 2, octet addr 1, octet addr 0, octet d 3,
    octet d 2, octet d 1, octet d 0, 0x00#8]

end Server

/-- The command to write a word to an address. -/
def writeCommand (addr : BitVec 48) (d : BitVec 32) : Command where
  flag := true
  is64 := true
  len := 1
  lastbe := 0b1111#4
  firstbe := 0b1111#4
  addr := addr
  data := [d.extractLsb' 16 16, d.extractLsb' 0 16]
  len_ne := Command.one_ne
  length_data := rfl

namespace Server

/-- The words of the command, byte by byte. -/
theorem words_writeCommand (addr : BitVec 48) (d : BitVec 32) :
    (writeCommand (0#8 ++ addr.extractLsb' 0 40) d).words =
      [0b10#2 ++ 0xc1#8 ++ 0xff#8, 0, 0#10 ++ octet addr 4, 0b00#2 ++ octet addr 3 ++ octet addr 2,
        0b00#2 ++ octet addr 1 ++ octet addr 0, 0b00#2 ++ (octet d 3 ++ octet d 2),
        0b01#2 ++ (octet d 1 ++ octet d 0)] := by
  let c := writeCommand (0#8 ++ addr.extractLsb' 0 40) d
  have hlow : ∀ k < 5, octet c.addr k = octet addr k := by
    intro k hk
    change octet (0#8 ++ addr.extractLsb' 0 40 : BitVec 48) k = _
    rw [octet_append_low (q := 5) _ _ (by omega), octet_extractLsb' _ (a := 0) (by omega),
      Nat.zero_add]
  have htop : octet c.addr 5 = 0#8 := octet_append_high 0#8 5 (addr.extractLsb' 0 40) 0
  have hhigh : c.high = 0#8 ++ octet addr 4 := by
    rw [← hlow 4 (by decide), ← htop, octet_append_octet]
    rfl
  have hmid : c.mid = octet addr 3 ++ octet addr 2 := by
    rw [← hlow 3 (by decide), ← hlow 2 (by decide), octet_append_octet]
    rfl
  have hword : c.low = octet addr 1 ++ octet addr 0 := by
    rw [← hlow 1 (by decide), ← hlow 0 (by decide), octet_append_octet]
    rfl
  have hwords : c.words = [c.headWord, 0, 0b00#2 ++ c.high, 0b00#2 ++ c.mid, 0b00#2 ++ c.low,
      0b00#2 ++ d.extractLsb' 16 16, 0b01#2 ++ d.extractLsb' 0 16] := rfl
  have hbits : (0b10#2 ++ BitVec.ofBool true ++ BitVec.ofBool true ++ 1#6 ++ 0b1111#4 ++ 0b1111#4 :
      BitVec 18) = 0b10#2 ++ 0xc1#8 ++ 0xff#8 := by decide
  have hhead : c.headWord = 0b10#2 ++ 0xc1#8 ++ 0xff#8 := hbits
  have hzero : (0b00#2 ++ 0#8 : BitVec 10) = 0#10 := rfl
  rw [hwords, hhead, hhigh, hmid, hword, ← append_assoc, ← append_assoc, ← append_assoc, hzero,
    octet_append_octet, octet_append_octet]

/-- The bytes up to the address. -/
def addressOctets (addr : BitVec 48) : List (BitVec 8) :=
  [0xc1#8, 0xff#8, octet addr 4, octet addr 3, octet addr 2, octet addr 1, octet addr 0]

/-- The data, and the zero byte that ends the command. -/
def dataOctets (d : BitVec 32) : List (BitVec 8) :=
  [octet d 3, octet d 2, octet d 1, octet d 0, 0x00#8]

theorem commandOctets_eq (addr : BitVec 48) (d : BitVec 32) :
    commandOctets addr d = addressOctets addr ++ dataOctets d := rfl

/-- Up to the address four words are pushed, and the last one is about to be. -/
theorem log_address (hr : s.phyRdEn = true) (hst : s.srvStatus = .head0) (hw : s.mstWrEn = false)
    (hc : s.counter = BitVec.ofNat 12 k) (addr : BitVec 48) :
    log step push s (byteCycles (addressOctets addr)) =
        [0b10#2 ++ 0xc1#8 ++ 0xff#8, 0, 0#10 ++ octet addr 4,
          0b00#2 ++ octet addr 3 ++ octet addr 2] ∧
      Within .data true (0b00#2 ++ octet addr 1 ++ octet addr 0) 4 (octet addr 0) true (k + 7)
        (run step s (byteCycles (addressOctets addr))) := by
  simp only [byteCycles, addressOctets, List.map_cons, List.map_nil, log_cons, log_nil, run_cons,
    run_nil]
  have h1 : Within .head1 true _ _ _ _ _ _ := within_head0 hr hst hc 0xc1#8 (by decide)
  generalize step s (deliver (byteWord 0xc1#8)) = s1 at h1 ⊢
  have h2 := within_head1 h1 0xff#8
  rw [upper_high] at h2
  generalize step s1 (deliver (byteWord 0xff#8)) = s2 at h2 ⊢
  have h3 := within_addr64 h2 (octet addr 4)
  generalize step s2 (deliver (byteWord (octet addr 4))) = s3 at h3 ⊢
  have h4 := within_addr48 h3 (octet addr 3)
  generalize step s3 (deliver (byteWord (octet addr 3))) = s4 at h4 ⊢
  have h5 := within_addr32_long h4 (octet addr 2)
  generalize step s4 (deliver (byteWord (octet addr 2))) = s5 at h5 ⊢
  have h6 := within_addr16 h5 (octet addr 1)
  refine ⟨?_, within_low h5 (octet addr 1) (octet addr 0)⟩
  simp only [push_eq_nil_iff.2 hw, push_eq_within h1, push_eq_within h2, push_eq_within h3,
    push_eq_within h4, push_eq_within h5, push_eq_within h6, if_true, Bool.false_eq_true, if_false,
    List.nil_append, List.cons_append]

/-- Behind the address three words are pushed, and the server is in `SRV_IDLE` again. -/
theorem log_data (h : Within .data true din 4 b true k s) (d : BitVec 32) :
    log step push s (byteCycles (dataOctets d)) =
        [din, 0b00#2 ++ (octet d 3 ++ octet d 2), 0b01#2 ++ (octet d 1 ++ octet d 0)] ∧
      (run step s (byteCycles (dataOctets d))).phyRdEn = true ∧
      (run step s (byteCycles (dataOctets d))).srvStatus = .idle ∧
      (run step s (byteCycles (dataOctets d))).mstWrEn = false ∧
      (run step s (byteCycles (dataOctets d))).counter = BitVec.ofNat 12 (k + 5) := by
  simp only [byteCycles, dataOctets, List.map_cons, List.map_nil, log_cons, log_nil, run_cons,
    run_nil]
  have h1 := within_upper h (by decide) (octet d 3)
  have h2 : Within .data true (0b00#2 ++ (octet d 3 ++ octet d 2)) 2 (octet d 2) true _ _ :=
    within_word h (by decide) (octet d 3) (octet d 2)
  generalize step s (deliver (byteWord (octet d 3))) = s1 at h1 h2 ⊢
  generalize step s1 (deliver (byteWord (octet d 2))) = s2 at h2 ⊢
  have h3 := within_upper h2 (by decide) (octet d 1)
  have h4 : Within .head0 true (0b01#2 ++ (octet d 1 ++ octet d 0)) 0 (octet d 0) true (k + 4) _ :=
    within_word h2 (by decide) (octet d 1) (octet d 0)
  generalize step s2 (deliver (byteWord (octet d 1))) = s3 at h3 h4 ⊢
  generalize step s3 (deliver (byteWord (octet d 0))) = s4 at h4 ⊢
  -- the zero byte ends the command
  have hend : step s4 (deliver (byteWord 0x00#8)) = _ :=
    (step_within h4 _).trans (by rw [byte_head0 (s := cleared s4) h4.status])
  rw [hend]
  refine ⟨?_, rfl, rfl, rfl, rfl⟩
  simp only [push_eq_within h, push_eq_within h1, push_eq_within h2, push_eq_within h3,
    push_eq_within h4, if_true, Bool.false_eq_true, if_false, List.nil_append, List.cons_append]

/-- **What is pushed for a frame** with the header, a command and some more bytes. -/
theorem alone_command {l : List (BitVec 8)} (hlen : l.length = 0x2e) (hm : Matches l 0)
    (addr : BitVec 48) (d : BitVec 32) {tail : List (BitVec 8)} (htail : tail.length < 4000) :
    alone (l ++ (commandOctets addr d ++ tail)) =
      (writeCommand (0#8 ++ addr.extractLsb' 0 40) d).words := by
  obtain ⟨hlog, hr, hst, hw, hc⟩ := head0_of_matches hlen hm
  have hsplit : ((l ++ (commandOctets addr d ++ tail)).map byteWord ++ [gapWord 0]).map deliver =
      byteCycles l ++ (byteCycles (addressOctets addr) ++ (byteCycles (dataOctets d) ++
        (tail.map byteWord ++ [gapWord 0]).map deliver)) := by
    simp only [commandOctets_eq, byteCycles, List.map_append, List.append_assoc]
  unfold alone
  rw [hsplit, log_append, log_append, log_append, words_writeCommand, hlog, List.nil_append]
  generalize run step ready (byteCycles l) = s at hr hst hw hc
  obtain ⟨haddr, hin⟩ := log_address hr hst hw hc addr
  generalize run step s (byteCycles (addressOctets addr)) = s1 at haddr hin
  obtain ⟨hdata, hr', hst', hw', hc'⟩ := log_data hin d
  generalize run step s1 (byteCycles (dataOctets d)) = s2 at hdata hr' hst' hw' hc'
  have hcount : s2.counter.toNat = 58 := by
    rw [hc']
    rfl
  rw [haddr, hdata, log_tail hr' hst' hw' tail (by omega) (by omega)]
  rfl

/-- Up to the address four of the words are pushed, and behind the data all of them. -/
theorem length_log_command {l : List (BitVec 8)} (hlen : l.length = 0x2e) (hm : Matches l 0)
    (addr : BitVec 48) (d : BitVec 32) :
    (log step push ready (byteCycles (l ++ addressOctets addr))).length = 4 ∧
      (log step push ready (byteCycles (l ++ addressOctets addr ++ dataOctets d))).length = 7 := by
  obtain ⟨hlog, hr, hst, hw, hc⟩ := head0_of_matches hlen hm
  obtain ⟨haddr, hin⟩ := log_address hr hst hw hc addr
  have hdata := (log_data hin d).1
  simp only [byteCycles_append, log_append, run_append, hlog, haddr, hdata]
  exact ⟨rfl, rfl⟩

end Server

end IpNuma
