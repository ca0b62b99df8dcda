import IpNuma.Kc705.RxSnoop

/-!
# The address in the forwarded header

The second beat of a memory request holds the address: in its lower half with a 3-DW header, where
the upper half is data, and over both halves with a 4-DW header, the more significant word first.
The snoop should put `mem0_paddr` in the place of the page number and keep the low 12 bits:
`Translated`.  For a 4-DW header it takes them from `tdata[11:0]`, the bits `[43:32]` of the
address, and not from `tdata[43:32]`.

`translated_iff`: a memory request is translated exactly when its address has 32 bits or is the
same in the bits `[43:32]` and `[11:0]`.
-/

namespace IpNuma

open Clocked

/-- The address of a header with the first two pairs of words `d₁` and `d₂`. -/
def headerAddr (d₁ d₂ : BitVec 64) : BitVec 64 :=
  if d₁.getLsbD 29 then d₂.extractLsb' 0 32 ++ d₂.extractLsb' 32 32
  else (d₂.extractLsb' 0 32).setWidth 64

/-- The place of the address `a` in the page `mem0_paddr`. -/
def inPage (mem0Paddr : BitVec 36) (a : BitVec 64) : BitVec 64 :=
  0#16 ++ mem0Paddr ++ a.extractLsb' 0 12

/-- The flags of a FIFO word. -/
def wordFlags (w : BitVec 72) : BitVec 8 := w.extractLsb' 64 8

/-- The flags that go with a beat. -/
def RxBeat.flags (b : RxBeat) (tvalid : Bool) : BitVec 8 :=
  0xA#4 ++ BitVec.ofBool (b.tkeep.getLsbD 4) ++ BitVec.ofBool (b.tkeep.getLsbD 0) ++
    BitVec.ofBool b.tlast ++ BitVec.ofBool tvalid

/-- `mem0_paddr` in the cycle of the second beat. -/
def pageSeen (is : List SnoopIn) : BitVec 36 := (is.getD 1 default).mem0Paddr

namespace RxTlp

variable (t : RxTlp)

/-- The header has four words. -/
def fourDw : Bool := t.first.tdata.getLsbD 29

/-- The address of the TLP. -/
def addr : BitVec 64 := headerAddr t.first.tdata t.second.tdata

/-- A memory read or write, locked or not. -/
def IsMemRequest : Prop := t.first.type.extractLsb' 1 4 = 0

instance : DecidablePred IsMemRequest := fun t =>
  inferInstanceAs (Decidable (t.first.type.extractLsb' 1 4 = 0))

/-- The TLP is forwarded with its address in the page `mem0_paddr`, and otherwise unchanged behind
its first beat. -/
structure Translated (mem0Paddr : BitVec 36) (ws : List (BitVec 72)) : Prop where
  flags : ws.map wordFlags = t.beats.map fun b => b.flags true
  /-- The address, read from the forwarded header. -/
  address : headerAddr (payload (ws.getD 0 0)) (payload (ws.getD 1 0)) = inPage mem0Paddr t.addr
  /-- The data beside the address. -/
  shared : t.fourDw = false →
    (payload (ws.getD 1 0)).extractLsb' 32 32 = t.second.tdata.extractLsb' 32 32
  /-- All later beats. -/
  later : ws.drop 2 = (t.beats.drop 2).map fun b => b.word true b.tdata

end RxTlp

section Header

variable {fmt : BitVec 2} {type : BitVec 5}

@[simp] theorem wordFlags_word (b : RxBeat) (v : Bool) (d : BitVec 64) :
    wordFlags (b.word v d) = b.flags v := BitVec.extractLsb'_append_eq_left

theorem map_wordFlags_rewritten (is : List SnoopIn) :
    (rewritten is).map wordFlags = is.map fun i => i.beat.flags i.tvalid := by
  match is with
  | [] => rfl
  | [i] => simp [rewritten]
  | i :: j :: js => simp [rewritten, Function.comp_def]

/-- The ID is rewritten above the format of the header. -/
theorem idleData_fmt (b : RxBeat) : b.idleData.getLsbD 29 = b.tdata.getLsbD 29 := by
  unfold RxBeat.idleData
  split_ifs
  · rfl
  · rw [BitVec.getLsbD_append]
    simp

/-- The second beat of a 3-DW header. -/
theorem header1Data_dw3 (b : RxBeat) (completion : Bool) (mem0Paddr : BitVec 36)
    (hm : type.extractLsb' 1 4 = 0) (hf : fmt.getLsbD 0 = false) :
    (b.header1Data fmt type completion mem0Paddr).extractLsb' 0 32 =
        mem0Paddr.extractLsb' 0 20 ++ b.tdata.extractLsb' 0 12 ∧
      (b.header1Data fmt type completion mem0Paddr).extractLsb' 32 32 =
        b.tdata.extractLsb' 32 32 := by
  rw [RxBeat.header1Data, if_pos hm, if_pos hf, BitVec.append_assoc]
  exact ⟨BitVec.extractLsb'_append_eq_right, BitVec.extractLsb'_append_eq_left⟩

/-- The second beat of a 4-DW header. -/
theorem header1Data_dw4 (b : RxBeat) (completion : Bool) (mem0Paddr : BitVec 36)
    (hm : type.extractLsb' 1 4 = 0) (hf : fmt.getLsbD 0 = true) :
    (b.header1Data fmt type completion mem0Paddr).extractLsb' 0 32 =
        0#16 ++ mem0Paddr.extractLsb' 20 16 ∧
      (b.header1Data fmt type completion mem0Paddr).extractLsb' 32 32 =
        mem0Paddr.extractLsb' 0 20 ++ b.tdata.extractLsb' 0 12 := by
  rw [RxBeat.header1Data, if_pos hm, if_neg (by simp [hf]), BitVec.append_assoc]
  exact ⟨BitVec.extractLsb'_append_eq_right, BitVec.extractLsb'_append_eq_left⟩

/-- The upper part of a page number and the rest of it. -/
theorem page_split (mem0Paddr : BitVec 36) :
    mem0Paddr.extractLsb' 20 16 ++ mem0Paddr.extractLsb' 0 20 = mem0Paddr :=
  BitVec.extractLsb'_append_extractLsb' (w := 16)

/-- A page number and an offset, put together by words. -/
theorem inPage_words (hi : BitVec 16) (lo : BitVec 20) (offset : BitVec 12) :
    (0#16 ++ hi) ++ (lo ++ offset) = 0#16 ++ (hi ++ lo) ++ offset := by
  apply BitVec.eq_of_getLsbD_eq
  intro i _
  simp only [BitVec.getLsbD_append]
  split_ifs <;> first | omega | rfl

/-- A page number of 20 bits and an offset are an address of 32 bits. -/
theorem inPage_dw3 (lo : BitVec 20) (offset : BitVec 12) :
    (lo ++ offset).setWidth 64 = 0#16 ++ (0#16 ++ lo) ++ offset := by
  rw [← inPage_words, BitVec.setWidth_eq_append (by decide)]
  rfl

theorem inPage_dw4 (mem0Paddr : BitVec 36) (offset : BitVec 12) :
    (0#16 ++ mem0Paddr.extractLsb' 20 16) ++ (mem0Paddr.extractLsb' 0 20 ++ offset) =
      0#16 ++ mem0Paddr ++ offset := by
  rw [inPage_words, page_split]

end Header

/-- The first two cycles of a TLP, and the rest. -/
theorem Presents.cons_cons {is : List SnoopIn} {t : RxTlp} (h : Presents is t) :
    ∃ i j js, is = i :: j :: js ∧ i.beat = t.first ∧ j.beat = t.second ∧
      js.map SnoopIn.beat = t.beats.drop 2 ∧ i.tvalid = true ∧ j.tvalid = true ∧
        ∀ k ∈ js, k.tvalid = true := by
  obtain ⟨hb, hv⟩ := h
  have hbeats : t.beats = t.first :: t.second :: t.beats.drop 2 := by
    cases hmid : t.mid <;> simp [RxTlp.beats, RxTlp.rest, RxTlp.second, hmid]
  rw [hbeats] at hb
  obtain ⟨i, is', rfl, hi, hb'⟩ := List.map_eq_cons_iff.1 hb
  obtain ⟨j, js, rfl, hj, hjs⟩ := List.map_eq_cons_iff.1 hb'
  simp only [List.forall_mem_cons] at hv
  exact ⟨i, j, js, rfl, hi, hj, hjs, hv.1, hv.2.1, hv.2.2⟩

namespace RxTlp

variable {t : RxTlp}

theorem fmt_fourDw (t : RxTlp) : t.first.fmt.getLsbD 0 = t.fourDw := by
  simp [RxBeat.fmt, fourDw]

theorem addr_eq (t : RxTlp) : t.addr =
    if t.fourDw then t.second.tdata.extractLsb' 0 32 ++ t.second.tdata.extractLsb' 32 32
    else (t.second.tdata.extractLsb' 0 32).setWidth 64 := rfl

/-- The bits that the snoop takes for the offset of an address of 64 bits. -/
theorem addr_dw4 (h : t.fourDw = true) :
    t.addr.extractLsb' 0 12 = t.second.tdata.extractLsb' 32 12 ∧
      t.addr.extractLsb' 32 12 = t.second.tdata.extractLsb' 0 12 := by
  rw [addr_eq, if_pos h, BitVec.extractLsb'_append_eq_of_add_le (by decide),
    BitVec.extractLsb'_append_eq_of_le (by decide)]
  constructor <;> ext i hi <;> simp [show i < 32 by omega]

theorem addr_dw3 (h : t.fourDw = false) :
    t.addr.extractLsb' 0 12 = t.second.tdata.extractLsb' 0 12 := by
  rw [addr_eq, h, if_neg Bool.false_ne_true]
  ext i hi
  simp [show i < 64 by omega, show i < 32 by omega]

end RxTlp

/-- The address in the forwarded header ends with the lowest bits of the second beat. -/
theorem headerAddr_forwarded {i j : SnoopIn} {t : RxTlp} (hi : i.beat = t.first)
    (hm : t.IsMemRequest) (hpage : t.fourDw = false → j.mem0Paddr.extractLsb' 20 16 = 0) :
    headerAddr i.beat.idleData
        (j.beat.header1Data i.beat.fmt i.beat.type i.beat.isCompletion j.mem0Paddr) =
      0#16 ++ j.mem0Paddr ++ j.beat.tdata.extractLsb' 0 12 := by
  have hf : i.beat.fmt.getLsbD 0 = t.fourDw := by rw [hi, t.fmt_fourDw]
  have hd : i.beat.idleData.getLsbD 29 = t.fourDw := by rw [idleData_fmt, hi]; rfl
  rw [RxTlp.IsMemRequest, ← hi] at hm
  rw [headerAddr, hd]
  cases h4 : t.fourDw with
  | false =>
    obtain ⟨hlo, -⟩ := header1Data_dw3 j.beat i.beat.isCompletion j.mem0Paddr hm (hf.trans h4)
    have hsplit := page_split j.mem0Paddr
    rw [hpage h4] at hsplit
    rw [if_neg Bool.false_ne_true, hlo, inPage_dw3]
    exact congrArg (fun p => 0#16 ++ p ++ _) hsplit
  | true =>
    obtain ⟨hlo, hhi⟩ := header1Data_dw4 j.beat i.beat.isCompletion j.mem0Paddr hm (hf.trans h4)
    rw [if_pos rfl, hlo, hhi, inPage_dw4]

/-- **Address translation.**  A memory request captured by an idle snoop is forwarded with its
address in the page `mem0_paddr`, and with its data unchanged, exactly when the address has 32 bits
or is the same in the bits `[43:32]` and `[11:0]`. -/
theorem translated_iff {s : Snoop} {is : List SnoopIn} {t : RxTlp} (h : s.state = .idle)
    (hp : Presents is t) (ht : t.first.selected = true) (hm : t.IsMemRequest)
    (hpage : t.fourDw = false → (pageSeen is).extractLsb' 20 16 = 0) :
    t.Translated (pageSeen is) (log Snoop.step Snoop.push s is) ↔
      (t.fourDw = true → t.addr.extractLsb' 32 12 = t.addr.extractLsb' 0 12) := by
  rw [(Snoop.run_tlp h hp ht).1]
  obtain ⟨i, j, js, rfl, hi, hj, hjs, hiv, hjv, hv⟩ := hp.cons_cons
  have hpage' : pageSeen (i :: j :: js) = j.mem0Paddr := rfl
  rw [hpage'] at hpage ⊢
  have haddr := headerAddr_forwarded hi hm hpage
  have hlater : (js.map fun k => k.beat.word k.tvalid k.beat.tdata) =
      (t.beats.drop 2).map fun b => b.word true b.tdata := by
    rw [← hjs, List.map_map]
    exact List.map_congr_left fun k hk => by simp [hv k hk]
  -- the offset of the forwarded address is the right one
  have hoffset : t.addr.extractLsb' 0 12 = j.beat.tdata.extractLsb' 0 12 ↔
      (t.fourDw = true → t.addr.extractLsb' 32 12 = t.addr.extractLsb' 0 12) := by
    rw [hj]
    cases h4 : t.fourDw with
    | false => simp [RxTlp.addr_dw3 h4]
    | true =>
      rw [(RxTlp.addr_dw4 h4).2]
      exact ⟨fun he _ => he.symm, fun he => (he rfl).symm⟩
  rw [← hoffset]
  constructor
  · intro ht
    have h1 := ht.address
    simp only [rewritten, List.getD_cons_zero, List.getD_cons_succ, payload_word, haddr] at h1
    have h2 := congrArg (BitVec.extractLsb' 0 12) h1
    rw [inPage, BitVec.extractLsb'_append_eq_right, BitVec.extractLsb'_append_eq_right] at h2
    exact h2.symm
  · intro he
    refine ⟨?_, ?_, fun h4 => ?_, hlater⟩
    · rw [map_wordFlags_rewritten, ← hp.1, List.map_map]
      exact List.map_congr_left fun k hk => by rw [hp.2 k hk]; rfl
    · simp only [rewritten, List.getD_cons_zero, List.getD_cons_succ, payload_word, haddr, inPage,
        he]
    · have hf : i.beat.fmt.getLsbD 0 = false := by rw [hi, t.fmt_fourDw, h4]
      rw [RxTlp.IsMemRequest, ← hi] at hm
      simp only [rewritten, List.getD_cons_zero, List.getD_cons_succ, payload_word, ← hj]
      exact (header1Data_dw3 _ _ _ hm hf).2

/-- A memory write of one word with a 4-DW header to an address below 4 GB of BAR2, as in the test
vectors. -/
def write4Dw (address : BitVec 32) : RxTlp :=
  .ofWords 0x123401FF60000001#64 [address ++ 0#32] 0x00000000AABBCCDD#64 0x0f#8 0x10#22

/-- At the beginning of a page the write is translated. -/
theorem write4Dw_translated : (write4Dw 0xFD6C0000#32).Translated 0xD0000#36
    (log Snoop.step Snoop.push (Snoop.reset default)
      ((write4Dw 0xFD6C0000#32).backToBack 0xD0000#36)) :=
  (translated_iff rfl (RxTlp.presents_backToBack _ _) (by decide) (by decide) (by decide)).2
    (by decide)

/-- The write of the test vectors loses its offset. -/
theorem write4Dw_moved :
    (write4Dw 0xFD6C0100#32).first.selected = true ∧ (write4Dw 0xFD6C0100#32).IsMemRequest ∧
      (log Snoop.step Snoop.push (Snoop.reset default)
          ((write4Dw 0xFD6C0100#32).backToBack 0xD0000#36)).map payload =
        [0xE23401FF60000001#64, 0xD000000000000000#64, 0x00000000AABBCCDD#64] ∧
      ¬ (write4Dw 0xFD6C0100#32).Translated 0xD0000#36
        (log Snoop.step Snoop.push (Snoop.reset default)
          ((write4Dw 0xFD6C0100#32).backToBack 0xD0000#36)) := by
  refine ⟨by decide, by decide, by decide, fun h => ?_⟩
  have haddr := h.address
  revert haddr
  decide

end IpNuma
