import IpNuma.Ecp3.SlaveWrites

/-!
# What a write does on the slave bus

A write is followed word by word from its header on, the words behind it being arbitrary: `Storing r
j` says that `j` words of its data have been received, of which all but the last one are on the bus.
The last word goes to the bus in the first cycle behind the TLP, when its registers still hold
although another TLP may begin.  A write that hits no BAR goes to the bus with the BAR of the BIOS
ROM when `ENABLE_EXPROM` is defined.
-/

namespace IpNuma

open Clocked

namespace PcieTlp

/-- The write accesses of a run. -/
def writes (s : PcieTlp) (is : List PcieIn) : List SlvBus :=
  log step (fun s i => (s.step i).slv.bus.written) s is

/-- What the slave sequencer has of a write of which `j` data words have been received. -/
def SlvAt (e : Bool) (r : MemReq) (s : PcieTlp) : ℕ → Prop
  | 0 => s.slv.slvStatus = .mwriteh ∧ s.slv.bus.bar = r.slvBar e
  | j + 1 => s.slv.Writing e r j ∧ r.data[j]? = some s.rx.rxData2 ∧
      s.rx.rxEnd2 = decide (j + 1 = 2 * r.dws)

/-- A write of which `j` data words have been received. -/
structure Storing (e : Bool) (r : MemReq) (j : ℕ) (s : PcieTlp) : Prop where
  build : s.rx.expRom = e
  holds : s.rx.Holds r r.headLen
  status : s.rx.rxStatus = if j = 2 * r.dws then .head0 else .req
  valid : s.rx.rxTlphValid = false
  slv : s.SlvAt e r j

variable {e : Bool} {s : PcieTlp} {i : PcieIn} {r : MemReq} {j : ℕ}

theorem slv_eq (s : PcieTlp) (i : PcieIn) :
    (s.step i).slv = s.slv.step s.rx i.rx.rxBarHit s.tx.tx1TlpdReady i.slvDatO := rfl

/-- The receiver sees the words of the inputs. -/
theorem rx_run (s : PcieTlp) (is : List PcieIn) :
    (run step s is).rx = run TlpRx.step s.rx (is.map PcieIn.rx) :=
  run_part step (fun _ _ => rfl) s is

/-- The last word of the header, with the sequencer idle. -/
theorem storing_header {n : ℕ} (he : s.rx.expRom = e) (hin : s.rx.Inside r n)
    (hn : n + 1 = r.headLen) (hst : s.slv.slvStatus = .idle) (hwrite : r.write = true)
    (hw : r.words[n]? = some i.rx) : (s.step i).Storing e r 0 := by
  have hlen := r.six_le_headLen
  have hpos := r.dws_pos
  obtain ⟨n, rfl⟩ : ∃ n', n = n' + 1 := ⟨n - 1, by omega⟩
  obtain ⟨hholds, hstatus, hvalid⟩ := TlpRx.holds_req7 hn.symm hin hw
  obtain ⟨-, hend, -, hbar⟩ := MemReq.words_getElem hw
  obtain ⟨hcomm, hfmt, -⟩ := hin.holds.head (by omega)
  rw [hend, decide_eq_false (by
    rw [MemReq.length_body, MemReq.data_of_write hwrite]
    omega)] at hstatus
  refine ⟨(TlpRx.expRom_step _ _).trans he, hholds, hstatus.trans (if_neg (by omega)).symm,
    hvalid, ?_⟩
  have hslv : (s.step i).slv = { s.slv.always with
      tx1TlphValid := false
      bus := { s.slv.always.bus with bar := r.slvBar e }
      slvStatus := .mwriteh } := by
    rw [slv_eq]
    unfold TlpSlave.step TlpSlave.idle
    rw [hst, hcomm, hfmt, TlpRx.fmt_write, hin.valid, hwrite, hbar, he, hn]
    simp [MemReq.slvBar]
  exact ⟨by rw [hslv], by rw [hslv]⟩

/-- The access of a word that has been received. -/
def accessAt (e : Bool) (r : MemReq) (s : PcieTlp) : ℕ → List SlvBus
  | 0 => []
  | j + 1 => [r.access e j s.rx.rxData2]

/-- The slave sequencer behind a word of the data. -/
theorem slv_storing (h : s.Storing e r j) (hj : j ≤ 2 * r.dws) :
    (s.step i).slv.bus.written = accessAt e r s j ∧
      (if j = 2 * r.dws then (s.step i).slv.slvStatus = .idle
      else (s.step i).slv.Writing e r j) := by
  have hpos := r.dws_pos
  cases j with
  | zero =>
    obtain ⟨hst, hbar⟩ := h.slv
    rw [if_neg (by omega)]
    exact ⟨TlpSlave.written_step (by rw [hst]; decide),
      TlpSlave.writing_mwriteh hst hbar h.holds⟩
  | succ j =>
    obtain ⟨hw, -, hend⟩ := h.slv
    have hstep : (s.step i).slv.bus = r.access e j s.rx.rxData2 ∧
        if j + 1 = 2 * r.dws then (s.step i).slv.slvStatus = .idle
        else (s.step i).slv.Writing e r (j + 1) := TlpSlave.writing_step hw (by omega) h.holds hend
    refine ⟨?_, hstep.2⟩
    rw [hstep.1]
    rfl

/-- A word of the data. -/
theorem storing_data (h : s.Storing e r j) (hwrite : r.write = true) (hj : j < 2 * r.dws)
    (hw : r.words[r.headLen + j]? = some i.rx) : (s.step i).Storing e r (j + 1) := by
  have hlen := r.length_body
  have hdata := MemReq.data_of_write hwrite
  obtain ⟨-, hend, hd, -⟩ := MemReq.words_getElem hw
  have hst : s.rx.rxStatus = .req := h.status.trans (if_neg (by omega))
  have hrx : (s.step i).rx = s.rx.always i.rx := TlpRx.step_req hst
  have hend' : i.rx.rxEnd = decide (j + 1 = 2 * r.dws) :=
    hend.trans (decide_eq_decide.2 (by omega))
  obtain ⟨-, hslv⟩ := slv_storing (i := i) h (by omega)
  rw [if_neg (by omega)] at hslv
  refine ⟨(TlpRx.expRom_step _ _).trans h.build, ?_, ?_, by rw [hrx]; rfl, hslv, ?_, ?_⟩
  · rw [hrx]
    exact TlpRx.holds_always h.holds
  · rw [hrx]
    change (if i.rx.rxEnd then TlpRxState.head0 else s.rx.rxStatus) = _
    rw [hend', hst]
    by_cases hlast : j + 1 = 2 * r.dws
    · rw [decide_eq_true hlast, if_pos rfl, if_pos hlast]
    · rw [decide_eq_false hlast, if_neg Bool.false_ne_true, if_neg hlast]
  · rw [← MemReq.data_getElem, hd, hrx]
    rfl
  · rw [hrx]
    exact hend'

/-- The accesses of the first `j` words. -/
theorem accesses_take_succ {d : BitVec 16} (hd : r.data[j]? = some d) :
    (r.accesses e).take (j + 1) = (r.accesses e).take j ++ [r.access e j d] := by
  unfold MemReq.accesses
  rw [List.take_add_one, List.getElem?_mapIdx, hd]
  rfl

/-- **A run over words of the data**: all but the last one are on the bus. -/
theorem storing_run {is : List PcieIn} (h : s.Storing e r 0) (hwrite : r.write = true)
    (hle : is.length ≤ 2 * r.dws)
    (hwords : ∀ k i, is[k]? = some i → r.words[r.headLen + k]? = some i.rx) :
    (run step s is).Storing e r is.length ∧ s.writes is = (r.accesses e).take (is.length - 1) := by
  induction is using List.reverseRecOn with
  | nil => exact ⟨h, rfl⟩
  | append_singleton is i ih =>
    rw [List.length_append, List.length_singleton] at hle ⊢
    have hlast := hwords is.length i List.getElem?_concat_length
    have hinit : ∀ k i, is[k]? = some i → r.words[r.headLen + k]? = some i.rx := fun k i' hk =>
      hwords k i' ((List.getElem?_append_left (List.getElem?_eq_some_iff.1 hk).1).trans hk)
    obtain ⟨hstoring, hwrites⟩ := ih (by omega) hinit
    rw [run_concat]
    refine ⟨storing_data hstoring hwrite (by omega) hlast, ?_⟩
    unfold writes at hwrites ⊢
    rw [log_concat, hwrites, (slv_storing hstoring (by omega)).1, Nat.add_sub_cancel]
    cases hn : is.length with
    | zero => rfl
    | succ n =>
      have hslv := hstoring.slv
      rw [hn] at hslv
      exact (accesses_take_succ hslv.2.1).symm

/-- **The effect of a write** that finds the slave sequencer idle: behind its header the accesses
are those of the write, the last one in the cycle behind the TLP, and then those of what follows.
-/
theorem write_effect {words after : List PcieIn} (hwrite : r.write = true)
    (hrx : s.rx.rxStatus = .head0) (hwords : words.map PcieIn.rx = r.words)
    (hidle : (run step s (words.take (r.headLen - 1))).slv.slvStatus = .idle) :
    (r.accesses s.rx.expRom).length = 2 * r.dws ∧
      (run step s (words.take r.headLen)).writes (words.drop r.headLen ++ i :: after) =
        r.accesses s.rx.expRom ++ (run step s (words ++ [i])).writes after ∧
      (run step s (words ++ [i])).slv.slvStatus = .idle := by
  have hhead := r.six_le_headLen
  have hpos := r.dws_pos
  have hdata := MemReq.data_of_write hwrite
  have hlength : words.length = r.headLen + 2 * r.dws := by
    rw [← List.length_map (f := PcieIn.rx), hwords, MemReq.length_words, MemReq.length_body, hdata]
  have haccesses : (r.accesses s.rx.expRom).length = 2 * r.dws := by
    unfold MemReq.accesses
    rw [List.length_mapIdx, hdata]
  have hget : ∀ (k : ℕ) (i : PcieIn), words[k]? = some i → r.words[k]? = some i.rx := by
    intro k i hk
    rw [← hwords, List.getElem?_map, hk]
    rfl
  -- the header
  have hstart : (run step s (words.take r.headLen)).Storing s.rx.expRom r 0 := by
    obtain ⟨n, hn⟩ : ∃ n, r.headLen = n + 1 := ⟨r.headLen - 1, by omega⟩
    rw [hn, Nat.add_sub_cancel] at hidle
    have hin : (run step s (words.take n)).rx.Inside r n := by
      rw [rx_run, List.map_take, hwords]
      exact TlpRx.inside_run hrx (by omega) (by omega)
    have hlt : n < words.length := by omega
    have hlast := List.getElem?_eq_getElem hlt
    rw [hn, List.take_add_one, hlast, Option.toList_some, run_concat]
    exact storing_header (by rw [rx_run, TlpRx.expRom_run]) hin hn.symm hidle hwrite
      (hget n _ hlast)
  -- the data
  have hdrop : (words.drop r.headLen).length = 2 * r.dws := by
    rw [List.length_drop]
    omega
  have hbody : ∀ (k : ℕ) (i : PcieIn), (words.drop r.headLen)[k]? = some i →
      r.words[r.headLen + k]? = some i.rx := fun k i hk =>
    hget _ i (by rw [← hk, List.getElem?_drop])
  obtain ⟨hstoring, hwrites⟩ := storing_run hstart hwrite (by omega) hbody
  rw [← run_append, List.take_append_drop, hdrop] at hstoring
  rw [hdrop] at hwrites
  -- the cycle behind the TLP
  obtain ⟨hlast, hstatus⟩ := slv_storing (i := i) hstoring (le_refl _)
  rw [if_pos rfl] at hstatus
  obtain ⟨m, hm⟩ : ∃ m, 2 * r.dws = m + 1 := ⟨2 * r.dws - 1, by omega⟩
  have hslv := hstoring.slv
  rw [hm] at hslv hlast hwrites haccesses
  have hall : (r.accesses s.rx.expRom).take m ++
      [r.access s.rx.expRom m (run step s words).rx.rxData2] = r.accesses s.rx.expRom := by
    rw [← accesses_take_succ hslv.2.1, List.take_of_length_le (by omega)]
  refine ⟨by omega, ?_, by rw [run_concat]; exact hstatus⟩
  unfold writes at hwrites ⊢
  rw [log_append, hwrites, ← run_append, List.take_append_drop, log_cons, hlast, run_concat,
    Nat.add_sub_cancel, ← List.append_assoc]
  exact congrArg (· ++ _) hall

/-- A write of two DW with a part of the first and of the last one. -/
def writeTwo : MemReq where
  write := true
  long := true
  length := 2
  reqid := 0x0008#16
  tag := 7
  lastbe := 0b0001#4
  firstbe := 0b1110#4
  addr := 0x100000104#64
  data := [0x0a01#16, 0x0203#16, 0x0405#16, 0x0607#16]
  barHit := 0b0000001#7
  reserved := false
  traffic := 0
  attr := 0
  length_data := rfl

/-- The cycles in which words are received. -/
def received (ws : List RxWord) : List PcieIn := ws.map fun w => ⟨w, true, 0, 0, 0, 0, true, 0⟩

/-- After reset in the build with `ENABLE_EXPROM`. -/
def withExpRom : PcieTlp :=
  let s := (default : PcieTlp).reset
  { s with rx := { s.rx with expRom := true } }

/-- The same write where it hits no BAR. -/
def romWrite : MemReq := { writeTwo with barHit := 0 }

/-- Two writes back to back that hit no BAR. -/
theorem write_effect_two : (romWrite.accesses true).length = 2 * romWrite.dws ∧
    (run step withExpRom ((received romWrite.words).take romWrite.headLen)).writes
        ((received romWrite.words).drop romWrite.headLen ++
          ⟨⟨true, false, 0x6000#16, 0⟩, true, 0, 0, 0, 0, true, 0⟩ ::
            (received romWrite.words).tail) =
      romWrite.accesses true ++ (run step withExpRom (received romWrite.words ++
        [⟨⟨true, false, 0x6000#16, 0⟩, true, 0, 0, 0, 0, true, 0⟩])).writes
          (received romWrite.words).tail ∧
      (run step withExpRom (received romWrite.words ++
        [⟨⟨true, false, 0x6000#16, 0⟩, true, 0, 0, 0, 0, true, 0⟩])).slv.slvStatus = .idle :=
  write_effect (s := withExpRom) rfl rfl rfl (by decide +kernel)

/-- With `ENABLE_EXPROM` a write that hits no BAR does not have its BAR hit on the bus. -/
theorem romWrite_bar :
    (run step withExpRom ((received romWrite.words).take (romWrite.headLen - 1))).slv.slvStatus =
        .idle ∧
      ¬ ∀ b ∈ (run step withExpRom ((received romWrite.words).take romWrite.headLen)).writes
          ((received romWrite.words).drop romWrite.headLen ++ received [⟨false, false, 0, 0⟩]),
        b.bar = romWrite.barHit := by
  decide +kernel

/-- The select bits leave out the first byte and all but the first one of the last DW. -/
example : ((default : PcieTlp).reset.writes (received writeTwo.words ++
    received [⟨false, false, 0, 0⟩])).map (fun b => (b.adr, b.dat, b.sel)) =
      [(0x82#19, 0x0a01#16, 0b01#2), (0x83#19, 0x0203#16, 0b11#2), (0x84#19, 0x0405#16, 0b10#2),
        (0x85#19, 0x0607#16, 0b00#2)] := by
  decide +kernel

end PcieTlp

end IpNuma
