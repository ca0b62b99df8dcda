import IpNuma.Ecp3.MasterFifo

/-!
# Writes carry the data of their commands

`Place` says where the master sequencer is in the commands: between two of them, at a word of an
address, waiting for the transmitter, or at a data word.  In the data the sequencer does not look at
the FIFO, so each cycle must find a word there (`Fed`); then the words read are those of the command
that is sent, and `writes_carried` follows for whole runs.
-/

namespace IpNuma

open Clocked PcieTlp

namespace TlpMaster

/-- What the registers hold of a command while its address is read. -/
structure Loaded (c : Command) (s : TlpMaster) : Prop where
  length : s.tx2Length.toNat = 2 * c.len.toNat
  lastbe : s.tx2Lastbe = c.lastbe
  firstbe : s.tx2Firstbe = c.firstbe
  long : s.mstStatus = .mwrite64 ∨ s.mstStatus = .mwrite48 → c.is64 = true
  high : s.mstStatus = .mwrite32 ∨ s.mstStatus = .mwrite16 →
    s.tx2Addr.extractLsb' 30 16 = c.high
  mid : s.mstStatus = .mwrite16 → s.tx2Addr.extractLsb' 14 16 = c.mid

variable {s : TlpMaster} {c : Command} {dout : BitVec 18} {rest : List (BitVec 18)}

theorem Loaded.always (h : Loaded c s) (empty : Bool) : Loaded c (s.always empty) :=
  ⟨h.length, h.lastbe, h.firstbe, h.long, h.high, h.mid⟩

/-- The header word is read. -/
theorem loaded_idle (hd : dout = c.headWord) :
    Loaded c (idle s dout) ∧ (idle s dout).mstStatus = c.start := by
  obtain ⟨h17, h14, hlen, hlast, hfirst⟩ := c.headWord_fields
  unfold idle
  rw [hd, if_pos h17, h14, hlen, hlast, hfirst]
  refine ⟨⟨toNat_length _, rfl, rfl, ?_, ?_, ?_⟩, rfl⟩
  · change c.start = _ ∨ c.start = _ → _
    unfold Command.start
    cases c.is64 <;> simp
  · change c.start = _ ∨ c.start = _ → _
    intro h
    unfold Command.start at h
    have h64 : c.is64 = false := by
      cases hc : c.is64
      · rfl
      · rw [hc] at h
        rcases h with h | h <;> cases h
    rw [show c.high = 0 by unfold Command.high; rw [h64]; rfl]
    exact extractLsb'_setSlice_self _ _ (by decide)
  · change c.start = _ → _
    unfold Command.start
    cases c.is64 <;> exact fun h => (by cases h)

/-- A word of the address is read. -/
theorem loaded_read (h : Loaded c s) (hst : s.mstStatus ≠ .mwrite16)
    (hq : c.addrWords s.mstStatus = dout :: rest) :
    Loaded c (read s dout) ∧ c.addrWords (read s dout).mstStatus = rest ∧
      (read s dout).mstStatus ≠ .idle ∧ (read s dout).mstStatus ≠ .mwrited := by
  obtain ⟨length, lastbe, firstbe, long, high, mid⟩ := h
  unfold read
  cases hs : s.mstStatus with
  | idle =>
    rw [hs] at hq
    cases hq
  | mwrite64 =>
    rw [hs] at hq
    obtain ⟨-, rfl⟩ := List.cons.inj hq
    refine ⟨⟨length, lastbe, firstbe, fun _ => long (.inl hs), ?_, fun h => (by cases h)⟩, rfl,
      fun h => (by cases h), fun h => (by cases h)⟩
    rintro (h | h) <;> cases h
  | mwrite48 =>
    rw [hs] at hq
    obtain ⟨hd, rfl⟩ := List.cons.inj hq
    refine ⟨⟨length, lastbe, firstbe, ?_, fun _ => ?_, fun h => (by cases h)⟩, rfl,
      fun h => (by cases h), fun h => (by cases h)⟩
    · rintro (h | h) <;> cases h
    · rw [← hd]
      change (setSlice _ _ _).extractLsb' _ _ = _
      rw [Command.untag, extractLsb'_setSlice_self _ _ (by decide)]
  | mwrite32 =>
    rw [hs] at hq
    obtain ⟨hd, rfl⟩ := List.cons.inj hq
    refine ⟨⟨length, lastbe, firstbe, ?_, fun _ => ?_, fun _ => ?_⟩, rfl,
      fun h => (by cases h), fun h => (by cases h)⟩
    · rintro (h | h) <;> cases h
    · change (setSlice _ _ _).extractLsb' _ _ = _
      rw [extractLsb'_setSlice_of_apart _ _ (by decide) (by decide)]
      exact high (.inl hs)
    · rw [← hd]
      change (setSlice _ _ _).extractLsb' _ _ = _
      rw [Command.untag, extractLsb'_setSlice_self _ _ (by decide)]
  | mwrite16 => exact absurd hs hst
  | mwrited =>
    rw [hs] at hq
    cases hq

/-- The last word of the address is read: the header of the write is complete. -/
theorem head_mwrite16 (h : Loaded c s) (hst : s.mstStatus = .mwrite16)
    (hd : dout = 0b00#2 ++ c.low) : (mwrite16 s dout).head c.len.toNat = c.head := by
  obtain ⟨-, lastbe, firstbe, -, high, mid⟩ := h
  have haddr : (mwrite16 s dout).tx2Addr = setSlice s.tx2Addr 0 (dout.extractLsb' 2 14) := rfl
  have hlow : dout.extractLsb' 2 14 = c.low.extractLsb' 2 14 := by
    rw [hd, extractLsb'_append_low _ _ _ _ (by decide)]
  funext j
  match j with
  | 0 | 1 | 2 | 4 => rfl
  | 3 => exact congrArg some (by rw [← lastbe, ← firstbe]; rfl)
  | 5 =>
    refine congrArg some ?_
    rw [haddr, extractLsb'_setSlice_of_apart _ _ (by decide) (by decide)]
    exact high (.inr hst)
  | 6 =>
    refine congrArg some ?_
    rw [haddr, extractLsb'_setSlice_of_apart _ _ (by decide) (by decide)]
    exact mid hst
  | 7 =>
    refine congrArg some ?_
    rw [haddr, extractLsb'_setSlice_self _ _ (by decide), hlow]
  | j + 8 => rfl

end TlpMaster

namespace MasterSide

/-- The packet is a memory write, not a completion. -/
def isWrite (ws : List TxWord) : Bool := ws.head?.map TxWord.txData == some 0x6000#16

/-- In a cycle of the data there is a word in the FIFO. -/
def Fed (s : MasterSide) : Prop :=
  s.tlp.mst.mstStatus = .mwrited ∧ s.tlp.tx.tx2TlpdReady = true ∧ s.tlp.mst.mstRdWait = false ∧
      s.tlp.mst.tx2Length ≠ 0x7fe#11 →
    s.fifo ≠ []

instance : DecidablePred Fed := fun s =>
  inferInstanceAs (Decidable (s.tlp.mst.mstStatus = .mwrited ∧ s.tlp.tx.tx2TlpdReady = true ∧
    s.tlp.mst.mstRdWait = false ∧ s.tlp.mst.tx2Length ≠ 0x7fe#11 → s.fifo ≠ []))

/-- The words of some commands. -/
def wordsOf (cs : List Command) : List (BitVec 18) := cs.flatMap Command.words

/-- Where the sequencer is in the commands whose writes have not been sent. -/
inductive Place (s : MasterSide) (φ : LinkPhase) (part : Option (List TxWord)) :
    List Command → Prop
  | between {cs : List Command} (hst : s.tlp.mst.mstStatus = .idle) (hq : s.queue = wordsOf cs) :
      Place s φ part cs
  | reading {c : Command} {cs : List Command} (hidle : s.tlp.mst.mstStatus ≠ .idle)
      (hdata : s.tlp.mst.mstStatus ≠ .mwrited) (hl : s.tlp.mst.Loaded c)
      (hq : s.queue = c.addrWords s.tlp.mst.mstStatus ++ (c.dataWords ++ wordsOf cs)) :
      Place s φ part (c :: cs)
  | asked {c : Command} {cs : List Command} (hb : s.tlp.mst.Busy c.len.toNat 0)
      (hh : s.tlp.mst.head c.len.toNat = c.head) (hrd : s.tlp.mst.mstRdEn = false)
      (hwait : s.tlp.mst.mstRdWait = true) (hq : s.queue = c.dataWords ++ wordsOf cs) :
      Place s φ part (c :: cs)
  | sending {c : Command} {cs : List Command} {k : ℕ} (hk : 1 ≤ k)
      (hφ : φ = .mwr c.len.toNat (k + 5)) (hh : s.tlp.mst.head c.len.toNat = c.head)
      (hrd : s.tlp.mst.mstRdEn = decide (2 ≤ k ∧ k < 2 * c.len.toNat + 2))
      (hwait : s.tlp.mst.mstRdWait = false)
      (hq : s.queue = c.dataWords.drop (k - 2) ++ wordsOf cs)
      (hd : 3 ≤ k → c.data[k - 3]? = some s.tlp.mst.tx2Data)
      (hpart : ∃ ws, part = some ws ∧ (ws.map TxWord.txData).drop 8 = c.data.take (k - 3)) :
      Place s φ part (c :: cs)

/-- What a cycle leaves of the commands: all of them, or all but the first, whose write is sent. -/
def Advances (s' : MasterSide) (φ' : LinkPhase) (part' : Option (List TxWord))
    (ps : List (List TxWord)) (cs : List Command) : Prop :=
  ps.filter isWrite = [] ∧ Place s' φ' part' cs ∨
    ∃ c cs' ws, cs = c :: cs' ∧ ps.filter isWrite = [ws] ∧ c.Carried ws ∧ Place s' φ' part' cs'

variable {s : MasterSide} {i : MasterIn} {φ φ' : LinkPhase} {part : Option (List TxWord)}
  {ps : List (List TxWord)} {c : Command} {cs : List Command} {n : ℕ}

theorem mst_step (s : MasterSide) (i : MasterIn) : (s.step i).tlp.mst =
    s.tlp.mst.step s.tlp.tx.tx2TlpdReady (s.pcieIn i).mstEmpty (s.pcieIn i).mstDout := rfl

theorem pop_eq (s : MasterSide) (i : MasterIn) :
    (s.tlp.mst.mstRdEn && !(s.pcieIn i).mstEmpty) = s.pop := rfl

theorem pop_of_rdEn (h : s.tlp.mst.mstRdEn = false) : s.pop = false := by
  unfold pop
  rw [h]
  rfl

/-- No word is read. -/
theorem mst_of_unread (hst : s.tlp.mst.mstStatus ≠ .mwrited) (h : s.pop = false) :
    (s.step i).tlp.mst = s.tlp.mst.always (s.pcieIn i).mstEmpty := by
  rw [mst_step, TlpMaster.step_of_unread hst ((pop_eq s i).trans h)]

/-- A word is read. -/
theorem mst_of_read (hst : s.tlp.mst.mstStatus ≠ .mwrited) (h : s.pop = true) :
    (s.step i).tlp.mst =
      (s.tlp.mst.always (s.pcieIn i).mstEmpty).read (s.pcieIn i).mstDout := by
  rw [mst_step, TlpMaster.step_of_read hst ((pop_eq s i).trans h)]

/-- The transmitter takes a word. -/
theorem mst_of_ready (hst : s.tlp.mst.mstStatus = .mwrited)
    (hr : s.tlp.tx.tx2TlpdReady = true) :
    (s.step i).tlp.mst =
      (s.tlp.mst.always (s.pcieIn i).mstEmpty).mwrited true (s.pcieIn i).mstDout := by
  rw [mst_step, hr, TlpMaster.step_mwrited hst]

/-- A cycle that ends no write sends none. -/
theorem filter_of_completes (h : Completes s.tlp (s.pcieIn i) part ps φ)
    (hno : ∀ n, φ ≠ .mwr n (2 * n + 7)) : ps.filter isWrite = [] := by
  cases φ with
  | cpl n p =>
    rw [completes_cpl] at h
    by_cases hlast : p = TlpSlave.cplEnd n
    · rw [if_pos hlast] at h
      exact (h.filter rfl 0x6000#16).trans (if_neg (by decide))
    · rw [if_neg hlast] at h
      rw [h]
      rfl
  | mwr n p =>
    have hlast : p ≠ 2 * n + 7 := fun hlast => hno n (by rw [hlast])
    rw [completes_mwr, if_neg hlast] at h
    rw [h]
    rfl
  | _ =>
    rw [show ps = [] from h]
    rfl

/-- Outside `MST_MWRITED` no write ends. -/
theorem filter_of_ne (hphase : s.tlp.InPhase φ) (h : Completes s.tlp (s.pcieIn i) part ps φ)
    (hst : s.tlp.mst.mstStatus ≠ .mwrited) : ps.filter isWrite = [] := by
  refine filter_of_completes h ?_
  rintro n rfl
  exact hst hphase.mwr_busy.status

theorem wordsOf_cons (c : Command) (cs : List Command) :
    wordsOf (c :: cs) = c.headWord :: (c.addrWords c.start ++ (c.dataWords ++ wordsOf cs)) := by
  unfold wordsOf
  rw [List.flatMap_cons, Command.words, List.cons_append, List.append_assoc]

/-- Between two commands. -/
theorem advances_between {part' : Option (List TxWord)} (hst : s.tlp.mst.mstStatus = .idle)
    (hq : s.queue = wordsOf cs) (hroom : s.Room i) (hphase : s.tlp.InPhase φ)
    (h : Completes s.tlp (s.pcieIn i) part ps φ) : Advances (s.step i) φ' part' ps cs := by
  have hne : s.tlp.mst.mstStatus ≠ .mwrited := by
    rw [hst]
    decide
  left
  refine ⟨filter_of_ne hphase h hne, ?_⟩
  cases hpop : s.pop with
  | false =>
    apply Place.between
    · rw [mst_of_unread hne hpop]
      exact hst
    · rw [queue_of_unread hroom hpop, hq]
  | true =>
    obtain ⟨hread, -⟩ := queue_of_read hroom hpop
    rw [hq] at hread
    cases cs with
    | nil => cases hread
    | cons c cs =>
      rw [wordsOf_cons] at hread
      obtain ⟨hdout, hrest⟩ := List.cons.inj hread
      obtain ⟨hl, hstart⟩ :=
        TlpMaster.loaded_idle (s := s.tlp.mst.always (s.pcieIn i).mstEmpty) hdout.symm
      have hmst : (s.step i).tlp.mst =
          TlpMaster.idle (s.tlp.mst.always (s.pcieIn i).mstEmpty) (s.pcieIn i).mstDout := by
        rw [mst_of_read hne hpop]
        unfold TlpMaster.read
        rw [show (s.tlp.mst.always (s.pcieIn i).mstEmpty).mstStatus = .idle from hst]
      apply Place.reading
      · rw [hmst, hstart]
        unfold Command.start
        split <;> decide
      · rw [hmst, hstart]
        unfold Command.start
        split <;> decide
      · rw [hmst]
        exact hl
      · rw [hmst, hstart]
        exact hrest.symm

/-- The last word of the address is read. -/
theorem place_low {part' : Option (List TxWord)} (hst : s.tlp.mst.mstStatus = .mwrite16)
    (hl : s.tlp.mst.Loaded c) (hpop : s.pop = true)
    (hq : (s.pcieIn i).mstDout :: (s.step i).queue =
      (0b00#2 ++ c.low) :: (c.dataWords ++ wordsOf cs)) :
    Place (s.step i) φ' part' (c :: cs) := by
  obtain ⟨hdout, hrest⟩ := List.cons.inj hq
  have hmst : (s.step i).tlp.mst =
      (s.tlp.mst.always (s.pcieIn i).mstEmpty).mwrite16 (s.pcieIn i).mstDout := by
    rw [mst_of_read (by rw [hst]; decide) hpop]
    unfold TlpMaster.read
    rw [show (s.tlp.mst.always (s.pcieIn i).mstEmpty).mstStatus = .mwrite16 from hst]
  apply Place.asked
  · rw [hmst]
    exact TlpMaster.busy_mwrite16 c.len.isLt hl.length rfl
  · rw [hmst]
    exact TlpMaster.head_mwrite16 (hl.always _) hst hdout
  · rw [hmst]
    rfl
  · rw [hmst]
    rfl
  · exact hrest

/-- Another word of the address is read. -/
theorem place_address {part' : Option (List TxWord)} (hidle : s.tlp.mst.mstStatus ≠ .idle)
    (hdata : s.tlp.mst.mstStatus ≠ .mwrited) (h16 : s.tlp.mst.mstStatus ≠ .mwrite16)
    (hl : s.tlp.mst.Loaded c) (hpop : s.pop = true)
    (hq : (s.pcieIn i).mstDout :: (s.step i).queue =
      c.addrWords s.tlp.mst.mstStatus ++ (c.dataWords ++ wordsOf cs)) :
    Place (s.step i) φ' part' (c :: cs) := by
  have hmst : (s.step i).tlp.mst =
      (s.tlp.mst.always (s.pcieIn i).mstEmpty).read (s.pcieIn i).mstDout := mst_of_read hdata hpop
  obtain ⟨ws, hws⟩ : ∃ ws, c.addrWords s.tlp.mst.mstStatus = (s.pcieIn i).mstDout :: ws := by
    cases hst : s.tlp.mst.mstStatus with
    | idle => exact absurd hst hidle
    | mwrited => exact absurd hst hdata
    | _ =>
      rw [hst] at hq
      exact ⟨_, by rw [(List.cons.inj hq).1]; rfl⟩
  rw [hws, List.cons_append] at hq
  obtain ⟨hl', haddr, hidle', hdata'⟩ := TlpMaster.loaded_read (hl.always _) h16 hws
  apply Place.reading
  · rw [hmst]
    exact hidle'
  · rw [hmst]
    exact hdata'
  · rw [hmst]
    exact hl'
  · rw [hmst, haddr]
    exact (List.cons.inj hq).2

/-- While the address is read. -/
theorem advances_reading {part' : Option (List TxWord)} (hidle : s.tlp.mst.mstStatus ≠ .idle)
    (hdata : s.tlp.mst.mstStatus ≠ .mwrited) (hl : s.tlp.mst.Loaded c)
    (hq : s.queue = c.addrWords s.tlp.mst.mstStatus ++ (c.dataWords ++ wordsOf cs))
    (hroom : s.Room i) (hphase : s.tlp.InPhase φ)
    (h : Completes s.tlp (s.pcieIn i) part ps φ) : Advances (s.step i) φ' part' ps (c :: cs) := by
  left
  refine ⟨filter_of_ne hphase h hdata, ?_⟩
  cases hpop : s.pop with
  | false =>
    have hmst : (s.step i).tlp.mst = s.tlp.mst.always (s.pcieIn i).mstEmpty :=
      mst_of_unread hdata hpop
    apply Place.reading
    · rw [hmst]
      exact hidle
    · rw [hmst]
      exact hdata
    · rw [hmst]
      exact hl.always _
    · rw [queue_of_unread hroom hpop, hq, hmst]
      rfl
  | true =>
    obtain ⟨hread, -⟩ := queue_of_read hroom hpop
    rw [hread] at hq
    by_cases h16 : s.tlp.mst.mstStatus = .mwrite16
    · rw [h16] at hq
      exact place_low h16 hl hpop hq
    · exact place_address hidle hdata h16 hl hpop hq

/-- A write that is asked for is not in its data yet. -/
theorem phase_of_asked (hb : s.tlp.mst.Busy n 0) (hphase : s.tlp.InPhase φ)
    (hr : s.tlp.tx.tx2TlpdReady = true) : φ = .mwr n 5 := by
  rcases hphase.of_ready2 hr with ⟨m, p, rfl, hp⟩ | rfl
  · have hb' := hphase.mwr_busy
    have hk : p - 5 = 0 := of_decide_eq_true (hb'.valid.symm.trans hb.valid)
    have hlen := hb.length
    have hlen' := hb'.length
    rw [hk] at hlen'
    obtain rfl : m = n := by omega
    obtain rfl : p = 5 := by omega
    rfl
  · exact absurd (hb.status.symm.trans hphase.mwrLast_ending.status) (by decide)

/-- What the reader has of a write of which only the header is sent. -/
theorem drop_of_taken {hd : ℕ → Option (BitVec 16)} {p : ℕ} (h : PcieTlp.Taken hd p part)
    (hp : p ≠ 0) (hp8 : p ≤ 8) :
    ∃ ws, part = some ws ∧ (ws.map TxWord.txData).drop 8 = [] := by
  obtain ⟨ws, hws, hlen, -⟩ := h.words hp
  exact ⟨ws, hws, List.drop_eq_nil_of_le (by rw [List.length_map]; omega)⟩

/-- While the write waits for the transmitter. -/
theorem place_waiting {part' : Option (List TxWord)} (hb : s.tlp.mst.Busy c.len.toNat 0)
    (hh : s.tlp.mst.head c.len.toNat = c.head) (hrd : s.tlp.mst.mstRdEn = false)
    (hwait : s.tlp.mst.mstRdWait = true) (hq : s.queue = c.dataWords ++ wordsOf cs)
    (hroom : s.Room i) (hr : s.tlp.tx.tx2TlpdReady = false) :
    Place (s.step i) φ' part' (c :: cs) := by
  have hmst : (s.step i).tlp.mst = s.tlp.mst.always (s.pcieIn i).mstEmpty := by
    rw [mst_step, hr, TlpMaster.step_mwrited hb.status]
    rfl
  apply Place.asked
  · rw [mst_step, hr]
    exact (TlpMaster.busy_wait hb).1
  · rw [mst_step, hr, (TlpMaster.busy_wait hb).2]
    exact hh
  · rw [hmst]
    change (!_ && !s.tlp.mst.mstRdWait) = false
    rw [hwait]
    exact Bool.and_false _
  · rw [hmst]
    exact hwait
  · rw [queue_of_unread hroom (pop_of_rdEn hrd), hq]

/-- The first cycle of the data, in which no word is read yet. -/
theorem place_first {part' : Option (List TxWord)} (hb : s.tlp.mst.Busy c.len.toNat 0)
    (hh : s.tlp.mst.head c.len.toNat = c.head) (hrd : s.tlp.mst.mstRdEn = false)
    (hwait : s.tlp.mst.mstRdWait = true) (hq : s.queue = c.dataWords ++ wordsOf cs)
    (hroom : s.Room i) (hr : s.tlp.tx.tx2TlpdReady = true) (hφ' : φ' = .mwr c.len.toNat 6)
    (hpart : (s.step i).tlp.PartOf part' φ') : Place (s.step i) φ' part' (c :: cs) := by
  obtain ⟨-, hhead, -⟩ := TlpMaster.busy_step (s.pcieIn i).mstEmpty (s.pcieIn i).mstDout hb
    (by omega)
  have hmst := mst_of_ready (i := i) hb.status hr
  have hends := or_congr (TlpMaster.length_eq_ff_iff hb) (TlpMaster.length_eq_iff hb)
  apply Place.sending (k := 1) (Nat.le_refl 1) hφ'
  · rw [mst_step, hr, hhead]
    exact hh
  · rw [hmst]
    unfold TlpMaster.mwrited
    rw [if_pos rfl]
    change (if s.tlp.mst.tx2Length = _ ∨ s.tlp.mst.tx2Length = _ then false else
      (!_ && !s.tlp.mst.mstRdWait)) = _
    rw [if_neg (mt hends.1 (by omega)), hwait, Bool.not_true, Bool.and_false]
    rfl
  · rw [hmst]
    rfl
  · rw [queue_of_unread hroom (pop_of_rdEn hrd), hq]
    rfl
  · intro h3
    omega
  · rw [hφ'] at hpart
    exact drop_of_taken hpart (by decide) (by decide)

/-- While the write is asked for. -/
theorem advances_asked {part' : Option (List TxWord)} (hb : s.tlp.mst.Busy c.len.toNat 0)
    (hh : s.tlp.mst.head c.len.toNat = c.head) (hrd : s.tlp.mst.mstRdEn = false)
    (hwait : s.tlp.mst.mstRdWait = true) (hq : s.queue = c.dataWords ++ wordsOf cs)
    (hfollows : Follows φ φ') (hframed : Framed (s.step i).tlp φ' part') (hroom : s.Room i)
    (hphase : s.tlp.InPhase φ) (h : Completes s.tlp (s.pcieIn i) part ps φ) :
    Advances (s.step i) φ' part' ps (c :: cs) := by
  left
  have hno : ∀ n, φ ≠ .mwr n (2 * n + 7) := by
    rintro n rfl
    have hvalid := hb.valid.symm.trans hphase.mwr_busy.valid
    rw [decide_eq_true rfl, decide_eq_false (by omega)] at hvalid
    cases hvalid
  refine ⟨filter_of_completes h hno, ?_⟩
  cases hr : s.tlp.tx.tx2TlpdReady with
  | false => exact place_waiting hb hh hrd hwait hq hroom hr
  | true =>
    rw [phase_of_asked hb hphase hr] at hfollows
    have hφ' : φ' = .mwr c.len.toNat 6 := hfollows.trans (if_neg (by omega))
    exact place_first hb hh hrd hwait hq hroom hr hφ' hframed.part

/-- `mst_rd_en` after a cycle of the data. -/
theorem rdEn_sending {k : ℕ} (hk : 1 ≤ k) (hb : s.tlp.mst.Busy n k)
    (hwait : s.tlp.mst.mstRdWait = false) (hfifo : k < 2 * n + 2 → s.fifo ≠ []) :
    ((s.tlp.mst.always (s.pcieIn i).mstEmpty).mwrited true (s.pcieIn i).mstDout).mstRdEn =
      decide (2 ≤ k + 1 ∧ k + 1 < 2 * n + 2) := by
  unfold TlpMaster.mwrited
  rw [if_pos rfl]
  change (if s.tlp.mst.tx2Length = _ ∨ s.tlp.mst.tx2Length = _ then false else
    (!s.fifo.isEmpty && !s.tlp.mst.mstRdWait)) = _
  have hends := or_congr (TlpMaster.length_eq_ff_iff hb) (TlpMaster.length_eq_iff hb)
  by_cases hlast : k = 2 * n + 1 ∨ k = 2 * n + 2
  · rw [if_pos (hends.2 hlast), decide_eq_false (by omega)]
  · have hle := hb.le
    have hne := hfifo (by omega)
    rw [if_neg (mt hends.1 hlast), hwait, decide_eq_true (by omega)]
    cases hf : s.fifo with
    | nil => exact absurd hf hne
    | cons w ws => rfl

/-- The words of a write in its data, with the next one. -/
theorem words_sending {k : ℕ} (hk : 1 ≤ k) (hphase : s.tlp.InPhase (.mwr c.len.toNat (k + 5)))
    (htaken : s.tlp.PartOf part (.mwr c.len.toNat (k + 5)))
    (hd : 3 ≤ k → c.data[k - 3]? = some s.tlp.mst.tx2Data)
    (hpart : ∃ ws, part = some ws ∧ (ws.map TxWord.txData).drop 8 = c.data.take (k - 3)) :
    ∃ ws, part = some ws ∧ ws.length = k + 5 ∧ HeadOf (s.tlp.mst.head c.len.toNat) ws ∧
      ((ws ++ [(s.step i).tlp.wire]).map TxWord.txData).drop 8 = c.data.take (k + 1 - 3) := by
  obtain ⟨ws, hws, hlen, hhead⟩ := Taken.words htaken (by omega)
  obtain ⟨ws', hws', hdrop⟩ := hpart
  rw [hws] at hws'
  cases hws'
  obtain ⟨-, -, -, hdata⟩ := mwr_wire (i := s.pcieIn i) hphase
  refine ⟨ws, hws, hlen, hhead, drop_concat (h := 8) (by omega) hdrop fun h3 => ?_⟩
  rw [hd h3]
  exact congrArg some (hdata (by omega)).symm

/-- The place after a cycle of the data that is not the last one. -/
theorem place_sending {sc : Scan TxWord} {k : ℕ} (hk : 1 ≤ k)
    (hlt : k < 2 * c.len.toNat + 2) (hb : s.tlp.mst.Busy c.len.toNat k)
    (hr : s.tlp.tx.tx2TlpdReady = true) (hh : s.tlp.mst.head c.len.toNat = c.head)
    (hrd : s.tlp.mst.mstRdEn = decide (2 ≤ k ∧ k < 2 * c.len.toNat + 2))
    (hwait : s.tlp.mst.mstRdWait = false)
    (hq : s.queue = c.dataWords.drop (k - 2) ++ wordsOf cs) (hfifo : s.fifo ≠ [])
    (hroom : s.Room i) (hφ' : φ' = .mwr c.len.toNat (k + 1 + 5))
    (hpart : ∃ ws, (readWire sc (s.step i).tlp.wire).part = some ws ∧
      (ws.map TxWord.txData).drop 8 = c.data.take (k + 1 - 3)) :
    Place (s.step i) φ' (readWire sc (s.step i).tlp.wire).part (c :: cs) := by
  have hmst := mst_of_ready (i := i) hb.status hr
  obtain ⟨-, hhead, hdata⟩ :=
    TlpMaster.busy_step (s.pcieIn i).mstEmpty (s.pcieIn i).mstDout hb hlt
  have hh' : (s.step i).tlp.mst.head c.len.toNat = c.head := by
    rw [mst_step, hr, hhead]
    exact hh
  have hrd' : (s.step i).tlp.mst.mstRdEn = decide (2 ≤ k + 1 ∧ k + 1 < 2 * c.len.toNat + 2) := by
    rw [hmst]
    exact rdEn_sending hk hb hwait fun _ => hfifo
  have hwait' : (s.step i).tlp.mst.mstRdWait = false := by
    rw [hmst]
    rfl
  by_cases hk1 : k = 1
  · have hpop : s.pop = false := pop_of_rdEn (hrd.trans (decide_eq_false (by omega)))
    apply Place.sending (by omega) hφ' hh' hrd' hwait' ?_ (fun h3 => by omega) hpart
    rw [queue_of_unread hroom hpop, hq, hk1]
  · -- the word that is read now is on the wire two cycles later
    have hpop : s.pop = true := by
      unfold pop
      rw [hrd, decide_eq_true (by omega), Bool.true_and]
      cases hf : s.fifo with
      | nil => exact absurd hf hfifo
      | cons w ws => rfl
    obtain ⟨hread, -⟩ := queue_of_read hroom hpop
    have hlength := c.length_dataWords
    have hdrop := List.drop_eq_getElem_cons (l := c.dataWords) (i := k - 2) (by omega)
    rw [hread, hdrop] at hq
    obtain ⟨hdout, hrest⟩ := List.cons.inj hq
    apply Place.sending (by omega) hφ' hh' hrd' hwait' ?_ ?_ hpart
    · rw [hrest, show k - 2 + 1 = k + 1 - 2 by omega]
      rfl
    · intro _
      rw [mst_step, hr, hdata, show k + 1 - 3 = k - 2 by omega]
      exact Command.dataWords_getElem (by rw [hdout]; exact List.getElem?_eq_getElem _)

/-- While the data are sent. -/
theorem advances_sending {sc : Scan TxWord} {k : ℕ} (hk : 1 ≤ k)
    (hφ : φ = .mwr c.len.toNat (k + 5)) (hh : s.tlp.mst.head c.len.toNat = c.head)
    (hrd : s.tlp.mst.mstRdEn = decide (2 ≤ k ∧ k < 2 * c.len.toNat + 2))
    (hwait : s.tlp.mst.mstRdWait = false)
    (hq : s.queue = c.dataWords.drop (k - 2) ++ wordsOf cs)
    (hd : 3 ≤ k → c.data[k - 3]? = some s.tlp.mst.tx2Data)
    (hpart : ∃ ws, sc.part = some ws ∧ (ws.map TxWord.txData).drop 8 = c.data.take (k - 3))
    (hframed : Framed s.tlp φ sc.part) (hfollows : Follows φ φ') (hfed : s.Fed)
    (hroom : s.Room i) (h : Completes s.tlp (s.pcieIn i) sc.part ps φ) :
    Advances (s.step i) φ' (readWire sc (s.step i).tlp.wire).part ps (c :: cs) := by
  obtain ⟨hphase, htaken⟩ := hframed
  rw [hφ] at hphase htaken hfollows h
  have hb : s.tlp.mst.Busy c.len.toNat k := hphase.mwr_busy
  have hr : s.tlp.tx.tx2TlpdReady = true := hphase.2.1.trans (decide_eq_true (by omega))
  have hle := hb.le
  obtain ⟨-, hend, hword, -⟩ := mwr_wire (i := s.pcieIn i) hphase
  obtain ⟨ws, hws, hlen, hhead, hcat⟩ := words_sending (i := i) hk hphase htaken hd hpart
  by_cases hlast : k = 2 * c.len.toNat + 2
  · right
    have hpop : s.pop = false := pop_of_rdEn (hrd.trans (decide_eq_false (by omega)))
    rw [completes_mwr, if_pos (by omega)] at h
    have hfilter := (h.filter rfl 0x6000#16).trans (if_pos rfl)
    obtain ⟨ws', hws', -, -, rfl⟩ := h
    rw [hws] at hws'
    cases hws'
    refine ⟨c, cs, ws ++ [(s.step i).tlp.wire], rfl, hfilter, ⟨?_, ?_, ?_⟩, ?_⟩
    · rw [List.length_append, hlen]
      change k + 5 + 1 = _
      omega
    · rw [← hh]
      exact hhead.concat fun w hw => hword w (by rw [← hlen]; exact hw)
    · rw [hcat, List.take_of_length_le (by rw [c.length_data]; omega)]
    · apply Place.between
      · rw [mst_of_ready hb.status hr]
        unfold TlpMaster.mwrited
        rw [if_pos rfl]
        exact if_pos ((TlpMaster.length_eq_iff hb).2 hlast)
      · rw [queue_of_unread hroom hpop, hq,
          List.drop_eq_nil_of_le (by rw [c.length_dataWords]; omega)]
        rfl
  · left
    have hlt : k < 2 * c.len.toNat + 2 := by omega
    have hφ' : φ' = .mwr c.len.toNat (k + 1 + 5) := hfollows.trans (if_neg (by omega))
    have hfifo : s.fifo ≠ [] :=
      hfed ⟨hb.status, hr, hwait, fun heq => hlast ((TlpMaster.length_eq_iff hb).1 heq)⟩
    have htake : readWire sc (s.step i).tlp.wire =
        ⟨some (ws ++ [(s.step i).tlp.wire]), sc.done⟩ :=
      readWire_take hws (hend.trans (decide_eq_false (by omega)))
    refine ⟨filter_of_completes h ?_, ?_⟩
    · rintro m hm
      cases hm
      omega
    · exact place_sending hk hlt hb hr hh hrd hwait hq hfifo hroom hφ'
        ⟨_, by rw [htake], hcat⟩

/-- **A cycle with the FIFO fed.** -/
theorem place_step {sc : Scan TxWord} (hframed : Framed s.tlp φ sc.part)
    (hplace : Place s φ sc.part cs) (hfed : s.Fed) (hroom : s.Room i) :
    ∃ φ' ps, Follows φ φ' ∧ Framed (s.step i).tlp φ' (readWire sc (s.step i).tlp.wire).part ∧
      (readWire sc (s.step i).tlp.wire).done = sc.done ++ ps ∧
        Advances (s.step i) φ' (readWire sc (s.step i).tlp.wire).part ps cs := by
  obtain ⟨⟨φ', hfollows, hframed'⟩, ps, hdone, hcompl⟩ := framed_step (i := s.pcieIn i) hframed
  refine ⟨φ', ps, hfollows, hframed', hdone, ?_⟩
  cases hplace with
  | between hst hq => exact advances_between hst hq hroom hframed.phase hcompl
  | reading hidle hdata hl hq => exact advances_reading hidle hdata hl hq hroom hframed.phase hcompl
  | asked hb hh hrd hwait hq =>
    exact advances_asked hb hh hrd hwait hq hfollows hframed' hroom hframed.phase hcompl
  | sending hk hφ hh hrd hwait hq hd hpart =>
    exact advances_sending hk hφ hh hrd hwait hq hd hpart hframed hfollows hfed hroom hcompl

/-- The packets on the wire after a run. -/
def sent (s : MasterSide) (is : List MasterIn) : List (List TxWord) :=
  ((run step s is).tlp.readTo (log step wire s is)).done

/-- The first commands have been sent, and the sequencer is in the others. -/
def Sending (cs : List Command) (s : MasterSide) (ws : List TxWord) : Prop :=
  ∃ φ done rest, cs = done ++ rest ∧ Framed s.tlp φ (s.tlp.readTo ws).part ∧
    Place s φ (s.tlp.readTo ws).part rest ∧
      List.Forall₂ Command.Carried done ((s.tlp.readTo ws).done.filter isWrite)

theorem sending_start (t : PcieTlp) (numwords : ℕ) (cs : List Command) :
    Sending cs (start t numwords cs) [] :=
  ⟨.idle, [], cs, rfl, framed_reset t, .between rfl rfl, .nil⟩

/-- What a cycle adds to the writes that have been sent. -/
theorem carried_step {s' : MasterSide} {part' : Option (List TxWord)} {done rest : List Command}
    {wss wss' : List (List TxWord)} (hcs : cs = done ++ rest)
    (hdone : List.Forall₂ Command.Carried done (wss.filter isWrite)) (hwss : wss' = wss ++ ps)
    (hadv : Advances s' φ' part' ps rest) :
    ∃ done' rest', cs = done' ++ rest' ∧ Place s' φ' part' rest' ∧
      List.Forall₂ Command.Carried done' (wss'.filter isWrite) ∧ rest' <:+ rest := by
  rw [hwss, List.filter_append]
  rcases hadv with ⟨hnone, hplace⟩ | ⟨c, cs', ws, rfl, hone, hcarried, hplace⟩
  · refine ⟨done, rest, hcs, hplace, ?_, List.suffix_rfl⟩
    rw [hnone, List.append_nil]
    exact hdone
  · refine ⟨done ++ [c], cs', ?_, hplace, ?_, List.suffix_cons _ _⟩
    · rw [hcs, List.append_assoc]
      rfl
    · rw [hone]
      exact List.rel_append hdone (.cons hcarried .nil)

theorem sending_step {ws : List TxWord} (h : Sending cs s ws) (hfed : s.Fed)
    (hroom : s.Room i) : Sending cs (s.step i) (ws ++ wire s i) := by
  obtain ⟨φ, done, rest, hcs, hframed, hplace, hdone⟩ := h
  obtain ⟨φ', ps, -, hframed', hps, hadv⟩ := place_step hframed hplace hfed hroom
  obtain ⟨done', rest', hcs', hplace', hdone', -⟩ := carried_step hcs hdone hps hadv
  have hread : (s.step i).tlp.readTo (ws ++ wire s i) =
      readWire (s.tlp.readTo ws) (s.step i).tlp.wire := readTo_step _ _ _
  unfold Sending
  rw [hread]
  exact ⟨φ', done', rest', hcs', hframed', hplace', hdone'⟩

theorem sending_run {t : PcieTlp} {numwords : ℕ} {cs : List Command} {is : List MasterIn}
    (h : Along step (fun s i => s.Fed ∧ s.Room i) (start t numwords cs) is) :
    Sending cs (run step (start t numwords cs) is) (log step wire (start t numwords cs) is) :=
  log_induction (J := Sending cs) (sending_start t numwords cs)
    (fun _ _ _ hs ⟨hfed, hroom⟩ => sending_step hs hfed hroom) is h

/-- Between two commands the next word is the first one of a command that has not been sent. -/
theorem queue_of_idle (hframed : Framed s.tlp φ part) (hplace : Place s φ part cs)
    (hidle : s.tlp.mst.mstStatus = .idle) : s.queue = wordsOf cs := by
  cases hplace with
  | between hst hq => exact hq
  | reading hne => exact absurd hidle hne
  | asked hb => exact absurd (hb.status.symm.trans hidle) (by decide)
  | sending hk hφ =>
    have hphase := hframed.phase
    rw [hφ] at hphase
    exact absurd (hphase.mwr_busy.status.symm.trans hidle) (by decide)

/-- **Writes carry the data of their commands** if in every cycle of the data there is a word in the
FIFO and no word is written while it is full. -/
theorem writes_carried {t : PcieTlp} {numwords : ℕ} {cs : List Command} {is : List MasterIn}
    (h : Along step (fun s i => s.Fed ∧ s.Room i) (start t numwords cs) is) :
    ∃ done rest, cs = done ++ rest ∧
      List.Forall₂ Command.Carried done ((sent (start t numwords cs) is).filter isWrite) ∧
        ((run step (start t numwords cs) is).tlp.mst.mstStatus = .idle →
          (run step (start t numwords cs) is).queue = wordsOf rest) := by
  obtain ⟨φ, done, rest, hcs, hframed, hplace, hdone⟩ := sending_run h
  exact ⟨done, rest, hcs, hdone, queue_of_idle hframed hplace⟩

/-- A command with eight DW. -/
def eightWords : Command where
  flag := true
  is64 := false
  len := 8
  lastbe := 0b1111#4
  firstbe := 0b1111#4
  addr := 0xd0000000#48
  data := (List.range 16).map fun j => 0x1100#16 + BitVec.ofNat 16 j
  len_ne := by decide
  length_data := by decide

/-- Cycles with `tx_rdy` as given, a word being written in those with `push`. -/
def cycle (rdy push : Bool) : MasterIn :=
  ⟨⟨⟨false, false, 0, 0⟩, rdy, 0, 0, 0, 0, true, 0⟩, push⟩

/-- All words of the command are written before the transmitter gets `tx_rdy`. -/
theorem writes_carried_eightWords :
    ∃ done rest, [eightWords] = done ++ rest ∧
      List.Forall₂ Command.Carried done
        ((sent (start default 1024 [eightWords])
          (List.replicate 19 (cycle false true) ++ List.replicate 40 (cycle true false))).filter
            isWrite) ∧
        ((run step (start default 1024 [eightWords])
          (List.replicate 19 (cycle false true) ++
            List.replicate 40 (cycle true false))).tlp.mst.mstStatus = .idle →
          (run step (start default 1024 [eightWords])
            (List.replicate 19 (cycle false true) ++
              List.replicate 40 (cycle true false))).queue = wordsOf rest) :=
  writes_carried (by decide +kernel)

/-- With one word written in every second cycle, as the server does, and `tx_rdy` without delay the
write has other data than the command. -/
theorem eightWords_outrun :
    ((sent (start default 1024 [eightWords])
      ((List.replicate 40 [cycle true false, cycle true true]).flatten)).map fun ws =>
        (ws.map TxWord.txData).drop 8) ≠ [eightWords.data] := by
  decide +kernel

end MasterSide

end IpNuma
