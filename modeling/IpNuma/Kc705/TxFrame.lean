import IpNuma.Kc705.TxPayload

/-!
# The frames of the transmitter, word by word

The FIFO and the address registers are left open, as for the wire grammar.  A complete frame on the
wire is the seven words of preamble and headers, each made from the registers in the cycle before
it, some payload words, and the word with the FCS: `SentFrame.words`.  The checksum in it is the
one begun in the cycle of the preamble, and the FCS is what the CRC register holds when it has
absorbed the words behind the preamble: `Building` follows both registers through the frame.
-/

namespace IpNuma

open Clocked

/-- The first words of a frame, when the address registers are `as` in the cycles before them. -/
def headWords (as : List Addrs) : List XgmiiWord :=
  as.mapIdx fun k a => Phase.headerWord a (TxSide.foldSum (TxSide.headerSum (as.headD default))) k

/-- The CRC register after the words `ws`, from its initial value. -/
def crcOfWords (ws : List XgmiiWord) : BitVec 32 :=
  ws.foldl (fun q w => Crc32D64.lfsrC q w.d.reverse) (BitVec.allOnes 32)

/-- What a frame is made of: the address registers in the seven cycles before the words of its
header, and its payload words. -/
structure SentFrame where
  addrs : List Addrs
  payload : List (BitVec 64)
  length_addrs : addrs.length = 7
  two_le_payload : 2 ≤ payload.length

namespace SentFrame

variable (f : SentFrame)

/-- The words between the start word and the terminate word. -/
def body : List XgmiiWord := (headWords f.addrs).tail ++ f.payload.map TxSide.dataWord

/-- The words on the wire. -/
def words : List XgmiiWord :=
  headWords f.addrs ++ f.payload.map TxSide.dataWord ++
    [TxSide.termWord (XgmiiTx.fcsOf (crcOfWords f.body))]

theorem exists_addrs : ∃ a₀ a₁ a₂ a₃ a₄ a₅ a₆, f.addrs = [a₀, a₁, a₂, a₃, a₄, a₅, a₆] := by
  simpa [List.length_eq_succ_iff, eq_comm] using f.length_addrs

end SentFrame

/-! ### The octets of a frame -/

/-- The octets of a word, lane 0 first. -/
def XgmiiWord.octets (w : XgmiiWord) : List (BitVec 8) := (List.range 8).map (octet w.d)

/-- The octets of a frame behind the SFD. -/
def frameOctets (f : List XgmiiWord) : List (BitVec 8) := f.tail.flatMap XgmiiWord.octets

@[simp] theorem octets_lanes (c b₇ b₆ b₅ b₄ b₃ b₂ b₁ b₀ : BitVec 8) :
    XgmiiWord.octets ⟨c, lanes b₇ b₆ b₅ b₄ b₃ b₂ b₁ b₀⟩ = [b₀, b₁, b₂, b₃, b₄, b₅, b₆, b₇] := by
  simp [XgmiiWord.octets, lanes, List.range_succ]

/-! ### Lists of header words -/

theorem headWords_concat {as : List Addrs} (h : as ≠ []) (a : Addrs) :
    headWords (as ++ [a]) = headWords as ++
      [Phase.headerWord a (TxSide.foldSum (TxSide.headerSum (as.headD default))) as.length] := by
  obtain ⟨b, as, rfl⟩ := List.exists_cons_of_ne_nil h
  rw [headWords, headWords, List.mapIdx_concat]
  rfl

theorem length_headWords (as : List Addrs) : (headWords as).length = as.length := by
  simp [headWords]

theorem crcOfWords_concat (ws : List XgmiiWord) (w : XgmiiWord) :
    crcOfWords (ws ++ [w]) = Crc32D64.lfsrC (crcOfWords ws) w.d.reverse := by
  rw [crcOfWords, List.foldl_append]
  rfl

/-! ### The registers in a frame -/

/-- The frame on the wire has the header words made from `as` and the payload `vs`. -/
structure Building (as : List Addrs) (vs : List (BitVec 64)) (s : XgmiiTx) : Prop where
  crcInit : s.tx.crcInit = decide (as.length = 1)
  crc : s.crc = crcOfWords ((headWords as).tail ++ vs.map TxSide.dataWord)
  ipSum : s.tx.ipSum = if as.length = 1 then TxSide.headerSum (as.headD default)
    else TxSide.foldSum (TxSide.headerSum (as.headD default))

section Registers

variable {s : XgmiiTx} {t : TxSide} {as : List Addrs} {vs : List (BitVec 64)} {k : ℕ}

/-- The registers for CRC and checksum in `TX_HEADER`. -/
theorem headerStep_regs (a : Addrs) (hk : k < 7) (hc : t.txCounter = BitVec.ofNat 32 (8 * k)) :
    (t.headerStep a).crcInit = (if k = 0 then true else if k = 1 then false else t.crcInit) ∧
      (t.headerStep a).ipSum = if k = 0 then TxSide.headerSum a
        else if k = 1 then TxSide.foldSum t.ipSum else t.ipSum := by
  interval_cases k <;> simp [TxSide.headerStep, hc, TxSide.drive]

variable (s) in
/-- The CRC register absorbs the word on the wire, or is set. -/
theorem crc_tick (i : TxIn) : (s.tick i).crc =
    Crc32D64.step (s.tick i).tx.crcInit (!(s.tick i).tx.crcInit) s.crc (s.tick i).out.d.reverse := rfl

/-- The header word that goes out has the checksum of the frame. -/
theorem Building.headerWord (hb : Building as vs s) (hk : as.length = k + 1) (a : Addrs) :
    Phase.headerWord a s.tx.ipSum (k + 1) =
      Phase.headerWord a (TxSide.foldSum (TxSide.headerSum (as.headD default))) (k + 1) := by
  cases k with
  | zero => rfl
  | succ k => rw [hb.ipSum, if_neg (by omega)]

/-- The preamble. -/
theorem building_start (h : InPhase (.header 0) s) (i : TxIn) :
    Building [i.addrs] [] (s.tick i) := by
  obtain ⟨-, -, ht, hc, hk, -⟩ := h
  have htx : (s.tick i).tx = s.tx.headerStep i.addrs := by
    simp only [XgmiiTx.tick, XgmiiTx.step, TxSide.step, ht]
  obtain ⟨hinit, hsum⟩ := headerStep_regs i.addrs hk hc
  rw [← htx, if_pos rfl] at hinit hsum
  refine ⟨by rw [hinit]; rfl, ?_, by rw [hsum]; rfl⟩
  rw [crc_tick, hinit]
  rfl

/-- A header word. -/
theorem building_header (h : InPhase (.header (k + 1)) s) (hb : Building as [] s)
    (has : as.length = k + 1) (i : TxIn) : Building (as ++ [i.addrs]) [] (s.tick i) := by
  have hout := step_out i.addrs i.dout i.empty h
  obtain ⟨-, -, ht, hc, hk, -⟩ := h
  have htx : (s.tick i).tx = s.tx.headerStep i.addrs := by
    simp only [XgmiiTx.tick, XgmiiTx.step, TxSide.step, ht]
  have hne : as ≠ [] := List.ne_nil_of_length_eq_add_one has
  have hlen : (as ++ [i.addrs]).length ≠ 1 := by
    rw [List.length_append, has]
    simp
  have hhead : (as ++ [i.addrs]).headD default = as.headD default := by
    obtain ⟨b, bs, rfl⟩ := List.exists_cons_of_ne_nil hne
    rfl
  obtain ⟨hinit, hsum⟩ := headerStep_regs i.addrs hk hc
  rw [← htx, if_neg (Nat.succ_ne_zero k)] at hinit hsum
  have hinit' : (s.tick i).tx.crcInit = false := by
    rw [hinit, hb.crcInit, has]
    split_ifs with h1
    · rfl
    · exact decide_eq_false h1
  refine ⟨by rw [hinit', decide_eq_false hlen], ?_, ?_⟩
  · have htail : (headWords (as ++ [i.addrs])).tail =
        (headWords as).tail ++ [Phase.headerWord i.addrs s.tx.ipSum (k + 1)] := by
      rw [headWords_concat hne, hb.headerWord has, has]
      exact List.tail_append_of_ne_nil (by
        rw [← List.length_pos_iff, length_headWords, has]
        exact Nat.succ_pos k)
    rw [crc_tick, hinit', htail, List.map_nil, List.append_nil, crcOfWords_concat, XgmiiTx.tick, hout,
      hb.crc, List.map_nil, List.append_nil]
    rfl
  · rw [hsum, hb.ipSum, has, hhead, if_neg hlen]
    split_ifs <;> rfl

/-- A payload word. -/
theorem building_payload (ht : s.tx.state = .data) (hf : s.fifo.state = .data)
    (hb : Building as vs s) (has : as.length = 7) (i : TxIn) :
    Building as (vs ++ [payload s.fifo.dout2]) (s.tick i) := by
  have htx : (s.tick i).tx = s.tx.drive (TxSide.dataWord (payload s.fifo.dout2)) := by
    simp only [XgmiiTx.tick, XgmiiTx.step, TxSide.step, ht, hf, if_true]
  have hinit : (s.tick i).tx.crcInit = false := by
    rw [htx]
    exact hb.crcInit.trans (by rw [has]; rfl)
  refine ⟨by rw [hinit, has]; rfl, ?_, ?_⟩
  · rw [crc_tick, hinit, List.map_append, ← List.append_assoc, List.map_singleton,
      crcOfWords_concat, ← hb.crc, XgmiiTx.out, htx]
    rfl
  · rw [htx]
    exact hb.ipSum

end Registers

/-! ### The frame in each phase -/

namespace Phase

/-- No frame is on the wire. -/
def Outside : Phase → Prop
  | .idle | .armed | .header 0 | .term => True
  | _ => False

/-- A frame is on the wire with `m` header words, the preamble among them, and `n` payload words. -/
def Inside : Phase → ℕ → ℕ → Prop
  | .header (k + 1), m, n => m = k + 1 ∧ n = 0
  | .first, m, n => m = 7 ∧ n = 0
  | .data, m, n => m = 7 ∧ 1 ≤ n
  | .tail, m, n => m = 7 ∧ 2 ≤ n
  | _, _, _ => False

end Phase

/-- The open frame on the wire is the one of the phase. -/
def FrameOpen (P : Addrs → Prop) (p : Phase) (s : XgmiiTx) : Option (List XgmiiWord) → Prop
  | none => p.Outside
  | some hs => ∃ as vs, hs = headWords as ++ vs.map TxSide.dataWord ∧ p.Inside as.length vs.length ∧
      (∀ a ∈ as, P a) ∧ Building as vs s

/-- The engine is in a phase, the open frame on the wire is the one of the phase, and the complete
ones are as they should be, with address registers that meet `P`. -/
structure Framing (P : Addrs → Prop) (p : Phase) (s : XgmiiTx) (ws : List XgmiiWord) : Prop where
  inPhase : InPhase p s
  openFrame : FrameOpen P p s (wireScan ws).part
  done : ∀ f ∈ (wireScan ws).done, ∃ g : SentFrame, (∀ a ∈ g.addrs, P a) ∧ f = g.words

section Framing

variable {P : Addrs → Prop} {p : Phase} {s : XgmiiTx} {ws : List XgmiiWord}

theorem framing_reset (s : XgmiiTx) : Framing P .idle s.reset [] :=
  ⟨reset_inPhase s, trivial, fun _ hf => absurd hf List.not_mem_nil⟩

/-- Outside of frames nothing is open. -/
theorem Framing.part_none (h : Framing P p s ws) (hp : ∀ m n, ¬ p.Inside m n) :
    (wireScan ws).part = none := by
  have ho := h.openFrame
  cases hpart : (wireScan ws).part with
  | none => rfl
  | some hs =>
    rw [hpart] at ho
    obtain ⟨as, vs, -, hin, -⟩ := ho
    exact absurd hin (hp _ _)

/-- Inside of a frame it is open. -/
theorem Framing.part_some (h : Framing P p s ws) (hp : ¬ p.Outside) :
    ∃ as vs, (wireScan ws).part = some (headWords as ++ vs.map TxSide.dataWord) ∧
      p.Inside as.length vs.length ∧ (∀ a ∈ as, P a) ∧ Building as vs s := by
  have ho := h.openFrame
  cases hpart : (wireScan ws).part with
  | none =>
    rw [hpart] at ho
    exact absurd ho hp
  | some hs =>
    rw [hpart] at ho
    obtain ⟨as, vs, rfl, hin⟩ := ho
    exact ⟨as, vs, rfl, hin⟩

/-- An idle word between frames. -/
theorem Framing.idle (h : Framing P p s ws) (hp : ∀ m n, ¬ p.Inside m n) {p' : Phase}
    {s' : XgmiiTx} (hs' : InPhase p' s') (hp' : p'.Outside) :
    Framing P p' s' (ws ++ [idleWord]) := by
  have hnone := h.part_none hp
  rw [← wireScan_idle hnone] at hnone
  exact ⟨hs', by rw [hnone]; exact hp', by rw [wireScan_idle (h.part_none hp)]; exact h.done⟩

/-- A data word inside a frame. -/
theorem Framing.data {hs : List XgmiiWord} (h : Framing P p s ws)
    (hpart : (wireScan ws).part = some hs) {w : XgmiiWord} (hw : IsDataWord w) {p' : Phase}
    {s' : XgmiiTx} (hs' : InPhase p' s') (ho : FrameOpen P p' s' (some (hs ++ [w]))) :
    Framing P p' s' (ws ++ [w]) :=
  ⟨hs', by rw [wireScan_data hpart hw]; exact ho, by rw [wireScan_data hpart hw]; exact h.done⟩

/-- **One edge.** -/
theorem framing_tick (h : Framing P p s ws) {i : TxIn} (hi : P i.addrs) :
    Framing P (p.next s.fifo i.dout) (s.tick i) (ws ++ [(s.tick i).out]) := by
  have hin := step_inPhase i.addrs i.dout i.empty h.inPhase
  rw [XgmiiTx.tick, step_out i.addrs i.dout i.empty h.inPhase]
  cases p with
  | idle =>
    refine h.idle (fun _ _ => id) hin ?_
    simp only [Phase.next]
    split_ifs <;> trivial
  | armed => exact h.idle (fun _ _ => id) hin trivial
  | header k =>
    cases k with
    | zero =>
      have hnone := h.part_none fun _ _ => id
      have hscan : wireScan (ws ++ [TxSide.preambleWord]) =
          ⟨some [TxSide.preambleWord], (wireScan ws).done⟩ :=
        scan_start (by rw [← hnone]; rfl) (by decide)
      refine ⟨hin, ?_, ?_⟩
      · simp only [Phase.drives, Phase.headerWord]
        rw [hscan]
        exact ⟨[i.addrs], [], rfl, ⟨rfl, rfl⟩, List.forall_mem_singleton.2 hi,
          building_start h.inPhase i⟩
      · simp only [Phase.drives, Phase.headerWord]
        rw [hscan]
        exact h.done
    | succ k =>
      obtain ⟨as, vs, hpart, ⟨has, hvs⟩, hP, hb⟩ := h.part_some id
      obtain rfl := List.eq_nil_of_length_eq_zero hvs
      have hne : as ≠ [] := List.ne_nil_of_length_eq_add_one has
      refine h.data hpart (headerWord_isData _ _ k) hin ⟨as ++ [i.addrs], [], ?_, ?_, ?_, ?_⟩
      · rw [headWords_concat hne, ← has, has, ← hb.headerWord has]
        simp
      · simp only [Phase.next, List.length_append, has, List.length_singleton, List.length_nil]
        split_ifs with h6
        · exact ⟨by omega, rfl⟩
        · exact ⟨rfl, rfl⟩
      · exact List.forall_mem_append.2 ⟨hP, List.forall_mem_singleton.2 hi⟩
      · exact building_header h.inPhase hb has i
  | first =>
    obtain ⟨as, vs, hpart, ⟨has, hvs⟩, hP, hb⟩ := h.part_some id
    obtain ⟨hf, -, ht⟩ := h.inPhase
    refine h.data hpart (w := TxSide.dataWord (payload s.fifo.dout2)) rfl hin
      ⟨as, vs ++ [payload s.fifo.dout2], by simp, ?_, hP, building_payload ht hf hb has i⟩
    exact ⟨has, by simp⟩
  | data =>
    obtain ⟨as, vs, hpart, ⟨has, hvs⟩, hP, hb⟩ := h.part_some id
    obtain ⟨hf, ht⟩ := h.inPhase
    refine h.data hpart (w := TxSide.dataWord (payload s.fifo.dout2)) rfl hin
      ⟨as, vs ++ [payload s.fifo.dout2], by simp, ?_, hP, building_payload ht hf hb has i⟩
    simp only [Phase.next]
    split_ifs
    · exact ⟨has, by simpa using hvs⟩
    · exact ⟨has, by simp⟩
  | tail =>
    obtain ⟨as, vs, hpart, ⟨has, hvs⟩, hP, hb⟩ := h.part_some id
    have hscan := wireScan_term hpart (termWord_isTerm (XgmiiTx.fcsOf s.crc))
    refine ⟨hin, ?_, ?_⟩
    · simp only [Phase.drives]
      rw [hscan]
      trivial
    · simp only [Phase.drives]
      rw [hscan]
      refine List.forall_mem_append.2 ⟨h.done, List.forall_mem_singleton.2 ?_⟩
      refine ⟨⟨as, vs, has, hvs⟩, hP, ?_⟩
      rw [SentFrame.words, SentFrame.body, ← hb.crc]
  | term =>
    refine h.idle (fun _ _ => id) hin ?_
    simp only [Phase.next]
    split_ifs <;> trivial

/-- The complete frames on the wire, in words. -/
def frames (ws : List XgmiiWord) : List (List XgmiiWord) := (wireScan ws).done

/-- What the engine puts on the wire, a word after each edge. -/
def XgmiiTx.wire (s : XgmiiTx) (is : List TxIn) : List XgmiiWord :=
  log XgmiiTx.tick (fun s i => [(s.tick i).out]) s is

/-- **The frames of a run** from reset, for every behaviour of the FIFO. -/
theorem frames_wire (s : XgmiiTx) {is : List TxIn} (hP : ∀ i ∈ is, P i.addrs) :
    ∀ f ∈ frames (s.reset.wire is), ∃ g : SentFrame, (∀ a ∈ g.addrs, P a) ∧ f = g.words := by
  have h : ∃ p, Framing P p (run XgmiiTx.tick s.reset is) (s.reset.wire is) :=
    log_induction (J := fun s ws => ∃ p, Framing P p s ws) (P := fun _ i => P i.addrs)
      ⟨.idle, framing_reset s⟩ (fun _ _ _ ⟨_, hp⟩ hi => ⟨_, framing_tick hp hi⟩) is
      (along_of_forall _ hP)
  obtain ⟨p, hp⟩ := h
  exact hp.done

end Framing

end IpNuma
