import IpNuma.Ecp3.Server

/-!
# Frames in the command server

Of the registers of the server a gap clears only the counter; the state stays as it is.  So a frame
that ends in the middle of a command leaves a server that takes the first bytes of the next frame
for the rest of the command.

* `log_of_idle`: from `SRV_IDLE` the words pushed for a frame are those the server pushes for it
  alone.  Two servers are run over the same words; `Agree` says that they differ only in registers
  that are written before they are used.
* `alone_eq_nil_iff`: a frame pushes nothing exactly when it opens no command.  The counter has
  twelve bits, so a command is opened by a match at any multiple of 4096.
* `isolated_iff` puts the two together; `pushes_stray` is the frame that tells every other state
  from `SRV_IDLE`.
-/

namespace IpNuma

open Clocked

/-- A frame in the receive FIFO: its bytes, then words with tag 0. -/
structure PhyFrame where
  bytes : List (BitVec 8)
  gap : List (BitVec 8)
  gap_ne : gap ≠ []

namespace PhyFrame

theorem zero_ne : [0x00#8] ≠ [] := List.cons_ne_nil _ _

open Server

/-- The words of a frame. -/
def words (f : PhyFrame) : List (BitVec 9) := f.bytes.map byteWord ++ f.gap.map gapWord

/-- The header the server looks for, as offsets and bytes: EtherType, protocol, destination port and
magic code. -/
def signature : List (ℕ × BitVec 8) :=
  [(0x0c, 0x08#8), (0x0d, 0x00#8), (0x17, 0x11#8), (0x24, 0x0d#8), (0x25, 0x5e#8), (0x2a, 0xa1#8),
    (0x2b, 0x11#8), (0x2c, 0x00#8), (0x2d, 0x00#8)]

/-- The header is in the bytes from an offset on. -/
def Matches (l : List (BitVec 8)) (n : ℕ) : Prop := ∀ p ∈ signature, l[n + p.1]? = some p.2

instance (l : List (BitVec 8)) (n : ℕ) : Decidable (Matches l n) :=
  inferInstanceAs (Decidable (∀ p ∈ signature, l[n + p.1]? = some p.2))

/-- The header and two bytes of a command are in the bytes from an offset on. -/
def OpensAt (l : List (BitVec 8)) (n : ℕ) : Prop :=
  Matches l n ∧ n + 0x2f < l.length ∧ l[n + 0x2e]? ≠ some 0x00#8

/-- The frame does not match, but a later part of it does where the counter of twelve bits is at
zero again. -/
def Rematches (l : List (BitVec 8)) : Prop := ¬ Matches l 0 ∧ ∃ q, OpensAt l (4096 * q)

end PhyFrame

namespace Server

open PhyFrame

/-- The server after a reset, reading. -/
def ready : Server := { reset default with phyRdEn := true }

/-- What the server pushes for a frame that it takes first of all. -/
def alone (l : List (BitVec 8)) : List (BitVec 18) :=
  log step push ready ((l.map byteWord ++ [gapWord 0]).map deliver)

/-- Whatever words were taken before, a frame makes the server push what it does alone, and nothing
unless it matches. -/
def Isolated (s : Server) (f : PhyFrame) : Prop :=
  ∀ js, Along step NoUnderflow s js → log step taken s js = f.words →
    log step push s js = alone f.bytes ∧ (¬ Matches f.bytes 0 → log step push s js = [])

variable {s t : Server} {i : PhyOut} {is : List PhyOut} {b : BitVec 8}

/-! ### The header -/

/-- The byte of the header at an offset, as it is stored. -/
def headerByte (s : Server) : ℕ → BitVec 8
  | 0x0c => octet s.ethType 1
  | 0x0d => octet s.ethType 0
  | 0x17 => s.ipv4Protocol
  | 0x24 => octet s.ipv4DestPort 1
  | 0x25 => octet s.ipv4DestPort 0
  | 0x2a => octet s.magicCode 3
  | 0x2b => octet s.magicCode 2
  | 0x2c => octet s.magicCode 1
  | _ => 0

/-- The offsets whose bytes are stored for the match at `0x2d`. -/
def captured : List ℕ := [0x0c, 0x0d, 0x17, 0x24, 0x25, 0x2a, 0x2b, 0x2c]

theorem headerByte_header {k : ℕ} (hk : k ∈ captured) :
    headerByte (header s b) k = if k = s.counter.toNat then b else headerByte s k := by
  unfold header
  simp only [captured, List.mem_cons, List.not_mem_nil, or_false] at hk
  split
  case h_9 =>
    rcases hk with rfl | rfl | rfl | rfl | rfl | rfl | rfl | rfl <;>
      simp_all [headerByte] <;> split <;> rfl
  case h_10 =>
    rcases hk with rfl | rfl | rfl | rfl | rfl | rfl | rfl | rfl <;>
      simp_all [headerByte, eq_comm]
  all_goals
    rcases hk with rfl | rfl | rfl | rfl | rfl | rfl | rfl | rfl <;>
      simp_all [headerByte, octet_setOctet]

theorem eq_iff_octet {n : ℕ} {x y : BitVec (8 * n)} : x = y ↔ ∀ i < n, octet x i = octet y i := by
  constructor
  · rintro rfl i -
    rfl
  · exact eq_of_octet x y

theorem eq_halfword_iff {x : BitVec 16} {h l : BitVec 8} :
    x = h ++ l ↔ octet x 1 = h ∧ octet x 0 = l := by
  have hl : octet (h ++ l) 0 = l := by simp
  have hh : octet (h ++ l) 1 = h := by simp
  rw [eq_iff_octet (n := 2) (x := x)]
  constructor
  · intro hx
    exact ⟨(hx 1 (by decide)).trans hh, (hx 0 (by decide)).trans hl⟩
  · rintro ⟨h1, h0⟩ i hi
    obtain rfl | rfl : i = 0 ∨ i = 1 := by omega
    · exact h0.trans hl.symm
    · exact h1.trans hh.symm

theorem matchesHeader_iff :
    matchesHeader s b = true ↔ (∀ p ∈ signature, p.1 < 0x2d → headerByte s p.1 = p.2) ∧ b = 0 := by
  have htype : s.ethType = 0x0800#16 ↔ octet s.ethType 1 = 0x08#8 ∧ octet s.ethType 0 = 0x00#8 := by
    rw [show 0x0800#16 = 0x08#8 ++ 0x00#8 from rfl]
    exact eq_halfword_iff
  have hport : s.ipv4DestPort = 0x0d5e#16 ↔
      octet s.ipv4DestPort 1 = 0x0d#8 ∧ octet s.ipv4DestPort 0 = 0x5e#8 := by
    rw [show 0x0d5e#16 = 0x0d#8 ++ 0x5e#8 from rfl]
    exact eq_halfword_iff
  have hmagic : s.magicCode.extractLsb' 8 24 ++ b = 0xa1110000#32 ↔
      (octet s.magicCode 3 = 0xa1#8 ∧ octet s.magicCode 2 = 0x11#8 ∧
        octet s.magicCode 1 = 0x00#8) ∧ b = 0x00#8 := by
    have hoct : ∀ j < 3,
        octet (s.magicCode.extractLsb' 8 24 ++ b) (j + 1) = octet s.magicCode (1 + j) :=
      fun j hj => (octet_append_succ _ _ j).trans (octet_extractLsb' _ (a := 1) (by omega))
    rw [eq_iff_octet (n := 4), Nat.forall_lt_succ_right, Nat.forall_lt_succ_right,
      Nat.forall_lt_succ_right, Nat.forall_lt_succ_right, hoct 0 (by decide), hoct 1 (by decide),
      hoct 2 (by decide), octet_append_zero]
    constructor
    · rintro ⟨⟨⟨⟨-, h0⟩, h1⟩, h2⟩, h3⟩
      exact ⟨⟨h3, h2, h1⟩, h0⟩
    · rintro ⟨⟨h3, h2, h1⟩, h0⟩
      exact ⟨⟨⟨⟨fun _ h => absurd h (Nat.not_lt_zero _), h0⟩, h1⟩, h2⟩, h3⟩
  unfold matchesHeader
  simp only [Bool.and_eq_true, beq_iff_eq, htype, hport, hmagic]
  simp [signature, headerByte, and_assoc]

theorem srvStatus_header : (header s b).srvStatus =
    if s.counter.toNat = 0x2d ∧ matchesHeader s b = true then .head0 else s.srvStatus := by
  unfold header
  split
  case h_9 hc =>
    rw [hc]
    cases matchesHeader s b <;> rfl
  case h_10 => rw [if_neg fun h => by simp_all]
  all_goals rw [if_neg fun h => by omega]

/-- Bytes of the header go to registers that are for the header only. -/
theorem header_rest : (header s b).mstWrEn = s.mstWrEn ∧ (header s b).mstDin = s.mstDin := by
  unfold header
  split
  case h_9 => split <;> exact ⟨rfl, rfl⟩
  all_goals exact ⟨rfl, rfl⟩

theorem le_counter {c : BitVec 12} {k : ℕ} (h : k < (c + 1).toNat) : k ≤ c.toNat := by
  rw [BitVec.toNat_add] at h
  have hle := Nat.mod_le (c.toNat + (1#12).toNat) (2 ^ 12)
  exact Nat.le_of_lt_succ (Nat.lt_of_lt_of_le h hle)

theorem mem_captured {p : ℕ × BitVec 8} (hp : p ∈ signature) (hlt : p.1 < 0x2d) :
    p.1 ∈ captured := by
  revert hlt
  revert p
  decide

theorem lt_of_captured {k : ℕ} (hk : k ∈ captured) : k < 0x2d := by
  revert k
  decide

/-! ### Two runs over the same words -/

theorem upper_high (s : Server) (x : BitVec 10) : (upper s x).extractLsb' 8 10 = x := by
  apply BitVec.eq_of_getLsbD_eq
  intro i hi
  unfold upper
  rw [BitVec.getLsbD_extractLsb', BitVec.getLsbD_append, if_neg (by omega), decide_eq_true hi,
    Bool.true_and, Nat.add_sub_cancel_left]

/-- The servers differ only in what is written again before it is used. -/
structure Agree (s t : Server) : Prop where
  reading : s.phyRdEn = true ∧ t.phyRdEn = true
  status : t.srvStatus = s.srvStatus
  counter : t.counter = s.counter
  wrEn : t.mstWrEn = s.mstWrEn
  din : s.mstWrEn = true → t.mstDin = s.mstDin
  header : ∀ k ∈ captured, (s.srvStatus = .idle → k < s.counter.toNat) →
    headerByte t k = headerByte s k
  command : s.srvStatus ≠ .idle → s.srvStatus ≠ .head0 →
    t.srv64bit = s.srv64bit ∧ t.blen = s.blen ∧ t.phyDout2 = s.phyDout2 ∧
      t.mstDin.extractLsb' 8 10 = s.mstDin.extractLsb' 8 10 ∧
        (s.srvStatus ≠ .head1 → t.mstDin = s.mstDin)

theorem matchesHeader_congr (h : ∀ k ∈ captured, headerByte t k = headerByte s k) :
    matchesHeader t b = matchesHeader s b := by
  rw [Bool.eq_iff_iff, matchesHeader_iff, matchesHeader_iff]
  refine and_congr_left fun _ => forall₂_congr fun p hp => imp_congr_right fun hlt => ?_
  rw [h p.1 (mem_captured hp hlt)]

/-- A byte taken in `SRV_IDLE`. -/
theorem agree_header (hs : s.srvStatus = .idle) (ht : t.srvStatus = .idle)
    (hc : t.counter = s.counter) (hws : s.mstWrEn = false) (hwt : t.mstWrEn = false)
    (hcap : ∀ k ∈ captured, k < s.counter.toNat → headerByte t k = headerByte s k) :
    Agree (next (header s b) (s.counter + 1) b) (next (header t b) (s.counter + 1) b) := by
  have hcap' : ∀ k ∈ captured, k ≤ s.counter.toNat →
      headerByte (header t b) k = headerByte (header s b) k := by
    intro k hk hle
    rw [headerByte_header hk, headerByte_header hk, hc]
    split
    · rfl
    · exact hcap k hk (by omega)
  have hmatch : s.counter.toNat = 0x2d → matchesHeader t b = matchesHeader s b := by
    intro h
    refine matchesHeader_congr fun k hk => hcap k hk ?_
    have := lt_of_captured hk
    omega
  have hstatus : (header t b).srvStatus = (header s b).srvStatus := by
    rw [srvStatus_header, srvStatus_header, hs, ht, hc]
    by_cases h : s.counter.toNat = 0x2d
    · rw [hmatch h]
    · rw [if_neg fun h' => h h'.1, if_neg fun h' => h h'.1]
  have hws' : (header s b).mstWrEn = false := header_rest.1.trans hws
  refine ⟨⟨rfl, rfl⟩, hstatus, rfl, ?_, ?_, ?_, ?_⟩
  · exact header_rest.1.trans (hwt.trans hws'.symm)
  · exact fun h => absurd (hws'.symm.trans h) Bool.false_ne_true
  · intro k hk hlt
    refine hcap' k hk ?_
    have hk' := lt_of_captured hk
    change (header s b).srvStatus = .idle → k < (s.counter + 1).toNat at hlt
    rw [srvStatus_header, hs] at hlt
    by_cases h : s.counter.toNat = 0x2d ∧ matchesHeader s b = true
    · omega
    · have hlt' := hlt (if_neg h)
      exact le_counter hlt'
  · intro h1 h2
    change (header s b).srvStatus ≠ _ at h1 h2
    rw [srvStatus_header, hs] at h1 h2
    split at h1
    · exact absurd (if_pos ‹_›) h2
    · exact absurd rfl h1

theorem Agree.push_eq (h : Agree s t) : push t i = push s i := by
  unfold push
  rw [h.wrEn]
  split
  · rw [h.din ‹_›]
  · rfl

theorem Agree.gap (h : Agree s t) :
    Agree (step s (deliver (gapWord b))) (step t (deliver (gapWord b))) := by
  obtain ⟨⟨hs, ht⟩, status, counter, wrEn, din, header, command⟩ := h
  rw [step_gap hs, step_gap ht]
  refine ⟨⟨rfl, rfl⟩, status, rfl, rfl, fun hw => absurd hw Bool.false_ne_true, ?_, ?_⟩
  · intro k hk hlt
    exact header k hk fun hidle => absurd (hlt hidle) (Nat.not_lt_zero k)
  · intro h1 h2
    obtain ⟨h64, hblen, -, hdin⟩ := command h1 h2
    exact ⟨h64, hblen, rfl, hdin⟩

/-- The registers of the header taken from another server. -/
def withHeader (s t : Server) : Server :=
  { s with
    ethType := t.ethType
    ipv4Protocol := t.ipv4Protocol
    ipv4DestPort := t.ipv4DestPort
    magicCode := t.magicCode }

/-- Outside `SRV_IDLE` the header is neither read nor written. -/
theorem byte_withHeader (h : s.srvStatus ≠ .idle) :
    byte (withHeader s t) b = withHeader (byte s b) t := by
  unfold byte withHeader
  cases hst : s.srvStatus
  case idle => exact absurd hst h
  case addr32 =>
    simp only
    split <;> rfl
  all_goals rfl

theorem headerByte_byte (h : s.srvStatus ≠ .idle) (k : ℕ) :
    headerByte (byte s b) k = headerByte s k := by
  unfold byte
  cases hst : s.srvStatus
  case idle => exact absurd hst h
  case addr32 =>
    simp only
    split <;> rfl
  all_goals rfl

/-- A byte taken in `SRV_HEAD0`. -/
theorem agree_head0 (hs : s.srvStatus = .head0) (ht : t.srvStatus = .head0) {c : BitVec 12}
    (hws : s.mstWrEn = false) (hwt : t.mstWrEn = false)
    (h : ∀ k ∈ captured, headerByte t k = headerByte s k) :
    Agree (next (byte s b) c b) (next (byte t b) c b) := by
  rw [byte_head0 hs, byte_head0 ht]
  refine ⟨⟨rfl, rfl⟩, rfl, rfl, hwt.trans hws.symm, ?_, fun k hk _ => h k hk, ?_⟩
  · exact fun hw => absurd (hws.symm.trans hw) Bool.false_ne_true
  · intro h1 _
    refine ⟨rfl, rfl, rfl, (upper_high t _).trans (upper_high s _).symm, fun h2 => ?_⟩
    change (if b = 0x00#8 then SrvState.idle else .head1) ≠ _ at h1 h2
    split at h1
    · exact absurd rfl h1
    · exact absurd (if_neg ‹_›) h2

/-- A byte taken in `SRV_HEAD1`. -/
theorem agree_head1 (hs : s.srvStatus = .head1) (ht : t.srvStatus = .head1) {c : BitVec 12}
    (h64 : t.srv64bit = s.srv64bit) (hblen : t.blen = s.blen)
    (hupper : t.mstDin.extractLsb' 8 10 = s.mstDin.extractLsb' 8 10)
    (h : ∀ k ∈ captured, headerByte t k = headerByte s k) :
    Agree (next (byte s b) c b) (next (byte t b) c b) := by
  have hdin : lower t b = lower s b := by
    unfold lower
    rw [hupper]
  rw [byte_head1 hs, byte_head1 ht]
  refine ⟨⟨rfl, rfl⟩, ?_, rfl, rfl, fun _ => hdin, fun k hk _ => h k hk, fun _ _ => ?_⟩
  · change (if t.srv64bit then SrvState.addr64 else .addr32) = _
    rw [h64]
    rfl
  · exact ⟨h64, hblen, rfl, congrArg (·.extractLsb' 8 10) hdin, fun _ => hdin⟩

/-- A later byte of a command, taken by servers that differ in the header only. -/
theorem agree_withHeader (hs : s.srvStatus ≠ .idle) {c : BitVec 12}
    (h : ∀ k ∈ captured, headerByte t k = headerByte s k) :
    Agree (next (byte s b) c b) (next (byte (withHeader s t) b) c b) := by
  rw [byte_withHeader hs]
  refine ⟨⟨rfl, rfl⟩, rfl, rfl, rfl, fun _ => rfl, ?_, fun _ _ => ⟨rfl, rfl, rfl, rfl, fun _ => rfl⟩⟩
  intro k hk _
  exact (h k hk).trans (headerByte_byte hs k).symm

theorem Agree.byte (h : Agree s t) :
    Agree (step s (deliver (byteWord b))) (step t (deliver (byteWord b))) := by
  obtain ⟨⟨hs, ht⟩, status, counter, -, -, header, command⟩ := h
  rw [step_byte hs, step_byte ht, counter]
  by_cases hidle : s.srvStatus = .idle
  · have hidle' : t.srvStatus = .idle := status.trans hidle
    rw [byte_idle (s := cleared s) hidle, byte_idle (s := cleared t) hidle']
    exact agree_header (s := cleared s) (t := cleared t) hidle hidle' counter rfl rfl
      fun k hk hlt => header k hk fun _ => hlt
  have hheader : ∀ k ∈ captured, headerByte t k = headerByte s k :=
    fun k hk => header k hk fun h => absurd h hidle
  by_cases hhead0 : s.srvStatus = .head0
  · exact agree_head0 (s := cleared s) (t := cleared t) hhead0 (status.trans hhead0) rfl rfl hheader
  obtain ⟨h64, hblen, hdout, hupper, hdin⟩ := command hidle hhead0
  by_cases hhead1 : s.srvStatus = .head1
  · exact agree_head1 (s := cleared s) (t := cleared t) hhead1 (status.trans hhead1) h64 hblen hupper
      hheader
  have hwhole : cleared t = withHeader (cleared s) t := by
    unfold cleared withHeader
    rw [← status, ← counter, ← h64, ← hblen, ← hdout, ← hdin hhead1, hs, ← ht]
  rw [hwhole]
  exact agree_withHeader (s := cleared s) hidle hheader

/-- **Two servers that agree push the same** for the same bytes, and agree after them. -/
theorem Agree.bytes (h : Agree s t) (l : List (BitVec 8)) :
    log step push s ((l.map byteWord).map deliver) =
        log step push t ((l.map byteWord).map deliver) ∧
      Agree (run step s ((l.map byteWord).map deliver))
        (run step t ((l.map byteWord).map deliver)) := by
  induction l generalizing s t with
  | nil => exact ⟨rfl, h⟩
  | cons b l ih =>
    obtain ⟨hlog, hagree⟩ := ih (h.byte (b := b))
    refine ⟨?_, hagree⟩
    simp only [List.map_cons, log_cons]
    rw [hlog, h.push_eq]

/-- The gap pushes what the last byte has left. -/
theorem log_gap (hr : s.phyRdEn = true) {g : List (BitVec 8)} (hg : g ≠ []) :
    log step push s ((g.map gapWord).map deliver) = push s default := by
  induction g generalizing s with
  | nil => exact absurd rfl hg
  | cons b g ih =>
    have hstep : step s (deliver (gapWord b)) = next (cleared s) 0 b := step_gap hr
    simp only [List.map_cons, log_cons]
    rw [hstep]
    cases g with
    | nil => exact List.append_nil _
    | cons c g =>
      rw [ih (s := next (cleared s) 0 b) rfl (List.cons_ne_nil c g)]
      exact List.append_nil _

/-- The gap does not matter beyond that there is one. -/
theorem Agree.words (h : Agree s t) (l : List (BitVec 8)) {g g' : List (BitVec 8)} (hg : g ≠ [])
    (hg' : g' ≠ []) :
    log step push s ((l.map byteWord ++ g.map gapWord).map deliver) =
      log step push t ((l.map byteWord ++ g'.map gapWord).map deliver) := by
  obtain ⟨hlog, hagree⟩ := h.bytes l
  rw [List.map_append, List.map_append, log_append, log_append, hlog, log_gap hagree.reading.1 hg,
    log_gap hagree.reading.2 hg', hagree.push_eq]

/-! ### A frame that pushes nothing -/

/-- Nothing has been pushed for the bytes `l`, the last of them in the round `q` of the counter. -/
structure Quiet (l : List (BitVec 8)) (q : ℕ) (s : Server) : Prop where
  reading : s.phyRdEn = true
  wrEn : s.mstWrEn = false
  length : l.length = 4096 * q + s.counter.toNat
  unopened : ∀ q', ¬ OpensAt l (4096 * q')
  stored : ∀ k ∈ captured, k < s.counter.toNat → l[4096 * q + k]? = some (headerByte s k)
  place :
    s.srvStatus = .idle ∧ (s.counter.toNat = 0x2e → ¬ Matches l (4096 * q)) ∧
        (s.counter.toNat = 0x2f → Matches l (4096 * q) → l[4096 * q + 0x2e]? = some 0x00#8) ∨
      s.srvStatus = .head0 ∧ s.counter.toNat = 0x2e ∧ Matches l (4096 * q) ∨
      s.srvStatus = .head1 ∧ s.counter.toNat = 0x2f ∧ Matches l (4096 * q) ∧
        l[4096 * q + 0x2e]? ≠ some 0x00#8

variable {l : List (BitVec 8)} {n q : ℕ}

theorem lt_of_signature {p : ℕ × BitVec 8} (hp : p ∈ signature) : p.1 < 0x2e := by
  revert p
  decide

/-- A later byte does not change a match. -/
theorem matches_concat (h : n + 0x2e ≤ l.length) : Matches (l ++ [b]) n ↔ Matches l n := by
  unfold Matches
  refine forall₂_congr fun p hp => ?_
  have hlt := lt_of_signature hp
  rw [List.getElem?_append_left (by omega)]

theorem opensAt_concat (h : OpensAt (l ++ [b]) n) :
    OpensAt l n ∨ l.length = n + 0x2f ∧ Matches l n ∧ l[n + 0x2e]? ≠ some 0x00#8 := by
  obtain ⟨hm, hlen, hb⟩ := h
  rw [List.length_append, List.length_singleton] at hlen
  rw [matches_concat (by omega)] at hm
  rw [List.getElem?_append_left (by omega)] at hb
  by_cases hlt : n + 0x2f < l.length
  · exact .inl ⟨hm, hlt, hb⟩
  · exact .inr ⟨by omega, hm, hb⟩

theorem OpensAt.concat (h : OpensAt l n) : OpensAt (l ++ [b]) n := by
  obtain ⟨hm, hlen, hb⟩ := h
  refine ⟨(matches_concat (by omega)).2 hm, ?_, ?_⟩
  · rw [List.length_append]
    omega
  · rwa [List.getElem?_append_left (by omega)]

/-- At the last byte of the magic code the server sees the match. -/
theorem matches_iff (hlen : l.length = n + 0x2d)
    (hst : ∀ k ∈ captured, l[n + k]? = some (headerByte s k)) :
    Matches (l ++ [b]) n ↔ matchesHeader s b = true := by
  have hlast : (l ++ [b])[n + 0x2d]? = some b := by
    rw [← hlen, List.getElem?_concat_length]
  have hold : ∀ p ∈ signature, p.1 < 0x2d → (l ++ [b])[n + p.1]? = some (headerByte s p.1) := by
    intro p hp hlt
    rw [List.getElem?_append_left (by omega)]
    exact hst p.1 (mem_captured hp hlt)
  rw [matchesHeader_iff]
  constructor
  · intro h
    refine ⟨fun p hp hlt => ?_, ?_⟩
    · have hp' := h p hp
      rw [hold p hp hlt] at hp'
      exact Option.some.inj hp'
    · have hb := h (0x2d, 0x00#8) (by decide)
      rw [hlast] at hb
      exact Option.some.inj hb
  · rintro ⟨h, hb⟩ p hp
    by_cases hlt : p.1 < 0x2d
    · rw [hold p hp hlt, h p hp hlt]
    · have hp' : p = (0x2d, 0x00#8) := by
        revert hlt
        revert p
        decide
      rw [hp', hlast, hb]
      rfl

/-- A byte opens a command only as the second one after the magic code. -/
theorem unopened_concat (h : ∀ q', ¬ OpensAt l (4096 * q'))
    (hlen : l.length = 4096 * q + n) (hn : n < 4096)
    (h2f : n = 0x2f → Matches l (4096 * q) → l[4096 * q + 0x2e]? = some 0x00#8) (q' : ℕ) :
    ¬ OpensAt (l ++ [b]) (4096 * q') := by
  intro hopen
  rcases opensAt_concat hopen with hold | ⟨hlen', hm, hb⟩
  · exact h q' hold
  · obtain rfl : q' = q := by omega
    exact hb (h2f (by omega) hm)

theorem toNat_succ {c : BitVec 12} (h : c.toNat ≠ 4095) : (c + 1).toNat = c.toNat + 1 := by
  have hc := c.isLt
  rw [BitVec.toNat_add]
  exact Nat.mod_eq_of_lt (by change c.toNat + 1 < 4096; omega)

/-- A byte taken in `SRV_IDLE`. -/
theorem quiet_header (h : Quiet l q s) (hidle : s.srvStatus = .idle) :
    ∃ q', Quiet (l ++ [b]) q' (next (header (cleared s) b) (s.counter + 1) b) := by
  obtain ⟨-, -, length, unopened, stored, place⟩ := h
  have hc := s.counter.isLt
  obtain ⟨h2e, h2f⟩ : (s.counter.toNat = 0x2e → ¬ Matches l (4096 * q)) ∧
      (s.counter.toNat = 0x2f → Matches l (4096 * q) → l[4096 * q + 0x2e]? = some 0x00#8) := by
    rcases place with ⟨-, h⟩ | ⟨hst, -⟩ | ⟨hst, -⟩
    · exact h
    · rw [hidle] at hst
      cases hst
    · rw [hidle] at hst
      cases hst
  have hunopened := unopened_concat (b := b) unopened length hc h2f
  have hlen : (l ++ [b]).length = 4096 * q + (s.counter.toNat + 1) := by
    rw [List.length_append, length]
    rfl
  have hstatus : (header (cleared s) b).srvStatus =
      if s.counter.toNat = 0x2d ∧ matchesHeader (cleared s) b = true then .head0 else .idle := by
    rw [srvStatus_header, show (cleared s).srvStatus = .idle from hidle]
    rfl
  have hwrEn : (header (cleared s) b).mstWrEn = false := header_rest.1
  by_cases hwrap : s.counter.toNat = 4095
  · have hzero : (s.counter + 1).toNat = 0 := by
      rw [BitVec.toNat_add, hwrap]
      rfl
    refine ⟨q + 1, rfl, hwrEn, ?_, hunopened, ?_, .inl ⟨?_, ?_, ?_⟩⟩
    · change _ = _ + (s.counter + 1).toNat
      rw [hzero, hlen]
      omega
    · intro k _ hk
      change k < (s.counter + 1).toNat at hk
      omega
    · exact hstatus.trans (if_neg fun h => by omega)
    · intro hk
      change (s.counter + 1).toNat = _ at hk
      omega
    · intro hk
      change (s.counter + 1).toNat = _ at hk
      omega
  have hsucc := toNat_succ hwrap
  refine ⟨q, rfl, hwrEn, ?_, hunopened, ?_, ?_⟩
  · change _ = _ + (s.counter + 1).toNat
    rw [hsucc, hlen]
  · intro k hk hlt
    change k < (s.counter + 1).toNat at hlt
    change _ = some (headerByte (header (cleared s) b) k)
    rw [headerByte_header hk, show (cleared s).counter = s.counter from rfl]
    by_cases heq : k = s.counter.toNat
    · rw [if_pos heq, heq, ← length, List.getElem?_concat_length]
    · rw [if_neg heq, List.getElem?_append_left (by omega)]
      exact stored k hk (by omega)
  · change (header (cleared s) b).srvStatus = _ ∧ ((s.counter + 1).toNat = _ → _) ∧
        ((s.counter + 1).toNat = _ → _) ∨ (header (cleared s) b).srvStatus = _ ∧
      (s.counter + 1).toNat = _ ∧ _ ∨ (header (cleared s) b).srvStatus = _ ∧ _
    rw [hstatus, hsucc]
    by_cases h2d : s.counter.toNat = 0x2d
    · have hm := matches_iff (b := b) (s := cleared s) (length.trans (by rw [h2d])) fun k hk =>
        stored k hk (by have := lt_of_captured hk; omega)
      by_cases hmatch : matchesHeader (cleared s) b = true
      · rw [if_pos ⟨h2d, hmatch⟩]
        exact .inr (.inl ⟨rfl, by omega, hm.2 hmatch⟩)
      · rw [if_neg fun h => hmatch h.2]
        exact .inl ⟨rfl, fun _ h => hmatch (hm.1 h), fun h => by omega⟩
    · rw [if_neg fun h => h2d h.1]
      refine .inl ⟨rfl, fun h => by omega, fun h hm => ?_⟩
      rw [matches_concat (by omega)] at hm
      exact absurd hm (h2e (by omega))

/-- A byte taken while nothing has been pushed. -/
theorem Quiet.byte (h : Quiet l q s) :
    (∃ q', Quiet (l ++ [b]) q' (step s (deliver (byteWord b)))) ∨
      (step s (deliver (byteWord b))).mstWrEn = true ∧ OpensAt (l ++ [b]) (4096 * q) := by
  have hplace := h.place
  rw [step_byte h.reading]
  rcases hplace with ⟨hst, -⟩ | ⟨hst, hc, hm⟩ | ⟨hst, hc, hm, hb⟩
  · rw [byte_idle (s := cleared s) hst]
    exact .inl (quiet_header h hst)
  · left
    have hsucc := toNat_succ (c := s.counter) (by omega)
    have hlen := h.length
    have hlast : (l ++ [b])[4096 * q + 0x2e]? = some b := by
      rw [← hc, ← hlen, List.getElem?_concat_length]
    have hm' : Matches (l ++ [b]) (4096 * q) := (matches_concat (by omega)).2 hm
    rw [byte_head0 (s := cleared s) hst]
    refine ⟨q, rfl, rfl, ?_, ?_, ?_, ?_⟩
    · change _ = _ + (s.counter + 1).toNat
      rw [hsucc, List.length_append, hlen]
      rfl
    · exact unopened_concat h.unopened hlen s.counter.isLt fun h => by omega
    · intro k hk hlt
      have hk' := lt_of_captured hk
      rw [List.getElem?_append_left (by omega)]
      exact h.stored k hk (by omega)
    · change (if b = 0x00#8 then SrvState.idle else .head1) = _ ∧ ((s.counter + 1).toNat = _ → _) ∧
          ((s.counter + 1).toNat = _ → _) ∨ (if b = 0x00#8 then SrvState.idle else .head1) = _ ∧ _ ∨
        (if b = 0x00#8 then SrvState.idle else .head1) = _ ∧ (s.counter + 1).toNat = _ ∧ _
      rw [hsucc]
      by_cases hb : b = 0x00#8
      · rw [if_pos hb]
        exact .inl ⟨rfl, fun h => by omega, fun _ _ => by rw [hlast, hb]⟩
      · rw [if_neg hb]
        refine .inr (.inr ⟨rfl, by omega, hm', ?_⟩)
        rw [hlast]
        exact fun h => hb (Option.some.inj h)
  · right
    have hlen := h.length
    rw [byte_head1 (s := cleared s) hst]
    refine ⟨rfl, (matches_concat (by omega)).2 hm, ?_, ?_⟩
    · rw [List.length_append, List.length_singleton]
      omega
    · rwa [List.getElem?_append_left (by omega)]

/-- The cycles in which the bytes of a frame are taken. -/
def byteCycles (l : List (BitVec 8)) : List PhyOut := (l.map byteWord).map deliver

theorem push_eq_nil_iff : push s i = [] ↔ s.mstWrEn = false := by
  unfold push
  cases s.mstWrEn <;> simp

/-- Either nothing is pushed for more bytes, or they open a command. -/
theorem Quiet.bytes (h : Quiet l q s) (l' : List (BitVec 8)) :
    (run step s (byteCycles l')).phyRdEn = true ∧
      (log step push s (byteCycles l') = [] ∧ (∃ q, Quiet (l ++ l') q (run step s (byteCycles l'))) ∨
        (log step push s (byteCycles l') = [] → (run step s (byteCycles l')).mstWrEn = true) ∧
          ∃ q, OpensAt (l ++ l') (4096 * q)) := by
  induction l' using List.reverseRecOn with
  | nil => exact ⟨h.reading, .inl ⟨rfl, q, by rwa [List.append_nil]⟩⟩
  | append_singleton l' b ih =>
    have hcycles : byteCycles (l' ++ [b]) = byteCycles l' ++ [deliver (byteWord b)] := by
      unfold byteCycles
      rw [List.map_append, List.map_append]
      rfl
    rw [hcycles, run_concat, log_concat, ← List.append_assoc]
    obtain ⟨hr, ih⟩ := ih
    refine ⟨rfl, ?_⟩
    rcases ih with ⟨hlog, q, hq⟩ | ⟨hlog, q, hq⟩
    · rw [hlog, push_eq_nil_iff.2 hq.wrEn]
      exact hq.byte.imp (fun h => ⟨rfl, h⟩) fun h => ⟨fun _ => h.1, q, h.2⟩
    · right
      refine ⟨fun hnil => ?_, q, OpensAt.concat hq⟩
      rw [List.append_eq_nil_iff, push_eq_nil_iff] at hnil
      exact absurd (hlog hnil.1) (by rw [hnil.2]; exact Bool.false_ne_true)

theorem quiet_ready : Quiet [] 0 ready := by
  refine ⟨rfl, rfl, rfl, ?_, ?_, .inl ⟨rfl, ?_, ?_⟩⟩
  · exact fun q h => absurd h.2.1 (Nat.not_lt_zero _)
  · exact fun k _ h => absurd h (Nat.not_lt_zero k)
  · exact fun h => absurd h (by decide)
  · exact fun h => absurd h (by decide)

/-- Either nothing has been pushed for the bytes, or they open a command. -/
theorem quiet_or_opens (l : List (BitVec 8)) :
    (run step ready (byteCycles l)).phyRdEn = true ∧
      (log step push ready (byteCycles l) = [] ∧ (∃ q, Quiet l q (run step ready (byteCycles l))) ∨
        (log step push ready (byteCycles l) = [] → (run step ready (byteCycles l)).mstWrEn = true) ∧
          ∃ q, OpensAt l (4096 * q)) := quiet_ready.bytes l

/-- More bytes push nothing, up to a word that is left, exactly when they open no command. -/
theorem Quiet.log_eq_nil_iff (h : Quiet l q s) (l' : List (BitVec 8)) :
    log step push s (byteCycles l') ++ push (run step s (byteCycles l')) default = [] ↔
      ∀ q, ¬ OpensAt (l ++ l') (4096 * q) := by
  rw [List.append_eq_nil_iff, push_eq_nil_iff]
  rcases (h.bytes l').2 with ⟨hlog, q, hq⟩ | ⟨hlog, q, hq⟩
  · exact ⟨fun _ => hq.unopened, fun _ => ⟨hlog, hq.wrEn⟩⟩
  · constructor
    · rintro ⟨hnil, hw⟩
      exact absurd (hlog hnil) (by rw [hw]; exact Bool.false_ne_true)
    · exact fun h => absurd hq (h q)

theorem alone_eq (l : List (BitVec 8)) : alone l =
    log step push ready (byteCycles l) ++ push (run step ready (byteCycles l)) default := by
  unfold alone
  rw [List.map_append, log_append]
  exact congrArg _ (log_gap (g := [0]) (quiet_or_opens l).1 (List.cons_ne_nil _ _))

/-- **A frame pushes nothing** exactly when it opens no command. -/
theorem alone_eq_nil_iff : alone l = [] ↔ ∀ q, ¬ OpensAt l (4096 * q) := by
  rw [alone_eq]
  exact quiet_ready.log_eq_nil_iff l

/-! ### Between two frames -/

theorem tag_getLast (fs : List PhyFrame) :
    ∀ w ∈ (fs.flatMap words).getLast?, w.getLsbD 8 = false := by
  intro w hw
  induction fs using List.reverseRecOn with
  | nil => cases hw
  | append_singleton fs f _ =>
    have hne : f.gap.map gapWord ≠ [] := fun h => f.gap_ne (List.map_eq_nil_iff.1 h)
    rw [List.flatMap_append, List.flatMap_singleton, words, ← List.append_assoc,
      List.getLast?_append_of_ne_nil _ hne] at hw
    obtain ⟨b, -, rfl⟩ := List.mem_map.1 (List.mem_of_getLast? hw)
    exact tag_gapWord b

/-- After a word of the gap the counter is at zero and nothing is pending. -/
theorem boundary {s₀ : Server} {fs : List PhyFrame}
    (hall : log step taken (reset s₀) is = fs.flatMap words) :
    (run step (reset s₀) is).counter = 0 ∧ (run step (reset s₀) is).mstWrEn = false := by
  have hJ : (∀ w ∈ (log step taken (reset s₀) is).getLast?, w.getLsbD 8 = false) →
      (run step (reset s₀) is).counter = 0 ∧ (run step (reset s₀) is).mstWrEn = false := by
    refine log_induction (P := fun _ _ => True) (s := reset s₀)
      (J := fun s (l : List (BitVec 9)) =>
        (∀ w ∈ l.getLast?, w.getLsbD 8 = false) → s.counter = 0 ∧ s.mstWrEn = false)
      (fun _ => ⟨rfl, rfl⟩) ?_ is (along_true step is)
    intro s i l ih _ hlast
    cases hr : s.phyRdEn with
    | false =>
      rw [step_of_unread hr]
      unfold taken at hlast
      rw [hr, if_neg Bool.false_ne_true, List.append_nil] at hlast
      exact ⟨(ih hlast).1, rfl⟩
    | true =>
      unfold taken at hlast
      rw [if_pos hr, List.getLast?_concat] at hlast
      have htag := hlast i.dout rfl
      unfold step take
      rw [if_pos hr, if_neg (by rw [htag]; exact Bool.false_ne_true)]
      exact ⟨rfl, rfl⟩
  exact hJ (by rw [hall]; exact tag_getLast fs)

/-- The words of a frame can always be delivered. -/
theorem exists_delivery (s : Server) (ws : List (BitVec 9)) :
    ∃ js, Along step NoUnderflow s js ∧ log step taken s js = ws := by
  cases hr : s.phyRdEn with
  | true => exact ⟨ws.map deliver, (taken_deliver hr ws).symm⟩
  | false =>
    obtain ⟨htaken, halong⟩ := taken_deliver (s := step s (deliver 0)) rfl ws
    refine ⟨deliver 0 :: ws.map deliver, ⟨fun h => ?_, halong⟩, ?_⟩
    · rfl
    · have hnil : taken s (deliver 0) = [] := if_neg (by rw [hr]; exact Bool.false_ne_true)
      rw [log_cons, htaken, hnil, List.nil_append]

/-- In `SRV_IDLE` between two frames the other registers do not matter. -/
theorem agree_ready (hidle : s.srvStatus = .idle) (hc : s.counter = 0) (hw : s.mstWrEn = false)
    (d : BitVec 8) : Agree { s with phyRdEn := true, phyDout2 := d } ready := by
  refine ⟨⟨rfl, rfl⟩, hidle.symm, hc.symm, hw.symm, ?_, ?_, ?_⟩
  · exact fun h => absurd (hw.symm.trans h) Bool.false_ne_true
  · intro k _ hk
    have hk' := hk hidle
    change k < s.counter.toNat at hk'
    rw [hc] at hk'
    exact absurd hk' (Nat.not_lt_zero k)
  · exact fun h => absurd hidle h

/-- **From `SRV_IDLE` a frame makes the server push what it does alone.** -/
theorem log_of_idle (hidle : s.srvStatus = .idle) (hc : s.counter = 0) (hw : s.mstWrEn = false)
    {f : PhyFrame} (h : Along step NoUnderflow s is) (htaken : log step taken s is = f.words) :
    log step push s is = alone f.bytes := by
  obtain ⟨d, hd⟩ := log_push_eq hw h
  rw [hd, htaken]
  exact (agree_ready hidle hc hw d).words f.bytes f.gap_ne (List.cons_ne_nil 0 [])

/-- The same for the first bytes of a frame. -/
theorem log_bytes_of_idle (hidle : s.srvStatus = .idle) (hc : s.counter = 0)
    (hw : s.mstWrEn = false) {l : List (BitVec 8)} (h : Along step NoUnderflow s is)
    (htaken : log step taken s is = l.map byteWord) :
    log step push s is = log step push ready (byteCycles l) := by
  obtain ⟨d, hd⟩ := log_push_eq hw h
  rw [hd, htaken]
  exact ((agree_ready hidle hc hw d).bytes l).1

/-- The start of a command, without the header before it. -/
def stray : PhyFrame := ⟨[0x01#8, 0x0f#8], [0x00#8], PhyFrame.zero_ne⟩

theorem stray_unopened (n : ℕ) : ¬ OpensAt stray.bytes n := by
  intro h
  have hlt := h.2.1
  exact absurd hlt (by simp [stray])

theorem alone_stray : alone stray.bytes = [] := alone_eq_nil_iff.2 fun _ => stray_unopened _

theorem getLsbD_sub_one : ∀ x : BitVec 7, x.getLsbD 0 = false → (x - 1).getLsbD 0 = true := by
  decide

/-- In every other state one of the next two bytes completes a word. -/
theorem wrEn_stray (hst : s.srvStatus ≠ .idle) (c : BitVec 12) :
    (byte s 0x01#8).mstWrEn = true ∨
      (byte (cleared (next (byte s 0x01#8) c 0x01#8)) 0x0f#8).mstWrEn = true := by
  cases h : s.srvStatus
  case idle => exact absurd h hst
  case head0 =>
    right
    apply wrEn_byte
    rw [byte_head0 h]
    exact List.mem_cons_self
  case addr32 =>
    rw [byte_addr32 h]
    cases s.srv64bit
    · right
      apply wrEn_byte
      exact List.mem_of_elem_eq_true rfl
    · exact .inl rfl
  case addr16 =>
    right
    apply wrEn_byte
    rw [byte_addr16 h]
    exact List.mem_of_elem_eq_true rfl
  case data =>
    rw [byte_data h]
    by_cases hb : s.blen.getLsbD 0 = true
    · exact .inl hb
    · right
      have hne : (s.blen == 1#7) = false := by
        rw [beq_eq_false_iff_ne]
        rintro hone
        rw [hone] at hb
        exact hb (by decide)
      have hdata : (cleared (next (data s 0x01#8) c 0x01#8)).srvStatus = .data := by
        unfold data
        rw [hne]
        rfl
      rw [byte_data hdata]
      exact getLsbD_sub_one _ (Bool.eq_false_of_not_eq_true hb)
  all_goals exact .inl (wrEn_byte (by rw [h]; exact List.mem_of_elem_eq_true rfl))

/-- In every other state one of the next two bytes is pushed. -/
theorem pushes_stray (hst : s.srvStatus ≠ .idle) (hr : s.phyRdEn = true) :
    log step push s (stray.words.map deliver) ≠ [] := by
  intro hnil
  have hcycles : stray.words.map deliver =
      [deliver (byteWord 0x01#8), deliver (byteWord 0x0f#8), deliver (gapWord 0x00#8)] := rfl
  rw [hcycles, log_cons, log_cons, log_cons, List.append_eq_nil_iff, List.append_eq_nil_iff,
    List.append_eq_nil_iff, push_eq_nil_iff, push_eq_nil_iff, push_eq_nil_iff, step_byte hr,
    step_byte rfl] at hnil
  obtain ⟨-, h1, h2, -⟩ := hnil
  rcases wrEn_stray (s := cleared s) hst (s.counter + 1) with h | h
  · exact absurd (h1.symm.trans h) Bool.false_ne_true
  · exact absurd (h2.symm.trans h) Bool.false_ne_true

/-- **Frames are isolated** from the frames before them exactly when the server is in `SRV_IDLE` at
the frame boundary; a frame that matches again later in it is not isolated even then. -/
theorem isolated_iff {s₀ : Server} {fs : List PhyFrame}
    (hall : log step taken (reset s₀) is = fs.flatMap words) :
    ((∀ f : PhyFrame, ¬ Rematches f.bytes → Isolated (run step (reset s₀) is) f) ↔
        (run step (reset s₀) is).srvStatus = .idle) ∧
      ∀ f : PhyFrame, Rematches f.bytes → ¬ Isolated (run step (reset s₀) is) f := by
  obtain ⟨hc, hw⟩ := boundary hall
  generalize run step (reset s₀) is = s at hc hw ⊢
  refine ⟨⟨fun h => ?_, fun hidle f hf js hjs htaken => ?_⟩, fun f ⟨hm, hopen⟩ hiso => ?_⟩
  · by_contra hst
    obtain ⟨js, hjs, htaken⟩ := exists_delivery s stray.words
    obtain ⟨d, hd⟩ := log_push_eq hw hjs
    have hiso := h stray (fun h => stray_unopened _ h.2.choose_spec) js hjs htaken
    rw [htaken] at hd
    exact pushes_stray (s := { s with phyRdEn := true, phyDout2 := d }) hst rfl
      (hd.symm.trans (hiso.1.trans alone_stray))
  · have hlog := log_of_idle hidle hc hw hjs htaken
    refine ⟨hlog, fun hm => ?_⟩
    rw [hlog, alone_eq_nil_iff]
    exact fun q hq => hf ⟨hm, q, hq⟩
  · obtain ⟨js, hjs, htaken⟩ := exists_delivery s f.words
    obtain ⟨halone, hnil⟩ := hiso js hjs htaken
    obtain ⟨q, hq⟩ := hopen
    exact alone_eq_nil_iff.1 (halone.symm.trans (hnil hm)) q hq

/-- A command with two data words, the frame check sequence right after it. -/
def unterminated : PhyFrame where
  bytes :=
    List.replicate 12 0xff#8 ++ [0x08#8, 0x00#8] ++ List.replicate 9 0x00#8 ++ [0x11#8] ++
      List.replicate 12 0x0a#8 ++ [0x0d#8, 0x5e#8] ++ List.replicate 4 0x00#8 ++
      [0xa1#8, 0x11#8, 0x00#8, 0x00#8] ++ [0x02#8, 0xff#8, 0xd0#8, 0x00#8, 0x00#8, 0x00#8] ++
      List.replicate 8 0xa1#8 ++ [0x11#8, 0x22#8, 0x33#8, 0x44#8]
  gap := [0x00#8]
  gap_ne := List.cons_ne_nil _ _

/-- The start of a broadcast frame. -/
def broadcast : PhyFrame := ⟨List.replicate 6 0xff#8, [0x00#8], List.cons_ne_nil _ _⟩

theorem isolated_iff_unterminated :
    ¬ ∀ f : PhyFrame, ¬ Rematches f.bytes →
      Isolated (run step (reset default) (deliver 0 :: unterminated.words.map deliver)) f := by
  have hall : log step taken (reset default) (deliver 0 :: unterminated.words.map deliver) =
      [unterminated].flatMap words := (taken_deliver (s := step (reset default) (deliver 0)) rfl _).1
  rw [(isolated_iff hall).1]
  decide +kernel

/-- The broadcast frame is pushed as the data of a command. -/
theorem broadcast_pushed :
    ¬ Isolated (run step (reset default) (deliver 0 :: unterminated.words.map deliver))
      broadcast := by
  intro h
  have halone := (h (broadcast.words.map deliver) (by decide +kernel) (by decide +kernel)).1
  revert halone
  decide +kernel

end Server

end IpNuma
