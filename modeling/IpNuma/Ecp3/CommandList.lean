import IpNuma.Ecp3.Commands
import Mathlib.Tactic.IntervalCases

/-!
# A list of commands

`Waiting k` is the server behind the magic code or behind a command, with `k` bytes of a frame
taken. A command of up to 32 words leads from there to there and is pushed word by word
(`command_run`); of a longer one the server takes 128 bytes of data less, tags the last of them and
reads the rest as commands (`command_cut`).  The zero byte behind the commands leads to `SRV_IDLE`
with the header registers as they are, so a byte at a later round of the counter may be taken for
the end of another magic code: `Reopens`.

`decoded_iff`: the server pushes the commands of a frame and nothing else exactly when they are all
of up to 32 words and the frame does not reopen.
-/

namespace IpNuma

open Clocked PhyFrame

namespace Command

/-- A data word, the high byte first. -/
def wordOctets (d : BitVec 16) : List (BitVec 8) := [octet d 1, octet d 0]

variable (c : Command)

/-- The bytes of the address. -/
def addrOctets : List (BitVec 8) :=
  (if c.is64 then [octet c.addr 4] else []) ++
    [octet c.addr 3, octet c.addr 2, octet c.addr 1, octet c.addr 0]

/-- The command byte. -/
def commandByte : BitVec 8 := BitVec.ofBool c.flag ++ BitVec.ofBool c.is64 ++ c.len

/-- The command byte, the byte enables and the address. -/
def headOctets : List (BitVec 8) :=
  c.commandByte :: (c.lastbe ++ c.firstbe : BitVec 8) :: c.addrOctets

/-- The bytes of a command. -/
def octets : List (BitVec 8) := c.headOctets ++ c.data.flatMap wordOctets

end Command

/-- A command as it is in a frame: bit 7 is set, and the address has 40 bits. -/
structure ServerCommand extends Command where
  flag_eq : flag = true
  addr_lt : octet addr 5 = 0

namespace Server

open Command (wordOctets)

/-- The words completed at an edge. -/
def writes (s : Server) (i : PhyOut) : List (BitVec 18) := push (step s i) i

/-- A command is opened behind the first `n` bytes: they leave the header registers as they are. -/
def Reopens (l : List (BitVec 8)) (n : ℕ) : Prop :=
  ∃ q, n ≤ 4096 * q + 0x2d ∧
    (∀ p ∈ signature, n ≤ 4096 * q + p.1 → l[4096 * q + p.1]? = some p.2) ∧
    4096 * q + 0x2f < l.length ∧ l[4096 * q + 0x2e]? ≠ some 0x00#8

/-- The header registers hold the header. -/
def Stored (s : Server) : Prop := ∀ p ∈ signature, p.1 < 0x2d → headerByte s p.1 = p.2

/-- The server waits for a command, behind `k` bytes of a frame that matches. -/
structure Waiting (k : ℕ) (s : Server) : Prop where
  reading : s.phyRdEn = true
  status : s.srvStatus = .head0
  counter : s.counter = BitVec.ofNat 12 k
  stored : s.Stored

/-- The data words, the last one tagged. -/
def tagged (ds : List (BitVec 16)) : List (BitVec 18) :=
  ds.mapIdx fun j d => (if j + 1 = ds.length then 0b01#2 else 0b00#2) ++ d

variable {s : Server} {is : List PhyOut} {st : SrvState} {long : Bool} {din : BitVec 18}
  {n : BitVec 7} {d b : BitVec 8} {w : Bool} {k : ℕ}

theorem writes_eq_within {i : PhyOut} (h : Within st long din n d w k (step s i)) :
    writes s i = if w then [din] else [] := push_eq_within h i

theorem log_writes (s : Server) (is : List PhyOut) :
    log step push s is ++ push (run step s is) default =
      push s default ++ log step writes s is := log_state step (fun s => push s default) s is

theorem alone_eq_writes (l : List (BitVec 8)) :
    alone l = log step writes ready (byteCycles l) := by
  rw [alone_eq, log_writes]
  rfl

/-- The header registers change in `SRV_IDLE` only. -/
theorem Stored.byte (hs : s.Stored) (h : Within st long din n d w k s) (hst : st ≠ .idle)
    (b : BitVec 8) : (step s (deliver (byteWord b))).Stored := by
  intro p hp hlt
  have hst' : (cleared s).srvStatus ≠ .idle := by
    change s.srvStatus ≠ .idle
    rwa [h.status]
  rw [step_byte h.reading]
  exact (headerByte_byte hst' p.1).trans (hs p hp hlt)

theorem Stored.head (hs : s.Stored) (hr : s.phyRdEn = true) (hst : s.srvStatus = .head0)
    (b : BitVec 8) : (step s (deliver (byteWord b))).Stored :=
  hs.byte ⟨hr, hst, rfl, rfl, rfl, rfl, rfl,
    (BitVec.ofNat_toNat 12 s.counter).trans (BitVec.setWidth_eq _) |>.symm⟩ (by decide) b

theorem byteCycles_cons (b : BitVec 8) (l : List (BitVec 8)) :
    byteCycles (b :: l) = deliver (byteWord b) :: byteCycles l := rfl

/-! ### The data -/

theorem tagged_cons (d : BitVec 16) (ds : List (BitVec 16)) :
    tagged (d :: ds) = ((if ds = [] then 0b01#2 else 0b00#2) ++ d) :: tagged ds := by
  unfold tagged
  rw [List.mapIdx_cons]
  simp only [List.length_cons, Nat.add_right_cancel_iff, Nat.zero_add, Nat.right_eq_add,
    List.length_eq_zero_iff]

theorem even_ofNat (m : ℕ) : (BitVec.ofNat 7 (2 * m)).getLsbD 0 = false := by
  rw [BitVec.getLsbD_ofNat, Nat.testBit_zero, Nat.mul_mod_right]
  rfl

theorem ofNat_pred (m : ℕ) : BitVec.ofNat 7 (m + 1) - 1 = BitVec.ofNat 7 m := by
  rw [BitVec.ofNat_add]
  exact BitVec.add_sub_cancel _ _

/-- The last byte but one of the data. -/
theorem ofNat_eq_one {m : ℕ} (h : m < 64) : BitVec.ofNat 7 (2 * m + 1) = 1 ↔ m = 0 := by
  constructor
  · intro h1
    have h2 : (2 * m + 1) % 2 ^ 7 = 1 := congrArg BitVec.toNat h1
    omega
  · rintro rfl
    rfl

/-- **The data of a command** of up to 32 words. -/
theorem data_run {ds : List (BitVec 16)} (hne : ds ≠ []) (hle : ds.length ≤ 64)
    (h : Within .data long din (BitVec.ofNat 7 (2 * ds.length)) d w k s) (hs : s.Stored) :
    log step writes s (byteCycles (ds.flatMap wordOctets)) = tagged ds ∧
      Waiting (k + 2 * ds.length) (run step s (byteCycles (ds.flatMap wordOctets))) := by
  induction ds generalizing s din d w k with
  | nil => exact absurd rfl hne
  | cons x ds ih =>
    rw [List.length_cons] at hle h
    have hword : (octet x 1 ++ octet x 0 : BitVec 16) = x :=
      (octet_append_octet x 0).trans (BitVec.extractLsb'_eq_self)
    have h1 := within_upper h (even_ofNat _) (octet x 1)
    have h2 := within_word h (even_ofNat _) (octet x 1) (octet x 0)
    have hs2 := (hs.byte h (by decide) (octet x 1)).byte h1 (by decide) (octet x 0)
    rw [show 2 * (ds.length + 1) = 2 * ds.length + 1 + 1 by omega, ofNat_pred, ofNat_pred,
      hword] at h2
    simp only [ofNat_eq_one (show ds.length < 64 by omega), List.length_eq_zero_iff] at h2
    rw [List.flatMap_cons, byteCycles_append, log_append, run_append, tagged_cons]
    simp only [wordOctets, byteCycles_cons, log_cons, run_cons]
    rw [writes_eq_within h1, writes_eq_within h2]
    generalize step s (deliver (byteWord (octet x 1))) = s1 at h1 h2 hs2 ⊢
    generalize step s1 (deliver (byteWord (octet x 0))) = s2 at h2 hs2 ⊢
    by_cases hds : ds = []
    · subst hds
      rw [if_pos rfl, if_pos rfl] at h2
      exact ⟨rfl, h2.reading, h2.status, h2.counter, hs2⟩
    · rw [if_neg hds, if_neg hds] at h2
      obtain ⟨hlog, hw⟩ := ih hds (by omega) h2 hs2
      rw [show k + 1 + 1 + 2 * ds.length = k + 2 * (ds.length + 1) by omega] at hw
      refine ⟨?_, hw⟩
      change [] ++ ([_] ++ []) ++ log step writes s2 (byteCycles (ds.flatMap wordOctets)) = _
      rw [hlog, if_neg hds]
      rfl

/-! ### The header and the address -/

section Head

variable (c : Command)

theorem commandByte_long : c.commandByte.getLsbD 6 = c.is64 := by
  unfold Command.commandByte
  rw [BitVec.getLsbD_append, if_neg (by decide), BitVec.getLsbD_append, if_pos (by decide)]
  simp

theorem commandByte_len : c.commandByte.extractLsb' 0 6 = c.len :=
  BitVec.extractLsb'_append_eq_right

theorem commandByte_ne (h : c.flag = true) : c.commandByte ≠ 0 := by
  intro h0
  have h7 : c.commandByte.getLsbD 7 = c.flag := by
    unfold Command.commandByte
    rw [BitVec.getLsbD_append, if_neg (by decide), BitVec.getLsbD_append, if_neg (by decide)]
    simp
  rw [h0, h] at h7
  cases h7

/-- The bytes of the data, modulo 128. -/
theorem blen_eq (len : BitVec 6) :
    (len ++ 0#2).setWidth 7 = BitVec.ofNat 7 (2 * (2 * len.toNat)) := by
  apply BitVec.eq_of_toNat_eq
  rw [BitVec.toNat_setWidth, BitVec.toNat_append, BitVec.toNat_ofNat, Nat.shiftLeft_eq]
  simp only [BitVec.toNat_ofNat, Nat.zero_mod, Nat.or_zero]
  omega

theorem headWord_eq :
    (0b10#2 ++ c.commandByte : BitVec 10) ++ (c.lastbe ++ c.firstbe : BitVec 8) = c.headWord := by
  apply BitVec.eq_of_getLsbD_eq
  intro i hi
  simp only [Command.headWord, Command.commandByte, BitVec.getLsbD_append]
  by_cases h4 : i < 4
  · simp [h4, show i < 8 by omega]
  by_cases h8 : i < 8
  · simp [h4, h8, show i - 4 < 4 by omega]
  by_cases h14 : i < 14
  · simp [h4, h8, show ¬ i - 4 < 4 by omega, show i - 8 < 8 by omega, show i - 8 < 6 by omega,
      show i - 4 - 4 = i - 8 by omega]
  · interval_cases i <;> simp

end Head

/-- **The header word and the address** of a command. -/
theorem head_run (c : ServerCommand) (h : Waiting k s) :
    log step writes s (byteCycles c.headOctets) = c.headWord :: c.addrWords c.start ∧
      (run step s (byteCycles c.headOctets)).Stored ∧
      ∃ d, Within .data c.is64 (0b00#2 ++ c.low)
        (BitVec.ofNat 7 (2 * (2 * c.len.toNat))) d true (k + c.headOctets.length)
        (run step s (byteCycles c.headOctets)) := by
  have hne := commandByte_ne c.toCommand c.flag_eq
  have hhigh : (0#10 ++ octet c.addr 4 : BitVec 18) = 0b00#2 ++ c.addr.extractLsb' 32 16 := by
    rw [← octet_append_octet c.addr 4, c.addr_lt, ← append_assoc]
    rfl
  have hmid : (0b00#2 ++ octet c.addr 3 ++ octet c.addr 2 : BitVec 18) = 0b00#2 ++ c.mid :=
    (append_assoc _ _ _).trans (congrArg (0b00#2 ++ ·) (octet_append_octet c.addr 2))
  have hlow : (0b00#2 ++ octet c.addr 1 ++ octet c.addr 0 : BitVec 18) = 0b00#2 ++ c.low :=
    (append_assoc _ _ _).trans (congrArg (0b00#2 ++ ·) (octet_append_octet c.addr 0))
  have h1 := within_head0 h.reading h.status h.counter c.commandByte hne
  rw [commandByte_long, commandByte_len, blen_eq] at h1
  have hs1 := h.stored.head h.reading h.status c.commandByte
  have h2 := within_head1 h1 (c.lastbe ++ c.firstbe)
  rw [upper_high, headWord_eq] at h2
  have hs2 := hs1.byte h1 (by decide) (c.lastbe ++ c.firstbe)
  simp only [Command.headOctets, Command.addrOctets, byteCycles_cons, log_cons, run_cons]
  rw [writes_eq_within h1, writes_eq_within h2]
  generalize step s (deliver (byteWord c.commandByte)) = s1 at h1 h2 hs2 ⊢
  generalize step s1 (deliver (byteWord (c.lastbe ++ c.firstbe))) = s2 at h2 hs2 ⊢
  cases h64 : c.is64 with
  | true =>
    rw [h64, if_pos rfl] at h2
    have h3 := within_addr64 h2 (octet c.addr 4)
    have h4 := within_addr48 h3 (octet c.addr 3)
    have h5 := within_addr32_long h4 (octet c.addr 2)
    have h6 := within_addr16 h5 (octet c.addr 1)
    have h7 := within_low h5 (octet c.addr 1) (octet c.addr 0)
    have hs7 := ((((hs2.byte h2 (by decide) _).byte h3 (by decide) _).byte h4 (by decide) _).byte h5
      (by decide) _).byte h6 (by decide) (octet c.addr 0)
    have haddr : c.addrWords c.start = [0, 0b00#2 ++ c.high, 0b00#2 ++ c.mid, 0b00#2 ++ c.low] := by
      rw [Command.start, h64]
      rfl
    have hhi : c.high = c.addr.extractLsb' 32 16 := if_pos h64
    rw [hhigh] at h4
    rw [hmid] at h5
    rw [hlow] at h7
    simp only [if_true, List.cons_append, List.nil_append, byteCycles_cons, log_cons, run_cons]
    rw [writes_eq_within h3, writes_eq_within h4, writes_eq_within h5, writes_eq_within h6,
      writes_eq_within h7, haddr, hhi]
    exact ⟨rfl, hs7, octet c.addr 0, h7⟩
  | false =>
    rw [h64, if_neg Bool.false_ne_true] at h2
    have h3 := within_addr32_short h2 (octet c.addr 3)
    have h4 := within_addr24 h3 (octet c.addr 2)
    have hupper : (0b00#2 ++ octet c.addr 3 ++ (c.headWord).extractLsb' 0 8 : BitVec 18).extractLsb'
        8 10 = 0b00#2 ++ octet c.addr 3 := BitVec.extractLsb'_append_eq_left
    rw [hupper] at h4
    have h5 := within_addr16 h4 (octet c.addr 1)
    have h6 := within_low h4 (octet c.addr 1) (octet c.addr 0)
    have hs6 := (((hs2.byte h2 (by decide) _).byte h3 (by decide) _).byte h4 (by decide) _).byte h5
      (by decide) (octet c.addr 0)
    have haddr : c.addrWords c.start = [0b00#2 ++ c.mid, 0b00#2 ++ c.low] := by
      rw [Command.start, h64]
      rfl
    rw [hmid] at h4
    rw [hlow] at h6
    simp only [Bool.false_eq_true, if_false, if_true, List.cons_append, List.nil_append,
      byteCycles_cons, log_cons, run_cons]
    rw [writes_eq_within h3, writes_eq_within h4, writes_eq_within h5, writes_eq_within h6, haddr]
    exact ⟨rfl, hs6, octet c.addr 0, h6⟩

/-! ### One command and many -/

theorem dataWords_eq (c : Command) : c.dataWords = tagged c.data := rfl

theorem length_data_pos (c : Command) : 0 < c.len.toNat := by
  rw [Nat.pos_iff_ne_zero]
  exact fun h => c.len_ne (BitVec.eq_of_toNat_eq h)

theorem length_wordOctets (ds : List (BitVec 16)) :
    (ds.flatMap wordOctets).length = 2 * ds.length := by
  induction ds with
  | nil => rfl
  | cons d ds ih =>
    rw [List.flatMap_cons, List.length_append, ih, List.length_cons]
    change 2 + _ = _
    omega

/-- **A command** of up to 32 words is pushed word by word. -/
theorem command_run (c : ServerCommand) (hlen : c.len.toNat ≤ 32) (h : Waiting k s) :
    log step writes s (byteCycles c.octets) = c.words ∧
      Waiting (k + c.octets.length) (run step s (byteCycles c.octets)) := by
  obtain ⟨hlog, hs, d, hd⟩ := head_run c h
  have hpos := length_data_pos c.toCommand
  have hlength := c.length_data
  rw [← hlength] at hd
  have hne : c.data ≠ [] := List.ne_nil_of_length_pos (by omega)
  obtain ⟨hdata, hw⟩ := data_run hne (by omega) hd hs
  rw [Command.octets, byteCycles_append, log_append, run_append, hlog, hdata, List.length_append,
    length_wordOctets, ← Nat.add_assoc, Command.words, dataWords_eq, List.cons_append]
  exact ⟨rfl, hw⟩

/-- The commands of a frame. -/
theorem commands_run (cs : List ServerCommand) (hlen : ∀ c ∈ cs, c.len.toNat ≤ 32)
    (h : Waiting k s) :
    log step writes s (byteCycles (cs.flatMap fun c => c.octets)) = cs.flatMap (fun c => c.words) ∧
      Waiting (k + (cs.flatMap fun c => c.octets).length)
        (run step s (byteCycles (cs.flatMap fun c => c.octets))) := by
  induction cs generalizing s k with
  | nil => exact ⟨rfl, h⟩
  | cons c cs ih =>
    rw [List.forall_mem_cons] at hlen
    obtain ⟨hlog, hw⟩ := command_run c hlen.1 h
    obtain ⟨hlogs, hws⟩ := ih hlen.2 hw
    rw [List.flatMap_cons, List.flatMap_cons, byteCycles_append, log_append, run_append, hlog,
      hlogs, List.length_append, ← Nat.add_assoc]
    exact ⟨rfl, hws⟩

/-- The last of some data words is tagged. -/
theorem tagged_getLast (ds : List (BitVec 16)) {m : ℕ} (hm : m + 1 = ds.length) :
    ∃ d : BitVec 16, (tagged ds)[m]? = some (0b01#2 ++ d : BitVec 18) := by
  have hlt : m < ds.length := by omega
  refine ⟨ds[m], ?_⟩
  unfold tagged
  rw [List.getElem?_mapIdx, List.getElem?_eq_getElem hlt, Option.map_some, if_pos hm]

/-- The others are not. -/
theorem tagged_getElem (ds : List (BitVec 16)) {m : ℕ} (hm : m + 1 < ds.length) :
    ∃ d : BitVec 16, (tagged ds)[m]? = some (0b00#2 ++ d : BitVec 18) := by
  have hlt : m < ds.length := by omega
  refine ⟨ds[m], ?_⟩
  unfold tagged
  rw [List.getElem?_mapIdx, List.getElem?_eq_getElem hlt, Option.map_some, if_neg (by omega)]

theorem tag_ne (d d' : BitVec 16) : (0b01#2 ++ d : BitVec 18) ≠ 0b00#2 ++ d' := by
  intro h
  have h16 := congrArg (·.extractLsb' 16 2) h
  simp only [BitVec.extractLsb'_append_eq_left] at h16
  exact absurd h16 (by decide)

/-- **A longer command** has its last word before the data is over. -/
theorem command_cut (c : ServerCommand) (hlen : 33 ≤ c.len.toNat) (h : Waiting k s)
    (l : List (BitVec 8)) (ws : List (BitVec 18)) :
    log step writes s (byteCycles (c.octets ++ l)) ≠ c.words ++ ws := by
  obtain ⟨hlog, hs, d, hd⟩ := head_run c h
  have hlt := c.len.isLt
  have hlength := c.length_data
  -- the words the server takes for all of the data
  let ds := c.data.take (2 * c.len.toNat - 64)
  have hds : ds.length = 2 * c.len.toNat - 64 := by
    rw [List.length_take]
    omega
  have hblen : BitVec.ofNat 7 (2 * (2 * c.len.toNat)) = BitVec.ofNat 7 (2 * ds.length) := by
    apply BitVec.eq_of_toNat_eq
    rw [BitVec.toNat_ofNat, BitVec.toNat_ofNat, hds]
    omega
  rw [hblen] at hd
  obtain ⟨hdata, -⟩ := data_run (List.ne_nil_of_length_pos (by omega)) (by omega) hd hs
  have hsplit : c.octets ++ l = c.headOctets ++ (ds.flatMap wordOctets ++
      ((c.data.drop (2 * c.len.toNat - 64)).flatMap wordOctets ++ l)) := by
    rw [Command.octets, ← List.append_assoc (ds.flatMap wordOctets), ← List.flatMap_append,
      List.take_append_drop, List.append_assoc]
  rw [hsplit, byteCycles_append, byteCycles_append, log_append, log_append, hlog, hdata,
    Command.words, dataWords_eq, List.cons_append, List.cons_append, List.append_assoc]
  intro heq
  have htail := List.append_cancel_left (List.cons.inj heq).2
  obtain ⟨x, hx⟩ := tagged_getLast ds (m := 2 * c.len.toNat - 65) (by omega)
  obtain ⟨y, hy⟩ := tagged_getElem c.data (m := 2 * c.len.toNat - 65) (by omega)
  have hget := congrArg (·[2 * c.len.toNat - 65]?) htail
  rw [List.getElem?_append_left (by unfold tagged; rw [List.length_mapIdx]; omega),
    List.getElem?_append_left (by unfold tagged; rw [List.length_mapIdx]; omega), hx, hy] at hget
  exact tag_ne x y (Option.some.inj hget)

/-- A longer command among others. -/
theorem commands_cut {cs : List ServerCommand} (hlen : ∃ c ∈ cs, 32 < c.len.toNat)
    (h : Waiting k s) (l : List (BitVec 8)) :
    log step writes s (byteCycles ((cs.flatMap fun c => c.octets) ++ l)) ≠
      cs.flatMap fun c => c.words := by
  induction cs generalizing s k with
  | nil =>
    obtain ⟨c, hc, -⟩ := hlen
    cases hc
  | cons c cs ih =>
    rw [List.flatMap_cons, List.flatMap_cons, List.append_assoc]
    by_cases hc : c.len.toNat ≤ 32
    · obtain ⟨hlog, hw⟩ := command_run c hc h
      have hrest : ∃ c ∈ cs, 32 < c.len.toNat := by
        obtain ⟨c', hmem, hlt⟩ := hlen
        rcases List.mem_cons.1 hmem with rfl | hmem
        · omega
        · exact ⟨c', hmem, hlt⟩
      rw [byteCycles_append, log_append, hlog]
      exact fun heq => ih hrest hw (List.append_cancel_left heq)
    · exact command_cut c (by omega) h _ _

/-! ### In front of the commands and behind them -/

/-- Behind the magic code. -/
theorem waiting_of_matches {l : List (BitVec 8)} (hlen : l.length = 0x2e) (hm : Matches l 0) :
    log step writes ready (byteCycles l) = [] ∧ Waiting 0x2e (run step ready (byteCycles l)) := by
  obtain ⟨hlog, hr, hst, hw, hc⟩ := head0_of_matches hlen hm
  have hwrites := log_writes ready (byteCycles l)
  rw [hlog, push_eq_nil_iff.2 hw] at hwrites
  refine ⟨hwrites.symm, hr, hst, hc, fun p hp hlt => ?_⟩
  rcases (quiet_or_opens l).2 with ⟨-, q, hq⟩ | ⟨-, q, -, hlt, -⟩
  · have hsize := hq.length
    have hcount : (run step ready (byteCycles l)).counter.toNat = 0x2e := by
      rw [hc]
      rfl
    obtain rfl : q = 0 := by omega
    have hstored := hq.stored p.1 (mem_captured hp hlt) (by omega)
    rw [hm p hp] at hstored
    exact (Option.some.inj hstored).symm
  · omega

/-- The zero byte behind the commands. -/
theorem end_run (h : Waiting k s) :
    writes s (deliver (byteWord 0x00#8)) = [] ∧
      (step s (deliver (byteWord 0x00#8))).phyRdEn = true ∧
      (step s (deliver (byteWord 0x00#8))).srvStatus = .idle ∧
      (step s (deliver (byteWord 0x00#8))).mstWrEn = false ∧
      (step s (deliver (byteWord 0x00#8))).counter = BitVec.ofNat 12 (k + 1) ∧
      (step s (deliver (byteWord 0x00#8))).Stored := by
  have hst : (cleared s).srvStatus = .head0 := h.status
  have hstored := h.stored.head h.reading h.status 0x00#8
  rw [writes, step_byte h.reading, byte_head0 hst, h.counter, counter_succ] at *
  exact ⟨rfl, rfl, rfl, rfl, rfl, hstored⟩

/-- The byte at an offset of a frame that leaves the header registers with the header, and does not
match. -/
def blankByte (k : ℕ) : BitVec 8 := if k = 0x2d then 1 else (signature.lookup k).getD 0

/-- A frame of `n` bytes that the server has taken for no command, with the header in the header
registers. -/
def blank (n : ℕ) : List (BitVec 8) := (List.range n).map fun i => blankByte (i % 4096)

theorem blank_getElem {n i : ℕ} (h : i < n) : (blank n)[i]? = some (blankByte (i % 4096)) := by
  rw [blank, List.getElem?_map, List.getElem?_range h, Option.map_some]

theorem blankByte_signature : ∀ p ∈ signature, p.1 < 0x2d → blankByte p.1 = p.2 := by decide

theorem signature_lt : ∀ p ∈ signature, p.1 < 4096 := by decide

theorem captured_signature : ∀ k ∈ captured, (k, blankByte k) ∈ signature ∧ k < 0x2d := by decide

theorem blank_not_matches (n q : ℕ) : ¬ Matches (blank n) (4096 * q) := by
  intro hm
  have hlast := hm (0x2d, 0x00#8) (by decide)
  by_cases hlt : 4096 * q + 0x2d < n
  · rw [blank_getElem hlt, show (4096 * q + 0x2d) % 4096 = 0x2d by omega] at hlast
    exact absurd (Option.some.inj hlast) (by decide)
  · rw [List.getElem?_eq_none (by rw [blank, List.length_map, List.length_range]; omega)] at hlast
    cases hlast

/-- A server in `SRV_IDLE` with the header in its registers could have come from there. -/
theorem quiet_blank {n : ℕ} (hr : s.phyRdEn = true) (hst : s.srvStatus = .idle)
    (hw : s.mstWrEn = false) (hc : s.counter = BitVec.ofNat 12 n) (hs : s.Stored) :
    Quiet (blank n) (n / 4096) s := by
  have hcount : s.counter.toNat = n % 4096 := by
    rw [hc]
    exact BitVec.toNat_ofNat n 12
  refine ⟨hr, hw, ?_, fun q h => blank_not_matches n q h.1, fun k hk hlt => ?_,
    .inl ⟨hst, fun _ => blank_not_matches n _, fun _ h => absurd h (blank_not_matches n _)⟩⟩
  · rw [blank, List.length_map, List.length_range]
    omega
  · obtain ⟨hmem, hlt'⟩ := captured_signature k hk
    rw [blank_getElem (by omega), show (4096 * (n / 4096) + k) % 4096 = k by omega]
    exact congrArg some (hs _ hmem hlt').symm

/-- Behind the first bytes of a frame it depends on the others whether a command is opened. -/
theorem opensAt_blank_iff {l l' : List (BitVec 8)} :
    (∃ q, OpensAt (blank l.length ++ l') (4096 * q)) ↔ Reopens (l ++ l') l.length := by
  have hlen : (blank l.length).length = l.length := by
    rw [blank, List.length_map, List.length_range]
  have hget : ∀ i, l.length ≤ i → (blank l.length ++ l')[i]? = (l ++ l')[i]? := by
    intro i hi
    rw [List.getElem?_append_right (by omega), List.getElem?_append_right hi, hlen]
  have hlength : (blank l.length ++ l').length = (l ++ l').length := by
    rw [List.length_append, List.length_append, hlen]
  refine exists_congr fun q => ?_
  unfold OpensAt
  rw [hlength]
  constructor
  · rintro ⟨hm, hlt, hne⟩
    have hle : l.length ≤ 4096 * q + 0x2d := by
      by_contra hgt
      have hlast := hm (0x2d, 0x00#8) (by decide)
      rw [List.getElem?_append_left (by omega), blank_getElem (by omega),
        show (4096 * q + 0x2d) % 4096 = 0x2d by omega] at hlast
      exact absurd (Option.some.inj hlast) (by decide)
    refine ⟨hle, fun p hp hp' => ?_, hlt, ?_⟩
    · rw [← hget _ hp']
      exact hm p hp
    · rwa [← hget _ (by omega)]
  · rintro ⟨hle, hm, hlt, hne⟩
    refine ⟨fun p hp => ?_, hlt, ?_⟩
    · by_cases hp' : l.length ≤ 4096 * q + p.1
      · rw [hget _ hp']
        exact hm p hp hp'
      · have hp2 := signature_lt p hp
        rw [List.getElem?_append_left (by omega), blank_getElem (by omega),
          show (4096 * q + p.1) % 4096 = p.1 by omega, blankByte_signature p hp (by
            have := lt_of_signature hp
            omega)]
    · rwa [hget _ (by omega)]

/-- **What comes behind the commands** pushes nothing exactly when the frame does not reopen. -/
theorem tail_writes_iff {l : List (BitVec 8)} (h : Waiting k s) (hk : k + 1 = l.length)
    (l' : List (BitVec 8)) :
    log step writes s (byteCycles (0x00#8 :: l')) = [] ↔ ¬ Reopens (l ++ l') l.length := by
  obtain ⟨hlog, hr, hst, hw, hc, hs⟩ := end_run h
  have hquiet := quiet_blank hr hst hw (hk ▸ hc) hs
  have hiff := hquiet.log_eq_nil_iff l'
  rw [log_writes, push_eq_nil_iff.2 hw, List.nil_append, ← not_exists, opensAt_blank_iff] at hiff
  rw [byteCycles_cons, log_cons, hlog, List.nil_append]
  exact hiff

end Server

open Server

/-- A frame that matches and carries commands: the header up to the magic code, the commands, a zero
byte, and what comes behind it in the frame (padding and the FCS). -/
structure CommandFrame where
  header : List (BitVec 8)
  commands : List ServerCommand
  tail : List (BitVec 8)
  gap : List (BitVec 8)
  length_header : header.length = 0x2e
  matches_header : Matches header 0
  gap_ne : gap ≠ []

namespace CommandFrame

variable (f : CommandFrame)

/-- The bytes of the commands and the zero byte. -/
def payload : List (BitVec 8) := (f.commands.flatMap fun c => c.octets) ++ [0x00#8]

/-- The frame in the receive FIFO. -/
def frame : PhyFrame := ⟨f.header ++ f.payload ++ f.tail, f.gap, f.gap_ne⟩

/-- The words of the commands. -/
def expected : List (BitVec 18) := f.commands.flatMap fun c => c.words

/-- The server alone pushes the commands of the frame and nothing else. -/
theorem alone_iff : alone f.frame.bytes = f.expected ↔
    (∀ c ∈ f.commands, c.len.toNat ≤ 32) ∧
      ¬ Reopens f.frame.bytes (f.header ++ f.payload).length := by
  obtain ⟨hhead, hw⟩ := waiting_of_matches f.length_header f.matches_header
  have hbytes : f.frame.bytes = f.header ++ ((f.commands.flatMap fun c => c.octets) ++
      0x00#8 :: f.tail) := by
    simp only [frame, payload, List.append_assoc, List.singleton_append]
  rw [alone_eq_writes]
  by_cases hlen : ∀ c ∈ f.commands, c.len.toNat ≤ 32
  · obtain ⟨hcommands, hw'⟩ := commands_run f.commands hlen hw
    have htail := tail_writes_iff (l := f.header ++ f.payload) hw' (by
      rw [List.length_append, payload, List.length_append, f.length_header, ← Nat.add_assoc]
      rfl) f.tail
    rw [hbytes, byteCycles_append, byteCycles_append, log_append, log_append, hhead, hcommands,
      List.nil_append, expected, List.append_right_eq_self, htail, ← hbytes]
    exact ⟨fun h => ⟨hlen, h⟩, fun h => h.2⟩
  · refine ⟨fun heq => absurd heq ?_, fun h => absurd h.1 hlen⟩
    push Not at hlen
    rw [hbytes, byteCycles_append, log_append, hhead, List.nil_append]
    exact commands_cut hlen hw _

/-- **The commands are decoded** behind any frames that leave the server in `SRV_IDLE`, without
underflow: the words pushed for a frame are those of its commands exactly when no command has more
than 32 words and the frame does not reopen. -/
theorem decoded_iff {s₀ : Server} {fs : List PhyFrame} {is js : List PhyOut}
    (hall : log step taken (reset s₀) is = fs.flatMap PhyFrame.words)
    (hidle : (run step (reset s₀) is).srvStatus = .idle)
    (hjs : Along step NoUnderflow (run step (reset s₀) is) js)
    (htaken : log step taken (run step (reset s₀) is) js = f.frame.words) :
    log step push (run step (reset s₀) is) js = f.expected ↔
      (∀ c ∈ f.commands, c.len.toNat ≤ 32) ∧
        ¬ Reopens f.frame.bytes (f.header ++ f.payload).length := by
  obtain ⟨hc, hw⟩ := boundary hall
  rw [log_of_idle hidle hc hw hjs htaken]
  exact f.alone_iff

end CommandFrame

/-- A header that matches. -/
def commandHeader : List (BitVec 8) :=
  List.replicate 12 0xff#8 ++ [0x08#8, 0x00#8] ++ List.replicate 9 0x00#8 ++ [0x11#8] ++
    List.replicate 12 0x0a#8 ++ [0x0d#8, 0x5e#8] ++ List.replicate 4 0x00#8 ++
    [0xa1#8, 0x11#8, 0x00#8, 0x00#8]

/-- A write of one word to a short address. -/
def shortCommand : ServerCommand where
  flag := true
  is64 := false
  len := 1
  lastbe := 0xf#4
  firstbe := 0xf#4
  addr := 0x0000d0000000#48
  data := [0xa1a2#16, 0xa3a4#16]
  len_ne := Command.one_ne
  length_data := rfl
  flag_eq := rfl
  addr_lt := by decide

/-- A write of two words to a long address. -/
def wideCommand : ServerCommand where
  flag := true
  is64 := true
  len := 2
  lastbe := 0xf#4
  firstbe := 0xf#4
  addr := 0x0001c0000000#48
  data := [0xc1c2#16, 0xc3c4#16, 0xd1d2#16, 0xd3d4#16]
  len_ne := by decide
  length_data := rfl
  flag_eq := rfl
  addr_lt := by decide

/-- A write of 33 words. -/
def longCommand : ServerCommand where
  flag := true
  is64 := false
  len := 33
  lastbe := 0xf#4
  firstbe := 0xf#4
  addr := 0x0000d0000000#48
  data := List.replicate 66 0x0000#16
  len_ne := by decide
  length_data := rfl
  flag_eq := rfl
  addr_lt := by decide

/-- A frame with some commands and a dummy FCS. -/
def frameOf (cs : List ServerCommand) : CommandFrame where
  header := commandHeader
  commands := cs
  tail := [0x11#8, 0x22#8, 0x33#8, 0x44#8]
  gap := [0x00#8]
  length_header := rfl
  matches_header := by decide
  gap_ne := PhyFrame.zero_ne

/-- The words of a frame, one in each cycle. -/
def cyclesOf (f : PhyFrame) : List PhyOut := f.words.map deliver

theorem decoded_two : log step push (run step (reset default) [deliver 0])
    (cyclesOf (frameOf [shortCommand, wideCommand]).frame) =
      [0x281ff#18, 0x0d000#18, 0x00000#18, 0x0a1a2#18, 0x1a3a4#18, 0x2c2ff#18, 0x00000#18,
        0x00001#18, 0x0c000#18, 0x00000#18, 0x0c1c2#18, 0x0c3c4#18, 0x0d1d2#18, 0x1d3d4#18] := by
  have htaken := taken_deliver (s := run step (reset default) [deliver 0]) rfl
    (frameOf [shortCommand, wideCommand]).frame.words
  refine (@CommandFrame.decoded_iff (frameOf [shortCommand, wideCommand]) default [] [deliver 0] _
    rfl rfl htaken.2 htaken.1).2 ⟨by decide, ?_⟩
  rintro ⟨q, hle, -, hlt, -⟩
  have h1 : ((frameOf [shortCommand, wideCommand]).header ++
    (frameOf [shortCommand, wideCommand]).payload).length = 72 := rfl
  have h2 : (frameOf [shortCommand, wideCommand]).frame.bytes.length = 76 := rfl
  omega

/-- Of 132 bytes of data the server takes four. -/
theorem long_cut : log step push (run step (reset default) [deliver 0])
    (cyclesOf (frameOf [longCommand]).frame) ≠ (frameOf [longCommand]).expected := by
  decide +kernel

end IpNuma
