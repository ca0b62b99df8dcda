import IpNuma.Ecp3.TxFraming

/-!
# Commands for the master sequencer

A command is a header word, two or four words of address and the data.  `MasterSide` is `pcie_tlp`
with the FIFO in front of it: the other side writes the words of the commands one at a time, in any
cycles, and the output of the FIFO is its first word, or anything while there is none.  A word that
is written while the FIFO is full is lost.
-/

namespace IpNuma

open Clocked

/-- A command as it is in the master FIFO. -/
structure Command where
  /-- Bit 7 of the command byte. -/
  flag : Bool
  is64 : Bool
  len : BitVec 6
  lastbe : BitVec 4
  firstbe : BitVec 4
  addr : BitVec 48
  data : List (BitVec 16)
  len_ne : len ≠ 0
  length_data : data.length = 2 * len.toNat

namespace Command

theorem one_ne : (1 : BitVec 6) ≠ 0 := by decide

variable (c : Command)

def headWord : BitVec 18 :=
  0b10#2 ++ BitVec.ofBool c.flag ++ BitVec.ofBool c.is64 ++ c.len ++ c.lastbe ++ c.firstbe

/-- The upper part of the address, which only a command with a long address has. -/
def high : BitVec 16 := if c.is64 then c.addr.extractLsb' 32 16 else 0

def mid : BitVec 16 := c.addr.extractLsb' 16 16

def low : BitVec 16 := c.addr.extractLsb' 0 16

/-- The words of the address that are read from a state on. -/
def addrWords : MstState → List (BitVec 18)
  | .mwrite64 => [0, 0b00#2 ++ c.high, 0b00#2 ++ c.mid, 0b00#2 ++ c.low]
  | .mwrite48 => [0b00#2 ++ c.high, 0b00#2 ++ c.mid, 0b00#2 ++ c.low]
  | .mwrite32 => [0b00#2 ++ c.mid, 0b00#2 ++ c.low]
  | .mwrite16 => [0b00#2 ++ c.low]
  | _ => []

/-- The state after the header word. -/
def start : MstState := if c.is64 then .mwrite64 else .mwrite32

/-- The data words, the last one tagged. -/
def dataWords : List (BitVec 18) :=
  c.data.mapIdx fun j d => (if j + 1 = c.data.length then 0b01#2 else 0b00#2) ++ d

/-- The words of a command. -/
def words : List (BitVec 18) := c.headWord :: (c.addrWords c.start ++ c.dataWords)

/-- The header of the write for a command; `none` for the word with the requester ID. -/
def head : ℕ → Option (BitVec 16)
  | 0 => some 0x6000#16
  | 1 => some (0#6 ++ BitVec.ofNat 10 c.len.toNat)
  | 3 => some (0x01#8 ++ c.lastbe ++ c.firstbe)
  | 4 => some 0
  | 5 => some c.high
  | 6 => some c.mid
  | 7 => some (c.low.extractLsb' 2 14 ++ 0b00#2)
  | _ => none

/-- The packet is the write for the command. -/
structure Carried (ws : List TxWord) : Prop where
  length : ws.length = 8 + 2 * c.len.toNat
  head : HeadOf c.head ws
  data : (ws.map TxWord.txData).drop 8 = c.data

variable {c}

/-- A word without its tag. -/
theorem untag (t : BitVec 2) (d : BitVec 16) : (t ++ d).extractLsb' 0 16 = d := by
  rw [extractLsb'_append_low _ _ _ _ (Nat.le_refl _), BitVec.extractLsb'_eq_self]

theorem headWord_fields (c : Command) : c.headWord.getLsbD 17 = true ∧
    c.headWord.getLsbD 14 = c.is64 ∧ c.headWord.extractLsb' 8 6 = c.len ∧
    c.headWord.extractLsb' 4 4 = c.lastbe ∧ c.headWord.extractLsb' 0 4 = c.firstbe := by
  unfold headWord
  refine ⟨?_, ?_, ?_, ?_, ?_⟩
  · simp only [BitVec.getLsbD_append]
    rfl
  · simp only [BitVec.getLsbD_append]
    simp
  · rw [extractLsb'_append_high _ _ _ _ (by decide), extractLsb'_append_high _ _ _ _ (by decide),
      extractLsb'_append_low _ _ _ _ (by decide), BitVec.extractLsb'_eq_self]
  · rw [extractLsb'_append_high _ _ _ _ (by decide), extractLsb'_append_low _ _ _ _ (by decide),
      BitVec.extractLsb'_eq_self]
  · rw [extractLsb'_append_low _ _ _ _ (by decide), BitVec.extractLsb'_eq_self]

theorem length_dataWords (c : Command) : c.dataWords.length = 2 * c.len.toNat := by
  unfold dataWords
  rw [List.length_mapIdx, c.length_data]

theorem dataWords_getElem {j : ℕ} {w : BitVec 18} (h : c.dataWords[j]? = some w) :
    c.data[j]? = some (w.extractLsb' 0 16) := by
  unfold dataWords at h
  rw [List.getElem?_mapIdx] at h
  obtain ⟨d, hd, rfl⟩ := Option.map_eq_some_iff.1 h
  rw [untag]
  exact hd

end Command

/-- What a side of `MasterSide` samples in a cycle: the inputs of `pcie_tlp`, whose `mst_dout`
counts only while the FIFO is empty, and whether a word is written. -/
structure MasterIn where
  pcie : PcieIn
  push : Bool
  deriving DecidableEq, Inhabited

/-- `pcie_tlp`, the FIFO of `numwords` words before it, and the words that are still to be written.
-/
structure MasterSide where
  tlp : PcieTlp
  numwords : ℕ
  fifo : List (BitVec 18)
  todo : List (BitVec 18)

namespace MasterSide

/-- The inputs of `pcie_tlp` with the FIFO connected. -/
def pcieIn (s : MasterSide) (i : MasterIn) : PcieIn :=
  { i.pcie with mstEmpty := s.fifo.isEmpty, mstDout := s.fifo.headD i.pcie.mstDout }

/-- A word is read. -/
def pop (s : MasterSide) : Bool := s.tlp.mst.mstRdEn && !s.fifo.isEmpty

/-- One edge of `pcie_clk`. -/
def step (s : MasterSide) (i : MasterIn) : MasterSide where
  tlp := s.tlp.step (s.pcieIn i)
  numwords := s.numwords
  fifo :=
    (if s.pop then s.fifo.tail else s.fifo) ++
      if i.push ∧ s.fifo.length < s.numwords then s.todo.take 1 else []
  todo := if i.push then s.todo.drop 1 else s.todo

/-- After reset, with the commands to be written. -/
def start (t : PcieTlp) (numwords : ℕ) (cs : List Command) : MasterSide :=
  ⟨t.reset, numwords, [], cs.flatMap Command.words⟩

/-- No word is written while the FIFO is full. -/
def Room (s : MasterSide) (i : MasterIn) : Prop := i.push = true → s.fifo.length < s.numwords

instance (s : MasterSide) (i : MasterIn) : Decidable (s.Room i) :=
  inferInstanceAs (Decidable (i.push = true → s.fifo.length < s.numwords))

def wire (s : MasterSide) (_ : MasterIn) : List TxWord := [s.tlp.wire]

/-- The words that have not been read. -/
def queue (s : MasterSide) : List (BitVec 18) := s.fifo ++ s.todo

variable {s : MasterSide} {i : MasterIn}

theorem queue_step (h : s.Room i) :
    (s.step i).queue = (if s.pop then s.fifo.tail else s.fifo) ++ s.todo := by
  unfold queue step
  cases hp : i.push with
  | false => simp
  | true =>
    have hlt := h hp
    simp only [hlt, and_self, if_true]
    cases s.todo <;> simp

theorem queue_of_unread (hr : s.Room i) (h : s.pop = false) : (s.step i).queue = s.queue := by
  rw [queue_step hr, h]
  rfl

/-- A word that is read is the first one of the queue. -/
theorem queue_of_read (hr : s.Room i) (h : s.pop = true) :
    s.queue = (s.pcieIn i).mstDout :: (s.step i).queue ∧ (s.pcieIn i).mstEmpty = false := by
  rw [queue_step hr, h, if_pos rfl]
  unfold pop at h
  rw [Bool.and_eq_true, Bool.not_eq_true'] at h
  unfold queue pcieIn
  cases hf : s.fifo with
  | nil =>
    rw [hf] at h
    cases h.2
  | cons w ws => exact ⟨rfl, rfl⟩

end MasterSide

end IpNuma
