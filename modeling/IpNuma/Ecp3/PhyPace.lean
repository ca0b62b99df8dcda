import IpNuma.Ecp3.CommandList

/-!
# The server behind the receive FIFO

The FIFO shows its first word, or anything while it is empty, and the server pops a word by
`phy_rd_en`.  That register is a copy of the `empty` flag of the cycle before, and it says as well
that the word on `phy_dout` is taken.  In the cycle behind the last word it is still set: nothing is
popped, and what the empty FIFO shows is taken.

`paced_iff`: in a run from reset each word written is taken once and in order, and the words pushed
depend on the words alone, exactly when this does not happen.
-/

namespace IpNuma

open Clocked

/-- What happens at the FIFO in a cycle: the words that arrive, and what it shows while it is
empty. -/
structure PhyIn where
  arrive : List (BitVec 9)
  q : BitVec 9
  deriving DecidableEq

/-- The server and the FIFO in front of it. -/
structure PhySide where
  srv : Server
  fifo : List (BitVec 9)

namespace PhySide

/-- After reset. -/
def start (s₀ : Server) : PhySide := ⟨s₀.reset, []⟩

/-- What the FIFO drives. -/
def phyOut (s : PhySide) (i : PhyIn) : PhyOut := ⟨s.fifo.headD i.q, s.fifo.isEmpty⟩

/-- A word is popped: `RdEn` with `Empty` low. -/
def pop (s : PhySide) : Bool := s.srv.phyRdEn && !s.fifo.isEmpty

/-- One edge of `pcie_clk`. -/
def step (s : PhySide) (i : PhyIn) : PhySide where
  srv := s.srv.step (s.phyOut i)
  fifo := (if s.pop then s.fifo.tail else s.fifo) ++ i.arrive

/-- The words that arrive, that are popped, that the server takes and that it pushes. -/
def arrived (_ : PhySide) (i : PhyIn) : List (BitVec 9) := i.arrive

def popped (s : PhySide) (_ : PhyIn) : List (BitVec 9) := if s.pop then s.fifo.take 1 else []

def treated (s : PhySide) (i : PhyIn) : List (BitVec 9) := s.srv.taken (s.phyOut i)

def pushed (s : PhySide) (i : PhyIn) : List (BitVec 18) := s.srv.push (s.phyOut i)

/-- The FIFO is not empty when it is read. -/
def NoUnderflow (s : PhySide) (_ : PhyIn) : Prop := s.srv.phyRdEn = true → s.fifo ≠ []

instance (s : PhySide) (i : PhyIn) : Decidable (s.NoUnderflow i) :=
  inferInstanceAs (Decidable (s.srv.phyRdEn = true → s.fifo ≠ []))

/-- What the server pushes for some words: they are there when it starts to read. -/
def pushesOf (ws : List (BitVec 9)) : List (BitVec 18) :=
  log Server.step Server.push Server.ready (ws.map Server.deliver)

/-- The words that have arrived are taken once and in order, up to those still in the FIFO, and the
words pushed depend on them alone. -/
structure Paced (s : PhySide) (is : List PhyIn) : Prop where
  once : log step treated s is ++ (run step s is).fifo = log step arrived s is
  alone : log step pushed s is = pushesOf (log step treated s is)

variable {s : PhySide} {i : PhyIn} {is : List PhyIn}

/-! ### The FIFO -/

theorem fifo_step (s : PhySide) (i : PhyIn) :
    s.fifo ++ i.arrive = popped s i ++ (s.step i).fifo := by
  unfold popped step
  split_ifs with hp
  · rw [← List.append_assoc, ← List.drop_one, List.take_append_drop]
  · rfl

/-- Nothing is lost in the FIFO. -/
theorem fifo_run (s : PhySide) (is : List PhyIn) :
    s.fifo ++ log step arrived s is = log step popped s is ++ (run step s is).fifo := by
  induction is generalizing s with
  | nil => exact List.append_nil _
  | cons i is ih =>
    rw [log_cons, log_cons, run_cons, List.append_assoc, ← ih, ← List.append_assoc,
      ← List.append_assoc, ← fifo_step]
    rfl

theorem treated_of_fed (h : s.NoUnderflow i) : treated s i = popped s i := by
  unfold treated Server.taken popped pop phyOut
  cases hr : s.srv.phyRdEn with
  | false => rfl
  | true =>
    obtain ⟨w, ws, hws⟩ := List.exists_cons_of_ne_nil (h hr)
    rw [hws]
    rfl

/-- Behind the last word one more is taken. -/
theorem treated_of_underflow (h : ¬ s.NoUnderflow i) :
    (treated s i).length = 1 ∧ popped s i = [] := by
  unfold NoUnderflow at h
  push Not at h
  obtain ⟨hr, hempty⟩ := h
  unfold treated Server.taken popped pop
  rw [hr, hempty]
  exact ⟨rfl, rfl⟩

/-- **The words taken are those popped** in a run without underflow. -/
theorem treated_run (h : Along step NoUnderflow s is) :
    log step treated s is = log step popped s is := by
  induction is generalizing s with
  | nil => rfl
  | cons i is ih => rw [log_cons, log_cons, treated_of_fed h.1, ih h.2]

theorem length_popped_le (s : PhySide) (is : List PhyIn) :
    (log step popped s is).length ≤ (log step treated s is).length := by
  induction is generalizing s with
  | nil => exact le_rfl
  | cons i is ih =>
    rw [log_cons, log_cons, List.length_append, List.length_append]
    refine Nat.add_le_add ?_ (ih _)
    by_cases hi : s.NoUnderflow i
    · rw [treated_of_fed hi]
    · rw [(treated_of_underflow hi).2]
      exact Nat.zero_le _

/-- With an underflow there are more. -/
theorem along_of_length (h : (log step treated s is).length = (log step popped s is).length) :
    Along step NoUnderflow s is := by
  induction is generalizing s with
  | nil => trivial
  | cons i is ih =>
    rw [log_cons, log_cons, List.length_append, List.length_append] at h
    have hle := length_popped_le (s.step i) is
    by_cases hi : s.NoUnderflow i
    · rw [treated_of_fed hi] at h
      exact ⟨hi, ih (by omega)⟩
    · obtain ⟨h1, h2⟩ := treated_of_underflow hi
      rw [h1, h2, List.length_nil] at h
      omega

/-! ### The server -/

/-- What the server sees. -/
def outs (s : PhySide) (is : List PhyIn) : List PhyOut := log step (fun s i => [s.phyOut i]) s is

/-- The server of a run is the server alone with what it sees. -/
theorem srv_run (s : PhySide) (is : List PhyIn) :
    log step treated s is = log Server.step Server.taken s.srv (outs s is) ∧
      log step pushed s is = log Server.step Server.push s.srv (outs s is) ∧
      (Along step NoUnderflow s is → Along Server.step Server.NoUnderflow s.srv (outs s is)) := by
  induction is generalizing s with
  | nil => exact ⟨rfl, rfl, fun _ => trivial⟩
  | cons i is ih =>
    obtain ⟨h1, h2, h3⟩ := ih (s.step i)
    refine ⟨?_, ?_, fun h => ⟨fun hr => ?_, h3 h.2⟩⟩
    · rw [log_cons, h1]
      rfl
    · rw [log_cons, h2]
      rfl
    · change s.fifo.isEmpty = false
      rw [List.isEmpty_eq_false_iff]
      exact h.1 hr

/-- A word is a byte of a frame or of a gap. -/
theorem word_cases (w : BitVec 9) : ∃ b, w = Server.byteWord b ∨ w = Server.gapWord b := by
  refine ⟨w.extractLsb' 0 8, ?_⟩
  have hsplit : w = w.extractLsb' 8 1 ++ w.extractLsb' 0 8 := by
    apply BitVec.eq_of_getLsbD_eq
    intro j hj
    rw [BitVec.getLsbD_append]
    split_ifs with h8
    · simp [h8]
    · simp [show j = 8 by omega]
  have hbit : w.extractLsb' 8 1 = 1#1 ∨ w.extractLsb' 8 1 = 0#1 := by
    generalize w.extractLsb' 8 1 = x
    revert x
    decide
  exact hbit.imp (fun h => hsplit.trans (by rw [h]; rfl)) fun h => hsplit.trans (by rw [h]; rfl)

/-- Two servers that agree push the same for the same words. -/
theorem agree_words {s t : Server} (h : Server.Agree s t) (ws : List (BitVec 9)) :
    log Server.step Server.push s (ws.map Server.deliver) =
      log Server.step Server.push t (ws.map Server.deliver) := by
  induction ws generalizing s t with
  | nil => rfl
  | cons w ws ih =>
    rw [List.map_cons, log_cons, log_cons, h.push_eq]
    obtain ⟨b, rfl | rfl⟩ := word_cases w
    · rw [ih h.byte]
    · rw [ih h.gap]

/-- **Pace independence**: in a run from reset each word that has arrived is taken once and in
order, and the words pushed depend on the words alone, exactly when the FIFO is not empty in any
cycle in which it is read. -/
theorem paced_iff (s₀ : Server) (is : List PhyIn) :
    (start s₀).Paced is ↔ Along step NoUnderflow (start s₀) is := by
  obtain ⟨htreated, hpushed, halong⟩ := srv_run (start s₀) is
  have hfifo : log step arrived (start s₀) is =
      log step popped (start s₀) is ++ (run step (start s₀) is).fifo := fifo_run (start s₀) is
  constructor
  · intro h
    have honce := h.once
    rw [hfifo] at honce
    exact along_of_length (congrArg List.length (List.append_cancel_right honce))
  · intro h
    refine ⟨by rw [hfifo, treated_run h], ?_⟩
    obtain ⟨d, hd⟩ := Server.log_push_eq (s := (start s₀).srv) rfl (halong h)
    rw [hpushed, hd, ← htreated]
    exact agree_words (Server.agree_ready rfl rfl rfl d) _

/-! ### One frame -/

/-- A frame with a write of one word, and some more of the gap. -/
def frameWords : List (BitVec 9) :=
  (frameOf [shortCommand]).frame.words ++ List.replicate 3 (Server.gapWord 0x00#8)

/-- All words arrive at once. -/
def steadyRun : List PhyIn := ⟨frameWords, 0⟩ :: List.replicate 66 ⟨[], 0⟩

/-- The words behind the first two bytes of the data are late, and the FIFO shows another byte
meanwhile. -/
def brokenRun : List PhyIn :=
  ⟨frameWords.take 54, 0⟩ :: List.replicate 57 ⟨[], Server.byteWord 0xee#8⟩ ++
    ⟨frameWords.drop 54, 0⟩ :: List.replicate 12 ⟨[], 0⟩

theorem paced_steadyRun : (start default).Paced steadyRun :=
  (paced_iff default steadyRun).2 (by decide +kernel)

/-- The same words, in the same order: the byte that the empty FIFO shows is pushed with the data,
and the rest of the frame as another command. -/
theorem brokenRun_pushed :
    log step arrived (start default) brokenRun = log step arrived (start default) steadyRun ∧
      log step pushed (start default) steadyRun =
        [0x281ff#18, 0x0d000#18, 0x00000#18, 0x0a1a2#18, 0x1a3a4#18] ∧
      log step pushed (start default) brokenRun =
        [0x281ff#18, 0x0d000#18, 0x00000#18, 0x0a1a2#18, 0x1eea3#18, 0x2a400#18, 0x01122#18,
          0x03344#18] ∧
      ¬ (start default).Paced brokenRun :=
  ⟨by decide +kernel, by decide +kernel, by decide +kernel,
    fun h => absurd h.once (by decide +kernel)⟩

end PhySide

end IpNuma
