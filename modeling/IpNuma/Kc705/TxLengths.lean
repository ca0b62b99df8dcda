import IpNuma.Kc705.TxFrame
import Mathlib.Data.List.GetD

/-!
# The length fields of the transmitted frames

The two length fields are made from `tx0_frame_len`, a constant, while the FIFO decides how many
words a frame carries.  `lengths_wire`: whatever the FIFO does, a frame with `m` payload words has
`8 * m + 34` octets from the IPv4 header up to the FCS, and its fields say so exactly when `m` is
two.  `lengths_iff` says the same of TLPs: in a prompt run the frame of a TLP has as many payload
words as the TLP has words.
-/

namespace IpNuma

open Clocked

/-! ### The fields of a frame -/

/-- The octets from the IPv4 header up to the FCS. -/
def ipOctets (f : List XgmiiWord) : List (BitVec 8) := (frameOctets f.dropLast).drop 14

/-- A field of two octets. -/
def field16 (bs : List (BitVec 8)) (k : ℕ) : ℕ := (bs.getD k 0x00#8 ++ bs.getD (k + 1) 0x00#8).toNat

/-- The total length of the IPv4 header and the length of the UDP header are those of the frame. -/
def LengthsOk (f : List XgmiiWord) : Prop :=
  field16 (ipOctets f) 2 = (ipOctets f).length ∧
    field16 (ipOctets f) 24 = (ipOctets f).length - 20

instance : DecidablePred LengthsOk := fun f => inferInstanceAs (Decidable
  (field16 (ipOctets f) 2 = (ipOctets f).length ∧
    field16 (ipOctets f) 24 = (ipOctets f).length - 20))

theorem length_flatMap_octets (ws : List XgmiiWord) :
    (ws.flatMap XgmiiWord.octets).length = 8 * ws.length := by
  induction ws with
  | nil => rfl
  | cons w ws ih =>
    rw [List.flatMap_cons, List.length_append, ih, List.length_cons, XgmiiWord.octets,
      List.length_map, List.length_range]
    omega

namespace SentFrame

variable (g : SentFrame)

theorem carried_words : carried g.words = g.payload := by
  have hlen : (headWords g.addrs).length = 7 := (length_headWords _).trans g.length_addrs
  rw [carried, words, List.append_assoc, ← hlen, List.drop_left, List.dropLast_concat, List.map_map]
  exact List.map_id _

/-- The octets of the IPv4 header, the UDP header and what follows them in the header words. -/
def ipHead : List (BitVec 8) := ((headWords g.addrs).tail.flatMap XgmiiWord.octets).drop 14

theorem ipHead_fields :
    g.ipHead.length = 34 ∧ field16 g.ipHead 2 = 50 ∧ field16 g.ipHead 24 = 30 := by
  obtain ⟨a₀, a₁, a₂, a₃, a₄, a₅, a₆, has⟩ := g.exists_addrs
  simp only [ipHead, has, headWords, List.mapIdx_cons, List.mapIdx_nil, Phase.headerWord,
    List.tail_cons, List.flatMap_cons, TxSide.header08, TxSide.header10, TxSide.header18,
    TxSide.header20, TxSide.header28, TxSide.header30, octets_lanes, List.cons_append,
    List.nil_append, List.drop_succ_cons, List.drop_zero]
  refine ⟨rfl, ?_, ?_⟩
  · rw [field16]
    simp only [List.getD_cons_succ, List.getD_cons_zero]
    rfl
  · rw [field16]
    simp only [List.getD_cons_succ, List.getD_cons_zero]
    rfl

theorem ipOctets_words :
    ipOctets g.words = g.ipHead ++ (g.payload.map TxSide.dataWord).flatMap XgmiiWord.octets := by
  have hne : headWords g.addrs ≠ [] := by
    rw [← List.length_pos_iff, length_headWords, g.length_addrs]
    decide
  have hlen : 14 ≤ ((headWords g.addrs).tail.flatMap XgmiiWord.octets).length := by
    rw [length_flatMap_octets, List.length_tail, length_headWords, g.length_addrs]
    decide
  rw [ipOctets, words, List.dropLast_concat, frameOctets, List.tail_append_of_ne_nil hne,
    List.flatMap_append, List.drop_append_of_le_length hlen, ipHead]

end SentFrame

theorem field16_append {hs : List (BitVec 8)} (ws : List (BitVec 8)) {k : ℕ}
    (hk : k + 1 < hs.length) : field16 (hs ++ ws) k = field16 hs k := by
  rw [field16, field16, List.getD_append _ _ _ _ (by omega), List.getD_append _ _ _ _ hk]

/-- What a frame is and what it says it is. -/
structure FrameLengths (m : ℕ) (f : List XgmiiWord) : Prop where
  length_ipOctets : (ipOctets f).length = 8 * m + 34
  ok_iff : LengthsOk f ↔ m = 2

theorem SentFrame.lengths (g : SentFrame) : FrameLengths (carried g.words).length g.words := by
  obtain ⟨hlen, htotal, hudp⟩ := g.ipHead_fields
  have hoctets : (ipOctets g.words).length = 8 * (carried g.words).length + 34 := by
    rw [g.ipOctets_words, List.length_append, length_flatMap_octets, List.length_map, hlen,
      g.carried_words, Nat.add_comm]
  refine ⟨hoctets, ?_⟩
  rw [LengthsOk, hoctets, g.ipOctets_words, field16_append _ (by omega),
    field16_append _ (by omega), htotal, hudp]
  omega

/-- **The frames of a run** from reset, for every behaviour of the FIFO. -/
theorem lengths_wire (s : XgmiiTx) (is : List TxIn) :
    ∀ f ∈ frames (s.reset.wire is), FrameLengths (carried f).length f := by
  intro f hf
  obtain ⟨g, -, rfl⟩ := frames_wire (P := fun _ => True) s (fun _ _ => trivial) f hf
  exact g.lengths

/-! ### The frames of TLPs -/

namespace Link

/-- What the engine samples in a run of the link. -/
def txIns (s : Link) (is : List LinkIn) : List TxIn :=
  log Link.step (fun s i => [⟨i.addrs, s.q.headD i.junk, s.q.isEmpty⟩]) s is

/-- The link shows the engine a FIFO. -/
theorem sends_eq_wire (s : Link) (is : List LinkIn) : s.sends is = s.tx.wire (s.txIns is) := by
  induction is generalizing s with
  | nil => rfl
  | cons i is ih => exact congrArg (List.cons (s.step i).tx.out) (ih (s.step i))

end Link

/-- A frame carries as many words as its TLP has. -/
theorem StoredTlp.length_sent (t : StoredTlp) : t.sent.length = t.words.length := by
  have hlag : (lag t.rest).length = t.rest.length := by
    cases t.rest with
    | nil => rfl
    | cons w ws => simp [lag]
  rw [sent, words, List.length_map, List.length_cons, List.length_cons, hlag]

/-- **The length fields.**  Whatever the FIFO does, a frame with `m` payload words has `8 * m + 34`
octets from the IPv4 header up to the FCS, and its length fields say so exactly when `m` is two.
In a prompt run the frames are those of the first TLPs, with `m` the number of words of the TLP. -/
theorem lengths_iff (ts : List StoredTlp) (x : XgmiiTx) :
    (∀ is : List TxIn, ∀ f ∈ frames (x.reset.wire is), FrameLengths (carried f).length f) ∧
    ∀ is : List LinkIn, Along Link.step Prompt (Link.start ts x) is →
      ∃ done todo, ts = done ++ todo ∧
        List.Forall₂ (fun t f => carried f = t.sent ∧ FrameLengths t.words.length f) done
          (frames ((Link.start ts x).sends is)) := by
  refine ⟨lengths_wire x, fun is h => ?_⟩
  obtain ⟨done, todo, hts, hp⟩ := payloads_sends ts x is h
  refine ⟨done, todo, hts, ?_⟩
  have hall : ∀ f ∈ frames ((Link.start ts x).sends is), FrameLengths (carried f).length f := by
    rw [Link.sends_eq_wire]
    exact lengths_wire x _
  have hcarried : List.Forall₂ (fun f u => u = carried f) (frames ((Link.start ts x).sends is))
      (done.map StoredTlp.sent) := by
    rw [← hp, payloads, frames, List.forall₂_map_right_iff, List.forall₂_same]
    exact fun _ _ => rfl
  have hboth := (List.forall₂_and_left _ _).2 ⟨hall, hcarried⟩
  rw [List.forall₂_map_right_iff] at hboth
  refine hboth.flip.imp ?_
  rintro t f ⟨hf, ht⟩
  rw [← ht, t.length_sent] at hf
  exact ⟨ht.symm, hf⟩

/-- A TLP of two words. -/
def twoWords : StoredTlp where
  first := 0x14000000100000000#72
  mid := []
  last := 0x30123456789abcdef#72
  first_start := by decide
  mid_start := StoredTlp.nil_start
  last_valid := by decide
  last_last := by decide

/-- Two and three words arrive in the first cycle. -/
def twoTlpsRun : List LinkIn := ⟨5, 0, default⟩ :: List.replicate 40 ⟨0, 0, default⟩

theorem twoTlpsRun_prompt :
    Along Link.step Prompt (Link.start [twoWords, memoryWrite] default) twoTlpsRun := by
  have h0 : Prompt (Link.start [twoWords, memoryWrite] default) ⟨5, 0, default⟩ :=
    fun h => by cases h
  obtain ⟨j, -, hj⟩ := holds_step ⟨5, 0, default⟩ (holds_start [twoWords, memoryWrite] default) h0
  exact ⟨h0, along_prompt_of_todo_nil id (fun _ _ => rfl) hj rfl _⟩

theorem twoTlps_lengths : ∃ f g,
    frames ((Link.start [twoWords, memoryWrite] default).sends twoTlpsRun) = [f, g] ∧
      FrameLengths 2 f ∧ FrameLengths 3 g := by
  obtain ⟨done, todo, hts, hall⟩ :=
    (lengths_iff [twoWords, memoryWrite] default).2 twoTlpsRun twoTlpsRun_prompt
  have hlen : done.length = 2 := hall.length_eq.trans (by decide +kernel)
  have hdone : done = [twoWords, memoryWrite] := by
    have htake := congrArg (List.take done.length) hts
    rw [List.take_left, hlen] at htake
    exact htake.symm
  rw [hdone] at hall
  obtain ⟨f, fs, ⟨-, hf⟩, hfs, hcons⟩ := List.forall₂_cons_left_iff.1 hall
  obtain ⟨g, gs, ⟨-, hg⟩, hgs, rfl⟩ := List.forall₂_cons_left_iff.1 hfs
  rw [List.forall₂_nil_left_iff.1 hgs] at hcons
  exact ⟨f, g, hcons, hf, hg⟩

/-- The frame of a TLP of three words says that it has fifty octets, and it has 58. -/
theorem memoryWrite_lengths :
    Along Link.step Prompt (Link.start [memoryWrite] default) memoryWriteRun ∧
    memoryWrite.words.length = 3 ∧
    ((frames ((Link.start [memoryWrite] default).sends memoryWriteRun)).map fun f =>
      (field16 (ipOctets f) 2, field16 (ipOctets f) 24, (ipOctets f).length)) = [(50, 30, 58)] := by
  exact ⟨memoryWriteRun_prompt, rfl, by decide +kernel⟩

end IpNuma
