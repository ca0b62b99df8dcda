import IpNuma.Clocked.Framing
import IpNuma.Kc705.TxDrain
import IpNuma.Kc705.TxWire

/-!
# What the transmitter sends of a TLP

`dout2` is loaded with the head of the FIFO in the cycle before `rd_en` pops it and again in the
cycle that pops it, and the frame is closed as soon as the last word has been popped.  So the
second word of a TLP is on the wire twice and the last word of a longer TLP never is:
`StoredTlp.sent`.

The frames are read off the wire as a receiver would, from a start word to the next terminate
word, and a frame carries what stands behind its seven first words.  `sending_step` carries this
reading along the simulation of the link by its job.
-/

namespace IpNuma

open Clocked

/-! ### Lists with a repeated second word -/

section Lag

variable {α β : Type*}

/-- The list with its first element repeated and its last one dropped. -/
def lag : List α → List α
  | [] => []
  | a :: l => a :: (a :: l).dropLast

theorem lag_concat (l : List α) (a : α) : lag (l ++ [a]) = lag l ++ [l.getLastD a] := by
  cases l with
  | nil => rfl
  | cons b l =>
    have hl := List.dropLast_append_getLast (List.cons_ne_nil b l)
    rw [List.getLast_eq_getLastD] at hl
    rw [List.cons_append, lag, ← List.cons_append, List.dropLast_concat, lag, List.getLastD_cons,
      List.cons_append, hl]

theorem map_lag (f : α → β) (l : List α) : (lag l).map f = lag (l.map f) := by
  cases l with
  | nil => rfl
  | cons a l => simp [lag, List.map_dropLast]

theorem dropLast_cons_eq_iff (a : α) (l : List α) : (a :: l).dropLast = l ↔ ∀ b ∈ l, b = a := by
  induction l generalizing a with
  | nil => simp
  | cons b l ih =>
    rw [List.dropLast_cons_cons, List.cons.injEq, ih, List.forall_mem_cons]
    constructor
    · rintro ⟨rfl, h⟩
      exact ⟨rfl, h⟩
    · rintro ⟨rfl, h⟩
      exact ⟨rfl, h⟩

theorem lag_eq_self_iff (l : List α) : lag l = l ↔ ∀ a ∈ l, ∀ b ∈ l, a = b := by
  cases l with
  | nil => simp [lag]
  | cons a l =>
    rw [lag, List.cons.injEq, and_iff_right rfl, dropLast_cons_eq_iff]
    constructor
    · intro h b hb c hc
      have hall : ∀ x ∈ a :: l, x = a := List.forall_mem_cons.2 ⟨rfl, h⟩
      rw [hall b hb, hall c hc]
    · intro h b hb
      exact h b (List.mem_cons_of_mem _ hb) a List.mem_cons_self

end Lag

namespace StoredTlp

variable (t : StoredTlp)

/-- The data of a TLP. -/
def data : List (BitVec 64) := t.words.map payload

/-- What the frame of a TLP carries. -/
def sent : List (BitVec 64) := (t.first :: lag t.rest).map payload

/-- All words after the first carry the same data. -/
def Uniform : Prop := ∀ v ∈ t.rest, ∀ w ∈ t.rest, payload v = payload w

instance : Decidable t.Uniform := inferInstanceAs (Decidable (∀ v ∈ t.rest, ∀ w ∈ t.rest, _))

theorem sent_eq_data_iff : t.sent = t.data ↔ t.Uniform := by
  rw [sent, data, words, List.map_cons, List.map_cons, List.cons.injEq, and_iff_right rfl, map_lag,
    lag_eq_self_iff]
  simp only [List.forall_mem_map, Uniform]

end StoredTlp

/-! ### Frames on the wire -/

instance : DecidablePred IsStartWord := fun w =>
  inferInstanceAs (Decidable (w.c = 0x01#8 ∧ octet w.d 0 = 0xfb#8))

instance : DecidablePred IsTermWord := fun w =>
  inferInstanceAs (Decidable (w.c = 0xf0#8 ∧ octet w.d 4 = 0xfd#8))

/-- The receiver of the wire after a stream of words. -/
def wireScan (ws : List XgmiiWord) : Scan XgmiiWord :=
  scan (fun w => decide (IsStartWord w)) (fun w => decide (IsTermWord w)) ws

/-- The data between the last header word of a frame and its terminate word. -/
def carried (frame : List XgmiiWord) : List (BitVec 64) := ((frame.drop 7).dropLast).map XgmiiWord.d

/-- What the complete frames of a stream carry. -/
def payloads (ws : List XgmiiWord) : List (List (BitVec 64)) := (wireScan ws).done.map carried

theorem carried_append {hs : List XgmiiWord} (h : hs.length = 7) (vs : List (BitVec 72))
    (w : XgmiiWord) :
    carried (hs ++ vs.map (fun v => TxSide.dataWord (payload v)) ++ [w]) = vs.map payload := by
  rw [carried, List.append_assoc, ← h, List.drop_left, List.dropLast_concat, List.map_map]
  rfl

theorem idleWord_not_start : decide (IsStartWord idleWord) = false := by decide

theorem dataWord_not_term {w : XgmiiWord} (h : IsDataWord w) : decide (IsTermWord w) = false := by
  have hw : w.c ≠ 0xf0#8 := by rw [h]; decide
  simp [IsTermWord, hw]

namespace Link

/-- The words on the wire after each edge of a run. -/
def sends (s : Link) (is : List LinkIn) : List XgmiiWord :=
  log Link.step (fun s i => [(s.step i).tx.out]) s is

end Link

/-! ### The frames along the job -/

namespace Job

/-- The frame being sent, as far as it is on the wire. -/
def Open : Job → Option (List XgmiiWord) → Prop
  | idle _, p | armed _ _, p | header 0 _ _, p | term _, p => p = none
  | header (k + 1) _ _, p => ∃ hs, p = some hs ∧ hs.length = k + 1
  | first _ _, p => ∃ hs, p = some hs ∧ hs.length = 7
  | data t old _ _, p => ∃ hs, hs.length = 7 ∧
      p = some (hs ++ (t.first :: lag old).map fun v => TxSide.dataWord (payload v))
  | tail t _, p => ∃ hs, hs.length = 7 ∧
      p = some (hs ++ (t.first :: lag t.rest).map fun v => TxSide.dataWord (payload v))

end Job

/-- The link is busy with a job, the frames completed on the wire carry what is sent of the TLPs
before it, and the open frame is the one of the job. -/
structure Sending (ts : List StoredTlp) (j : Job) (s : Link) (ws : List XgmiiWord) : Prop where
  holds : j.Holds s
  frames : ∃ done, ts = done ++ j.pending ∧ payloads ws = done.map StoredTlp.sent
  openFrame : j.Open (wireScan ws).part

theorem sending_start (ts : List StoredTlp) (x : XgmiiTx) :
    Sending ts (.idle ts) (Link.start ts x) [] :=
  ⟨holds_start ts x, ⟨[], rfl, rfl⟩, rfl⟩

/-- While no frame is open an idle word changes nothing. -/
theorem wireScan_idle {ws : List XgmiiWord} (h : (wireScan ws).part = none) :
    wireScan (ws ++ [idleWord]) = wireScan ws := by
  have hs : wireScan ws = ⟨none, (wireScan ws).done⟩ := by rw [← h]
  rw [wireScan, scan_skip hs idleWord_not_start, ← hs]

/-- A data word is added to the open frame. -/
theorem wireScan_data {ws hs : List XgmiiWord} {w : XgmiiWord}
    (h : (wireScan ws).part = some hs) (hw : IsDataWord w) :
    wireScan (ws ++ [w]) = ⟨some (hs ++ [w]), (wireScan ws).done⟩ := by
  have hs' : wireScan ws = ⟨some hs, (wireScan ws).done⟩ := by rw [← h]
  exact scan_take hs' (dataWord_not_term hw)

/-- A terminate word completes the open frame. -/
theorem wireScan_term {ws hs : List XgmiiWord} {w : XgmiiWord}
    (h : (wireScan ws).part = some hs) (hw : IsTermWord w) :
    wireScan (ws ++ [w]) = ⟨none, (wireScan ws).done ++ [hs ++ [w]]⟩ := by
  have hs' : wireScan ws = ⟨some hs, (wireScan ws).done⟩ := by rw [← h]
  exact scan_last hs' (decide_eq_true hw)

section Step

variable {ts : List StoredTlp} {j j' : Job} {s : Link} {ws : List XgmiiWord}

/-- The step of a job shows on the wire. -/
theorem Sending.next (h : Sending ts j s ws) (i : LinkIn) (hn : Job.Next j j')
    (hh : j'.Holds (s.step i)) : Sending ts j' (s.step i) (ws ++ [(s.step i).tx.out]) := by
  rw [h.holds.out i]
  obtain ⟨hj, ⟨done, hts, hd⟩, ho⟩ := h
  suffices hw : (∃ done, ts = done ++ j'.pending ∧
      payloads (ws ++ [j.phase.drives s.tx i.addrs]) = done.map StoredTlp.sent) ∧
      j'.Open (wireScan (ws ++ [j.phase.drives s.tx i.addrs])).part from ⟨hh, hw.1, hw.2⟩
  cases hn with
  | wait ts | arm t ts | begin t ts | gap ts | gapArm t ts =>
    have hi := wireScan_idle ho
    simp only [Job.phase, Phase.drives]
    exact ⟨⟨done, hts, by rw [payloads, hi]; exact hd⟩, by rw [hi]; exact ho⟩
  | header k t ts hk =>
    cases k with
    | zero =>
      have hs : wireScan ws = ⟨none, (wireScan ws).done⟩ := by rw [← show _ = none from ho]
      have hw : wireScan (ws ++ [TxSide.preambleWord]) =
          ⟨some [TxSide.preambleWord], (wireScan ws).done⟩ :=
        scan_start hs (by decide)
      simp only [Job.phase, Phase.drives, Phase.headerWord]
      exact ⟨⟨done, hts, by rw [payloads, hw]; exact hd⟩, by rw [hw]; exact ⟨_, rfl, rfl⟩⟩
    | succ k =>
      obtain ⟨hs, hp, hl⟩ := ho
      have hw := wireScan_data hp (headerWord_isData i.addrs s.tx.tx.ipSum k)
      simp only [Job.phase, Phase.drives]
      exact ⟨⟨done, hts, by rw [payloads, hw]; exact hd⟩, by rw [hw]; exact ⟨_, rfl, by simp [hl]⟩⟩
  | first t ts =>
    obtain ⟨hs, hp, hl⟩ := ho
    have hw := wireScan_data hp (headerWord_isData i.addrs s.tx.tx.ipSum 5)
    simp only [Job.phase, Phase.drives]
    exact ⟨⟨done, hts, by rw [payloads, hw]; exact hd⟩, by rw [hw]; exact ⟨_, rfl, by simp [hl]⟩⟩
  | data t ts =>
    obtain ⟨hs, hp, hl⟩ := ho
    have hw := wireScan_data hp (w := TxSide.dataWord (payload s.tx.fifo.dout2)) rfl
    simp only [Job.phase, Phase.drives]
    refine ⟨⟨done, hts, by rw [payloads, hw]; exact hd⟩, ?_⟩
    rw [hw, hj.2.1]
    exact ⟨hs, hl, rfl⟩
  | pop t old w new ts hne =>
    obtain ⟨hs, hl, hp⟩ := ho
    have hw := wireScan_data hp (w := TxSide.dataWord (payload s.tx.fifo.dout2)) rfl
    simp only [Job.phase, Phase.drives]
    refine ⟨⟨done, hts, by rw [payloads, hw]; exact hd⟩, ?_⟩
    obtain ⟨-, -, -, -, -, hd2, -⟩ := hj
    rw [hw, hd2]
    exact ⟨hs, hl, by simp [lag_concat]⟩
  | last t old w ts =>
    obtain ⟨hs, hl, hp⟩ := ho
    have hw := wireScan_data hp (w := TxSide.dataWord (payload s.tx.fifo.dout2)) rfl
    simp only [Job.phase, Phase.drives]
    refine ⟨⟨done, hts, by rw [payloads, hw]; exact hd⟩, ?_⟩
    obtain ⟨-, -, hr, -, -, hd2, -⟩ := hj
    rw [hw, hd2, Job.Open, hr]
    exact ⟨hs, hl, by simp [lag_concat]⟩
  | term t ts =>
    obtain ⟨hs, hl, hp⟩ := ho
    have hw := wireScan_term hp (termWord_isTerm (XgmiiTx.fcsOf s.tx.crc))
    simp only [Job.phase, Phase.drives]
    refine ⟨⟨done ++ [t], by simpa [Job.pending] using hts, ?_⟩, by rw [hw]; rfl⟩
    rw [payloads, hw, List.map_append, List.map_append, List.map_singleton, List.map_singleton,
      carried_append hl, ← payloads, hd]
    rfl

theorem sending_step (h : Sending ts j s ws) (i : LinkIn) (hp : Prompt s i) :
    ∃ j', Job.Next j j' ∧ Sending ts j' (s.step i) (ws ++ [(s.step i).tx.out]) := by
  obtain ⟨j', hn, hh⟩ := holds_step i h.holds hp
  exact ⟨j', hn, h.next i hn hh⟩

end Step

theorem sending_tracks (ts : List StoredTlp) :
    Tracks Link.step (fun s i => [(s.step i).tx.out]) id (Sending ts) :=
  ⟨fun _ _ => rfl, fun h => h.holds, fun h => sending_step h⟩

/-- The complete frames of a prompt run are those of the first TLPs, in order. -/
theorem payloads_sends (ts : List StoredTlp) (x : XgmiiTx) (is : List LinkIn)
    (h : Along Link.step Prompt (Link.start ts x) is) :
    ∃ done todo, ts = done ++ todo ∧
      payloads ((Link.start ts x).sends is) = done.map StoredTlp.sent := by
  obtain ⟨j, hj, -⟩ := (sending_tracks ts).run (sending_start ts x) is h
  obtain ⟨done, hts, hd⟩ := hj.frames
  exact ⟨done, j.pending, hts, hd⟩

/-- Once every word is written and enough edges have passed, every TLP has been sent. -/
theorem payloads_sends_all (ts : List StoredTlp) (x : XgmiiTx) (is js : List LinkIn)
    (h : Along Link.step Prompt (Link.start ts x) (is ++ js))
    (htodo : (run Link.step (Link.start ts x) is).todo = []) (hlen : cost ts + 3 ≤ js.length) :
    payloads ((Link.start ts x).sends (is ++ js)) = ts.map StoredTlp.sent := by
  obtain ⟨j, hj, hnil⟩ := (sending_tracks ts).drains (sending_start ts x) is js h htodo hlen
  obtain ⟨done, hts, hd⟩ := hj.frames
  rw [hnil, List.append_nil] at hts
  exact hd.trans (congrArg (List.map StoredTlp.sent) hts.symm)

/-- **When the payload is kept.**  In a prompt run the frame of a TLP carries its words, each once
and in order, exactly when all its words after the first carry the same data; and every TLP gets
its frame. -/
theorem frames_carry_iff_uniform (ts : List StoredTlp) (x : XgmiiTx) (is : List LinkIn)
    (h : Along Link.step Prompt (Link.start ts x) is) :
    ∃ done todo, ts = done ++ todo ∧
      List.Forall₂ (fun t p => p = t.data ↔ t.Uniform) done
        (payloads ((Link.start ts x).sends is)) ∧
      ∀ js ks, is = js ++ ks → (run Link.step (Link.start ts x) js).todo = [] →
        cost ts + 3 ≤ ks.length → todo = [] := by
  obtain ⟨done, todo, hts, hp⟩ := payloads_sends ts x is h
  refine ⟨done, todo, hts, ?_, ?_⟩
  · rw [hp, List.forall₂_map_right_iff, List.forall₂_same]
    exact fun t _ => t.sent_eq_data_iff
  · rintro js ks rfl htodo hlen
    have hall := congrArg List.length (payloads_sends_all ts x js ks h htodo hlen)
    rw [hp, List.length_map, List.length_map] at hall
    have hsplit := congrArg List.length hts
    rw [List.length_append] at hsplit
    exact List.eq_nil_of_length_eq_zero (by omega)

/-- The memory write of the test bench: two header words and one more, `0xAABBCCDD` and
`0xEEFF1122` to `0xFD6C0100`. -/
def memoryWrite : StoredTlp where
  first := 0x1123401ff40000002#72
  mid := [0x1aabbccddfd6c0100#72]
  last := 0x300000000eeff1122#72
  first_start := by decide
  mid_start := List.forall_mem_singleton.2 (by decide)
  last_valid := by decide
  last_last := by decide

/-- All three words of the write arrive in the first cycle, then 40 cycles pass. -/
def memoryWriteRun : List LinkIn := ⟨3, 0, default⟩ :: List.replicate 40 ⟨0, 0, default⟩

theorem memoryWriteRun_prompt :
    Along Link.step Prompt (Link.start [memoryWrite] default) memoryWriteRun := by
  have h0 : Prompt (Link.start [memoryWrite] default) ⟨3, 0, default⟩ := fun h => by cases h
  obtain ⟨j, -, hj⟩ := holds_step ⟨3, 0, default⟩ (holds_start [memoryWrite] default) h0
  exact ⟨h0, along_prompt_of_todo_nil id (fun _ _ => rfl) hj rfl _⟩

theorem frame_of_memoryWrite : ∃ p,
    payloads ((Link.start [memoryWrite] default).sends memoryWriteRun) = [p] ∧
      (p = memoryWrite.data ↔ memoryWrite.Uniform) := by
  obtain ⟨done, todo, hts, hp, hall⟩ :=
    frames_carry_iff_uniform [memoryWrite] default memoryWriteRun memoryWriteRun_prompt
  obtain rfl := hall [⟨3, 0, default⟩] (List.replicate 40 ⟨0, 0, default⟩) rfl rfl (by decide)
  rw [List.append_nil] at hts
  rw [← hts] at hp
  cases hps : payloads ((Link.start [memoryWrite] default).sends memoryWriteRun) with
  | nil => rw [hps] at hp; cases hp
  | cons p ps =>
    rw [hps, List.forall₂_cons] at hp
    obtain rfl := List.forall₂_nil_left_iff.1 hp.2
    exact ⟨p, rfl, hp.1⟩

/-- The frame of the test bench write carries its second word twice and its third not at all. -/
theorem memoryWrite_not_carried :
    Along Link.step Prompt (Link.start [memoryWrite] default) memoryWriteRun ∧
    payloads ((Link.start [memoryWrite] default).sends memoryWriteRun) =
      [[0x123401ff40000002#64, 0xaabbccddfd6c0100#64, 0xaabbccddfd6c0100#64]] ∧
    memoryWrite.data = [0x123401ff40000002#64, 0xaabbccddfd6c0100#64, 0x00000000eeff1122#64] ∧
    payloads ((Link.start [memoryWrite] default).sends memoryWriteRun) ≠ [memoryWrite.data] := by
  have hsent : payloads ((Link.start [memoryWrite] default).sends memoryWriteRun) =
      [memoryWrite].map StoredTlp.sent :=
    payloads_sends_all [memoryWrite] default [⟨3, 0, default⟩] _ memoryWriteRun_prompt rfl
      (by decide)
  exact ⟨memoryWriteRun_prompt, hsent, by decide, fun h => absurd (hsent.symm.trans h) (by decide)⟩

end IpNuma
