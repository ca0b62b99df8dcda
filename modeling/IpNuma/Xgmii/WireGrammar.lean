import IpNuma.Xgmii.Word

/-!
# The grammar of a 64-bit XGMII transmitter

`WireFrame` is one complete frame on the wire with the gap behind it: a start word, six header
words, at least two payload words, a terminate word, at least two idle words.  `wire lead fs` is
a stream of such frames after `lead` idle words.

`Sent stage ws` follows the same grammar one word at a time, so that a transmitter can be shown
to keep it step by step; `Sent.prefix_wire` says that what has been sent is always a prefix of
complete frames.
-/

namespace IpNuma

/-- A start character in lane 0, data in the other lanes. -/
def IsStartWord (w : XgmiiWord) : Prop := w.c = 0x01#8 ∧ octet w.d 0 = 0xfb#8

/-- A terminate character in lane 4, data before it. -/
def IsTermWord (w : XgmiiWord) : Prop := w.c = 0xf0#8 ∧ octet w.d 4 = 0xfd#8

/-- Data in all lanes. -/
def IsDataWord (w : XgmiiWord) : Prop := w.c = 0x00#8

/-- The number of lanes with a data character. -/
def dataLanes (w : XgmiiWord) : ℕ := (List.range 8).countP fun k => !w.c.getLsbD k

/-- A frame on the wire and the gap behind it. -/
structure WireFrame where
  start : XgmiiWord
  header : List XgmiiWord
  payload : List XgmiiWord
  term : XgmiiWord
  gap : ℕ
  isStart : IsStartWord start
  header_length : header.length = 6
  header_data : ∀ w ∈ header, IsDataWord w
  payload_length : 2 ≤ payload.length
  payload_data : ∀ w ∈ payload, IsDataWord w
  isTerm : IsTermWord term
  gap_length : 2 ≤ gap

namespace WireFrame

variable (f : WireFrame)

/-- The words of the frame, in order. -/
def words : List XgmiiWord :=
  f.start :: (f.header ++ f.payload) ++ f.term :: List.replicate f.gap idleWord

/-- The octets of the frame, FCS included: the data lanes after the start word. -/
def octets : ℕ := ((f.header ++ f.payload ++ [f.term]).map dataLanes).sum

/-- The octets from the terminate character to the next start word. -/
def gapOctets : ℕ := ((f.term :: List.replicate f.gap idleWord).map fun w => 8 - dataLanes w).sum

theorem dataLanes_data {w : XgmiiWord} (h : IsDataWord w) : dataLanes w = 8 := by
  unfold dataLanes; rw [h]; decide

theorem dataLanes_term {w : XgmiiWord} (h : IsTermWord w) : dataLanes w = 4 := by
  unfold dataLanes; rw [h.1]; decide

theorem sum_dataLanes {ws : List XgmiiWord} (h : ∀ w ∈ ws, IsDataWord w) :
    (ws.map dataLanes).sum = 8 * ws.length := by
  induction ws with
  | nil => rfl
  | cons w ws ih =>
    rw [List.map_cons, List.sum_cons, dataLanes_data (h w List.mem_cons_self),
      ih fun v hv => h v (List.mem_cons_of_mem _ hv), List.length_cons]
    omega

theorem octets_eq : f.octets = 8 * (6 + f.payload.length) + 4 := by
  have hd : ∀ w ∈ f.header ++ f.payload, IsDataWord w := fun w hw =>
    (List.mem_append.1 hw).elim (f.header_data w) (f.payload_data w)
  rw [octets, List.map_append, List.sum_append, sum_dataLanes hd, List.length_append,
    f.header_length]
  simp [dataLanes_term f.isTerm]

/-- No frame is shorter than the Ethernet minimum, FCS included, plus four octets. -/
theorem octets_ge : 68 ≤ f.octets := by
  have := f.payload_length
  rw [octets_eq]; omega

theorem gapOctets_eq : f.gapOctets = 4 + 8 * f.gap := by
  simp [gapOctets, dataLanes_term f.isTerm, show dataLanes idleWord = 0 by decide, mul_comm]

theorem gapOctets_ge : 12 ≤ f.gapOctets := by
  have := f.gap_length
  rw [gapOctets_eq]; omega

end WireFrame

/-- A stream of frames after `lead` idle words. -/
def wire (lead : ℕ) (fs : List WireFrame) : List XgmiiWord :=
  List.replicate lead idleWord ++ fs.flatMap WireFrame.words

theorem wire_concat (lead : ℕ) (fs : List WireFrame) (f : WireFrame) :
    wire lead (fs ++ [f]) = wire lead fs ++ f.words := by
  simp [wire]

/-! ### One word at a time -/

/-- How far the word stream has got: `n` idle words since the terminate word, `k` header words,
`n` payload words. -/
inductive Stage
  | gap (n : ℕ)
  | header (k : ℕ)
  | payload (n : ℕ)

/-- The words sent so far keep the grammar.  Before the first frame the gap counts as long
enough. -/
inductive Sent : Stage → List XgmiiWord → Prop
  | lead : Sent (.gap 2) []
  | idle {n : ℕ} {ws : List XgmiiWord} : Sent (.gap n) ws → Sent (.gap (n + 1)) (ws ++ [idleWord])
  | start {n : ℕ} {ws : List XgmiiWord} {w : XgmiiWord} :
      Sent (.gap n) ws → 2 ≤ n → IsStartWord w → Sent (.header 0) (ws ++ [w])
  | header {k : ℕ} {ws : List XgmiiWord} {w : XgmiiWord} :
      Sent (.header k) ws → k < 6 → IsDataWord w → Sent (.header (k + 1)) (ws ++ [w])
  | first {ws : List XgmiiWord} {w : XgmiiWord} :
      Sent (.header 6) ws → IsDataWord w → Sent (.payload 1) (ws ++ [w])
  | payload {n : ℕ} {ws : List XgmiiWord} {w : XgmiiWord} :
      Sent (.payload n) ws → IsDataWord w → Sent (.payload (n + 1)) (ws ++ [w])
  | term {n : ℕ} {ws : List XgmiiWord} {w : XgmiiWord} :
      Sent (.payload n) ws → 2 ≤ n → IsTermWord w → Sent (.gap 0) (ws ++ [w])

/-- An unfinished frame: what can still follow `start :: body` to make a `WireFrame`. -/
structure OpenFrame where
  start : XgmiiWord
  header : List XgmiiWord
  payload : List XgmiiWord
  isStart : IsStartWord start
  header_data : ∀ w ∈ header, IsDataWord w
  payload_data : ∀ w ∈ payload, IsDataWord w

/-- The words of an unfinished frame. -/
def OpenFrame.words (o : OpenFrame) : List XgmiiWord := o.start :: (o.header ++ o.payload)

/-- What a stage says about the words sent. -/
def Shape : Stage → List XgmiiWord → Prop
  | .gap n, ws => (∃ lead, n = lead + 2 ∧ ws = wire lead []) ∨
      ∃ lead fs, ∃ o : OpenFrame, ∃ t, o.header.length = 6 ∧ 2 ≤ o.payload.length ∧ IsTermWord t ∧
        ws = wire lead fs ++ (o.words ++ t :: List.replicate n idleWord)
  | .header k, ws => ∃ lead fs, ∃ o : OpenFrame, o.header.length = k ∧ k ≤ 6 ∧ o.payload = [] ∧
      ws = wire lead fs ++ o.words
  | .payload n, ws => ∃ lead fs, ∃ o : OpenFrame, o.header.length = 6 ∧ o.payload.length = n ∧
      ws = wire lead fs ++ o.words

/-- A gap of two idle words completes the frame. -/
theorem Shape.closed {n : ℕ} {ws : List XgmiiWord} (h : Shape (.gap n) ws) (hn : 2 ≤ n) :
    ∃ lead fs, ws = wire lead fs := by
  rcases h with ⟨lead, -, rfl⟩ | ⟨lead, fs, o, t, hh, hp, ht, rfl⟩
  · exact ⟨lead, [], rfl⟩
  · refine ⟨lead, fs ++ [⟨o.start, o.header, o.payload, t, n, o.isStart, hh, o.header_data, hp,
      o.payload_data, ht, hn⟩], ?_⟩
    rw [wire_concat]
    rfl

theorem Sent.shape {st : Stage} {ws : List XgmiiWord} (h : Sent st ws) : Shape st ws := by
  induction h with
  | lead => exact Or.inl ⟨0, rfl, rfl⟩
  | @idle n ws _ ih =>
    rcases ih with ⟨lead, rfl, rfl⟩ | ⟨lead, fs, o, t, hh, hp, ht, rfl⟩
    · exact Or.inl ⟨lead + 1, rfl, by simp [wire, List.replicate_succ']⟩
    · exact Or.inr ⟨lead, fs, o, t, hh, hp, ht, by simp [List.replicate_succ']⟩
  | @start n ws w _ hn hw ih =>
    obtain ⟨lead, fs, rfl⟩ := Shape.closed ih hn
    exact ⟨lead, fs, ⟨w, [], [], hw, by simp, by simp⟩, rfl, by omega, rfl, rfl⟩
  | @header k ws w _ hk hw ih =>
    obtain ⟨lead, fs, o, hh, -, hp, rfl⟩ := ih
    refine ⟨lead, fs, ⟨o.start, o.header ++ [w], o.payload, o.isStart, ?_, o.payload_data⟩,
      by simp [hh], by omega, hp, by simp [OpenFrame.words, hp]⟩
    intro v hv
    rcases List.mem_append.1 hv with hv | hv
    · exact o.header_data v hv
    · rw [List.mem_singleton.1 hv]; exact hw
  | @first ws w _ hw ih =>
    obtain ⟨lead, fs, o, hh, -, hp, rfl⟩ := ih
    refine ⟨lead, fs, ⟨o.start, o.header, [w], o.isStart, o.header_data, ?_⟩, hh, rfl,
      by simp [OpenFrame.words, hp]⟩
    intro v hv
    rw [List.mem_singleton.1 hv]; exact hw
  | @payload n ws w _ hw ih =>
    obtain ⟨lead, fs, o, hh, hp, rfl⟩ := ih
    refine ⟨lead, fs, ⟨o.start, o.header, o.payload ++ [w], o.isStart, o.header_data, ?_⟩, hh,
      by simp [hp], by simp [OpenFrame.words]⟩
    intro v hv
    rcases List.mem_append.1 hv with hv | hv
    · exact o.payload_data v hv
    · rw [List.mem_singleton.1 hv]; exact hw
  | @term n ws w _ hn hw ih =>
    obtain ⟨lead, fs, o, hh, hp, rfl⟩ := ih
    exact Or.inr ⟨lead, fs, o, w, hh, by omega, hw, by simp⟩

/-- Two payload words, a terminate word and two idle words complete an unfinished frame whose
header is complete. -/
theorem OpenFrame.prefix_words (o : OpenFrame) (hh : o.header.length = 6) :
    ∃ f : WireFrame, o.words <+: f.words := by
  refine ⟨⟨o.start, o.header, o.payload ++ [⟨0, 0⟩, ⟨0, 0⟩], ⟨0xf0#8, 0xfd00000000#64⟩, 2,
    o.isStart, hh, o.header_data, by simp, ?_, ⟨rfl, by decide⟩, le_rfl⟩, ?_⟩
  · intro w hw
    rcases List.mem_append.1 hw with hw | hw
    · exact o.payload_data w hw
    · simp only [List.mem_cons, List.not_mem_nil, or_false, or_self] at hw
      rw [hw]; rfl
  · exact ⟨[⟨0, 0⟩, ⟨0, 0⟩, ⟨0xf0#8, 0xfd00000000#64⟩, idleWord, idleWord],
      by simp [OpenFrame.words, WireFrame.words, List.replicate]⟩

/-- More header words complete a header. -/
theorem OpenFrame.prefix_header (o : OpenFrame) (hk : o.header.length ≤ 6) (hp : o.payload = []) :
    ∃ o' : OpenFrame, o'.header.length = 6 ∧ o.words <+: o'.words := by
  refine ⟨⟨o.start, o.header ++ List.replicate (6 - o.header.length) ⟨0, 0⟩, [], o.isStart, ?_,
    by simp⟩, by simp [hk], ?_⟩
  · intro w hw
    rcases List.mem_append.1 hw with hw | hw
    · exact o.header_data w hw
    · rw [List.eq_of_mem_replicate hw]; rfl
  · exact ⟨List.replicate (6 - o.header.length) ⟨0, 0⟩, by simp [OpenFrame.words, hp]⟩

/-- **What has been sent is a prefix of complete frames.** -/
theorem Sent.prefix_wire {st : Stage} {ws : List XgmiiWord} (h : Sent st ws) :
    ∃ lead fs, ws <+: wire lead fs := by
  have close : ∀ lead fs (o : OpenFrame), o.header.length = 6 → ∃ lead' fs',
      wire lead fs ++ o.words <+: wire lead' fs' := by
    intro lead fs o hh
    obtain ⟨f, hf⟩ := o.prefix_words hh
    exact ⟨lead, fs ++ [f], by rw [wire_concat]; exact (List.prefix_append_right_inj _).2 hf⟩
  cases st with
  | gap n =>
    -- two more idle words make the gap long enough
    obtain ⟨lead, fs, hws⟩ := Shape.closed h.idle.idle.shape (by omega)
    exact ⟨lead, fs, by rw [← hws, List.append_assoc]; exact List.prefix_append _ _⟩
  | header k =>
    obtain ⟨lead, fs, o, rfl, hk, hp, rfl⟩ := h.shape
    obtain ⟨o', hh, ho⟩ := o.prefix_header hk hp
    obtain ⟨lead', fs', hw⟩ := close lead fs o' hh
    exact ⟨lead', fs', ((List.prefix_append_right_inj _).2 ho).trans hw⟩
  | payload n =>
    obtain ⟨lead, fs, o, hh, -, rfl⟩ := h.shape
    exact close lead fs o hh

end IpNuma
