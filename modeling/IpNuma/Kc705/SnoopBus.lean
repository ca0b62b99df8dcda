import IpNuma.Kc705.PioRx

/-!
# The snoop on the bus of the endpoint

`PIO_RX_ENGINE` drives `tready`, and a beat that it does not take stays on the bus.  The snoop reads
neither `tready` nor, behind the first beat of a TLP, `tvalid`.  So it captures a beat once for
every cycle that the beat is on the bus, and a beat in every cycle without one.

`OnceStep` is the condition on a cycle under which this does no harm: within a TLP `tvalid` stays
up, no beat but a last one waits for `tready`, and a first beat finds the snoop in `IDLE`.
`captured_of_once` says that in every run whose cycles meet it the transmitter recovers the TLPs,
each once and in order.
-/

namespace IpNuma

open Clocked

/-- The source of the beats, the endpoint's engine and the snoop. -/
structure RxBus where
  /-- The beats still to be transferred. -/
  todo : List RxBeat
  /-- The first of them is on the bus and waits for `tready`. -/
  held : Bool
  eng : PioRx
  snoop : Snoop

/-- What the environment chooses in a cycle: whether a new beat is offered, what stands on the bus
otherwise, and the other inputs of the two engines. -/
structure RxBusIn where
  offer : Bool
  junk : RxBeat
  mem0Paddr : BitVec 36
  pio : PioRxIn
  deriving DecidableEq, Inhabited

/-- The TLP hits BAR2. -/
def RxTlp.HitsBar2 (t : RxTlp) : Prop := ∀ b ∈ t.beats, b.tuser.getLsbD 4 = true

/-- The TLP is a memory read or write. -/
def RxTlp.IsMemory (t : RxTlp) : Prop := t.first.type = 0

instance : DecidablePred RxTlp.HitsBar2 := fun t =>
  inferInstanceAs (Decidable (∀ b ∈ t.beats, b.tuser.getLsbD 4 = true))

instance : DecidablePred RxTlp.IsMemory := fun t =>
  inferInstanceAs (Decidable (t.first.type = 0))

/-- The beats of a sequence of TLPs. -/
def beatsOf (ts : List RxTlp) : List RxBeat := ts.flatMap RxTlp.beats

theorem length_beatsOf_cons (t : RxTlp) (ts : List RxTlp) :
    (beatsOf (t :: ts)).length = t.rest.length + 1 + (beatsOf ts).length := by
  rw [beatsOf, List.flatMap_cons, List.length_append]
  rfl

namespace RxBus

/-- `m_axis_rx_tvalid`: a beat once offered stays. -/
def tvalid (s : RxBus) (i : RxBusIn) : Bool := !s.todo.isEmpty && (s.held || i.offer)

/-- The beat on the bus. -/
def beat (s : RxBus) (i : RxBusIn) : RxBeat := if s.tvalid i then s.todo.headD i.junk else i.junk

/-- What the snoop samples. -/
def sample (s : RxBus) (i : RxBusIn) : SnoopIn := ⟨s.beat i, s.tvalid i, i.mem0Paddr⟩

/-- One edge of `clk`. -/
def step (s : RxBus) (i : RxBusIn) : RxBus where
  todo := if s.tvalid i && s.eng.tready then s.todo.tail else s.todo
  held := s.tvalid i && !s.eng.tready
  eng := s.eng.step (s.beat i) (s.tvalid i) i.pio
  snoop := s.snoop.step (s.sample i)

/-- The word the snoop writes. -/
def push (s : RxBus) (i : RxBusIn) : List (BitVec 72) := s.snoop.push (s.sample i)

/-- After reset, with the TLPs `ts` to come. -/
def start (r : Snoop) (ts : List RxTlp) : RxBus := ⟨beatsOf ts, false, PioRx.reset, r.reset⟩

/-- The condition on a cycle. -/
structure OnceStep (s : RxBus) (i : RxBusIn) : Prop where
  /-- Within a TLP `tvalid` stays up. -/
  busy : s.eng.inPacketQ = true → s.tvalid i = true
  /-- Only the last beat of a TLP waits for `tready`. -/
  ready : s.tvalid i = true → s.eng.tready = false → (s.beat i).tlast = true
  /-- A first beat finds the snoop in `IDLE`. -/
  idle : s.tvalid i = true → s.eng.inPacketQ = false → s.snoop.state = .idle

instance (s : RxBus) (i : RxBusIn) : Decidable (s.OnceStep i) :=
  decidable_of_iff ((s.eng.inPacketQ = true → s.tvalid i = true) ∧
    (s.tvalid i = true → s.eng.tready = false → (s.beat i).tlast = true) ∧
    (s.tvalid i = true → s.eng.inPacketQ = false → s.snoop.state = .idle))
    ⟨fun h => ⟨h.1, h.2.1, h.2.2⟩, fun h => ⟨h.busy, h.ready, h.idle⟩⟩

/-- The words are those of the TLP, beat for beat. -/
def Forwards (t : RxTlp) (ws : List (BitVec 72)) : Prop := ∃ is, Presents is t ∧ ws = rewritten is

theorem Forwards.length_eq {t : RxTlp} {ws : List (BitVec 72)} (h : Forwards t ws) :
    ws.length = t.beats.length := by
  obtain ⟨is, ⟨hb, -⟩, rfl⟩ := h
  rw [length_rewritten, ← hb, List.length_map]

/-- The TLPs recovered from the words `l` are the first ones of `ts`, and the next one has not been
transferred in full. -/
def Captured (ts : List RxTlp) (s : RxBus) (l : List (BitVec 72)) : Prop :=
  ∃ done rest, ts = done ++ rest ∧ List.Forall₂ Forwards done (recover isStart isLast l) ∧
    ∀ t rest', rest = t :: rest' → (beatsOf rest').length < s.todo.length

/-- When all has been transferred, all TLPs have been recovered. -/
theorem Captured.all {ts : List RxTlp} {s : RxBus} {l : List (BitVec 72)} (h : Captured ts s l)
    (hs : s.todo = []) : List.Forall₂ Forwards ts (recover isStart isLast l) := by
  obtain ⟨done, rest, rfl, hdone, hrest⟩ := h
  cases rest with
  | nil => rwa [List.append_nil]
  | cons t rest' =>
    have hlt := hrest t rest' rfl
    rw [hs] at hlt
    exact absurd hlt (Nat.not_lt_zero _)

/-! ### The place in a TLP -/

/-- Where the bus is when the TLPs `rest` are left, with what the reader of the FIFO has taken of a
TLP. -/
inductive Place (s : RxBus) : List RxTlp → Option (List (BitVec 72)) → Prop
  /-- Between two TLPs. -/
  | between {rest : List RxTlp} : s.eng.inPacketQ = false → s.held = false →
      s.todo = beatsOf rest → Place s rest none
  /-- Within a TLP, each of whose beats so far was on the bus for one cycle. -/
  | inside {t : RxTlp} {rest : List RxTlp} {is : List SnoopIn} {bs : List RxBeat} : is ≠ [] →
      bs ≠ [] → t.beats = is.map SnoopIn.beat ++ bs → (∀ i ∈ is, i.tvalid = true) →
      s.eng.inPacketQ = true → s.held = false → s.todo = bs ++ beatsOf rest → s.snoop.Inside is →
      Place s (t :: rest) (partOf is)
  /-- The last beat of a TLP, captured, waits for `tready`. -/
  | waiting {rest : List RxTlp} {b : RxBeat} : b.tlast = true → s.eng.inPacketQ = true →
      s.held = true → s.todo = b :: beatsOf rest → Place s rest none

/-- The invariant: the recovered TLPs, and the place behind them. -/
def Invariant (ts : List RxTlp) (s : RxBus) (l : List (BitVec 72)) : Prop :=
  ∃ done rest part ds, ts = done ++ rest ∧ List.Forall₂ Forwards done ds ∧
    scan isStart isLast l = ⟨part, ds⟩ ∧ s.Place rest part

variable {s : RxBus} {i : RxBusIn} {ts rest : List RxTlp} {l : List (BitVec 72)}
  {ds : List (List (BitVec 72))}

theorem beat_of_tvalid {b : RxBeat} {bs : List RxBeat} (hv : s.tvalid i = true)
    (h : s.todo = b :: bs) : s.beat i = b := by
  rw [beat, if_pos hv, h]
  rfl

/-- A cycle that starts no TLP leaves the reader where it is. -/
theorem scan_push (h : scan isStart isLast l = ⟨none, ds⟩)
    (hw : (s.tvalid i && !(s.beat i).tlast) = false) :
    scan isStart isLast (l ++ s.push i) = ⟨none, ds⟩ := by
  rcases Snoop.push_flags s.snoop (s.sample i) with hp | ⟨d, hp⟩
  · rw [push, hp, List.append_nil, h]
  · rw [push, hp]
    exact scan_skip h (by rw [isStart_word]; exact hw)

/-- After the last beat of a TLP has been captured. -/
theorem place_last {b : RxBeat} (hv : s.tvalid i = true) (hb : b.tlast = true)
    (hin : s.eng.inPacketQ = true) (htodo : s.todo = b :: beatsOf rest) :
    (s.step i).Place rest none := by
  have hbeat := beat_of_tvalid hv htodo
  cases hr : s.eng.tready with
  | true =>
    refine .between ?_ ?_ ?_
    · simp [step, PioRx.inPacketNext, hv, hr, hbeat, hb]
    · simp [step, hr]
    · simp [step, hv, hr, htodo]
  | false =>
    refine .waiting hb ?_ ?_ ?_
    · simp [step, PioRx.inPacketNext, PioRx.sop, hr, hin]
    · simp [step, hv, hr]
    · simp [step, hr, htodo]

/-- One cycle between two TLPs. -/
theorem place_between (hin : s.eng.inPacketQ = false)
    (htodo : s.todo = beatsOf rest) (hsel : ∀ t ∈ rest, t.first.selected = true)
    (h : scan isStart isLast l = ⟨none, ds⟩) (hi : s.OnceStep i) :
    ∃ part, scan isStart isLast (l ++ s.push i) = ⟨part, ds⟩ ∧ (s.step i).Place rest part := by
  cases hv : s.tvalid i with
  | false =>
    refine ⟨none, scan_push h (by rw [hv, Bool.false_and]), .between ?_ ?_ ?_⟩
    · simp [step, PioRx.inPacketNext, PioRx.sop, hv, hin]
    · simp [step, hv]
    · simp [step, hv, htodo]
  | true =>
    cases rest with
    | nil => simp [tvalid, htodo, beatsOf] at hv
    | cons t rest =>
      have htodo' : s.todo = t.first :: (t.rest ++ beatsOf rest) := htodo
      have hbeat := beat_of_tvalid hv htodo'
      have hlast : (s.beat i).tlast = false := by rw [hbeat, t.first_tlast]
      have hr : s.eng.tready = true := by
        by_contra hr
        rw [hi.ready hv (Bool.eq_false_iff.2 hr)] at hlast
        cases hlast
      have hidle : s.snoop.Inside [] := hi.idle hv hin
      have hs : (s.sample i).beat.selected = true := by
        rw [sample, hbeat]
        exact hsel t List.mem_cons_self
      have hscan := scan_beat h hv hlast (Snoop.push_inside hidle hv fun _ => hs)
      refine ⟨_, hscan, .inside (List.cons_ne_nil _ _) t.rest_ne_nil ?_ ?_ ?_ ?_ ?_ ?_⟩
      · simp [sample, hbeat, RxTlp.beats]
      · simpa [sample] using hv
      · simp [step, PioRx.inPacketNext, PioRx.sop, hv, hr, hlast, hin]
      · simp [step, hr]
      · simp [step, hv, hr, htodo']
      · exact Snoop.step_inside hidle hv (fun _ => hs) hlast

/-- One cycle within a TLP. -/
theorem place_inside {t : RxTlp} {is : List SnoopIn} {bs : List RxBeat} (hne : is ≠ [])
    (hbs : bs ≠ []) (hbeats : t.beats = is.map SnoopIn.beat ++ bs)
    (hvalid : ∀ j ∈ is, j.tvalid = true) (hin : s.eng.inPacketQ = true)
    (htodo : s.todo = bs ++ beatsOf rest) (hsnoop : s.snoop.Inside is)
    (h : scan isStart isLast l = ⟨partOf is, ds⟩) (hi : s.OnceStep i) :
    (∃ part, scan isStart isLast (l ++ s.push i) = ⟨part, ds⟩ ∧ (s.step i).Place (t :: rest) part) ∨
      ∃ ws, Forwards t ws ∧ scan isStart isLast (l ++ s.push i) = ⟨none, ds ++ [ws]⟩ ∧
        (s.step i).Place rest none := by
  have hv := hi.busy hin
  obtain ⟨b, bs, rfl⟩ := List.exists_cons_of_ne_nil hbs
  have hbeat := beat_of_tvalid hv htodo
  have hpush := Snoop.push_inside (i := s.sample i) hsnoop hv fun h => absurd h hne
  have hvalid' : ∀ j ∈ is ++ [s.sample i], j.tvalid = true := by
    rw [List.forall_mem_append, List.forall_mem_singleton]
    exact ⟨hvalid, hv⟩
  by_cases hb : b.tlast = true
  · -- the last beat is captured, whether it is taken or not
    obtain rfl := (t.tlast_iff hbeats).1 hb
    refine Or.inr ⟨_, ⟨is ++ [s.sample i], ⟨?_, hvalid'⟩, rfl⟩, ?_, place_last hv hb hin htodo⟩
    · rw [List.map_append, hbeats, List.map_singleton, sample, hbeat]
    · exact scan_lastBeat h hne (by rw [sample, hbeat, hb]) hpush
  · have hl : (s.beat i).tlast = false := by
      rw [hbeat]
      exact Bool.eq_false_iff.2 hb
    have hr : s.eng.tready = true := by
      by_contra hr
      rw [hi.ready hv (Bool.eq_false_iff.2 hr)] at hl
      cases hl
    have hbs' : bs ≠ [] := fun hnil => hb ((t.tlast_iff hbeats).2 hnil)
    have hscan := scan_beat h hv hl hpush
    refine Or.inl ⟨_, hscan, .inside (by simp) hbs' ?_ hvalid' ?_ ?_ ?_ ?_⟩
    · rw [List.map_append, hbeats, List.map_singleton, sample, hbeat, List.append_assoc]
      rfl
    · simp [step, PioRx.inPacketNext, PioRx.sop, hl, hin]
    · simp [step, hr]
    · simp [step, hv, hr, htodo]
    · exact Snoop.step_inside hsnoop hv (fun h => absurd h hne) hl

/-- **One cycle** that meets the condition keeps the invariant. -/
theorem invariant_step (hsel : ∀ t ∈ ts, t.first.selected = true) (h : Invariant ts s l)
    (hi : s.OnceStep i) : Invariant ts (s.step i) (l ++ s.push i) := by
  obtain ⟨done, rest, part, ds, rfl, hds, hscan, hplace⟩ := h
  cases hplace with
  | between hin _ htodo =>
    have hrest : ∀ t ∈ rest, t.first.selected = true :=
      fun t ht => hsel t (List.mem_append_right _ ht)
    obtain ⟨part, hscan', hplace'⟩ := place_between hin htodo hrest hscan hi
    exact ⟨done, rest, part, ds, rfl, hds, hscan', hplace'⟩
  | @inside t rest is bs hne hbs hbeats hvalid hin hheld htodo hsnoop =>
    rcases place_inside hne hbs hbeats hvalid hin htodo hsnoop hscan hi with
      ⟨part, hscan', hplace'⟩ | ⟨ws, hws, hscan', hplace'⟩
    · exact ⟨done, t :: rest, part, ds, rfl, hds, hscan', hplace'⟩
    · refine ⟨done ++ [t], rest, none, ds ++ [ws], by simp, ?_, hscan', hplace'⟩
      exact List.rel_append hds (.cons hws .nil)
  | waiting hb hin hheld htodo =>
    have hv := hi.busy hin
    have hl : (s.tvalid i && !(s.beat i).tlast) = false := by
      rw [beat_of_tvalid hv htodo, hb]
      simp
    exact ⟨done, rest, none, ds, rfl, hds, scan_push hscan hl, place_last hv hb hin htodo⟩

theorem invariant_start (r : Snoop) (ts : List RxTlp) : Invariant ts (start r ts) [] :=
  ⟨[], ts, none, [], rfl, .nil, rfl, .between rfl rfl rfl⟩

/-- The invariant says what has been captured. -/
theorem Invariant.captured (h : Invariant ts s l) : Captured ts s l := by
  obtain ⟨done, rest, part, ds, rfl, hds, hscan, hplace⟩ := h
  refine ⟨done, rest, rfl, by rw [recover, hscan]; exact hds, ?_⟩
  rintro t rest' rfl
  cases hplace with
  | between _ _ htodo =>
    rw [htodo, length_beatsOf_cons]
    omega
  | inside _ hbs _ _ _ _ htodo _ =>
    rw [htodo, List.length_append]
    exact Nat.lt_add_of_pos_left (List.length_pos_of_ne_nil hbs)
  | waiting _ _ _ htodo =>
    rw [htodo, List.length_cons, length_beatsOf_cons]
    omega

end RxBus

open RxBus

/-- **Exactly-once capture.**  In every run from reset whose cycles meet the condition, for every
sequence of TLPs that hit BAR2, the TLPs recovered in each state are the first ones of the sequence,
beat for beat and in order, and all that have been transferred in full are among them. -/
theorem captured_of_once (r : Snoop) (ts : List RxTlp) (hbar : ∀ t ∈ ts, t.HitsBar2)
    (is : List RxBusIn) (h : Along RxBus.step RxBus.OnceStep (RxBus.start r ts) is) :
    RxBus.Captured ts (run RxBus.step (RxBus.start r ts) is)
      (log RxBus.step RxBus.push (RxBus.start r ts) is) := by
  have hsel : ∀ t ∈ ts, t.first.selected = true := by
    intro t ht
    rw [RxBeat.selected, hbar t ht t.first List.mem_cons_self, Bool.true_or]
  exact (log_induction (invariant_start r ts) (fun _ _ _ hs hi => invariant_step hsel hs hi) is
    h).captured

/-- A memory write of one word, with a 64-bit address. -/
def longWrite : RxTlp :=
  .ofWords 0x1234010F60000001#64 [0xFD6C010000000001#64] 0x00000000AABBCCDD#64 0x0f#8 0x10#22

/-- A memory write of one word, with a 32-bit address. -/
def shortWrite : RxTlp :=
  .ofWords 0x1234020F40000001#64 [] 0xAABBCCDDFD6C0100#64 0xff#8 0x10#22

/-- A memory write of two words, with a 32-bit address. -/
def doubleWrite : RxTlp :=
  .ofWords 0x123401FF40000002#64 [0xAABBCCDDFD6C0100#64] 0x00000000EEFF1122#64 0x0f#8 0x10#22

/-- One cycle for the engine to raise `tready`, then `n` with a beat offered whenever there is
one. -/
def offers (n : ℕ) : List RxBusIn :=
  default :: List.replicate n { (default : RxBusIn) with offer := true }

theorem captured_writes : List.Forall₂ Forwards [longWrite, shortWrite]
    (recover isStart isLast
      (log RxBus.step RxBus.push (RxBus.start default [longWrite, shortWrite]) (offers 9))) :=
  (captured_of_once default [longWrite, shortWrite] (by decide) (offers 9)
    (by decide +kernel)).all (by decide +kernel)

/-- The write of two words is captured with four words: its second beat twice. -/
theorem doubleWrite_captured_twice :
    doubleWrite.HitsBar2 ∧ doubleWrite.IsMemory ∧
      (recover isStart isLast (log RxBus.step RxBus.push (RxBus.start default [doubleWrite])
        (offers 4))).map (List.map payload) =
        [[0xE23401FF40000002#64, 0xAABBCCDD00000100#64, 0xAABBCCDDFD6C0100#64,
          0x00000000EEFF1122#64]] ∧
      ¬ RxBus.Captured [doubleWrite] (run RxBus.step (RxBus.start default [doubleWrite]) (offers 4))
        (log RxBus.step RxBus.push (RxBus.start default [doubleWrite]) (offers 4)) := by
  have hrec : (recover isStart isLast (log RxBus.step RxBus.push (RxBus.start default [doubleWrite])
        (offers 4))).map (List.map payload) =
        [[0xE23401FF40000002#64, 0xAABBCCDD00000100#64, 0xAABBCCDDFD6C0100#64,
          0x00000000EEFF1122#64]] := by decide +kernel
  refine ⟨by decide, by decide, hrec, fun h => ?_⟩
  obtain ⟨ws, hws⟩ := List.map_eq_singleton_iff.1 hrec
  have hall := h.all (by decide +kernel)
  rw [hws.1] at hall
  cases hall with
  | cons hfwd _ =>
    have hlen := congrArg List.length hws.2
    rw [List.length_map, hfwd.length_eq] at hlen
    cases hlen

end IpNuma
