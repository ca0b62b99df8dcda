import IpNuma.Kc705.RxSnoop

/-!
# Which TLPs the snoop forwards

On a bus where `tready` is always high and no TLP is interrupted, the snoop should forward the
TLPs whose first beat hits BAR2 or is the header of a completion, and write nothing in a cycle of
another TLP: `Selective`.  Its test stands in `IDLE` alone, and the snoop is in `IDLE` during all
beats of a TLP that it ignores.  So every later beat of an ignored TLP is tested as if it were a
header.

* `Delivery` is a TLP on the bus with the idle cycles before it;
* `silent_iff`: the snoop writes nothing in the cycles of ignored TLPs exactly when no later beat
  of one passes the test;
* `run_trace`: then it forwards the selected TLPs and nothing else.
-/

namespace IpNuma

open Clocked

/-- A TLP on the bus, after some cycles without `tvalid`. -/
structure Delivery where
  tlp : RxTlp
  gap : List SnoopIn
  beats : List SnoopIn
  gap_idle : ∀ i ∈ gap, i.tvalid = false
  presents : Presents beats tlp

namespace Delivery

/-- The cycles of a delivery. -/
def cycles (d : Delivery) : List SnoopIn := d.gap ++ d.beats

/-- The cycles of a sequence of deliveries. -/
def trace (ds : List Delivery) : List SnoopIn := ds.flatMap cycles

/-- The TLP hits BAR2 or is a completion. -/
def Selected (d : Delivery) : Prop := d.tlp.first.selected = true

instance : DecidablePred Selected := fun d =>
  inferInstanceAs (Decidable (d.tlp.first.selected = true))

/-- No beat of an ignored TLP behind its first passes the test for a header. -/
def Plain (d : Delivery) : Prop := ¬ d.Selected → ∀ b ∈ d.tlp.rest, b.selected = false

end Delivery

namespace Snoop

open Delivery

/-- Nothing is written in the cycles of ignored TLPs. -/
def Silent (s : Snoop) (ds : List Delivery) : Prop :=
  ∀ pre d post, ds = pre ++ d :: post → ¬ d.Selected →
    log step push (run step s (trace pre ++ d.gap)) d.beats = []

/-- The transmitter recovers the selected TLPs, and nothing is written for another. -/
structure Selective (s : Snoop) (ds : List Delivery) : Prop where
  recovered : recover isStart isLast (log step push s (trace ds)) =
    (ds.filter fun d => d.Selected).map fun d => rewritten d.beats
  silent : s.Silent ds

variable {s : Snoop}

/-- An idle snoop writes nothing exactly when no beat passes its test. -/
theorem log_eq_nil_iff (h : s.state = .idle) (is : List SnoopIn) :
    log step push s is = [] ↔ ∀ i ∈ is, (i.tvalid && i.beat.selected) = false := by
  constructor
  · intro hlog
    induction is generalizing s with
    | nil => simp
    | cons i is ih =>
      rw [log_cons, List.append_eq_nil_iff] at hlog
      have hi : (i.tvalid && i.beat.selected) = false := by
        by_contra hc
        simp only [Bool.not_eq_false] at hc
        simp [push, step, h, hc] at hlog
      exact List.forall_mem_cons.2 ⟨hi, ih (push_skip h hi).2 hlog.2⟩
  · exact fun hi => (run_skip h hi).1

/-- An idle snoop stays idle in a gap and writes nothing. -/
theorem run_gap (h : s.state = .idle) (d : Delivery) :
    log step push s d.gap = [] ∧ (run step s d.gap).state = .idle :=
  run_skip h fun i hi => by rw [d.gap_idle i hi, Bool.false_and]

/-- The beats of an ignored TLP pass the test of a header nowhere. -/
theorem silent_beats_iff {d : Delivery} (hd : ¬ d.Selected) :
    (∀ i ∈ d.beats, (i.tvalid && i.beat.selected) = false) ↔ d.Plain := by
  have hfirst : d.tlp.first.selected = false := Bool.eq_false_iff.2 hd
  have hmap : d.beats.map SnoopIn.beat = d.tlp.first :: d.tlp.rest := d.presents.1
  constructor
  · intro h _ b hb
    have hm := List.mem_cons_of_mem d.tlp.first hb
    rw [← hmap] at hm
    obtain ⟨i, hi, rfl⟩ := List.mem_map.1 hm
    simpa [d.presents.2 i hi] using h i hi
  · intro h i hi
    have hm := List.mem_map_of_mem (f := SnoopIn.beat) hi
    rw [hmap] at hm
    rcases List.mem_cons.1 hm with hb | hb
    · rw [hb, hfirst, Bool.and_false]
    · rw [h hd _ hb, Bool.and_false]

/-- One delivery to an idle snoop. -/
theorem run_delivery (h : s.state = .idle) {d : Delivery} (hd : d.Plain) :
    log step push s d.cycles = (if d.Selected then rewritten d.beats else []) ∧
      (run step s d.cycles).state = .idle := by
  obtain ⟨h1, h2⟩ := run_gap h d
  rw [Delivery.cycles, log_append, run_append, h1, List.nil_append]
  by_cases hs : d.Selected
  · rw [if_pos hs]
    exact run_tlp h2 d.presents hs
  · rw [if_neg hs]
    exact run_skip h2 ((silent_beats_iff hs).2 hd)

/-- **The selected TLPs, in order**, while no ignored TLP passes the test late. -/
theorem run_trace (h : s.state = .idle) (ds : List Delivery) (hds : ∀ d ∈ ds, d.Plain) :
    scan isStart isLast (log step push s (trace ds)) =
        ⟨none, (ds.filter fun d => d.Selected).map fun d => rewritten d.beats⟩ ∧
      (run step s (trace ds)).state = .idle := by
  induction ds using List.reverseRecOn with
  | nil => exact ⟨rfl, h⟩
  | append_singleton ds d ih =>
    rw [List.forall_mem_append, List.forall_mem_singleton] at hds
    obtain ⟨h1, h2⟩ := ih hds.1
    obtain ⟨h3, h4⟩ := run_delivery h2 hds.2
    rw [trace, List.flatMap_append, List.flatMap_singleton, log_append, run_append, List.filter_append,
      List.map_append]
    refine ⟨?_, h4⟩
    rw [← trace, h3]
    by_cases hs : d.Selected
    · rw [if_pos hs, scan_rewritten d.presents h1]
      simp [hs]
    · rw [if_neg hs, List.append_nil, h1]
      simp [hs]

/-- Nothing is written for ignored TLPs exactly when none of them passes the test late. -/
theorem silent_iff (h : s.state = .idle) (ds : List Delivery) :
    s.Silent ds ↔ ∀ d ∈ ds, d.Plain := by
  induction ds generalizing s with
  | nil => simp [Silent]
  | cons d ds ih =>
    have hd : (¬ d.Selected → log step push (run step s d.gap) d.beats = []) ↔ d.Plain := by
      constructor
      · intro hlog hs
        exact (silent_beats_iff hs).1 ((log_eq_nil_iff (run_gap h d).2 _).1 (hlog hs)) hs
      · intro hp hs
        exact (log_eq_nil_iff (run_gap h d).2 _).2 ((silent_beats_iff hs).2 hp)
    rw [List.forall_mem_cons, ← hd]
    constructor
    · intro hsil
      have h0 := hsil [] d ds rfl
      have h1 := (run_delivery h (hd.1 h0)).2
      refine ⟨h0, (ih h1).1 fun pre e post heq he => ?_⟩
      have h2 := hsil (d :: pre) e post (by rw [heq]; rfl) he
      rwa [trace, List.flatMap_cons, List.append_assoc, run_append] at h2
    · rintro ⟨h0, hrest⟩
      have h1 := (run_delivery h (hd.1 h0)).2
      rintro (_ | ⟨c, pre⟩) e post heq he
      · obtain ⟨rfl, rfl⟩ := List.cons.inj heq
        exact h0 he
      · obtain ⟨rfl, rfl⟩ := List.cons.inj heq
        rw [trace, List.flatMap_cons, List.append_assoc, run_append]
        exact (ih h1).2 hrest pre e post rfl he

end Snoop

open Delivery

/-- **Selective forwarding.**  From reset the snoop forwards the selected TLPs and nothing of the
others exactly when no beat behind the first of an ignored TLP hits BAR2 or has the type of a
completion in its bits `[28:24]`. -/
theorem selective_iff_plain (s : Snoop) (ds : List Delivery) :
    s.reset.Selective ds ↔ ∀ d ∈ ds, d.Plain := by
  have h : s.reset.state = .idle := rfl
  constructor
  · exact fun hs => (Snoop.silent_iff h ds).1 hs.silent
  · intro hp
    refine ⟨?_, (Snoop.silent_iff h ds).2 hp⟩
    rw [recover, (Snoop.run_trace h ds hp).1]

/-- A memory write of two words to BAR0, with an address that reads as the type of a completion. -/
def hiddenWrite : RxTlp :=
  .ofWords 0x123401FF40000002#64 [0xAABBCCDD0A6C0100#64] 0x00000000EEFF1122#64 0x0f#8 0x04#22

/-- The write alone on the bus. -/
def hiddenDelivery : Delivery where
  tlp := hiddenWrite
  gap := []
  beats := hiddenWrite.backToBack 0
  gap_idle := by simp
  presents := hiddenWrite.presents_backToBack 0

/-- Its address and its data go out as a TLP. -/
theorem hiddenWrite_forwarded :
    (recover isStart isLast (log Snoop.step Snoop.push (Snoop.reset default)
        (trace [hiddenDelivery]))).map (List.map payload) =
      [[0xAABBCCDD0A6C0100#64, 0x000000001EFF1122#64]] ∧
      ¬ (Snoop.reset default).Selective [hiddenDelivery] := by
  have h : (recover isStart isLast (log Snoop.step Snoop.push (Snoop.reset default)
      (trace [hiddenDelivery]))).map (List.map payload) =
      [[0xAABBCCDD0A6C0100#64, 0x000000001EFF1122#64]] := by decide
  refine ⟨h, fun hs => ?_⟩
  rw [hs.recovered] at h
  cases h

end IpNuma
