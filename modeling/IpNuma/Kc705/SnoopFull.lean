import IpNuma.Clocked.Lossy
import IpNuma.Kc705.SnoopSelect

/-!
# The transmit FIFO when it is full

The snoop cannot stall the PCIe core and does not look at `full`; a word that it writes while the
flag is set is lost.  The flag belongs to the other clock as much as to this one, so in the model it
is any flag in any cycle.

`allOrNothing_iff`: of every TLP of a burst all words are in the FIFO or none, and the transmitter
recovers those that are, exactly when the flag does not change during the words of a TLP.
-/

namespace IpNuma

open Clocked

/-- A TLP to be forwarded, after some cycles without `tvalid`.  Each cycle comes with the flag at
the edge where the FIFO takes its word. -/
structure Offer where
  tlp : RxTlp
  gap : List (SnoopIn × Bool)
  beats : List (SnoopIn × Bool)
  gap_idle : ∀ i ∈ gap, i.1.tvalid = false
  presents : Presents (beats.map Prod.fst) tlp
  selected : tlp.first.selected = true

namespace Offer

/-- The cycles of an offer. -/
def cycles (o : Offer) : List (SnoopIn × Bool) := o.gap ++ o.beats

/-- The cycles of a burst. -/
def trace (os : List Offer) : List (SnoopIn × Bool) := os.flatMap cycles

/-- The words of the TLP. -/
def words (o : Offer) : List (BitVec 72) := rewritten (o.beats.map Prod.fst)

/-- The flag does not change during the words. -/
def Uniform (o : Offer) : Prop := ∀ i ∈ o.beats, ∀ j ∈ o.beats, i.2 = j.2

/-- There is room for all words. -/
def Admitted (o : Offer) : Prop := ∀ i ∈ o.beats, i.2 = false

instance : DecidablePred Admitted := fun o =>
  inferInstanceAs (Decidable (∀ i ∈ o.beats, i.2 = false))

end Offer

namespace Snoop

open Offer

/-- The words of each TLP are all in the FIFO or none of them is, and the transmitter recovers the
TLPs there is room for. -/
structure AllOrNothing (s : Snoop) (os : List Offer) : Prop where
  whole : ∀ pre o post, os = pre ++ o :: post →
    log (fed step) (accepted push) (run (fed step) s (trace pre)) o.cycles = [] ∨
      log (fed step) (accepted push) (run (fed step) s (trace pre)) o.cycles = o.words
  recovered : recover isStart isLast (log (fed step) (accepted push) s (trace os)) =
    (os.filter fun o => o.Admitted).map words

variable {s : Snoop}

theorem length_push (s : Snoop) (i : SnoopIn) : (s.push i).length ≤ 1 := by
  unfold push
  split <;> simp

/-- What is accepted of an offer. -/
theorem accepted_offer (h : s.state = .idle) (o : Offer) :
    log (fed step) (accepted push) s o.cycles =
        log (fed step) (accepted push) (run (fed step) s o.gap) o.beats ∧
      (run (fed step) s o.gap).state = .idle ∧ (run (fed step) s o.cycles).state = .idle := by
  have hgap : ∀ i ∈ o.gap.map Prod.fst, (i.tvalid && i.beat.selected) = false := by
    rintro i hi
    obtain ⟨j, hj, rfl⟩ := List.mem_map.1 hi
    rw [o.gap_idle j hj, Bool.false_and]
  obtain ⟨hlog, hidle⟩ := run_skip h hgap
  rw [← run_fed] at hidle
  have hnone : log (fed step) (accepted push) s o.gap = [] := log_accepted_of_nil hlog
  refine ⟨?_, hidle, ?_⟩
  · rw [cycles, log_append, hnone, List.nil_append]
  · rw [cycles, run_append, run_fed _ o.beats]
    exact (run_tlp hidle o.presents o.selected).2

/-- **One offer**: all or nothing of it is accepted exactly when the flag does not change. -/
theorem whole_offer_iff (h : s.state = .idle) (o : Offer) :
    (log (fed step) (accepted push) s o.cycles = [] ∨
      log (fed step) (accepted push) s o.cycles = o.words) ↔ o.Uniform := by
  obtain ⟨hlog, hidle, -⟩ := accepted_offer h o
  obtain ⟨hwords, -⟩ := run_tlp hidle o.presents o.selected
  have hall : (log step push (run (fed step) s o.gap) (o.beats.map Prod.fst)).length =
      o.beats.length := by
    rw [hwords, length_rewritten, List.length_map]
  rw [hlog, words, ← hwords]
  exact whole_iff length_push hall

/-- What is accepted when the flag does not change. -/
theorem log_offer (h : s.state = .idle) {o : Offer} (ho : o.Uniform) :
    log (fed step) (accepted push) s o.cycles = if o.Admitted then o.words else [] := by
  obtain ⟨hlog, hidle, -⟩ := accepted_offer h o
  rw [hlog]
  by_cases ha : o.Admitted
  · rw [if_pos ha, log_accepted_of_free ha, (run_tlp hidle o.presents o.selected).1]
    rfl
  · rw [if_neg ha]
    refine log_accepted_of_full fun i hi => ?_
    unfold Admitted at ha
    push Not at ha
    obtain ⟨j, hj, hne⟩ := ha
    rw [ho i hi j hj]
    simpa using hne

/-- **A burst** with a steady flag during each TLP. -/
theorem scan_offers (h : s.state = .idle) (os : List Offer) (hos : ∀ o ∈ os, o.Uniform) :
    scan isStart isLast (log (fed step) (accepted push) s (trace os)) =
        ⟨none, (os.filter fun o => o.Admitted).map words⟩ ∧
      (run (fed step) s (trace os)).state = .idle := by
  induction os using List.reverseRecOn with
  | nil => exact ⟨rfl, h⟩
  | append_singleton os o ih =>
    rw [List.forall_mem_append, List.forall_mem_singleton] at hos
    obtain ⟨hscan, hidle⟩ := ih hos.1
    rw [trace, List.flatMap_append, List.flatMap_singleton, log_append, run_append, List.filter_append,
      List.map_append, ← trace, log_offer hidle hos.2]
    refine ⟨?_, (accepted_offer hidle o).2.2⟩
    by_cases ha : o.Admitted
    · rw [if_pos ha, words, scan_rewritten o.presents hscan]
      simp [ha, words]
    · rw [if_neg ha, List.append_nil, hscan]
      simp [ha]

/-- An idle snoop is idle again after a burst. -/
theorem idle_offers (h : s.state = .idle) (os : List Offer) :
    (run (fed step) s (trace os)).state = .idle := by
  induction os generalizing s with
  | nil => exact h
  | cons o os ih =>
    rw [trace, List.flatMap_cons, run_append]
    exact ih (accepted_offer h o).2.2

end Snoop

open Snoop

/-- **All or nothing.**  After reset a burst is in the FIFO TLP by TLP exactly when `full` does not
change during the words of a TLP. -/
theorem allOrNothing_iff (s : Snoop) (os : List Offer) :
    s.reset.AllOrNothing os ↔ ∀ o ∈ os, o.Uniform := by
  have h : s.reset.state = .idle := rfl
  constructor
  · intro hall o ho
    obtain ⟨pre, post, heq⟩ := List.append_of_mem ho
    exact (whole_offer_iff (idle_offers h pre) o).1 (hall.whole pre o post heq)
  · intro hos
    refine ⟨fun pre o post heq => ?_, ?_⟩
    · have ho : o ∈ os := by
        rw [heq]
        exact List.mem_append_right _ List.mem_cons_self
      exact (whole_offer_iff (idle_offers h pre) o).2 (hos o ho)
    · rw [recover, (scan_offers h os hos).1]

/-- A memory write of two words to BAR2. -/
def bar2Write (data : BitVec 32) : RxTlp :=
  .ofWords 0x123401FF40000002#64 [0xAABBCCDDFD6C0100#64] (0#32 ++ data) 0x0f#8 0x10#22

/-- Two of them, with the FIFO full for the last word of the first and the first of the second. -/
def fullBetween : List Offer :=
  [{ tlp := bar2Write 0x11111111#32
     gap := []
     beats := ((bar2Write 0x11111111#32).backToBack 0).zip [false, false, true]
     gap_idle := by simp
     presents := (bar2Write 0x11111111#32).presents_backToBack 0
     selected := rfl },
   { tlp := bar2Write 0x22222222#32
     gap := []
     beats := ((bar2Write 0x22222222#32).backToBack 0).zip [true, false, false]
     gap_idle := by simp
     presents := (bar2Write 0x22222222#32).presents_backToBack 0
     selected := rfl }]

/-- The transmitter recovers them as one. -/
theorem fullBetween_fused :
    (recover isStart isLast (log (fed Snoop.step) (accepted Snoop.push) (Snoop.reset default)
        (Offer.trace fullBetween))).map (List.map payload) =
      [[0xe23401FF40000002#64, 0xAABBCCDD00000100#64, 0xAABBCCDD00000100#64, 0x22222222#64]] ∧
      ¬ (Snoop.reset default).AllOrNothing fullBetween := by
  have h : (recover isStart isLast (log (fed Snoop.step) (accepted Snoop.push)
      (Snoop.reset default) (Offer.trace fullBetween))).map (List.map payload) =
      [[0xe23401FF40000002#64, 0xAABBCCDD00000100#64, 0xAABBCCDD00000100#64, 0x22222222#64]] := by
    decide
  refine ⟨h, fun hall => ?_⟩
  rw [hall.recovered] at h
  revert h
  decide

end IpNuma
