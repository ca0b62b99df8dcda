import IpNuma.Clocked.Framing
import IpNuma.Kc705.XgmiiTx

/-!
# `PIO_RX_SNOOP`: from the PCIe receive port to the transmit FIFO

The snoop listens to the receive port of the PCIe core.  In `IDLE` it waits for a beat that hits
BAR2 or is the header of a completion; it writes that beat, the next one (`HEADER1`) and all
others (`DATA`) to the FIFO until one has `tlast`.  On the way the top four bits of the requester ID
are inverted, in the first beat of a request and in the second of a completion, and the page number
of a memory address is replaced by `mem0_paddr`.

* `Snoop.step` is the `always` block, `Snoop.push` the word that the FIFO takes at the edge behind
  the one at which it is loaded into `din`;
* `RxTlp` is a TLP on the port, `RxTlp.forwarded` what the FIFO should get of it;
* `log_tlp` says that it gets this from an idle snoop when the beats come back to back.
-/

namespace IpNuma

open Clocked

/-- A beat on `m_axis_rx`. -/
structure RxBeat where
  tdata : BitVec 64
  tkeep : BitVec 8
  tlast : Bool
  tuser : BitVec 22
  deriving DecidableEq, Inhabited

/-- What the snoop samples at an edge of `clk`. -/
structure SnoopIn where
  beat : RxBeat
  tvalid : Bool
  mem0Paddr : BitVec 36
  deriving DecidableEq, Inhabited

/-- `IDLE`, `HEADER1`, `DATA`. -/
inductive SnoopState
  | idle
  | header1
  | data
  deriving DecidableEq, Inhabited

/-- The registers of the snoop. -/
structure Snoop where
  state : SnoopState
  fmt : BitVec 2
  type : BitVec 5
  completion : Bool
  wrEn : Bool
  din : BitVec 72
  deriving DecidableEq, Inhabited

namespace RxBeat

variable (b : RxBeat)

/-- `m_axis_rx_tdata[30:29]`. -/
def fmt : BitVec 2 := b.tdata.extractLsb' 29 2

/-- `m_axis_rx_tdata[28:24]`. -/
def type : BitVec 5 := b.tdata.extractLsb' 24 5

/-- The type of a completion. -/
def isCompletion : Bool := b.type == 0b01010#5

/-- The test of `IDLE`: BAR2 or completion only. -/
def selected : Bool := b.tuser.getLsbD 4 || b.isCompletion

/-- A FIFO word with the flags of a beat. -/
def word (tvalid : Bool) (data : BitVec 64) : BitVec 72 :=
  0xA#4 ++ BitVec.ofBool (b.tkeep.getLsbD 4) ++ BitVec.ofBool (b.tkeep.getLsbD 0) ++
    BitVec.ofBool b.tlast ++ BitVec.ofBool tvalid ++ data

/-- The data written for a beat seen in `IDLE`. -/
def idleData : BitVec 64 :=
  if b.isCompletion then b.tdata else ~~~(b.tdata.extractLsb' 60 4) ++ b.tdata.extractLsb' 0 60

/-- The data written for a beat seen in `HEADER1`. -/
def header1Data (fmt : BitVec 2) (type : BitVec 5) (completion : Bool) (mem0Paddr : BitVec 36) :
    BitVec 64 :=
  if type.extractLsb' 1 4 = 0 then
    if fmt.getLsbD 0 = false then
      b.tdata.extractLsb' 32 32 ++ mem0Paddr.extractLsb' 0 20 ++ b.tdata.extractLsb' 0 12
    else
      mem0Paddr.extractLsb' 0 20 ++ b.tdata.extractLsb' 0 12 ++ 0#16 ++ mem0Paddr.extractLsb' 20 16
  else if completion then
    b.tdata.extractLsb' 32 32 ++ ~~~(b.tdata.extractLsb' 28 4) ++ b.tdata.extractLsb' 0 28
  else b.tdata

end RxBeat

namespace Snoop

/-- After an edge with `sys_rst` high, from any register values. -/
def reset (s : Snoop) : Snoop :=
  { s with state := .idle, completion := false, wrEn := false, din := 0 }

/-- The snoop at an edge of `clk` with `sys_rst` low. -/
def step (s : Snoop) (i : SnoopIn) : Snoop :=
  match s.state with
  | .idle =>
      if i.tvalid && i.beat.selected then
        ⟨.header1, i.beat.fmt, i.beat.type, i.beat.isCompletion, true,
          i.beat.word i.tvalid i.beat.idleData⟩
      else { s with wrEn := false }
  | .header1 => { s with
      wrEn := true
      din := i.beat.word i.tvalid (i.beat.header1Data s.fmt s.type s.completion i.mem0Paddr)
      state := if i.beat.tlast then .idle else .data }
  | .data => { s with
      wrEn := true, din := i.beat.word i.tvalid i.beat.tdata
      state := if i.beat.tlast then .idle else .data }

/-- The word loaded into `din` at an edge, if `wr_en` is set there. -/
def push (s : Snoop) (i : SnoopIn) : List (BitVec 72) :=
  if (s.step i).wrEn then [(s.step i).din] else []

end Snoop

/-! ### TLPs -/

/-- A TLP on the receive port.  Its header alone has two beats. -/
structure RxTlp where
  first : RxBeat
  mid : List RxBeat
  last : RxBeat
  first_tlast : first.tlast = false
  mid_tlast : ∀ b ∈ mid, b.tlast = false
  last_tlast : last.tlast = true
  deriving DecidableEq

namespace RxTlp

/-- A TLP of these words, with all strobes but those of the last beat set. -/
def ofWords (first : BitVec 64) (mid : List (BitVec 64)) (last : BitVec 64) (tkeep : BitVec 8)
    (tuser : BitVec 22) : RxTlp where
  first := ⟨first, 0xff#8, false, tuser⟩
  mid := mid.map fun w => ⟨w, 0xff#8, false, tuser⟩
  last := ⟨last, tkeep, true, tuser⟩
  first_tlast := rfl
  mid_tlast := List.forall_mem_map.2 fun _ _ => rfl
  last_tlast := rfl

variable (t : RxTlp)

/-- The beats behind the first. -/
def rest : List RxBeat := t.mid ++ [t.last]

/-- All beats. -/
def beats : List RxBeat := t.first :: t.rest

/-- The second beat. -/
def second : RxBeat := t.mid.headD t.last

theorem rest_ne_nil : t.rest ≠ [] := List.append_ne_nil_of_right_ne_nil _ (List.cons_ne_nil _ _)

theorem beats_eq : t.beats = (t.first :: t.mid) ++ [t.last] := rfl

/-- Only the last beat has `tlast`. -/
theorem tlast_iff {as bs : List RxBeat} {b : RxBeat} (h : t.beats = as ++ b :: bs) :
    b.tlast = true ↔ bs = [] := by
  rw [beats_eq] at h
  rcases List.eq_nil_or_concat bs with rfl | ⟨cs, c, rfl⟩
  · obtain ⟨-, hb⟩ := List.append_inj' h rfl
    rw [← (List.cons.inj hb).1, t.last_tlast]
    exact iff_of_true rfl rfl
  · rw [List.concat_eq_append, ← List.cons_append, ← List.append_assoc] at h
    obtain ⟨hinit, -⟩ := List.append_inj' h rfl
    have hb : b ∈ t.first :: t.mid := by simp [hinit]
    have hlast : b.tlast = false := by
      rcases List.mem_cons.1 hb with rfl | hm
      · exact t.first_tlast
      · exact t.mid_tlast b hm
    simp [hlast]

end RxTlp

/-- The TLP comes back to back: one beat in each cycle. -/
def Presents (is : List SnoopIn) (t : RxTlp) : Prop :=
  is.map SnoopIn.beat = t.beats ∧ ∀ i ∈ is, i.tvalid = true

/-- A TLP in consecutive cycles, with `mem0_paddr` constant. -/
def RxTlp.backToBack (t : RxTlp) (mem0Paddr : BitVec 36) : List SnoopIn :=
  t.beats.map fun b => ⟨b, true, mem0Paddr⟩

theorem RxTlp.presents_backToBack (t : RxTlp) (mem0Paddr : BitVec 36) :
    Presents (t.backToBack mem0Paddr) t := by
  constructor
  · simp [backToBack, Function.comp_def]
  · intro i hi
    obtain ⟨b, -, rfl⟩ := List.mem_map.1 hi
    rfl

/-- What the FIFO should get of the beats of a TLP: a word for each, with the ID or the address
rewritten. -/
def rewritten : List SnoopIn → List (BitVec 72)
  | [] => []
  | [i] => [i.beat.word i.tvalid i.beat.idleData]
  | i :: j :: js =>
      i.beat.word i.tvalid i.beat.idleData ::
        j.beat.word j.tvalid
          (j.beat.header1Data i.beat.fmt i.beat.type i.beat.isCompletion j.mem0Paddr) ::
        js.map fun k => k.beat.word k.tvalid k.beat.tdata

theorem length_rewritten (is : List SnoopIn) : (rewritten is).length = is.length := by
  match is with
  | [] => rfl
  | [i] => rfl
  | i :: j :: js => simp [rewritten]

/-! ### One beat -/

theorem isLast_word (b : RxBeat) (v : Bool) (d : BitVec 64) : isLast (b.word v d) = b.tlast := by
  simp only [isLast, RxBeat.word, BitVec.getLsbD_append]
  simp

theorem isStart_word (b : RxBeat) (v : Bool) (d : BitVec 64) :
    isStart (b.word v d) = (v && !b.tlast) := by
  simp only [isStart, RxBeat.word, BitVec.getLsbD_append]
  simp

theorem payload_word (b : RxBeat) (v : Bool) (d : BitVec 64) : payload (b.word v d) = d :=
  BitVec.extractLsb'_append_eq_right

namespace Snoop

/-- The snoop has seen the beats `is` of a TLP, none of them the last. -/
def Inside (is : List SnoopIn) (s : Snoop) : Prop :=
  match is with
  | [] => s.state = .idle
  | [i] => s.state = .header1 ∧ s.fmt = i.beat.fmt ∧ s.type = i.beat.type ∧
      s.completion = i.beat.isCompletion
  | _ => s.state = .data

variable {s : Snoop} {is : List SnoopIn} {i : SnoopIn}

/-- A beat of a TLP is written, rewritten as its place asks for. -/
theorem push_inside (h : s.Inside is) (hv : i.tvalid = true)
    (hs : is = [] → i.beat.selected = true) :
    rewritten (is ++ [i]) = rewritten is ++ s.push i := by
  match is, h with
  | [], h =>
    have hsel := hs rfl
    simp only [Inside] at h
    simp [rewritten, push, step, h, hv, hsel]
  | [j], h =>
    obtain ⟨h1, h2, h3, h4⟩ := h
    simp [rewritten, push, step, h1, h2, h3, h4]
  | j :: k :: ks, h =>
    simp only [Inside] at h
    simp [rewritten, push, step, h]

/-- A beat other than the last keeps the snoop inside. -/
theorem step_inside (h : s.Inside is) (hv : i.tvalid = true)
    (hs : is = [] → i.beat.selected = true) (hl : i.beat.tlast = false) :
    (s.step i).Inside (is ++ [i]) := by
  match is, h with
  | [], h =>
    have hsel := hs rfl
    simp only [Inside] at h
    simp [Inside, step, h, hv, hsel]
  | [j], h =>
    obtain ⟨h1, -⟩ := h
    simp [Inside, step, h1, hl]
  | j :: k :: ks, h =>
    simp only [Inside] at h
    simp [Inside, step, h, hl]

/-- The last beat ends the TLP. -/
theorem step_last (h : s.Inside is) (hne : is ≠ []) (hl : i.beat.tlast = true) :
    (s.step i).state = .idle := by
  match is, h with
  | [], _ => exact absurd rfl hne
  | [j], h =>
    obtain ⟨h1, -⟩ := h
    simp [step, h1, hl]
  | j :: k :: ks, h =>
    simp only [Inside] at h
    simp [step, h, hl]

/-- An idle snoop writes nothing while no beat is selected. -/
theorem push_skip (h : s.state = .idle) (hi : (i.tvalid && i.beat.selected) = false) :
    s.push i = [] ∧ (s.step i).state = .idle := by
  simp [push, step, h, hi]

/-- Whatever the snoop writes has the flags of the cycle. -/
theorem push_flags (s : Snoop) (i : SnoopIn) :
    s.push i = [] ∨ ∃ d, s.push i = [i.beat.word i.tvalid d] := by
  cases hs : s.state with
  | idle =>
    cases hi : i.tvalid && i.beat.selected with
    | false => exact Or.inl (push_skip hs hi).1
    | true => exact Or.inr ⟨_, by simp only [push, step, hs, hi, if_true]; rfl⟩
  | header1 => exact Or.inr ⟨_, by simp only [push, step, hs, if_true]; rfl⟩
  | data => exact Or.inr ⟨_, by simp only [push, step, hs, if_true]; rfl⟩

/-! ### One TLP -/

theorem run_skip (h : s.state = .idle) (hi : ∀ i ∈ is, (i.tvalid && i.beat.selected) = false) :
    log step push s is = [] ∧ (run step s is).state = .idle := by
  induction is generalizing s with
  | nil => exact ⟨rfl, h⟩
  | cons i is ih =>
    obtain ⟨h1, h2⟩ := push_skip h (hi i List.mem_cons_self)
    obtain ⟨h3, h4⟩ := ih h2 fun j hj => hi j (List.mem_cons_of_mem _ hj)
    exact ⟨by rw [log_cons, h1, h3, List.append_nil], h4⟩

theorem run_inside (h : s.state = .idle) (hv : ∀ i ∈ is, i.tvalid = true)
    (hs : ∀ i ∈ is.head?, i.beat.selected = true) (hl : ∀ i ∈ is, i.beat.tlast = false) :
    log step push s is = rewritten is ∧ (run step s is).Inside is := by
  induction is using List.reverseRecOn with
  | nil => exact ⟨rfl, h⟩
  | append_singleton is i ih =>
    simp only [List.forall_mem_append, List.forall_mem_singleton] at hv hl
    have hs0 : is = [] → i.beat.selected = true := by
      rintro rfl
      exact hs i rfl
    have hs1 : ∀ j ∈ is.head?, j.beat.selected = true := by
      intro j hj
      exact hs j (by rw [List.head?_append, Option.mem_def.1 hj]; rfl)
    obtain ⟨h1, h2⟩ := ih hv.1 hs1 hl.1
    rw [log_concat, run_concat, h1, push_inside h2 hv.2 hs0]
    exact ⟨rfl, step_inside h2 hv.2 hs0 hl.2⟩

end Snoop

/-- The cycles of a TLP: its first beat, those without `tlast`, its last. -/
theorem Presents.split {is : List SnoopIn} {t : RxTlp} (h : Presents is t) :
    ∃ i js k, is = i :: js ++ [k] ∧ i.beat = t.first ∧ k.beat = t.last ∧
      (∀ j ∈ i :: js, j.tvalid = true) ∧ k.tvalid = true ∧ ∀ j ∈ i :: js, j.beat.tlast = false := by
  obtain ⟨hb, hv⟩ := h
  rw [RxTlp.beats_eq] at hb
  obtain ⟨l, ks, rfl, hl, hks⟩ := List.map_eq_append_iff.1 hb
  obtain ⟨k, rfl, hk⟩ := List.map_eq_singleton_iff.1 hks
  obtain ⟨i, js, rfl, hi, hj⟩ := List.map_eq_cons_iff.1 hl
  simp only [List.forall_mem_append, List.forall_mem_singleton] at hv
  refine ⟨i, js, k, rfl, hi, hk, hv.1, hv.2, List.forall_mem_cons.2 ⟨hi ▸ t.first_tlast, ?_⟩⟩
  intro j hm
  refine t.mid_tlast _ ?_
  rw [← hj]
  exact List.mem_map_of_mem hm

/-- **An idle snoop forwards a selected TLP**, rewritten, and is idle again. -/
theorem Snoop.run_tlp {s : Snoop} {is : List SnoopIn} {t : RxTlp} (h : s.state = .idle)
    (hp : Presents is t) (ht : t.first.selected = true) :
    log step push s is = rewritten is ∧ (run step s is).state = .idle := by
  obtain ⟨i, js, k, rfl, hi, hk, hv, hkv, hl⟩ := hp.split
  have hs : ∀ j ∈ (i :: js).head?, j.beat.selected = true := by
    rintro j ⟨⟩
    rw [hi]
    exact ht
  obtain ⟨h1, h2⟩ := run_inside h hv hs hl
  have hne : i :: js ≠ [] := List.cons_ne_nil _ _
  rw [log_concat, run_concat, h1, push_inside h2 hkv fun h => absurd h hne]
  exact ⟨rfl, step_last h2 hne (by rw [hk]; exact t.last_tlast)⟩

/-! ### The reader of the FIFO -/

/-- A beat keeps its flags. -/
theorem rewritten_concat (is : List SnoopIn) (i : SnoopIn) :
    ∃ d, rewritten (is ++ [i]) = rewritten is ++ [i.beat.word i.tvalid d] := by
  match is with
  | [] => exact ⟨_, rfl⟩
  | [j] => exact ⟨_, rfl⟩
  | j :: k :: ks => exact ⟨i.beat.tdata, by simp [rewritten]⟩

/-- The TLP the reader is in after the beats `is` of it. -/
def partOf (is : List SnoopIn) : Option (List (BitVec 72)) :=
  if is = [] then none else some (rewritten is)

variable {ws vs : List (BitVec 72)} {ds : List (List (BitVec 72))} {is : List SnoopIn} {i : SnoopIn}

/-- The reader takes a beat other than the last. -/
theorem scan_beat (h : scan isStart isLast ws = ⟨partOf is, ds⟩) (hv : i.tvalid = true)
    (hl : i.beat.tlast = false) (hr : rewritten (is ++ [i]) = rewritten is ++ vs) :
    scan isStart isLast (ws ++ vs) = ⟨partOf (is ++ [i]), ds⟩ := by
  obtain ⟨d, hd⟩ := rewritten_concat is i
  obtain rfl := List.append_cancel_left (hr.symm.trans hd)
  rw [partOf, if_neg (by simp), hd]
  by_cases hne : is = []
  · subst hne
    exact scan_start h (by simp [isStart_word, hv, hl])
  · rw [partOf, if_neg hne] at h
    exact scan_take h (by rw [isLast_word, hl])

/-- The last beat completes the TLP. -/
theorem scan_lastBeat (h : scan isStart isLast ws = ⟨partOf is, ds⟩) (hne : is ≠ [])
    (hl : i.beat.tlast = true) (hr : rewritten (is ++ [i]) = rewritten is ++ vs) :
    scan isStart isLast (ws ++ vs) = ⟨none, ds ++ [rewritten (is ++ [i])]⟩ := by
  obtain ⟨d, hd⟩ := rewritten_concat is i
  obtain rfl := List.append_cancel_left (hr.symm.trans hd)
  rw [partOf, if_neg hne] at h
  rw [scan_last h (by rw [isLast_word, hl]), hd]

theorem scan_inside (h : scan isStart isLast ws = ⟨none, ds⟩) (hv : ∀ i ∈ is, i.tvalid = true)
    (hl : ∀ i ∈ is, i.beat.tlast = false) :
    scan isStart isLast (ws ++ rewritten is) = ⟨partOf is, ds⟩ := by
  induction is using List.reverseRecOn with
  | nil =>
    rw [rewritten, List.append_nil]
    exact h
  | append_singleton is i ih =>
    simp only [List.forall_mem_append, List.forall_mem_singleton] at hv hl
    obtain ⟨d, hd⟩ := rewritten_concat is i
    rw [hd, ← List.append_assoc]
    exact scan_beat (ih hv.1 hl.1) hv.2 hl.2 hd

/-- The reader recovers a rewritten TLP. -/
theorem scan_rewritten {t : RxTlp} (hp : Presents is t)
    (h : scan isStart isLast ws = ⟨none, ds⟩) :
    scan isStart isLast (ws ++ rewritten is) = ⟨none, ds ++ [rewritten is]⟩ := by
  obtain ⟨i, js, k, rfl, -, hk, hv, -, hl⟩ := hp.split
  obtain ⟨d, hd⟩ := rewritten_concat (i :: js) k
  have hne : i :: js ≠ [] := List.cons_ne_nil _ _
  have h1 := scan_lastBeat (scan_inside h hv hl) hne (by rw [hk]; exact t.last_tlast) hd
  rwa [hd, List.append_assoc, ← hd] at h1

end IpNuma
