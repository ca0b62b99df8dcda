import IpNuma.Kc705.TxPorts
import Mathlib.Tactic.IntervalCases

/-!
# Back-pressure on the transmit side

`loads` is what the sources put on their ports at an edge, `accepts` what the core takes in a
cycle, `onBus` the beat that waits.  Only the first beat of a completion waits for `tready`; every
other beat is on its port for one cycle.  So the core has taken or still sees all beats, in order,
exactly as long as no other beat meets a cycle without `tready`: `Held`.
-/

namespace IpNuma

open Clocked

namespace Axis

/-- The beat that waits on a port. -/
def waiting (x : Axis) : List Beat := if x.tvalid then [x.beat] else []

/-- The beat taken from a port in a cycle. -/
def taken (x : Axis) (tready : Bool) : List Beat := if x.tvalid && tready then [x.beat] else []

end Axis

/-- The beat the engine puts on its port at an edge: the first when `tvalid` rises, the second when
the first is taken. -/
def PioTx.loads (s : PioTx) (ack tready : Bool) (i : PioTxIn) : List Beat :=
  if s.state = .qw1Temp ∨ s.state = .qw1 ∧ tready = true then [(s.step ack tready i).axis.beat]
  else []

/-- The beat the machine puts on its port at an edge, one in each of the states `ORF_TLP1` to
`ORF_TLP3`. -/
def Orf.loads (s : Orf) (frameSeen ack : Bool) (tlp1 tlp2 tlp3 : BitVec 64) : List Beat :=
  if s.state = .tlp1 ∨ s.state = .tlp2 ∨ s.state = .tlp3 then
    [(s.step frameSeen ack tlp1 tlp2 tlp3).axis.beat]
  else []

/-! ### One port -/

section Port

variable {ack tready : Bool}

/-- Nothing is lost at an edge, unless a beat other than the first of a completion waits in vain. -/
theorem PioTx.port_held {s : PioTx} (tready : Bool) (i : PioTxIn) (h : s.Sound ack)
    (hh : s.axis.tvalid = true → tready = true ∨ s.state = .qw1) :
    s.axis.waiting ++ s.loads ack tready i =
      s.axis.taken tready ++ (s.step ack tready i).axis.waiting := by
  unfold PioTx.Sound at h
  cases hs : s.state with
  | rst =>
    have hv : (s.step ack tready i).axis.tvalid = false := by
      simp only [step, hs]
      split_ifs <;> rfl
    cases hx : s.axis.tvalid <;> simp_all [loads, Axis.waiting, Axis.taken]
  | qw1First =>
    rw [hs] at h
    have hv : (s.step ack tready i).axis.tvalid = false := by
      simp only [step, hs]
      split_ifs <;> exact h.1
    simp [loads, hs, Axis.waiting, Axis.taken, h.1, hv]
  | qw1Temp =>
    rw [hs] at h
    simp [loads, step, hs, Axis.waiting, Axis.taken, h.1]
  | qw1 =>
    rw [hs] at h
    cases tready <;> simp [loads, step, hs, Axis.waiting, Axis.taken, h.1]

/-- A second beat of a completion that meets no `tready` is withdrawn. -/
theorem PioTx.port_lost {s : PioTx} (i : PioTxIn) (h : s.Sound ack) (hv : s.axis.tvalid = true)
    (hq : s.state ≠ .qw1) :
    s.loads ack false i = [] ∧ (s.step ack false i).axis.waiting = [] := by
  unfold PioTx.Sound at h
  cases hs : s.state with
  | rst =>
    have hv' : (s.step ack false i).axis.tvalid = false := by
      simp only [step, hs]
      split_ifs <;> rfl
    simp [loads, hs, Axis.waiting, hv']
  | qw1First | qw1Temp =>
    rw [hs] at h
    simp [h.1] at hv
  | qw1 => exact absurd hs hq

variable {frameSeen : Bool} {tlp1 tlp2 tlp3 : BitVec 64}

/-- In a state `ORF_TLP1` to `ORF_TLP3` a beat is put on the port, in the others the port is left
empty. -/
theorem Orf.waiting_step {s : Orf} (h : s.Sound ack) :
    (s.step frameSeen ack tlp1 tlp2 tlp3).axis.waiting = s.loads frameSeen ack tlp1 tlp2 tlp3 := by
  unfold Orf.Sound at h
  cases hs : s.state with
  | idle =>
    simp only [loads, step, hs]
    split_ifs <;> simp_all [Axis.waiting]
  | ack =>
    rw [hs] at h
    simp [loads, step, hs, Axis.waiting, h.1]
  | tlp1 | tlp2 | tlp3 => simp [loads, step, hs, Axis.waiting]

theorem Orf.port_held {s : Orf} (h : s.Sound ack) (hh : s.axis.tvalid = true → tready = true) :
    s.axis.waiting ++ s.loads frameSeen ack tlp1 tlp2 tlp3 =
      s.axis.taken tready ++ (s.step frameSeen ack tlp1 tlp2 tlp3).axis.waiting := by
  rw [waiting_step h]
  congr 1
  cases hv : s.axis.tvalid with
  | false => simp [Axis.waiting, Axis.taken, hv]
  | true => simp [Axis.waiting, Axis.taken, hv, hh hv]

end Port

/-! ### The bus -/

namespace TxPorts

/-- The beats the sources intend to send, as they put them on their ports. -/
def loads (s : TxPorts) (i : TxPortsIn) : List Beat :=
  s.pio.loads s.mux.ack1 (s.mux.tready1 i.tready) i.cpl ++
    s.orf.loads s.cnt.frameSeen s.mux.ack2 i.tlp1 i.tlp2 i.tlp3

/-- The beat accepted by the core in a cycle. -/
def accepts (s : TxPorts) (i : TxPortsIn) : List Beat := s.out.taken i.tready

/-- All beats intended, and all beats accepted, in a run. -/
def intended (s : TxPorts) (is : List TxPortsIn) : List Beat := log step loads s is
def accepted (s : TxPorts) (is : List TxPortsIn) : List Beat := log step accepts s is

/-- No beat but the first of a completion is on the bus in a cycle without `tready`. -/
def Held (s : TxPorts) (i : TxPortsIn) : Prop :=
  s.out.tvalid = true → i.tready = true ∨ s.pio.state = .qw1

instance (s : TxPorts) (i : TxPortsIn) : Decidable (s.Held i) := by
  unfold Held
  infer_instance

section Bus

variable {s : TxPorts} (i : TxPortsIn)

/-- With the grant at port 2 nothing comes from port 1. -/
theorem pio_silent (h : s.Sound) (h2 : s.mux.ack2 = true) :
    s.pio.axis.tvalid = false ∧ s.pio.state ≠ .qw1Temp ∧ s.pio.state ≠ .qw1 := by
  have h1 : s.mux.ack1 = false := by
    have := h.exclusive
    simp_all
  have hp := h.pio
  unfold PioTx.Sound at hp
  rw [h1] at hp
  cases hs : s.pio.state <;> simp_all

/-- Without it nothing comes from port 2. -/
theorem orf_silent (h : s.Sound) (h2 : s.mux.ack2 = false) :
    s.orf.axis.tvalid = false ∧ s.orf.state ≠ .tlp1 ∧ s.orf.state ≠ .tlp2 ∧
      s.orf.state ≠ .tlp3 := by
  have ho := h.orf
  unfold Orf.Sound at ho
  rw [h2] at ho
  cases hs : s.orf.state <;> simp_all

/-- The bus shows the beat of the one port that has one. -/
theorem waiting_out (h : s.Sound) :
    s.out.waiting = s.pio.axis.waiting ++ s.orf.axis.waiting := by
  cases h2 : s.mux.ack2 with
  | false => simp [out, TxMux.out, h2, Axis.waiting, (orf_silent h h2).1]
  | true => simp [out, TxMux.out, h2, Axis.waiting, (pio_silent h h2).1]

/-- Without the grant at port 2 the bus is port 1. -/
theorem bus_port1 (h : s.Sound) (h2 : s.mux.ack2 = false) : s.out = s.pio.axis ∧
    s.loads i = s.pio.loads s.mux.ack1 (s.mux.tready1 i.tready) i.cpl ∧
    (s.step i).out.waiting = (s.step i).pio.axis.waiting ∧
    (s.pio.axis.tvalid = true → s.mux.tready1 i.tready = i.tready) := by
  obtain ⟨hv, h3, h4, h5⟩ := orf_silent h h2
  have hloads : s.orf.loads s.cnt.frameSeen s.mux.ack2 i.tlp1 i.tlp2 i.tlp3 = [] := by
    simp [Orf.loads, h3, h4, h5]
  have hempty : (s.step i).orf.axis.waiting = [] := by
    rw [← hloads]
    exact Orf.waiting_step h.orf
  refine ⟨by simp [out, TxMux.out, h2], ?_, ?_, fun hp => ?_⟩
  · rw [loads, hloads, List.append_nil]
  · rw [waiting_out (step_sound h i), hempty, List.append_nil]
  · rw [TxMux.tready1, (h.pio.routed hp).1, Bool.and_true]

/-- With the grant at port 2 the bus is port 2. -/
theorem bus_port2 (h : s.Sound) (h2 : s.mux.ack2 = true) : s.out = s.orf.axis ∧
    s.loads i = s.orf.loads s.cnt.frameSeen s.mux.ack2 i.tlp1 i.tlp2 i.tlp3 ∧
    (s.step i).out.waiting = (s.step i).orf.axis.waiting := by
  obtain ⟨hv, h3, h4⟩ := pio_silent h h2
  have hloads : s.pio.loads s.mux.ack1 (s.mux.tready1 i.tready) i.cpl = [] := by
    simp [PioTx.loads, h3, h4]
  have hempty : (s.step i).pio.axis.waiting = [] := by
    have hp := PioTx.port_held (s.mux.tready1 i.tready) i.cpl h.pio (by simp [hv])
    rw [hloads, Axis.waiting, Axis.taken, hv] at hp
    exact hp.symm
  refine ⟨by simp [out, TxMux.out, h2], ?_, ?_⟩
  · rw [loads, hloads, List.nil_append]
  · rw [waiting_out (step_sound h i), hempty, List.nil_append]

/-- Nothing is lost at an edge that meets `Held`. -/
theorem bus_held (h : s.Sound) (hh : s.Held i) :
    s.out.waiting ++ s.loads i = s.accepts i ++ (s.step i).out.waiting := by
  cases h2 : s.mux.ack2 with
  | false =>
    obtain ⟨hout, hloads, hnext, hready⟩ := bus_port1 i h h2
    have htaken : s.accepts i = s.pio.axis.taken (s.mux.tready1 i.tready) := by
      rw [accepts, hout, Axis.taken, Axis.taken]
      cases hv : s.pio.axis.tvalid with
      | false => rfl
      | true => rw [hready hv]
    rw [htaken, hnext, hloads, hout]
    refine PioTx.port_held _ i.cpl h.pio fun hv => ?_
    rw [hready hv]
    exact hh (hout ▸ hv)
  | true =>
    obtain ⟨hout, hloads, hnext⟩ := bus_port2 i h h2
    rw [accepts, hnext, hloads, hout]
    refine Orf.port_held h.orf fun hv => ?_
    exact (hh (hout ▸ hv)).resolve_right (pio_silent h h2).2.2

/-- At an edge that does not, one beat is. -/
theorem bus_lost (h : s.Sound) (hh : ¬ s.Held i) :
    (s.out.waiting ++ s.loads i).length =
      (s.accepts i ++ (s.step i).out.waiting).length + 1 := by
  obtain ⟨hv, ht, hq⟩ : s.out.tvalid = true ∧ i.tready = false ∧ s.pio.state ≠ .qw1 := by
    simpa [Held] using hh
  have haccepts : s.accepts i = [] := by simp [accepts, Axis.taken, ht]
  have hwaiting : s.out.waiting.length = 1 := by simp [Axis.waiting, hv]
  rw [haccepts, List.length_append, hwaiting, List.nil_append]
  cases h2 : s.mux.ack2 with
  | false =>
    obtain ⟨hout, hloads, hnext, hready⟩ := bus_port1 i h h2
    rw [hout] at hv
    obtain ⟨h3, h4⟩ := PioTx.port_lost i.cpl h.pio hv hq
    have hlost : s.mux.tready1 i.tready = false := by rw [hready hv, ht]
    rw [hnext, hloads, hlost, h3, step, hlost, h4]
    rfl
  | true =>
    obtain ⟨-, hloads, hnext⟩ := bus_port2 i h h2
    rw [hnext, hloads, step, Orf.waiting_step h.orf]
    omega

end Bus

/-! ### Runs -/

/-- In every run no more is accepted than intended, and nothing is lost exactly when every cycle
meets `Held`. -/
theorem accepted_run (s : TxPorts) (is : List TxPortsIn) :
    ((s.reset.accepted is ++ (run step s.reset is).out.waiting).length ≤
        (s.reset.intended is).length) ∧
      (s.reset.accepted is ++ (run step s.reset is).out.waiting = s.reset.intended is ↔
        Along step Held s.reset is) := by
  induction is using List.reverseRecOn with
  | nil =>
    have hv : s.reset.out.waiting = [] := by simp [reset, out, TxMux.out, TxMux.reset, PioTx.reset,
      Axis.waiting]
    simp [accepted, intended, hv]
  | append_singleton is i ih =>
    obtain ⟨hle, hiff⟩ := ih
    have h := run_sound s is
    simp only [accepted, intended] at hle hiff ⊢
    rw [log_concat, log_concat, run_concat, along_concat, List.append_assoc]
    by_cases hh : (run step s.reset is).Held i
    · rw [← bus_held i h hh, ← List.append_assoc]
      refine ⟨?_, by rw [List.append_cancel_right_eq, hiff, and_iff_left hh]⟩
      simp only [List.length_append] at hle ⊢
      omega
    · have hlost := bus_lost i h hh
      simp only [List.length_append] at hle hlost ⊢
      refine ⟨by omega, ?_⟩
      constructor
      · intro heq
        have hlen := congrArg List.length heq
        simp only [List.length_append] at hlen
        omega
      · rintro ⟨-, hh'⟩
        exact absurd hh' hh

/-! ### What is intended are whole TLPs -/

end TxPorts

/-- The words of a TLP with the header words `tlp1`: three or four of header, and the data. -/
def dwords (tlp1 : BitVec 64) : ℕ :=
  let length := (tlp1.extractLsb' 0 10).toNat
  (if tlp1.getLsbD 29 then 4 else 3) +
    if tlp1.getLsbD 30 then if length = 0 then 1024 else length else 0

/-- A TLP beat by beat, `tlast` in the last beat only: a completion of two beats, or a TLP from the
network of two words a beat. -/
inductive WholeTlp : List Beat → Prop
  | completion {b₁ b₂ : Beat} : b₁.tlast = false → b₂.tlast = true → WholeTlp [b₁, b₂]
  | network {b : Beat} {bs : List Beat} : bs.length + 1 = (dwords b.tdata + 1) / 2 →
      (b :: bs).map Beat.tlast = List.replicate bs.length false ++ [true] → WholeTlp (b :: bs)

/-- `len` is the number of words less four. -/
theorem tlpLen_eq (tlp1 : BitVec 64) :
    Orf.tlpLen tlp1 = BitVec.ofNat 10 (dwords tlp1 + 1020) := by
  have h1024 : (tlp1.extractLsb' 0 10).toNat < 1024 := (tlp1.extractLsb' 0 10).isLt
  apply BitVec.eq_of_toNat_eq
  unfold Orf.tlpLen dwords
  generalize (tlp1.extractLsb' 0 10) = l at *
  cases tlp1.getLsbD 29 <;> cases tlp1.getLsbD 30 <;>
    simp [BitVec.toNat_sub] <;> split_ifs <;> omega

/-- The beats `bs` are added to the TLP begun with `part`, or complete it. -/
def Grows (part bs part' : List Beat) : Prop :=
  part' = part ++ bs ∨ WholeTlp (part ++ bs) ∧ part' = []

/-- The beats of a completion that has been begun. -/
def PioTx.part (s : PioTx) : List Beat := if s.state = .qw1 then [s.axis.beat] else []

theorem PioTx.part_step {s : PioTx} {ack : Bool} (tready : Bool) (i : PioTxIn) (h : s.Sound ack) :
    Grows s.part (s.loads ack tready i) (s.step ack tready i).part := by
  unfold Sound at h
  cases hs : s.state with
  | rst | qw1First =>
    have hnext : (s.step ack tready i).state ≠ .qw1 := by
      simp only [step, hs]
      split_ifs <;> simp
    exact Or.inl (by simp [part, loads, hs, hnext])
  | qw1Temp => exact Or.inl (by simp [part, loads, step, hs])
  | qw1 =>
    rw [hs] at h
    cases tready with
    | false => exact Or.inl (by simp [part, loads, step, hs])
    | true =>
      refine Or.inr ⟨?_, by simp [part, step, hs]⟩
      rw [part, loads, if_pos hs, if_pos (Or.inr ⟨hs, rfl⟩)]
      exact .completion h.2.2.2 (by simp [step, hs, Axis.beat])

/-- The beats of a TLP from the network that has been begun. -/
def Orf.Part (s : Orf) (part : List Beat) : Prop :=
  match s.state with
  | .idle | .ack | .tlp1 => part = []
  | .tlp2 => ∃ b, part = [b] ∧ b.tlast = false ∧ 3 ≤ dwords b.tdata ∧ dwords b.tdata ≤ 6 ∧
      s.len = tlpLen b.tdata
  | .tlp3 => ∃ b₁ b₂, part = [b₁, b₂] ∧ b₁.tlast = false ∧ b₂.tlast = false ∧
      5 ≤ dwords b₁.tdata ∧ dwords b₁.tdata ≤ 6 ∧ s.len = tlpLen b₁.tdata - 2#10

theorem Orf.beatOf_last (tdata : BitVec 64) {len : BitVec 10} (h : len = 0 ∨ len = 1023#10) :
    (beatOf tdata len).beat.tlast = true := by
  rcases h with rfl | rfl <;> rfl

theorem Orf.beatOf_not_last (tdata : BitVec 64) {len : BitVec 10}
    (h : ¬ (len = 0 ∨ len = 1023#10)) : (beatOf tdata len).beat.tlast = false := by
  rw [not_or] at h
  rw [beatOf, if_neg h.1, if_neg h.2]
  rfl

theorem Orf.part_iff {s : Orf} {part : List Beat} (h2 : s.state ≠ .tlp2) (h3 : s.state ≠ .tlp3) :
    s.Part part ↔ part = [] := by
  unfold Part
  cases hs : s.state <;> simp_all

theorem Orf.part_step {s : Orf} {part : List Beat} (frameSeen ack : Bool)
    (tlp1 tlp2 tlp3 : BitVec 64) (h : s.Part part)
    (hi : s.state = .tlp1 → 3 ≤ dwords tlp1 ∧ dwords tlp1 ≤ 6) :
    ∃ part', (s.step frameSeen ack tlp1 tlp2 tlp3).Part part' ∧
      Grows part (s.loads frameSeen ack tlp1 tlp2 tlp3) part' := by
  unfold Part at h
  cases hs : s.state with
  | idle | ack =>
    rw [hs] at h
    refine ⟨[], (part_iff ?_ ?_).2 rfl, Or.inl (by simp [h, loads, hs])⟩ <;>
    · simp only [step, hs]
      split_ifs <;> simp
  | tlp1 =>
    rw [hs] at h
    refine ⟨[⟨tlp1, 0xff#8, false⟩], ?_, Or.inl (by simp [h, loads, step, hs, Axis.beat])⟩
    simp only [step, hs, Part]
    exact ⟨_, rfl, rfl, (hi hs).1, (hi hs).2, rfl⟩
  | tlp2 =>
    rw [hs] at h
    obtain ⟨b, rfl, hb, h3, h6, hlen⟩ := h
    rw [tlpLen_eq] at hlen
    by_cases h4 : dwords b.tdata ≤ 4
    · -- this beat is the last
      have hlast : s.len = 0 ∨ s.len = 1023#10 := by
        rw [hlen]
        interval_cases hd : dwords b.tdata
        · exact Or.inr rfl
        · exact Or.inl rfl
      refine ⟨[], ?_, Or.inr ⟨?_, rfl⟩⟩
      · simp only [step, hs, Part, if_pos hlast]
      have hbeat := beatOf_last tlp2 hlast
      refine .network ?_ ?_
      · simp [loads, hs]
        omega
      · simp [loads, hs, hb, step, hbeat]
    · have hlast : ¬ (s.len = 0 ∨ s.len = 1023#10) := by
        rw [hlen]
        have h5 : dwords b.tdata = 5 ∨ dwords b.tdata = 6 := by omega
        rcases h5 with h | h <;> rw [h] <;> decide
      refine ⟨[b, (beatOf tlp2 s.len).beat], ?_, Or.inl (by simp [loads, hs, step])⟩
      have hbeat := beatOf_not_last tlp2 hlast
      simp only [step, hs, Part, if_neg hlast]
      exact ⟨_, _, rfl, hb, hbeat, by omega, h6, by rw [hlen, tlpLen_eq]⟩
  | tlp3 =>
    rw [hs] at h
    obtain ⟨b₁, b₂, rfl, hb₁, hb₂, h5, h6, hlen⟩ := h
    rw [tlpLen_eq] at hlen
    have hlast : s.len = 0 ∨ s.len = 1023#10 := by
      rw [hlen]
      interval_cases hd : dwords b₁.tdata
      · exact Or.inr rfl
      · exact Or.inl rfl
    refine ⟨[], by simp [step, hs, Part], Or.inr ⟨?_, rfl⟩⟩
    have hbeat := beatOf_last tlp3 hlast
    refine .network ?_ ?_
    · simp [loads, hs]
      omega
    · simp [loads, hs, hb₁, hb₂, step, hbeat, List.replicate]

namespace TxPorts

/-- A TLP from the network has three to six words. -/
def SmallTlp (s : TxPorts) (i : TxPortsIn) : Prop :=
  s.orf.state = .tlp1 → 3 ≤ dwords i.tlp1 ∧ dwords i.tlp1 ≤ 6

instance (s : TxPorts) (i : TxPortsIn) : Decidable (s.SmallTlp i) := by
  unfold SmallTlp
  infer_instance

/-- A source is in the middle of a TLP. -/
def MidTlp (s : TxPorts) : Prop :=
  s.pio.state = .qw1 ∨ s.orf.state = .tlp2 ∨ s.orf.state = .tlp3

/-- What has been put on the ports is whole TLPs and the beats of the one begun. -/
def Framed (s : TxPorts) (bs : List Beat) : Prop :=
  ∃ (ts : List (List Beat)) (part : List Beat), bs = ts.flatten ++ (s.pio.part ++ part) ∧
    (∀ t ∈ ts, WholeTlp t) ∧ s.orf.Part part

theorem framed_reset (s : TxPorts) : s.reset.Framed [] := ⟨[], [], rfl, by simp, rfl⟩

/-- Beats added to the TLP begun are added to the whole. -/
theorem grows_flatten {ts : List (List Beat)} {part bs part' : List Beat}
    (hts : ∀ t ∈ ts, WholeTlp t) (h : Grows part bs part') :
    ∃ ts' : List (List Beat), ts.flatten ++ part ++ bs = ts'.flatten ++ part' ∧
      ∀ t ∈ ts', WholeTlp t := by
  rcases h with rfl | ⟨hw, rfl⟩
  · exact ⟨ts, List.append_assoc _ _ _, hts⟩
  · refine ⟨ts ++ [part ++ bs], by simp, fun t ht => ?_⟩
    rcases List.mem_append.1 ht with ht | ht
    · exact hts t ht
    · rw [List.mem_singleton.1 ht]
      exact hw

theorem grows_nil {part' : List Beat} (h : Grows [] [] part') : part' = [] := by
  rcases h with rfl | ⟨-, h⟩
  · rfl
  · exact h

theorem framed_step {s : TxPorts} {bs : List Beat} (h : s.Sound) (hf : s.Framed bs) (i : TxPortsIn)
    (hi : s.SmallTlp i) : (s.step i).Framed (bs ++ s.loads i) := by
  obtain ⟨ts, part, rfl, hts, hp⟩ := hf
  have hpio := PioTx.part_step (s.mux.tready1 i.tready) i.cpl h.pio
  obtain ⟨part', hp', horf⟩ := Orf.part_step s.cnt.frameSeen s.mux.ack2 i.tlp1 i.tlp2 i.tlp3 hp hi
  cases h2 : s.mux.ack2 with
  | false =>
    -- port 2 has nothing begun and begins nothing
    obtain ⟨-, h3, h4, h5⟩ := orf_silent h h2
    have hempty : part = [] := (Orf.part_iff h4 h5).1 hp
    have hloads : s.orf.loads s.cnt.frameSeen s.mux.ack2 i.tlp1 i.tlp2 i.tlp3 = [] := by
      simp [Orf.loads, h3, h4, h5]
    rw [hempty, hloads] at horf
    obtain rfl := grows_nil horf
    obtain ⟨ts', heq, hts'⟩ := grows_flatten hts hpio
    refine ⟨ts', [], ?_, hts', hp'⟩
    rw [(bus_port1 i h h2).2.1, hempty, List.append_nil, List.append_nil, heq]
    rfl
  | true =>
    -- port 1 has nothing begun and begins nothing
    obtain ⟨-, h3, h4⟩ := pio_silent h h2
    have hempty : s.pio.part = [] := by simp [PioTx.part, h4]
    have hloads : s.pio.loads s.mux.ack1 (s.mux.tready1 i.tready) i.cpl = [] := by
      simp [PioTx.loads, h3, h4]
    rw [hempty, hloads] at hpio
    have hempty' : (s.step i).pio.part = [] := grows_nil hpio
    obtain ⟨ts', heq, hts'⟩ := grows_flatten hts horf
    refine ⟨ts', part', ?_, hts', hp'⟩
    rw [(bus_port2 i h h2).2.1, hempty, hempty', List.nil_append, List.nil_append, heq]

theorem framed_run (s : TxPorts) (is : List TxPortsIn) (hs : Along step SmallTlp s.reset is) :
    (run step s.reset is).Framed (s.reset.intended is) := by
  have h := log_induction (J := fun s bs => Sound s ∧ s.Framed bs)
    ⟨reset_sound s, framed_reset s⟩
    (fun s i bs h hi => ⟨step_sound h.1 i, framed_step h.1 h.2 i hi⟩) is hs
  exact h.2

/-- **Back-pressure.**  For TLPs of three to six words from the network, every `tready` and every
interleaving of the sources: what they intend to send is whole TLPs, and the core accepts it, each
beat once and in order, exactly when no beat but the first of a completion is on the bus in a
cycle without `tready`. -/
theorem accepted_iff_held (s : TxPorts) (is : List TxPortsIn)
    (hs : Along step SmallTlp s.reset is) :
    (∃ (ts : List (List Beat)) (part : List Beat), s.reset.intended is = ts.flatten ++ part ∧
      (∀ t ∈ ts, WholeTlp t) ∧ (¬ (run step s.reset is).MidTlp → part = [])) ∧
      (s.reset.accepted is ++ (run step s.reset is).out.waiting = s.reset.intended is ↔
        Along step Held s.reset is) := by
  refine ⟨?_, (accepted_run s is).2⟩
  obtain ⟨ts, part, heq, hts, hp⟩ := framed_run s is hs
  refine ⟨ts, _, heq, hts, fun hmid => ?_⟩
  rw [MidTlp, not_or, not_or] at hmid
  obtain ⟨h1, h2, h3⟩ := hmid
  simp [PioTx.part, h1, (Orf.part_iff h2 h3).1 hp]

/-- A memory read from the network, of three words, in a cycle. -/
def readCycle (tready tlpFrameEnd : Bool) : TxPortsIn :=
  ⟨tready, default, tlpFrameEnd, 0x1234010100000001#64, 0x00000000fd6c0100#64, 0⟩

/-- The frame is seen in the first cycle; in the ninth, with its first beat on the bus, `tready` is
as given, and up in all others. -/
def readRun (tready : Bool) : List TxPortsIn :=
  readCycle true true :: List.replicate 7 (readCycle true false) ++ readCycle tready false ::
    List.replicate 3 (readCycle true false)

theorem accepted_readRun : (reset default).accepted (readRun true) ++
    (run step (reset default) (readRun true)).out.waiting = (reset default).intended (readRun true) :=
  (accepted_iff_held default (readRun true) (by decide +kernel)).2.2 (by decide +kernel)

/-- Without `tready` in that cycle the first beat of the read is lost. -/
theorem readRun_lost : Along step SmallTlp (reset default) (readRun false) ∧
    ¬ (run step (reset default) (readRun false)).MidTlp ∧
    (reset default).intended (readRun false) = [⟨0x1234010100000001#64, 0xff#8, false⟩,
      ⟨0x00000000fd6c0100#64, 0x0f#8, true⟩] ∧
    (reset default).accepted (readRun false) = [⟨0x00000000fd6c0100#64, 0x0f#8, true⟩] ∧
    (run step (reset default) (readRun false)).out.waiting = [] := by
  refine ⟨by decide +kernel, ?_, by decide +kernel, by decide +kernel, by decide +kernel⟩
  unfold MidTlp
  decide +kernel

end TxPorts

end IpNuma
