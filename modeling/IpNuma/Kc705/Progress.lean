import IpNuma.Kc705.Endpoint

/-!
# Progress of the endpoint

`endpoint_reads` says nothing about how far a run comes.  Here the beats left on the bus and the
place of the two engines give a rank that falls at every edge at which a beat is offered, the core
is ready, and no frame is seen just when `ORF` would let the bus go (`Steady`).

* `endpoint_finishes`: so many edges after any run everything has been executed and answered;
* `starves`: `PIO_TX_CPLD_QW1_FIRST` gives up when it does not find `tready` at once, so a core that
  is ready at every second edge never gets the completion.
-/

namespace IpNuma

open Clocked

/-! ### The transmit side -/

namespace Orf

/-- How far the machine is, with the bus, from letting `req` go. -/
def rank (s : Orf) : ℕ :=
  match s.state with
  | .ack => 5
  | .tlp1 => 4
  | .tlp2 => 3
  | .tlp3 => 2
  | .idle => if s.req then 1 else 0

theorem rank_le (s : Orf) : s.rank ≤ 5 := by
  unfold rank
  cases s.state with
  | idle =>
    simp only
    split_ifs <;> omega
  | ack | tlp1 | tlp2 | tlp3 => simp

theorem rank_step {s : Orf} {frameSeen : Bool} (hreq : s.req = true)
    (hlets : s.state = .idle → frameSeen = false) (tlp1 tlp2 tlp3 : BitVec 64) :
    (s.step frameSeen true tlp1 tlp2 tlp3).rank < s.rank := by
  cases hs : s.state with
  | idle => simp [step, rank, hs, hreq, hlets hs]
  | ack | tlp1 | tlp3 => simp [step, rank, hs]
  | tlp2 =>
    simp only [step, rank, hs]
    split_ifs <;> simp_all

end Orf

namespace TxPorts

variable {s : TxPorts} {i : TxPortsIn}

/-- No frame is seen in the cycle behind the last beat of one, in which `req` falls. -/
def Lets (s : TxPorts) : Prop :=
  s.orf.state = .idle → s.orf.req = true → s.cnt.frameSeen = false

instance (s : TxPorts) : Decidable s.Lets := inferInstanceAs (Decidable (_ → _ → _))

/-- How far `ORF` is from giving the bus back, when it has it. -/
def busWait (s : TxPorts) : ℕ := if s.mux.ack2 then s.orf.rank + 1 else 0

theorem busWait_le (s : TxPorts) : s.busWait ≤ 6 := by
  have hrank := s.orf.rank_le
  unfold busWait
  split_ifs <;> omega

/-- How far a completion is from being sent. -/
def rank (s : TxPorts) : ℕ :=
  match s.pio.state with
  | .qw1 => 1
  | .qw1Temp => 2
  | .qw1First => if s.mux.ack1 then 3 else 5 + s.busWait
  | .rst =>
      if s.pio.complBusy then
        if s.pio.req then if s.mux.ack1 then 4 else 5 + s.busWait else 12
      else if s.pio.reqComplQ then 13 else 14

theorem rank_le (s : TxPorts) : s.rank ≤ 14 := by
  have hwait := s.busWait_le
  unfold rank
  cases s.pio.state with
  | qw1 | qw1Temp => simp
  | qw1First | rst =>
    simp only
    split_ifs <;> omega

/-- With `req` up the engine gets the bus, or `ORF` comes nearer to letting it go. -/
theorem bus_step (hreq : s.pio.req = true) (hack : s.mux.ack1 = false) (hlets : s.Lets)
    (i : TxPortsIn) : (s.step i).mux.ack1 = true ∨ (s.step i).busWait < s.busWait := by
  have hmux : (s.step i).mux = s.mux.step true s.orf.req := by
    rw [← hreq]
    rfl
  cases hack2 : s.mux.ack2 with
  | false => exact .inl (by simp [hmux, TxMux.step, hack, hack2])
  | true =>
    cases horf : s.orf.req with
    | false => exact .inl (by simp [hmux, TxMux.step, hack, hack2, horf])
    | true =>
      have hack2' : (s.step i).mux.ack2 = true := by
        rw [hmux, horf]
        exact TxMux.step_keeps2 hack2 rfl
      have horf' : (s.step i).orf.rank < s.orf.rank := by
        have hstep : (s.step i).orf =
            s.orf.step s.cnt.frameSeen s.mux.ack2 i.tlp1 i.tlp2 i.tlp3 := rfl
        rw [hstep, hack2]
        exact Orf.rank_step horf (fun h => hlets h horf) _ _ _
      refine .inr ?_
      rw [busWait, busWait, hack2, hack2', if_pos rfl, if_pos rfl]
      omega

/-- With the bus to come the rank is that of the wait. -/
theorem rank_of_wait (hs : (s.step i).pio.state = .rst) (hb : (s.step i).pio.complBusy = true)
    (hr : (s.step i).pio.req = true) (hreq : s.pio.req = true) (hack : s.mux.ack1 = false)
    (hlets : s.Lets) : (s.step i).rank < 5 + s.busWait := by
  have hbus := bus_step hreq hack hlets i
  rw [rank, hs]
  simp only
  rw [if_pos hb, if_pos hr]
  split_ifs with hack'
  · omega
  · rcases hbus with h | h
    · exact absurd h hack'
    · omega

/-- **A completion comes nearer** at every edge at which the core is ready, up to the last. -/
theorem rank_step (h : s.Sound) (hb : s.pio.complBusy = true) (hlets : s.Lets)
    (hready : i.tready = true) (hlast : s.pio.state ≠ .qw1) : (s.step i).rank < s.rank := by
  have hr : s.mux.tready1 i.tready = s.mux.ack1 := by simp [TxMux.tready1, hready]
  have hpio : (s.step i).pio = s.pio.step s.mux.ack1 (s.mux.tready1 i.tready) i.cpl := rfl
  rw [hr] at hpio
  have hsound := h.pio
  have hwait := (s.step i).busWait_le
  cases hs : s.pio.state with
  | qw1 => exact absurd hs hlast
  | qw1Temp => simp [rank, hs, hpio, PioTx.step]
  | qw1First =>
    simp only [PioTx.Sound, hs] at hsound
    cases hack : s.mux.ack1 with
    | true => simp [rank, hs, hpio, PioTx.step, hack]
    | false =>
      have hrank : s.rank = 5 + s.busWait := by simp [rank, hs, hack]
      rw [hrank]
      refine rank_of_wait ?_ ?_ ?_ hsound.2 hack hlets <;>
        simp [hpio, PioTx.step, hs, hack, hb, hsound.2]
  | rst =>
    cases hreq : s.pio.req with
    | true =>
      cases hack : s.mux.ack1 with
      | true =>
        have hack' : (s.step i).mux.ack1 = true := TxMux.step_keeps1 hack hreq
        simp [rank, hs, hpio, PioTx.step, hack, hb, hack', hreq]
      | false =>
        have hrank : s.rank = 5 + s.busWait := by simp [rank, hs, hack, hb, hreq]
        rw [hrank]
        refine rank_of_wait ?_ ?_ ?_ hreq hack hlets <;> simp [hpio, PioTx.step, hs, hack, hb]
    | false =>
      have hrank : s.rank = 12 := by simp [rank, hs, hb, hreq]
      rw [hrank, rank, hpio]
      simp only [PioTx.step, hs, hb, if_true]
      cases s.mux.ack1 <;> simp <;> split_ifs <;> omega

end TxPorts

/-! ### The endpoint -/

namespace Endpoint

variable {s : Endpoint} {i : EndpointIn} {ts rest : List RxTlp} {qs : List Request}
  {cs : List Completion}

/-- How far the engine is from taking the next beat. -/
def phase (s : Endpoint) : ℕ :=
  match s.eng.state with
  | .rst => if s.eng.inPacketQ then 1 else 0
  | .wait => if s.eng.wrEn || s.ep.tx.pio.complDone then 2 else 3 + s.ep.tx.rank
  | _ => 20

theorem phase_of_wait (h : s.eng.state = .wait) : s.phase ≤ 17 := by
  have hrank := s.ep.tx.rank_le
  rw [phase, h]
  simp only
  split_ifs <;> omega

theorem phase_of_rst (h : s.eng.state = .rst) : s.phase ≤ 1 := by
  rw [phase, h]
  simp only
  split_ifs <;> omega

theorem phase_le (s : Endpoint) : s.phase ≤ 20 := by
  have hwait := @phase_of_wait s
  have hrst := @phase_of_rst s
  cases hs : s.eng.state with
  | rst => exact (hrst hs).trans (by decide)
  | wait => exact (hwait hs).trans (by decide)
  | memRd32Dw1Dw2 | memWr32Dw1Dw2 | memRd64Dw1Dw2 | memWr64Dw1Dw2 | memWr64Dw3 | ioWrDw1Dw2 =>
    simp [phase, hs]

/-- The beats that are left come before the place of the engine. -/
def rank (s : Endpoint) : ℕ := 21 * s.ep.bus.todo.length + s.phase

/-- A beat is offered, the core is ready, and `ORF` lets the bus go. -/
structure Steady (s : Endpoint) (i : EndpointIn) : Prop where
  offer : i.offer = true
  tready : i.tready = true
  lets : s.ep.tx.Lets

instance (s : Endpoint) (i : EndpointIn) : Decidable (s.Steady i) :=
  decidable_of_iff (i.offer = true ∧ i.tready = true ∧ s.ep.tx.Lets)
    ⟨fun h => ⟨h.1, h.2.1, h.2.2⟩, fun h => ⟨h.offer, h.tready, h.lets⟩⟩

theorem tvalid_of_offer (hi : i.offer = true) (htodo : s.ep.bus.todo ≠ []) :
    s.tvalid i = true := by
  have hoffer : (s.ep.busIn (s.epIn i)).offer = true := hi
  rw [tvalid, RxBus.tvalid, hoffer]
  cases ht : s.ep.bus.todo with
  | nil => exact absurd ht htodo
  | cons b bs => simp

/-- A beat is taken. -/
theorem rank_of_taken (hi : i.offer = true) (htodo : s.ep.bus.todo ≠ [])
    (hready : s.eng.tready = true) : (s.step i).rank < s.rank := by
  have hphase := (s.step i).phase_le
  have hpos := List.length_pos_iff.2 htodo
  rw [rank, rank, todo_step, tvalid_of_offer hi htodo, hready, Bool.and_self, if_pos rfl,
    List.length_tail]
  omega

/-- The beat on the bus stays, and the engine comes nearer to taking it. -/
theorem rank_of_kept {b : RxBeat} (hk : s.Kept b rest) (h : (s.step i).phase < s.phase) :
    (s.step i).rank < s.rank := by
  rw [rank, rank, todo_step, hk.tready, Bool.and_false]
  exact Nat.add_lt_add_left h _

/-- While a completion is awaited. -/
theorem waiting_rank {t : RxTlp} (hr : t.first.IsRead) (hstate : s.eng.state = .wait)
    (htype : s.eng.tlpType = t.first.fmtType.setWidth 8) (hen : s.eng.wrEn = false)
    (hk : s.Kept t.last rest) (hturn : Turn s.eng s.ep.tx.pio [t.first.request])
    (hsound : s.ep.tx.Sound) (hi : s.Steady i) : (s.step i).rank < s.rank := by
  obtain ⟨hd, -⟩ := turn_wait hturn hstate
  have heng := eng_step s i
  have hover := PioRx.waitOver_of_readType (i := ⟨s.ep.tx.pio.complDone, false⟩)
    (PioRx.readType_of_isRead hr htype) hd
  rw [PioRx.step, PioRx.advance, hstate] at heng
  simp only [hover, Bool.false_eq_true, if_false] at heng
  have hphase : s.phase = 3 + s.ep.tx.rank := by simp [phase, hstate, hen, hd]
  have hphase' : (s.step i).phase =
      if (s.step i).ep.tx.pio.complDone then 2 else 3 + (s.step i).ep.tx.rank := by
    rw [phase, heng]
    rfl
  have hpio : (s.step i).ep.tx.pio = s.ep.tx.pio.step s.ep.tx.mux.ack1
    (s.ep.tx.mux.tready1 i.tready) (s.ep.cplIn (s.epIn i)) := rfl
  refine rank_of_kept hk ?_
  rw [hphase, hphase']
  split_ifs with hdone
  · omega
  refine Nat.add_lt_add_left ?_ 3
  generalize hqs : [t.first.request] = qs at hturn
  cases hturn with
  | none => cases hqs
  | reading h =>
    rcases h with h | h <;> rw [hstate] at h <;> cases h
  | announced _ _ hreq hq _ =>
    have hrank : s.ep.tx.rank = 14 := by
      simp [TxPorts.rank, hq.state, hq.complBusy, hq.reqComplQ]
    have hreq' : (s.ep.cplIn (s.epIn i)).reqCompl = true := hreq
    have hrank' : (s.step i).ep.tx.rank = 13 := by
      simp [TxPorts.rank, hpio, PioTx.step, hq.state, hq.complBusy, hq.reqComplQ, hreq']
    omega
  | registered _ _ hreq hst hregq hbusy _ =>
    have hrank : s.ep.tx.rank = 13 := by simp [TxPorts.rank, hst, hbusy, hregq]
    have hrank' : (s.step i).ep.tx.rank = 12 := by
      simp [TxPorts.rank, hpio, PioTx.step, hst, hbusy, hregq]
    omega
  | busy _ _ _ _ hbusy =>
    by_cases hlast : s.ep.tx.pio.state = .qw1
    · -- the engine has the bus, so the completion is out
      exfalso
      have hpsound := hsound.pio
      simp only [PioTx.Sound, hlast] at hpsound
      have hready : s.ep.tx.mux.tready1 i.tready = true := by
        simp [TxMux.tready1, hi.tready, hpsound.2.2.1]
      apply hdone
      rw [hpio, PioTx.step, hlast, hready]
      rfl
    · exact TxPorts.rank_step (i := ⟨i.tready, s.ep.cplIn (s.epIn i), i.tlpFrameEnd, i.tlp1, i.tlp2,
        i.tlp3⟩) hsound hbusy hi.lets hi.tready hlast

/-- **Every steady edge** lowers the rank while a beat is left. -/
theorem rank_step (h : Stage s rest qs) (hturn : Turn s.eng s.ep.tx.pio qs)
    (hsound : s.ep.tx.Sound) (hi : s.Steady i) (htodo : s.ep.bus.todo ≠ []) :
    (s.step i).rank < s.rank := by
  have heng := eng_step s i
  have hv := tvalid_of_offer hi.offer htodo
  have hwait : s.phase = 20 → (s.step i).eng.state = .wait → (s.step i).phase < s.phase := by
    intro h20 hs
    have hle := phase_of_wait hs
    omega
  have hrst : s.phase = 2 → (s.step i).eng.state = .rst → (s.step i).phase < s.phase := by
    intro h2 hs
    have hle := phase_of_rst hs
    omega
  cases h with
  | between _ _ hready => exact rank_of_taken hi.offer htodo hready
  | leaving _ _ hready => exact rank_of_taken hi.offer htodo hready
  | write64 _ _ _ hready => exact rank_of_taken hi.offer htodo hready
  | @reading t rest _ hstate _ _ _ hk =>
    refine rank_of_kept hk (hwait ?_ ?_)
    · rw [phase, hstate]
      split_ifs <;> rfl
    · rw [heng, hv]
      have hreading : s.eng.state = .memRd32Dw1Dw2 ∨ s.eng.state = .memRd64Dw1Dw2 := by
        rw [hstate]
        split_ifs <;> simp
      obtain ⟨-, -, hnext⟩ := PioRx.step_reading (b := s.beat i) (v := true)
        (i := ⟨s.ep.tx.pio.complDone, false⟩) hreading
      rw [if_pos rfl] at hnext
      exact hnext.1
  | waiting hr hstate htype _ hen _ hk _ =>
    exact waiting_rank hr hstate htype hen hk hturn hsound hi
  | finished hr hstate htype hd _ hk =>
    refine rank_of_kept hk (hrst ?_ ?_)
    · simp [phase, hstate, hd]
    · rw [heng, PioRx.step, PioRx.advance, hstate, hd]
      have hover : s.eng.waitOver ⟨true, false⟩ = true := by
        unfold PioRx.waitOver
        rw [htype]
        rcases hr with hf | hf <;> rw [hf] <;> simp
      simp [hover]
  | write32 _ _ hstate _ _ _ hk =>
    refine rank_of_kept hk (hwait ?_ ?_)
    · simp [phase, hstate]
    · rw [heng, PioRx.step, PioRx.advance, hstate]
      simp [hv]
  | data64 _ hstate _ _ _ _ hk =>
    refine rank_of_kept hk (hwait ?_ ?_)
    · simp [phase, hstate]
    · rw [heng, PioRx.step, PioRx.advance, hstate]
      simp [hv]
  | @stored t rest hw hstate _ htype _ _ hen hk =>
    refine rank_of_kept hk (hrst ?_ ?_)
    · simp [phase, hstate, hen]
    · have hover : s.eng.waitOver ⟨s.ep.tx.pio.complDone, false⟩ = true := by
        unfold PioRx.waitOver
        rw [htype]
        rcases hw with hf | hf <;> rw [hf] <;> simp
      rw [heng, PioRx.step, PioRx.advance, hstate]
      simp [hover]

/-! ### Runs -/

end Endpoint

open Endpoint

/-- A completion is to be sent, and the engine has asked for the bus and got it. -/
structure TxPorts.Asks (s : TxPorts) : Prop where
  state : s.pio.state = .rst
  busy : s.pio.complBusy = true
  req : s.pio.req = true
  ack : s.mux = ⟨true, false⟩

/-- A ready edge and one that is not leave the engine where it was. -/
theorem TxPorts.Asks.twice {s : Endpoint} (h : s.ep.tx.Asks) {i j : EndpointIn}
    (hi : i.tready = true) (hj : j.tready = false) :
    ((s.step i).step j).ep.tx.Asks ∧ s.completes i = [] ∧ (s.step i).completes j = [] := by
  obtain ⟨hstate, hbusy, hreq, hmux⟩ := h
  -- the ready edge
  have hpio : (s.step i).ep.tx.pio = s.ep.tx.pio.step s.ep.tx.mux.ack1
      (s.ep.tx.mux.tready1 i.tready) (s.ep.cplIn (s.epIn i)) := rfl
  have hmux' : (s.step i).ep.tx.mux = s.ep.tx.mux.step s.ep.tx.pio.req s.ep.tx.orf.req := rfl
  rw [hmux, hi] at hpio
  rw [hmux, hreq] at hmux'
  have hfirst : (s.step i).ep.tx.pio.state = .qw1First ∧ (s.step i).ep.tx.pio.complBusy = true ∧
      (s.step i).ep.tx.pio.req = true := by
    rw [hpio]
    simp [PioTx.step, hstate, hbusy, TxMux.tready1]
  obtain ⟨hstate', hbusy', hreq'⟩ := hfirst
  -- the other one
  have hpio2 : ((s.step i).step j).ep.tx.pio = (s.step i).ep.tx.pio.step (s.step i).ep.tx.mux.ack1
      ((s.step i).ep.tx.mux.tready1 j.tready) ((s.step i).ep.cplIn ((s.step i).epIn j)) := rfl
  have hmux2 : ((s.step i).step j).ep.tx.mux =
      (s.step i).ep.tx.mux.step (s.step i).ep.tx.pio.req (s.step i).ep.tx.orf.req := rfl
  rw [hj, TxMux.tready1, Bool.false_and] at hpio2
  rw [hreq', hmux'] at hmux2
  refine ⟨⟨?_, ?_, ?_, ?_⟩, ?_, ?_⟩
  · rw [hpio2]
    simp [PioTx.step, hstate']
  · rw [hpio2]
    simp [PioTx.step, hstate', hbusy']
  · rw [hpio2]
    simp [PioTx.step, hstate', hreq']
  · rw [hmux2]
    rfl
  · exact if_neg (by simp [hstate])
  · exact if_neg (by simp [hstate'])

/-- **A core that is ready at every second edge starves the reads**: whatever else happens, no
completion is ever sent. -/
theorem starves {s : Endpoint} (h : s.ep.tx.Asks) (is : List (EndpointIn × EndpointIn))
    (his : ∀ p ∈ is, p.1.tready = true ∧ p.2.tready = false) :
    log Endpoint.step completes s (is.flatMap fun p => [p.1, p.2]) = [] := by
  induction is generalizing s with
  | nil => rfl
  | cons p is ih =>
    rw [List.forall_mem_cons] at his
    obtain ⟨hnext, hfirst, hsecond⟩ := h.twice his.1.1 his.1.2
    have hflat : ((p :: is).flatMap fun p => [p.1, p.2]) =
        p.1 :: p.2 :: is.flatMap fun p => [p.1, p.2] := rfl
    rw [hflat, log_cons, log_cons, hfirst, hsecond, ih hnext his.2]
    rfl

instance (s : TxPorts) : Decidable s.Asks :=
  decidable_of_iff (s.pio.state = .rst ∧ s.pio.complBusy = true ∧ s.pio.req = true ∧
    s.mux = ⟨true, false⟩)
    ⟨fun h => ⟨h.1, h.2.1, h.2.2.1, h.2.2.2⟩, fun h => ⟨h.state, h.busy, h.req, h.ack⟩⟩

/-- The read after the write gets so far, and no further. -/
theorem starves_writeThenRead :
    log Endpoint.step completes
      (run Endpoint.step (start default default default writeThenRead default) (promptly 11))
      ((List.replicate 50 ((promptly 1).headI, (default : EndpointIn))).flatMap
        fun p => [p.1, p.2]) = [] :=
  starves (by decide +kernel) _ fun p hp => by
    rw [List.eq_of_mem_replicate hp]
    exact ⟨rfl, rfl⟩

end IpNuma
