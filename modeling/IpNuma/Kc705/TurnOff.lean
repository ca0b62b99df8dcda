import IpNuma.Kc705.Completion

/-!
# `PIO_TO_CTRL`: when the endpoint may be turned off

`PIO` puts the turn-off controller beside the endpoint.  It sees `req_compl` and `compl_done` alone,
and keeps one bit of them.  `turnoff_iff` says what the bit is worth: `cfg_turnoff_ok` is given at
an edge exactly when it is asked for, every request announced before that edge has its completion,
and the last of them is out for at least one edge.  A request that is announced at the edge itself
does not count.
-/

namespace IpNuma

open Clocked

/-- The registers of `PIO_TO_CTRL`. -/
structure ToCtrl where
  trnPending : Bool
  turnoffOk : Bool
  deriving DecidableEq, Inhabited

namespace ToCtrl

def reset : ToCtrl := ⟨false, false⟩

/-- One edge of `clk` with `rst_n` high. -/
def step (s : ToCtrl) (reqCompl complDone toTurnoff : Bool) : ToCtrl where
  trnPending := if !s.trnPending && reqCompl then true else if complDone then false else s.trnPending
  turnoffOk := toTurnoff && !s.trnPending

end ToCtrl

/-- `PIO`: the endpoint and the turn-off controller. -/
structure Pio where
  ep : PioEp
  ctrl : ToCtrl

/-- What `PIO` samples. -/
structure PioIn where
  ep : PioEpIn
  toTurnoff : Bool
  deriving Inhabited

namespace Pio

def start (r : Snoop) (x : TxPorts) (ts : List RxTlp) : Pio := ⟨PioEp.start r x ts, .reset⟩

/-- One edge of `user_clk`. -/
def step (s : Pio) (i : PioIn) : Pio where
  ep := s.ep.step i.ep
  ctrl := s.ctrl.step s.ep.bus.eng.reqCompl s.ep.tx.pio.complDone i.toTurnoff

/-- The request announced by `req_compl` at the edge. -/
def announces (s : Pio) (_ : PioIn) : List Request :=
  if s.ep.bus.eng.reqCompl then [s.ep.bus.eng.latched] else []

/-- The completion that is sent. -/
def completes (s : Pio) (i : PioIn) : List Completion := s.ep.completes i.ep

end Pio

/-! ### The request in the transmit engine -/

/-- The transmit engine has a request. -/
def PioTx.waits (p : PioTx) : Bool := p.reqComplQ || p.complBusy

namespace PioTx

variable {p : PioTx} {e : PioRx} {qs : List Request}

/-- It has one from the edge at which it is announced to the one at which the completion is sent;
the cycle behind that has `compl_done`. -/
theorem step_waits (p : PioTx) (ack tready : Bool) (i : PioTxIn) :
    (p.step ack tready i).waits = (i.reqCompl || p.waits && (p.completes tready i).isEmpty) ∧
      (p.step ack tready i).complDone = !(p.completes tready i).isEmpty := by
  unfold waits completes step
  cases hs : p.state with
  | rst => cases p.complBusy <;> cases p.reqComplQ <;> simp
  | qw1First => cases tready <;> cases p.complBusy <;> cases p.reqComplQ <;> simp
  | qw1Temp => cases p.complBusy <;> cases p.reqComplQ <;> simp
  | qw1 => cases tready <;> cases p.complBusy <;> cases p.reqComplQ <;> simp

/-- What an announcement says of the transmit engine. -/
theorem quiet_of_reqCompl (h : Turn e p qs) (hreq : e.reqCompl = true) :
    e.state = .wait ∧ p.Quiet ∧ p.complDone = false := by
  cases h with
  | announced hst _ _ hq hd => exact ⟨hst, hq, hd⟩
  | none _ h => exact absurd (h.symm.trans hreq) Bool.false_ne_true
  | reading _ _ h => exact absurd (h.symm.trans hreq) Bool.false_ne_true
  | registered _ _ h => exact absurd (h.symm.trans hreq) Bool.false_ne_true
  | busy _ _ h => exact absurd (h.symm.trans hreq) Bool.false_ne_true

theorem Quiet.waits (h : p.Quiet) : p.waits = false := by
  simp [PioTx.waits, h.reqComplQ, h.complBusy]

/-- With a request in the transmit engine. -/
theorem wait_of_waits (h : Turn e p qs) (hw : p.waits = true) :
    e.state = .wait ∧ e.reqCompl = false ∧ p.complDone = false := by
  cases h with
  | none _ _ hq => exact absurd (hq.waits.symm.trans hw) Bool.false_ne_true
  | reading _ _ _ hq => exact absurd (hq.waits.symm.trans hw) Bool.false_ne_true
  | announced _ _ _ hq => exact absurd (hq.waits.symm.trans hw) Bool.false_ne_true
  | registered hst _ hreq _ _ _ hd => exact ⟨hst, hreq, hd⟩
  | busy hst _ hreq _ _ hd => exact ⟨hst, hreq, hd⟩

theorem quiet_of_not_waits (h : Turn e p qs) (hw : p.waits = false) : p.Quiet := by
  cases h with
  | none _ _ hq => exact hq
  | reading _ _ _ hq => exact hq
  | announced _ _ _ hq => exact hq
  | registered _ _ _ _ hq => simp [waits, hq] at hw
  | busy _ _ _ _ hb => simp [waits, hb] at hw

end PioTx

/-! ### The controller beside the endpoint -/

namespace Pio

variable {ts : List RxTlp} {s : Pio} {as : List Request} {cs : List Completion}

/-- The requests announced, the completions sent, and the bit of the controller. -/
structure Watched (ts : List RxTlp) (s : Pio) (as : List Request) (cs : List Completion) :
    Prop where
  place : s.ep.bus.At ts
  wd : s.ep.bus.eng.reqComplWd = true ∧ s.ep.tx.pio.reqComplWdQ = true
  turn : ∃ done qs, Turn s.ep.bus.eng s.ep.tx.pio qs ∧
    as = done ++ (if s.ep.tx.pio.waits then qs else []) ∧ List.Forall₂ Request.Answered done cs
  pending : s.ctrl.trnPending = (s.ep.tx.pio.complDone || s.ep.tx.pio.waits)

theorem watched_start (r : Snoop) (x : TxPorts) (ts : List RxTlp) :
    Watched ts (start r x ts) [] [] := by
  have h := PioEp.serving_start r x ts
  obtain ⟨done, qs, hnil, hdone, hturn⟩ := h.turn
  obtain ⟨rfl, rfl⟩ := List.append_eq_nil_iff.1 hnil.symm
  exact ⟨h.place, h.wd, ⟨[], [], hturn, rfl, hdone⟩, rfl⟩

/-- The two registers of the transmit engine at an edge. -/
theorem waits_step (s : Pio) (i : PioIn) :
    (s.step i).ep.tx.pio.waits =
        (s.ep.bus.eng.reqCompl || s.ep.tx.pio.waits && (s.completes i).isEmpty) ∧
      (s.step i).ep.tx.pio.complDone = !(s.completes i).isEmpty :=
  PioTx.step_waits _ _ _ _

/-- The bit is right at the next edge. -/
theorem pending_step {qs : List Request} (hturn : Turn s.ep.bus.eng s.ep.tx.pio qs)
    (h : s.ctrl.trnPending = (s.ep.tx.pio.complDone || s.ep.tx.pio.waits)) (i : PioIn) :
    (s.step i).ctrl.trnPending =
      ((s.step i).ep.tx.pio.complDone || (s.step i).ep.tx.pio.waits) := by
  obtain ⟨hwaits, hdone⟩ := waits_step s i
  have hstep : (s.step i).ctrl.trnPending =
      if !s.ctrl.trnPending && s.ep.bus.eng.reqCompl then true
      else if s.ep.tx.pio.complDone then false else s.ctrl.trnPending := rfl
  rw [hstep, h, hwaits, hdone]
  cases hreq : s.ep.bus.eng.reqCompl with
  | true =>
    obtain ⟨-, hq, hd⟩ := PioTx.quiet_of_reqCompl hturn hreq
    simp [hd, hq.waits]
  | false =>
    cases hw : s.ep.tx.pio.waits with
    | true =>
      obtain ⟨-, -, hd⟩ := PioTx.wait_of_waits hturn hw
      cases hc : (s.completes i).isEmpty <;> simp [hd]
    | false =>
      have hnone : s.completes i = [] := (PioTx.quiet_of_not_waits hturn hw).completes _ _
      cases s.ep.tx.pio.complDone <;> simp [hnone]

/-- **One edge.** -/
theorem watched_step (hts : ∀ t ∈ ts, PioEp.NoIoWrite t) (h : Watched ts s as cs) (i : PioIn) :
    Watched ts (s.step i) (as ++ s.announces i) (cs ++ s.completes i) := by
  obtain ⟨done, qs, hturn, has, hans⟩ := h.turn
  obtain ⟨done', qs', hsplit, hans', hturn'⟩ :=
    PioEp.turn_step (i := i.ep) hturn h.wd.2 (PioEp.fmtType_of_accepts hts h.place)
  refine ⟨h.place.step _, ⟨PioRx.step_reqComplWd h.wd.1 (PioEp.turn_state hturn), ?_⟩,
    ⟨done ++ done', qs', hturn', ?_, List.rel_append hans hans'⟩, pending_step hturn h.pending i⟩
  · exact (PioTx.step_follows _ _ _ _).2.1.trans h.wd.1
  have hwaits := (waits_step s i).1
  have hwait : s.ep.bus.eng.state = .wait → PioEp.accepts s.ep i.ep = [] := fun hst =>
    PioRx.accepts_of_state (by rw [hst]; simp)
  have hnone : s.completes i = [] → done' = [] := fun hc =>
    List.forall₂_nil_right_iff.1 (hc ▸ hans' : List.Forall₂ Request.Answered done' [])
  rw [has, announces, hwaits, List.append_assoc, List.append_assoc]
  congr 1
  cases hreq : s.ep.bus.eng.reqCompl with
  | true =>
    -- the request that is announced is the one that waits
    obtain ⟨hst, hq, -⟩ := PioTx.quiet_of_reqCompl hturn hreq
    rw [hwait hst, hnone (hq.completes _ _), List.append_nil, List.nil_append] at hsplit
    have hqs : qs = [s.ep.bus.eng.latched] := by
      cases hturn with
      | announced => rfl
      | none _ h => exact absurd (h.symm.trans hreq) Bool.false_ne_true
      | reading _ _ h => rfl
      | registered _ _ h => rfl
      | busy _ _ h => rfl
    simp [hnone (hq.completes _ _), ← hsplit, hqs, hq.waits]
  | false =>
    cases hw : s.ep.tx.pio.waits with
    | true =>
      obtain ⟨hst, -, -⟩ := PioTx.wait_of_waits hturn hw
      rw [hwait hst, List.append_nil] at hsplit
      cases hc : (s.completes i).isEmpty with
      | true => simp [hsplit]
      | false =>
        -- the completion is that of the only request
        have hne : done' ≠ [] := by
          rintro rfl
          have hnil : s.completes i = [] := List.forall₂_nil_left_iff.1 hans'
          simp [hnil] at hc
        have hlen := congrArg List.length hsplit
        have hqs := hturn.length_le
        have hpos := List.length_pos_iff.2 hne
        rw [List.length_append] at hlen
        have hqs' : qs' = [] := List.eq_nil_of_length_eq_zero (by omega)
        simp [hsplit, hqs']
    | false =>
      have hnil := hnone ((PioTx.quiet_of_not_waits hturn hw).completes _ _)
      simp [hnil]

theorem watched (r : Snoop) (x : TxPorts) (hts : ∀ t ∈ ts, PioEp.NoIoWrite t) (is : List PioIn) :
    Watched ts (run step (start r x ts) is) (log step announces (start r x ts) is)
      (log step completes (start r x ts) is) :=
  log_induction₂ (P := fun _ _ => True) (J := Watched ts) (watched_start r x ts)
    (fun _ i _ _ h _ => watched_step hts h i) is (along_true _ is)

/-- Every request announced has its completion exactly when the transmit engine has none. -/
theorem Watched.answered_iff (h : Watched ts s as cs) :
    List.Forall₂ Request.Answered as cs ↔ s.ep.tx.pio.waits = false := by
  obtain ⟨done, qs, hturn, rfl, hans⟩ := h.turn
  cases hw : s.ep.tx.pio.waits with
  | false => simpa using hans
  | true =>
    have hqs : qs ≠ [] := by
      rintro rfl
      have hnone := hw
      cases hturn with
      | none _ _ hq => exact absurd (hq.waits.symm.trans hnone) Bool.false_ne_true
    constructor
    · intro hall
      have hlen := hall.length_eq
      have hlen' := hans.length_eq
      have hpos := List.length_pos_iff.2 hqs
      rw [if_pos rfl, List.length_append] at hlen
      omega
    · exact fun hc => absurd hc (by simp)

end Pio

open Pio

/-- **The endpoint may be turned off** exactly when the core asks for it, each request announced
before the edge has been completed, and none of them just now. -/
theorem turnoff_iff (r : Snoop) (x : TxPorts) {ts : List RxTlp}
    (hts : ∀ t ∈ ts, PioEp.NoIoWrite t) (is : List PioIn) (i : PioIn) :
    (run Pio.step (start r x ts) (is ++ [i])).ctrl.turnoffOk = true ↔
      i.toTurnoff = true ∧
        List.Forall₂ Request.Answered (log Pio.step announces (start r x ts) is)
          (log Pio.step completes (start r x ts) is) ∧
        (run Pio.step (start r x ts) is).ep.tx.pio.complDone = false := by
  have h := watched r x hts is
  have hok : (run Pio.step (start r x ts) (is ++ [i])).ctrl.turnoffOk =
      (i.toTurnoff && !(run Pio.step (start r x ts) is).ctrl.trnPending) := by
    rw [run_concat]
    rfl
  rw [hok, h.pending, h.answered_iff]
  simp [and_comm]

/-- After a read of BAR0 turn-off is given, so the read has been answered. -/
theorem turnoff_iff_bar0Read :
    List.Forall₂ Request.Answered
      (log Pio.step announces (start default default [bar0Read])
        ((steadily 20).map fun i => ⟨i, true⟩))
      (log Pio.step completes (start default default [bar0Read])
        ((steadily 20).map fun i => ⟨i, true⟩)) :=
  ((turnoff_iff default default (by decide) _ ⟨default, true⟩).1 (by decide +kernel)).2.1

end IpNuma
