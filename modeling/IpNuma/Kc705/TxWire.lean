import IpNuma.Clocked.Run
import IpNuma.Kc705.TxPhase
import IpNuma.Xgmii.WireGrammar

/-!
# The transmitter keeps the wire grammar

The FIFO is left open here: `dout` and `empty` are arbitrary in every cycle, and so are the address
registers.  Each phase of the engine corresponds to a stage of the grammar, and every edge takes
the stage forward (`Matches.step`).
-/

namespace IpNuma

open Clocked

/-- What the engine samples at an edge. -/
structure TxIn where
  addrs : Addrs
  dout : BitVec 72
  empty : Bool

/-- One edge. -/
def XgmiiTx.tick (s : XgmiiTx) (i : TxIn) : XgmiiTx := s.step i.addrs i.dout i.empty

/-- The words on the wire, one for each edge of the run. -/
def XgmiiTx.sends (s : XgmiiTx) (is : List TxIn) : List XgmiiWord :=
  log XgmiiTx.tick (fun s _ => [s.out]) s is

/-- The stage of the grammar when the engine is in a phase. -/
def Matches : Phase → Stage → Prop
  | .idle, .gap n | .armed, .gap n => 1 ≤ n
  | .header 0, .gap n => 2 ≤ n
  | .header (k + 1), .header j => k = j ∧ k < 6
  | .first, .header k => k = 6
  | .data, .payload n => 1 ≤ n
  | .tail, .payload n => 2 ≤ n
  | .term, .gap n => n = 0
  | _, _ => False

theorem preambleWord_isStart : IsStartWord TxSide.preambleWord := ⟨rfl, by decide⟩

theorem termWord_isTerm (fcs : BitVec 32) : IsTermWord (TxSide.termWord fcs) :=
  ⟨rfl, by simp only [TxSide.termWord, lanes, octet_append_succ, octet_append_zero]⟩

theorem headerWord_isData (a : Addrs) (ipSum : BitVec 24) (k : ℕ) :
    IsDataWord (Phase.headerWord a ipSum (k + 1)) := by
  unfold Phase.headerWord
  split
  · omega
  all_goals rfl

section Step

variable {p : Phase} {st : Stage} {ws : List XgmiiWord}

/-- The word a phase drives is one the grammar allows, and leads to the stage of the next phase. -/
theorem Matches.step (s : XgmiiTx) (a : Addrs) (dout : BitVec 72) (hm : Matches p st)
    (hs : Sent st ws) :
    ∃ st', Matches (p.next s.fifo dout) st' ∧ Sent st' (ws ++ [p.drives s a]) := by
  cases p with
  | idle =>
    cases st with
    | gap n =>
      refine ⟨.gap (n + 1), ?_, hs.idle⟩
      simp only [Phase.next]
      split_ifs <;> simp [Matches]
    | header k => cases hm
    | payload n => cases hm
  | armed =>
    cases st with
    | gap n => exact ⟨.gap (n + 1), by simpa [Phase.next, Matches] using hm, hs.idle⟩
    | header k => cases hm
    | payload n => cases hm
  | header k =>
    cases k with
    | zero =>
      cases st with
      | gap n => exact ⟨.header 0, ⟨rfl, by decide⟩, hs.start hm preambleWord_isStart⟩
      | header k => cases hm
      | payload n => cases hm
    | succ k =>
      cases st with
      | gap n => cases hm
      | header j =>
        obtain ⟨rfl, hk⟩ := hm
        refine ⟨.header (k + 1), ?_, hs.header hk (headerWord_isData a _ k)⟩
        simp only [Phase.next]
        split_ifs with h
        · exact h
        · exact ⟨rfl, by omega⟩
      | payload n => cases hm
  | first =>
    cases st with
    | gap n => cases hm
    | header k => obtain rfl : k = 6 := hm; exact ⟨.payload 1, le_rfl, hs.first rfl⟩
    | payload n => cases hm
  | data =>
    cases st with
    | gap n => cases hm
    | header k => cases hm
    | payload n =>
      have hn : 1 ≤ n := hm
      refine ⟨.payload (n + 1), ?_, hs.payload rfl⟩
      simp only [Phase.next]
      split_ifs <;> simp only [Matches] <;> omega
  | tail =>
    cases st with
    | gap n => cases hm
    | header k => cases hm
    | payload n => exact ⟨.gap 0, rfl, hs.term hm (termWord_isTerm _)⟩
  | term =>
    cases st with
    | gap n =>
      refine ⟨.gap (n + 1), ?_, hs.idle⟩
      simp only [Phase.next]
      split_ifs <;> simp [Matches]
    | header k => cases hm
    | payload n => cases hm

end Step

/-- The engine is in a phase, and the words sent so far with the one on the wire are at the stage
of that phase. -/
def OnWire (s : XgmiiTx) (ws : List XgmiiWord) : Prop :=
  ∃ p st, InPhase p s ∧ Matches p st ∧ Sent st (ws ++ [s.out])

theorem onWire_reset (s : XgmiiTx) : OnWire s.reset [] :=
  ⟨.idle, .gap 3, reset_inPhase s, by simp [Matches], Sent.lead.idle⟩

theorem onWire_tick {s : XgmiiTx} {ws : List XgmiiWord} (h : OnWire s ws) (i : TxIn) :
    OnWire (s.tick i) (ws ++ [s.out]) := by
  obtain ⟨p, st, hp, hm, hs⟩ := h
  obtain ⟨st', hm', hs'⟩ := hm.step s i.addrs i.dout hs
  refine ⟨p.next s.fifo i.dout, st', step_inPhase i.addrs i.dout i.empty hp, hm', ?_⟩
  rw [XgmiiTx.tick, step_out i.addrs i.dout i.empty hp]
  exact hs'

theorem onWire_run (s : XgmiiTx) (is : List TxIn) :
    OnWire (run XgmiiTx.tick s.reset is) (s.reset.sends is) :=
  log_induction (P := fun _ _ => True) (onWire_reset s) (fun _ i _ h _ => onWire_tick h i) is
    (along_true _ is)

/-- **Wire grammar of the 10G transmitter.**  For every behaviour of the FIFO, what the engine
sends from reset is a prefix of idle words followed by complete frames; none of these is shorter
than 68 octets, and at least 12 octets lie between one and the next. -/
theorem sends_prefix_wire (s : XgmiiTx) (is : List TxIn) :
    ∃ lead fs, s.reset.sends is <+: wire lead fs ∧
      ∀ f ∈ fs, 68 ≤ f.octets ∧ 12 ≤ f.gapOctets := by
  obtain ⟨p, st, -, -, hs⟩ := onWire_run s is
  obtain ⟨lead, fs, h⟩ := hs.prefix_wire
  exact ⟨lead, fs, (List.prefix_append _ _).trans h, fun f _ => ⟨f.octets_ge, f.gapOctets_ge⟩⟩

end IpNuma
