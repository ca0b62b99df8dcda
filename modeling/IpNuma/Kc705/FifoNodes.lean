import IpNuma.Kc705.TxFifo

/-!
# From node to node through `asfifo`

In `node_to_node` words get into the FIFO of the sender when they will.  Here the FIFO is the module
`afifo72_w250_r156`, and the two clocks of the sender have their edges in any order, as those of the
other node have.  Its runs are runs of `Link` (`Follows`), so what the other node hears is the same,
and `fifo_node_to_node` is `node_to_node` with two conditions that can be read off the pins of the
FIFO and the engine.
-/

namespace IpNuma

open Clocked

namespace TxNode

/-- Nothing is left to be sent: no word in the FIFO, both blocks idle. -/
def Drained (s : TxNode) : Prop :=
  s.fifo.words = [] ∧ s.tx.fifo.state = .idle ∧ s.tx.tx.state = .idle

instance (s : TxNode) : Decidable s.Drained := inferInstanceAs (Decidable (_ ∧ _ ∧ _))

/-- The words that the sender puts on the wire are those of a run of `Link`, whatever is written to
the FIFO later. -/
theorem exists_link (f : Afifo72) (x : XgmiiTx) {js : List TxNodeIn}
    (hjs : Along step (fun s i => s.Timely i ∧ s.Clean i) (start f x) js)
    (more : List (BitVec 72)) :
    ∃ ls, Along Link.step (fun s i => Prompt s i ∧ Blank s i)
        (Link.fed (log step takes (start f x) js ++ more) x) ls ∧
      (Link.fed (log step takes (start f x) js ++ more) x).wire ls =
        log step sends (start f x) js ∧
      ((run step (start f x) js).Drained → more = [] →
        (run Link.step (Link.fed (log step takes (start f x) js ++ more) x) ls).Drained) := by
  obtain ⟨l, q, rest, least, hl, hsplit, hleast, hq, hempty, hreach⟩ :=
    follows_run f x (Along.imp (fun s i h => allows_of_timely h.1 h.2) hjs)
  obtain ⟨u, ls, hu, hls⟩ := hreach.ready hsplit hleast hq hempty
  obtain ⟨halong, hrun, hwire⟩ := hls more
  refine ⟨ls, halong, hwire, ?_⟩
  rintro ⟨hwords, hfifo, htx⟩ rfl
  rw [hl.eq_words, hwords] at hu
  obtain ⟨hvisible, hnil⟩ := List.append_eq_nil_iff.1 hu
  rw [hrun, hl.eq_words, hwords, hvisible, hnil]
  exact ⟨rfl, rfl, hfifo, htx⟩

end TxNode

open TxNode

/-- **From node to node through the FIFO.**  As `node_to_node`, with `asfifo` between the clocks of
the sender: if it takes the words that the snoop writes, the engine sees the end of each TLP before
its frame needs it, and `dout` is no first word when it reads an empty FIFO, then the port of the
other node gets the TLPs, each once, in order and with its own words, and all of them when nothing
is left on the way. -/
theorem fifo_node_to_node (r : Snoop) {ts : List RxTlp} (hsel : ∀ t ∈ ts, t.first.selected = true)
    (hts : ∀ t ∈ ts, t.TwoBeats) {is : List RxBusIn}
    (his : Along RxBus.step RxBus.OnceStep (RxBus.start r ts) is)
    (hdone : (run RxBus.step (RxBus.start r ts) is).todo = []) (f : Afifo72) (x : XgmiiTx)
    {js : List TxNodeIn}
    (htaken : log TxNode.step takes (TxNode.start f x) js <+:
      log RxBus.step RxBus.push (RxBus.start r ts) is)
    (hjs : Along TxNode.step (fun s i => s.Timely i ∧ s.Clean i) (TxNode.start f x) js)
    (p : TxPorts) {es : List Edge}
    (hwire : Edge.words es = log TxNode.step sends (TxNode.start f x) js)
    (hes : Along Crossing.step (fun s e => s.Sampled e ∧ s.InTime e) (Crossing.start p) es) :
    ∃ bss, List.Forall₂ (fun t bs => ∃ m, bs = RxTlp.remote t m) ts bss ∧
      log Crossing.step Crossing.port2 (Crossing.start p) es <+: bss.flatten ∧
      ∀ js₁ js₂, js = js₁ ++ js₂ →
        log TxNode.step takes (TxNode.start f x) js₁ =
          log RxBus.step RxBus.push (RxBus.start r ts) is →
        2 ≤ (log TxNode.step sends (run TxNode.step (TxNode.start f x) js₁) js₂).length →
        (run TxNode.step (TxNode.start f x) js₁).Drained →
        (run Crossing.step (Crossing.start p) es).Settled →
          log Crossing.step Crossing.port2 (Crossing.start p) es = bss.flatten := by
  obtain ⟨us, hold, h2, h4, hall⟩ := stored_of_bus r hsel hts his hdone
  generalize log RxBus.step RxBus.push (RxBus.start r ts) is = ws at *
  obtain ⟨more, rfl⟩ := htaken
  obtain ⟨ls, halong, hsends, -⟩ := exists_link f x hjs more
  obtain ⟨hpre, hrest⟩ := port_of_heard (wire_straight _ x ls)
    (heard_of_holding h2 h4 hold x halong).1 p (hwire.trans hsends.symm) hes
  refine ⟨us.map fun u => pairBeats u.pair, hall, hpre, ?_⟩
  rintro js₁ js₂ rfl hall₁ hlen hdrained
  obtain ⟨hjs₁, -⟩ := (along_append _ _ _ _ _).1 hjs
  obtain ⟨ls₁, halong₁, hsends₁, hdrained₁⟩ := exists_link f x hjs₁ []
  rw [List.append_nil, hall₁] at halong₁ hsends₁ hdrained₁
  refine hrest _ _ (hsends.trans (log_append _ _ _ _ _)) hlen ?_
  rw [← hsends₁]
  exact (heard_of_holding h2 h4 hold x halong₁).2 (hdrained₁ hdrained rfl)

/-! ### The completion and the write again -/

/-- A FIFO before reset. -/
def blankFifo : Afifo72 := ⟨fun _ => 0, default, default, false, false, false⟩

/-- The words are written with an edge of `xgmii_clk` after each, and then the engine has the time
to send them. -/
def fifoRun : List TxNodeIn :=
  (busWords.flatMap fun w => [⟨true, true, w, false, default⟩, ⟨false, false, 0, true, default⟩]) ++
    List.replicate 34 ⟨false, false, 0, true, default⟩

/-- Each word on the wire comes with an edge of the other clock of the far node. -/
def fifoEdges : List Edge :=
  ((log TxNode.step sends (TxNode.start blankFifo default) fifoRun).flatMap
    fun w => [.xgmii w, .clk true default]) ++ List.replicate 10 (.clk true default)

theorem fifo_node_to_node_two : ∃ bss,
    List.Forall₂ (fun t bs => ∃ m, bs = RxTlp.remote t m) busTlps bss ∧
      log Crossing.step Crossing.port2 (Crossing.start default) fifoEdges = bss.flatten := by
  have hwords : log RxBus.step RxBus.push (RxBus.start default busTlps) (offers 9) = busWords := by
    decide +kernel
  have htaken : log TxNode.step takes (TxNode.start blankFifo default) fifoRun = busWords := by
    decide +kernel
  have hedges : Edge.words fifoEdges =
      log TxNode.step sends (TxNode.start blankFifo default) fifoRun := by
    simp [Edge.words, fifoEdges, List.filterMap_flatMap]
  obtain ⟨bss, hbss, -, hall⟩ := fifo_node_to_node default (by decide) (by decide)
    (show Along RxBus.step RxBus.OnceStep (RxBus.start default busTlps) (offers 9) by
      decide +kernel)
    (by decide +kernel) blankFifo default (by rw [hwords, htaken]) (by decide +kernel) default
    hedges (by decide +kernel)
  refine ⟨bss, hbss, hall (fifoRun.take 36) (fifoRun.drop 36) (List.take_append_drop _ _).symm ?_ ?_
    (by decide +kernel) (by decide +kernel)⟩
  · rw [hwords]
    decide +kernel
  · decide +kernel

end IpNuma
