import IpNuma.Kc705.Crossing
import IpNuma.Kc705.SnoopBus
import IpNuma.Kc705.SnoopIds
import IpNuma.Kc705.TxStray

/-!
# From the bus of one node to the port of the other

A TLP of two beats goes from the receive bus of a node through the snoop, the FIFO and the
transmitter onto the wire, and from there through the aligner, the receiver and the machine `ORF`
to the AXI port of the other node.  The transmitter starts its frames in lane 0, so the aligner
of the other node only delays them by two words (`seen_straight`); what the receiver pulses is then
what `StrayHearing` says, and `Crossing.Invariant` takes it over to the port.

`node_to_node` puts the parts together: each TLP is on the other port once and in order, with the
requester ID and the address rewritten.
-/

namespace IpNuma

open Clocked

/-! ### The wire -/

namespace Link

/-- The words that the other node samples, one at each edge of a run. -/
def wire (s : Link) (is : List LinkIn) : List XgmiiWord :=
  log Link.step (fun s _ => [s.tx.out]) s is

/-- After reset, with the words `ws` to come. -/
def fed (ws : List (BitVec 72)) (x : XgmiiTx) : Link := ⟨ws, [], x.reset⟩

end Link

/-- No word of the transmitter has a start character in lane 4. -/
theorem drives_straight (p : Phase) (s : XgmiiTx) (a : Addrs) :
    startIn (p.drives s a) 4 = false := by
  cases p with
  | header k =>
    cases k with
    | zero => exact (by decide : startIn TxSide.preambleWord 4 = false)
    | succ k =>
      have hc := headerWord_isData a s.tx.ipSum k
      simp only [IsDataWord] at hc
      simp [Phase.drives, startIn, hc]
  | first | data => simp [Phase.drives, startIn, TxSide.dataWord]
  | tail =>
    simp only [Phase.drives, startIn, TxSide.termWord, lanes, octet_append_succ]
    decide
  | idle | armed | term => exact (by decide : startIn idleWord 4 = false)

theorem wire_straight (ws : List (BitVec 72)) (x : XgmiiTx) (js : List LinkIn) :
    ∀ w ∈ (Link.fed ws x).wire js, startIn w 4 = false := by
  refine (log_induction (P := fun _ _ => True) (J := fun s l =>
    (∃ p, InPhase p s.tx) ∧ startIn s.tx.out 4 = false ∧ ∀ w ∈ l, startIn w 4 = false)
    ⟨⟨_, reset_inPhase x⟩, (by decide : startIn idleWord 4 = false), by simp⟩ ?_ js (along_true _ js)).2.2
  rintro s i l ⟨⟨p, hp⟩, hout, hl⟩ -
  have hnext := step_inPhase i.addrs (s.q.headD i.junk) s.q.isEmpty hp
  refine ⟨⟨_, hnext⟩, ?_, ?_⟩
  · have hdrives := step_out i.addrs (s.q.headD i.junk) s.q.isEmpty hp
    rw [Link.step, hdrives]
    exact drives_straight p s.tx i.addrs
  · simp only [List.forall_mem_append, List.forall_mem_singleton]
    exact ⟨hl, hout⟩

theorem length_wire (l : Link) (js : List LinkIn) : (l.wire js).length = js.length := by
  induction js generalizing l with
  | nil => rfl
  | cons j js ih =>
    have hlen := ih (l.step j)
    rw [Link.wire] at hlen
    rw [Link.wire, log_cons, List.length_append, hlen, List.length_cons]
    exact Nat.add_comm _ _

/-! ### The aligner -/

section Aligner

variable {α : Type*} (obs : RxSide → α)

/-- The aligner after words without a start character in lane 4: it holds the last two of them, and
the receiver has got all before, behind two words of zeros. -/
structure Straight (ws : List XgmiiWord) (s : RxPath) (l : List α) : Prop where
  quadShift : s.sync.quadShift = false
  split : ∃ us, ⟨0, 0⟩ :: ⟨0, 0⟩ :: ws = us ++ [s.sync.out, s.sync.rx] ∧
    s.rx = run RxSide.step RxSide.reset us ∧ l = heard obs RxSide.reset us

theorem straight_run (ws : List XgmiiWord) (h : ∀ w ∈ ws, startIn w 4 = false) :
    Straight obs ws (run RxPath.step RxPath.reset ws) (RxPath.seen obs ws) := by
  induction ws using List.reverseRecOn with
  | nil => exact ⟨rfl, [], rfl, rfl, rfl⟩
  | append_singleton ws w ih =>
    rw [List.forall_mem_append, List.forall_mem_singleton] at h
    obtain ⟨hquad, us, hsplit, hrx, hl⟩ := ih h.1
    rw [run_concat, RxPath.seen, log_concat, ← RxPath.seen]
    generalize run RxPath.step RxPath.reset ws = s at *
    refine ⟨?_, us ++ [s.sync.out], ?_, ?_, ?_⟩
    · simp only [RxPath.step, XgmiiSync.step, XgmiiSync.nextShift, h.2, hquad]
      simp
    · simp only [RxPath.step, XgmiiSync.step, hquad, if_true]
      rw [← List.cons_append, ← List.cons_append, hsplit]
      simp
    · rw [run_concat, ← hrx]
      rfl
    · rw [hl, heard_append, heard_singleton, ← hrx]
      rfl

/-- Two words later the path has seen what a receiver without the aligner has heard. -/
theorem seen_straight (ws : List XgmiiWord) (h : ∀ w ∈ ws, startIn w 4 = false)
    {vs : List XgmiiWord} {a b : XgmiiWord} (hws : ws = vs ++ [a, b]) :
    RxPath.seen obs ws = heard obs RxSide.reset vs := by
  obtain ⟨-, us, hsplit, -, hl⟩ := straight_run obs ws h
  rw [hws, ← List.cons_append, ← List.cons_append] at hsplit
  obtain ⟨rfl, -⟩ := List.append_inj' hsplit rfl
  exact hl

/-- The path has not seen more. -/
theorem seen_prefix_of_straight (ws : List XgmiiWord) (h : ∀ w ∈ ws, startIn w 4 = false) :
    RxPath.seen obs ws <+: heard obs RxSide.reset ws := by
  obtain ⟨-, us, hsplit, -, hl⟩ := straight_run obs ws h
  have hzero : heard obs RxSide.reset (⟨0, 0⟩ :: ⟨0, 0⟩ :: ws) = heard obs RxSide.reset ws := rfl
  rw [hl, ← hzero, hsplit, heard_append]
  exact List.prefix_append _ _

end Aligner

/-! ### The receiver behind the wire -/

/-- The run of the transmitter with the receiver on its wire. -/
theorem loopback_wire (l : Link) (js : List LinkIn) :
    (run Loopback.step ⟨l, RxSide.reset⟩ js).link = run Link.step l js ∧
      (run Loopback.step ⟨l, RxSide.reset⟩ js).rx = run RxSide.step RxSide.reset (l.wire js) ∧
      Loopback.pulses ⟨l, RxSide.reset⟩ js ++ (run Loopback.step ⟨l, RxSide.reset⟩ js).rx.pulse =
        heard RxSide.pair RxSide.reset (l.wire js) := by
  induction js using List.reverseRecOn with
  | nil => exact ⟨rfl, rfl, rfl⟩
  | append_singleton js i ih =>
    obtain ⟨h1, h2, h3⟩ := ih
    rw [Loopback.pulses] at h3
    rw [Link.wire, log_concat, ← Link.wire, Loopback.pulses, log_concat, run_concat, run_concat, h3,
      run_concat, heard_append, heard_singleton, ← h1, ← h2]
    exact ⟨rfl, rfl, rfl⟩

theorem along_loopback {P : Link → LinkIn → Prop} {l : Link} {js : List LinkIn} (r : RxSide)
    (h : Along Link.step P l js) :
    Along Loopback.step (fun s i => P s.link i) ⟨l, r⟩ js := by
  induction js generalizing l r with
  | nil => trivial
  | cons i js ih =>
    rw [along_cons] at h
    exact ⟨h.1, ih _ h.2⟩

/-- What is put on port 2 for the two words of a pulse. -/
def pairBeats (p : BitVec 64 × BitVec 64) : List Beat := Orf.beats p.1 p.2 0

/-- Up to four words the third register does not matter. -/
theorem beats_of_short {tlp1 : BitVec 64} (h : dwords tlp1 ≤ 4) (tlp2 tlp3 : BitVec 64) :
    Orf.beats tlp1 tlp2 tlp3 = pairBeats (tlp1, tlp2) := by
  have h3 := three_le_dwords tlp1
  have h6 : dwords tlp1 ≤ 6 := h.trans (by decide)
  rw [pairBeats, Orf.beats_eq_networkTlp h6, Orf.beats_eq_networkTlp h6]
  obtain hd | hd : dwords tlp1 = 3 ∨ dwords tlp1 = 4 := by omega
  all_goals simp [networkTlp, hd]

theorem heard_beats (ws : List XgmiiWord) (r : RxSide)
    (h : ∀ p ∈ heard RxSide.pair r ws, dwords p.1 ≤ 4) :
    heard RxSide.beats r ws = (heard RxSide.pair r ws).map pairBeats := by
  induction ws generalizing r with
  | nil => rfl
  | cons w ws ih =>
    have hcons : ∀ {β : Type} (obs : RxSide → β), heard obs r (w :: ws) =
        (r.step w).seen obs ++ heard obs (r.step w) ws := fun _ => rfl
    rw [hcons, List.forall_mem_append] at h
    rw [hcons, hcons, List.map_append, ih _ h.2]
    congr 1
    cases hf : (r.step w).tlpFrameEnd with
    | false => rw [RxSide.seen_of_false hf, RxSide.seen_of_false hf, List.map_nil]
    | true =>
      rw [RxSide.seen_of_true hf, RxSide.seen_of_true hf, List.map_singleton]
      rw [RxSide.seen_of_true hf, List.forall_mem_singleton] at h
      exact congrArg (fun b => [b]) (beats_of_short h.1 _ _)

/-! ### The TLPs -/

namespace RxTlp

/-- A TLP of three or four words, two of them in each beat. -/
def TwoBeats (t : RxTlp) : Prop :=
  t.mid = [] ∧ (dwords t.first.tdata = 3 ∧ t.last.tkeep = 0x0f#8 ∨
    dwords t.first.tdata = 4 ∧ t.last.tkeep = 0xff#8)

instance : DecidablePred TwoBeats := fun _ => inferInstanceAs (Decidable (_ ∧ (_ ∨ _)))

/-- The TLP with the requester ID and the address rewritten. -/
def remote (t : RxTlp) (mem0Paddr : BitVec 36) : List Beat :=
  [firstBeat t.first.idleData, ⟨t.last.header1Data t.first.fmt t.first.type t.first.isCompletion
    mem0Paddr, t.last.tkeep, true⟩]

end RxTlp

/-- Below the requester ID the first beat is as it was. -/
theorem idleData_getLsbD (b : RxBeat) {k : ℕ} (hk : k < 60) :
    b.idleData.getLsbD k = b.tdata.getLsbD k := by
  unfold RxBeat.idleData
  split_ifs
  · rfl
  · rw [BitVec.getLsbD_append]
    simp [hk]

theorem dwords_idleData (b : RxBeat) : dwords b.idleData = dwords b.tdata := by
  have hlen : b.idleData.extractLsb' 0 10 = b.tdata.extractLsb' 0 10 := by
    apply BitVec.eq_of_getLsbD_eq
    intro k hk
    simp only [BitVec.getLsbD_extractLsb', Nat.zero_add, idleData_getLsbD b (show k < 60 by omega)]
  rw [dwords, dwords, hlen, idleData_getLsbD b (by decide), idleData_getLsbD b (by decide)]

/-- The two words in the FIFO. -/
theorem forwards_two {t : RxTlp} {ws : List (BitVec 72)} (h : RxBus.Forwards t ws)
    (ht : t.mid = []) : ∃ m, ws = [t.first.word true t.first.idleData, t.last.word true
      (t.last.header1Data t.first.fmt t.first.type t.first.isCompletion m)] := by
  obtain ⟨is, hp, rfl⟩ := h
  obtain ⟨i, j, js, rfl, hi, hj, hjs, hv⟩ := hp.two
  obtain rfl : js = [] := by simpa [RxTlp.rest, ht] using hjs
  simp only [List.forall_mem_cons] at hv
  have hsecond : t.second = t.last := by simp [RxTlp.second, ht]
  exact ⟨j.mem0Paddr, by simp [rewritten, hi, hj, hv, hsecond]⟩

theorem word_valid (b : RxBeat) (d : BitVec 64) : (b.word true d).getLsbD 64 = true := by
  simp only [RxBeat.word, BitVec.getLsbD_append]
  simp

theorem exists_stored {t : RxTlp} {ws : List (BitVec 72)} (h : RxBus.Forwards t ws)
    (ht : t.mid = []) : ∃ u : StoredTlp, u.words = ws := by
  obtain ⟨m, rfl⟩ := forwards_two h ht
  refine ⟨⟨t.first.word true t.first.idleData, [], t.last.word true (t.last.header1Data t.first.fmt
    t.first.type t.first.isCompletion m), ?_, StoredTlp.nil_start, word_valid _ _, ?_⟩, rfl⟩
  · rw [isStart_word, t.first_tlast]
    rfl
  · rw [isLast_word, t.last_tlast]

/-- What the receiver hears of a TLP is put on port 2 as it should be. -/
theorem pairBeats_of_forwards {t : RxTlp} {u : StoredTlp} (h : RxBus.Forwards t u.words)
    (ht : t.TwoBeats) :
    u.mid = [] ∧ dwords u.pair.1 ≤ 4 ∧ ∃ m, pairBeats u.pair = t.remote m := by
  obtain ⟨hmid, hsize⟩ := ht
  obtain ⟨m, hwords⟩ := forwards_two h hmid
  obtain ⟨hfirst, hrest⟩ := List.cons.inj hwords
  have humid : u.mid = [] := by
    have hlen := congrArg List.length hrest
    simp only [StoredTlp.rest, List.length_append, List.length_cons, List.length_nil] at hlen
    exact List.eq_nil_of_length_eq_zero (by omega)
  have hlast : u.last = t.last.word true
      (t.last.header1Data t.first.fmt t.first.type t.first.isCompletion m) := by
    simpa [StoredTlp.rest, humid] using hrest
  have hpair : u.pair = (t.first.idleData,
      t.last.header1Data t.first.fmt t.first.type t.first.isCompletion m) := by
    rw [StoredTlp.pair, hfirst, hlast, payload_word, payload_word]
  have hdw := dwords_idleData t.first
  have h4 : dwords t.first.idleData ≤ 4 := by
    rw [hdw]
    rcases hsize with ⟨hd, -⟩ | ⟨hd, -⟩ <;> omega
  refine ⟨humid, by rwa [hpair], m, ?_⟩
  rw [hpair, pairBeats, Orf.beats_eq_networkTlp (h4.trans (by decide)), networkTlp, RxTlp.remote]
  rcases hsize with ⟨hd, hkeep⟩ | ⟨hd, hkeep⟩ <;> simp [hdw, hd, hkeep]

/-! ### Two nodes -/

/-- When all beats have been transferred the FIFO has been given the TLPs, and strays. -/
theorem holding_of_captured {ts : List RxTlp} (hts : ∀ t ∈ ts, t.TwoBeats) {s : RxBus}
    {l : List (BitVec 72)} (h : RxBus.Invariant ts s l) (hs : s.todo = []) :
    ∃ us, Holding us l ∧ List.Forall₂ (fun t u => RxBus.Forwards t u.words) ts us := by
  have hnext : ∀ {rest part}, s.Place rest part → rest = [] ∧ part = none := by
    intro rest part hplace
    cases hplace with
    | @between rest _ _ htodo =>
      cases rest with
      | nil => exact ⟨rfl, rfl⟩
      | cons t rest =>
        rw [hs] at htodo
        cases htodo
    | inside _ hbs _ _ _ _ htodo _ =>
      rw [hs] at htodo
      exact absurd (List.append_eq_nil_iff.1 htodo.symm).1 hbs
    | waiting _ _ _ htodo =>
      rw [hs] at htodo
      cases htodo
  obtain ⟨done, rest, part, ds, rfl, hds, hscan, hplace⟩ := h
  obtain ⟨rfl, rfl⟩ := hnext hplace
  rw [List.append_nil] at hts ⊢
  have hstored : ∀ d ∈ ds, ∃ u : StoredTlp, u.words = d := by
    have hboth := ((List.forall₂_and_left done ds).2 ⟨hts, hds⟩).flip.imp fun d t h =>
      And.intro (exists_stored h.2 h.1.1) h.2
    exact ((List.forall₂_and_left ds done).1 hboth).1
  obtain ⟨us, vs, rfl, hold, hmap⟩ := Holding.of_scan hscan hstored
  refine ⟨us, by simpa using hold, ?_⟩
  rwa [← hmap, List.forall₂_map_right_iff] at hds

/-- The receiver of the other node hears the TLPs that the FIFO holds. -/
theorem heard_of_holding {us : List StoredTlp} (h2 : ∀ u ∈ us, u.mid = [])
    (h4 : ∀ u ∈ us, dwords u.pair.1 ≤ 4) {ws : List (BitVec 72)} (hold : Holding us ws)
    (x : XgmiiTx) {js : List LinkIn}
    (hjs : Along Link.step (fun s i => Prompt s i ∧ Blank s i) (Link.fed ws x) js) :
    heard RxSide.beats RxSide.reset ((Link.fed ws x).wire js) <+:
        us.map (fun u => pairBeats u.pair) ∧
      ((run Link.step (Link.fed ws x) js).Drained →
        heard RxSide.beats RxSide.reset ((Link.fed ws x).wire js) =
          us.map fun u => pairBeats u.pair) := by
  obtain ⟨hlink, -, hpulses⟩ := loopback_wire (Link.fed ws x) js
  obtain ⟨j, hj⟩ := strayHearing_run h2 hold x js (along_loopback RxSide.reset hjs)
  have hpre : heard RxSide.pair RxSide.reset ((Link.fed ws x).wire js) <+:
      us.map StoredTlp.pair := by
    obtain ⟨-, done, us', rfl, -, hps⟩ := hj
    rw [← hpulses, Link.fed, hps, List.map_append]
    exact List.prefix_append _ _
  have hbeats := heard_beats ((Link.fed ws x).wire js) RxSide.reset fun p hp => by
    obtain ⟨u, hu, rfl⟩ := List.mem_map.1 (hpre.subset hp)
    exact h4 u hu
  have hmap : us.map (fun u => pairBeats u.pair) = (us.map StoredTlp.pair).map pairBeats := by
    rw [List.map_map]
    rfl
  rw [hbeats, hmap]
  refine ⟨hpre.map _, fun hd => ?_⟩
  rw [← hpulses, Link.fed, hj.all (by rw [← hlink] at hd; exact hd)]

/-- The TLPs that the FIFO of the sender is given, and what the other node should get of them. -/
theorem stored_of_bus (r : Snoop) {ts : List RxTlp} (hsel : ∀ t ∈ ts, t.first.selected = true)
    (hts : ∀ t ∈ ts, t.TwoBeats) {is : List RxBusIn}
    (his : Along RxBus.step RxBus.OnceStep (RxBus.start r ts) is)
    (hdone : (run RxBus.step (RxBus.start r ts) is).todo = []) :
    ∃ us, Holding us (log RxBus.step RxBus.push (RxBus.start r ts) is) ∧
      (∀ u ∈ us, u.mid = []) ∧ (∀ u ∈ us, dwords u.pair.1 ≤ 4) ∧
      List.Forall₂ (fun t bs => ∃ m, bs = RxTlp.remote t m) ts
        (us.map fun u => pairBeats u.pair) := by
  have hbus : RxBus.Invariant ts (run RxBus.step (RxBus.start r ts) is)
      (log RxBus.step RxBus.push (RxBus.start r ts) is) :=
    log_induction (RxBus.invariant_start r ts)
      (fun _ _ _ hs hi => RxBus.invariant_step hsel hs hi) is his
  obtain ⟨us, hold, hfwd⟩ := holding_of_captured hts hbus hdone
  have hall : List.Forall₂ (fun t u => (u.mid = [] ∧ dwords u.pair.1 ≤ 4) ∧
      ∃ m, pairBeats u.pair = RxTlp.remote t m) ts us :=
    ((List.forall₂_and_left ts us).2 ⟨hts, hfwd⟩).imp fun t u h => by
      obtain ⟨hmid, h4, hm⟩ := pairBeats_of_forwards h.2 h.1
      exact ⟨⟨hmid, h4⟩, hm⟩
  have h2 : ∀ u ∈ us, u.mid = [] ∧ dwords u.pair.1 ≤ 4 :=
    ((List.forall₂_and_left us ts).1 hall.flip).1
  refine ⟨us, hold, fun u hu => (h2 u hu).1, fun u hu => (h2 u hu).2, ?_⟩
  rw [List.forall₂_map_right_iff]
  exact hall.imp fun _ _ h => h.2

/-- **The port of the other node** gets what can be heard on the wire; the words of the last two
edges are still in the aligner. -/
theorem port_of_heard {out : List XgmiiWord} (hstraight : ∀ w ∈ out, startIn w 4 = false)
    {bss : List (List Beat)} (hheard : heard RxSide.beats RxSide.reset out <+: bss) (p : TxPorts)
    {es : List Edge} (hwire : Edge.words es = out)
    (hes : Along Crossing.step (fun s e => s.Sampled e ∧ s.InTime e) (Crossing.start p) es) :
    log Crossing.step Crossing.port2 (Crossing.start p) es <+: bss.flatten ∧
      ∀ vs ws, out = vs ++ ws → 2 ≤ ws.length → heard RxSide.beats RxSide.reset vs = bss →
        (run Crossing.step (Crossing.start p) es).Settled →
          log Crossing.step Crossing.port2 (Crossing.start p) es = bss.flatten := by
  have hseen : RxPath.seen RxSide.beats (Edge.words es) <+: bss := by
    rw [hwire]
    exact (seen_prefix_of_straight RxSide.beats _ hstraight).trans hheard
  have hcross : (run Crossing.step (Crossing.start p) es).Invariant
      (log Crossing.step Crossing.pulsed (Crossing.start p) es)
      (log Crossing.step Crossing.port2 (Crossing.start p) es) :=
    log_induction₂ (J := Crossing.Invariant) (Crossing.invariant_start p)
      (fun _ e _ _ hi hP => Crossing.invariant_step hi e hP.1 hP.2) es hes
  rw [(Crossing.log_pulsed p es).1] at hcross
  obtain ⟨sent, pending, part, hframes, hbs, hplace⟩ := hcross
  refine ⟨?_, ?_⟩
  · rw [hbs]
    obtain ⟨more, hmore⟩ := hseen
    rw [← hmore, hframes, List.flatten_append, List.flatten_append, List.append_assoc]
    exact (List.prefix_append_right_inj _).2 (hplace.prefix_flatten.trans (List.prefix_append _ _))
  · intro vs ws hout hlen hall hsettled
    obtain ⟨rfl, rfl⟩ := hplace.of_settled hsettled
    obtain ⟨ws, b, rfl⟩ := List.eq_nil_or_concat' ws |>.resolve_left (by rintro rfl; simp at hlen)
    obtain ⟨ws, a, rfl⟩ := List.eq_nil_or_concat' ws |>.resolve_left (by rintro rfl; simp at hlen)
    have hsplit : out = (vs ++ ws) ++ [a, b] := by simp [hout]
    have hlast := seen_straight RxSide.beats _ hstraight hsplit
    rw [hwire, hlast, heard_append, hall] at hseen hframes
    obtain ⟨more, hmore⟩ := hseen
    rw [List.append_assoc] at hmore
    have hnil : heard RxSide.beats (run RxSide.step RxSide.reset vs) ws = [] :=
      (List.append_eq_nil_iff.1 (List.append_cancel_left (hmore.trans (List.append_nil _).symm))).1
    rw [hbs, List.append_nil, ← List.append_nil sent, ← hframes, hnil, List.append_nil]

/-- **From node to node.**  TLPs of two beats that hit BAR2 or are completions go over the receive
bus of a node, from there with any delay through the FIFO and the transmitter, and over the wire to
the other node, whose clocks tick in any order.  If each beat is captured once, each TLP is
complete before its frame needs it, the FIFO shows no first word when it is read empty, and the other
node reads each TLP in time, then its port gets the TLPs with the ID and the address rewritten: each
once, in order and with its own words, and all of them when nothing is left on the way. -/
theorem node_to_node (r : Snoop) {ts : List RxTlp} (hsel : ∀ t ∈ ts, t.first.selected = true)
    (hts : ∀ t ∈ ts, t.TwoBeats) {is : List RxBusIn}
    (his : Along RxBus.step RxBus.OnceStep (RxBus.start r ts) is)
    (hdone : (run RxBus.step (RxBus.start r ts) is).todo = []) (x : XgmiiTx) {js : List LinkIn}
    (hjs : Along Link.step (fun s i => Prompt s i ∧ Blank s i)
      (Link.fed (log RxBus.step RxBus.push (RxBus.start r ts) is) x) js)
    (p : TxPorts) {es : List Edge}
    (hwire : Edge.words es =
      (Link.fed (log RxBus.step RxBus.push (RxBus.start r ts) is) x).wire js)
    (hes : Along Crossing.step (fun s e => s.Sampled e ∧ s.InTime e) (Crossing.start p) es) :
    ∃ bss, List.Forall₂ (fun t bs => ∃ m, bs = RxTlp.remote t m) ts bss ∧
      log Crossing.step Crossing.port2 (Crossing.start p) es <+: bss.flatten ∧
      ∀ js₁ js₂, js = js₁ ++ js₂ → 2 ≤ js₂.length →
        (run Link.step (Link.fed (log RxBus.step RxBus.push (RxBus.start r ts) is) x)
          js₁).Drained →
        (run Crossing.step (Crossing.start p) es).Settled →
          log Crossing.step Crossing.port2 (Crossing.start p) es = bss.flatten := by
  obtain ⟨us, hold, h2, h4, hall⟩ := stored_of_bus r hsel hts his hdone
  generalize log RxBus.step RxBus.push (RxBus.start r ts) is = ws at *
  obtain ⟨hpre, hrest⟩ := port_of_heard (wire_straight ws x js)
    (heard_of_holding h2 h4 hold x hjs).1 p hwire hes
  refine ⟨us.map fun u => pairBeats u.pair, hall, hpre, ?_⟩
  rintro js₁ js₂ rfl hlen hdrained
  obtain ⟨hjs₁, -⟩ := (along_append _ _ _ _ _).1 hjs
  refine hrest ((Link.fed ws x).wire js₁) _ (log_append _ _ _ _ _) ?_
    ((heard_of_holding h2 h4 hold x hjs₁).2 hdrained)
  rw [← Link.wire, length_wire]
  exact hlen

/-! ### A completion and a write -/

/-- A completion with data and a memory write, both of one word. -/
def busTlps : List RxTlp := [readCompletion, shortWrite]

/-- The words that the snoop writes of them: the last beat of the write waits for `tready`, and is
captured two more times. -/
def busWords : List (BitVec 72) :=
  [0xAD020000044A000001#72, 0xAFAABBCCDD12340100#72, 0xADE234020F40000001#72,
    0xAFAABBCCDD00000100#72, 0xAF5ABBCCDDFD6C0100#72, 0xAFAABBCCDDFD6C0100#72]

/-- All words are in the FIFO after the first cycle. -/
def busLinkRun : List LinkIn := ⟨6, 0, default⟩ :: List.replicate 34 ⟨0, 0, default⟩

/-- Each word on the wire comes with an edge of the other clock of the far node. -/
def busEdges : List Edge :=
  (((Link.fed busWords default).wire busLinkRun).flatMap fun w => [.xgmii w, .clk true default]) ++
    List.replicate 10 (.clk true default)

theorem node_to_node_two : ∃ bss,
    List.Forall₂ (fun t bs => ∃ m, bs = RxTlp.remote t m) busTlps bss ∧
      log Crossing.step Crossing.port2 (Crossing.start default) busEdges = bss.flatten := by
  have hwords : log RxBus.step RxBus.push (RxBus.start default busTlps) (offers 9) = busWords := by
    decide +kernel
  have his : Along RxBus.step RxBus.OnceStep (RxBus.start default busTlps) (offers 9) := by
    decide +kernel
  have hts : ∀ t ∈ busTlps, t.TwoBeats := by decide
  have hsel : ∀ t ∈ busTlps, t.first.selected = true := by decide
  have hdone : (run RxBus.step (RxBus.start default busTlps) (offers 9)).todo = [] := by
    decide +kernel
  -- the run of the link is prompt, because all words come first
  obtain ⟨us, hold, -⟩ := holding_of_captured hts
    (log_induction (RxBus.invariant_start default busTlps)
      (fun _ _ _ hs hi => RxBus.invariant_step hsel hs hi) (offers 9) his) hdone
  rw [hwords] at hold
  have hp0 : Prompt (Link.fed busWords default) ⟨6, 0, default⟩ := fun h => by cases h
  have hb0 : Blank (Link.fed busWords default) ⟨6, 0, default⟩ := fun _ _ _ => rfl
  obtain ⟨j, -, hj⟩ := stray_step ⟨6, 0, default⟩ (strayHolds_start hold default) hp0 hb0
  have hjs : Along Link.step (fun s i => Prompt s i ∧ Blank s i) (Link.fed busWords default)
      busLinkRun := by
    refine ⟨⟨hp0, hb0⟩, stray_along hj rfl _ ?_⟩
    simp [isStart]
  have hedges : Edge.words busEdges = (Link.fed busWords default).wire busLinkRun := by
    simp [Edge.words, busEdges, List.filterMap_flatMap]
  obtain ⟨bss, hbss, -, hall⟩ := node_to_node default hsel hts his hdone default
    (by rw [hwords]; exact hjs) default (by rw [hwords]; exact hedges) (by decide +kernel)
  refine ⟨bss, hbss, hall (busLinkRun.take 30) (busLinkRun.drop 30) (by simp) (by decide) ?_ ?_⟩
  · rw [hwords]
    decide +kernel
  · decide +kernel

end IpNuma
