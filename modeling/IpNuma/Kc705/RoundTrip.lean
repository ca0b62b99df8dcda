import IpNuma.Kc705.TxPayload
import IpNuma.Kc705.XgmiiRx

/-!
# From the transmitter to the receiver

The words on the wire go straight into the receiver, which takes at each edge the word driven at
the edge before.  For TLPs of two words `Hears` says which state of the receiver goes with a job
of the link; a completed job and its pulse of `tlp_frame_end` are the two ends of the same TLP.
-/

namespace IpNuma

open Clocked

/-- The transmitter with its FIFO, and the receiver on its wire. -/
structure Loopback where
  link : Link
  rx : RxSide

namespace Loopback

/-- One edge of `xgmii_clk`. -/
def step (s : Loopback) (i : LinkIn) : Loopback := ⟨s.link.step i, s.rx.step s.link.tx.out⟩

/-- After reset, with the TLPs `ts` to come. -/
def start (ts : List StoredTlp) (x : XgmiiTx) : Loopback := ⟨Link.start ts x, RxSide.reset⟩

/-- The pulses of a run, each with the two words visible at it. -/
def pulses (s : Loopback) (is : List LinkIn) : List (BitVec 64 × BitVec 64) :=
  log Loopback.step (fun s _ => s.rx.pulse) s is

end Loopback

/-- The two words of a TLP. -/
def StoredTlp.pair (t : StoredTlp) : BitVec 64 × BitVec 64 := (payload t.first, payload t.last)

/-! ### The header words, as the receiver sees them -/

section Header

variable (a : Addrs) (ipSum : BitVec 24)

theorem headerWord_at {k : ℕ} (hk : k < 5) :
    HeaderFields.ipUdp.At (Phase.headerWord a ipSum (k + 1)) k := by
  interval_cases k
  · trivial
  · simp only [HeaderFields.At, Phase.headerWord, TxSide.header10, lanes, octet_append_succ]
    rfl
  · simp only [HeaderFields.At, Phase.headerWord, TxSide.header18, lanes, octet_append_succ]
    rfl
  · trivial
  · simp only [HeaderFields.At, Phase.headerWord, TxSide.header28, lanes, octet_append_succ]
    rfl

theorem headerWord_hasMagic : RxSide.hasMagic (Phase.headerWord a ipSum 6) = true := by
  simp only [RxSide.hasMagic, Phase.headerWord]
  decide

theorem headerWord_not_idle (k : ℕ) : (Phase.headerWord a ipSum (k + 1)).c ≠ 0xff#8 := by
  rw [show _ = 0x00#8 from headerWord_isData a ipSum k]
  decide

end Header

theorem idleWord_not_startChar : startIn idleWord 0 = false := by decide

/-- The receiver when the link is at a job, the wire shows `w`, and the TLPs `us` have not been
pulsed. -/
def Hears (w : XgmiiWord) (r : RxSide) (us : List StoredTlp) : Job → Prop
  | .idle ts => w = idleWord ∧ r.state = .idle ∧ us = ts
  | .armed t ts | .header 0 t ts => w = idleWord ∧ r.state = .idle ∧ us = t :: ts
  | .header 1 t ts => w = TxSide.preambleWord ∧ r.state = .idle ∧ us = t :: ts
  | .header (k + 2) t ts => (∃ a ipSum, w = Phase.headerWord a ipSum (k + 1)) ∧
      Reads k .ipUdp r ∧ us = t :: ts
  | .first t ts => (∃ a ipSum, w = Phase.headerWord a ipSum 6) ∧ Reads 5 .ipUdp r ∧ us = t :: ts
  | .data t _ _ ts => w.d = payload t.first ∧ r.state = .tlp1 ∧ us = t :: ts
  | .tail t ts => w.d = payload t.last ∧ r.state = .tlp2 ∧ r.tlp1 = payload t.first ∧ us = t :: ts
  | .term ts => ∃ t, r.state = .tlp3 ∧ (r.tlp1, r.tlp2) = t.pair ∧ us = t :: ts

/-- The link is busy with a job, the receiver hears it, and the pulses so far with the one that
is up are those of the TLPs before. -/
structure Hearing (ts : List StoredTlp) (j : Job) (s : Loopback)
    (ps : List (BitVec 64 × BitVec 64)) : Prop where
  holds : j.Holds s.link
  heard : ∃ done us, ts = done ++ us ∧ Hears s.link.tx.out s.rx us j ∧
    ps ++ s.rx.pulse = done.map StoredTlp.pair

theorem hearing_start (ts : List StoredTlp) (x : XgmiiTx) :
    Hearing ts (.idle ts) (Loopback.start ts x) [] :=
  ⟨holds_start ts x, [], ts, rfl, ⟨(reset_inPhase x).2.2.2, rfl, rfl⟩, rfl⟩

section Step

variable {ts us : List StoredTlp} {j j' : Job} {s : Loopback} {ps : List (BitVec 64 × BitVec 64)}

theorem rest_of_mid_nil {t : StoredTlp} (h : t.mid = []) : t.rest = [t.last] := by
  simp [StoredTlp.rest, h]

/-- An edge of the receiver: it pulses the TLPs that are no longer left. -/
theorem Hears.next (h2 : ∀ t ∈ us, t.mid = []) (hj : j.Holds s.link)
    (h : Hears s.link.tx.out s.rx us j) (i : LinkIn) (hn : Job.Next j j') :
    ∃ vs us', us = vs ++ us' ∧ Hears (s.step i).link.tx.out (s.step i).rx us' j' ∧
      (s.step i).rx.pulse = vs.map StoredTlp.pair := by
  have hout : (s.step i).link.tx.out = j.phase.drives s.link.tx i.addrs := hj.out i
  rw [hout]
  change ∃ vs us', us = vs ++ us' ∧
    Hears (j.phase.drives s.link.tx i.addrs) (s.rx.step s.link.tx.out) us' j' ∧
      (s.rx.step s.link.tx.out).pulse = vs.map StoredTlp.pair
  cases hn with
  | wait ts | arm t ts | begin t ts =>
    obtain ⟨hw, hr, hus⟩ := h
    obtain ⟨h1, h2⟩ := idle_skip hr (hw ▸ idleWord_not_startChar)
    exact ⟨[], us, rfl, ⟨rfl, h1, hus⟩, RxSide.pulse_of_false h2⟩
  | header k t ts hk =>
    match k, h with
    | 0, ⟨hw, hr, hus⟩ =>
      obtain ⟨h1, h2⟩ := idle_skip hr (hw ▸ idleWord_not_startChar)
      exact ⟨[], us, rfl, ⟨rfl, h1, hus⟩, RxSide.pulse_of_false h2⟩
    | 1, ⟨hw, hr, hus⟩ =>
      obtain ⟨h1, h2⟩ := idle_start hr (w := s.link.tx.out) (by rw [hw]; decide) .ipUdp
      exact ⟨[], us, rfl, ⟨⟨i.addrs, s.link.tx.tx.ipSum, rfl⟩, h1, hus⟩, RxSide.pulse_of_false h2⟩
    | k + 2, ⟨⟨a, ipSum, hw⟩, hr, hus⟩ =>
      obtain ⟨h1, h2⟩ := reads_step (w := s.link.tx.out) hr (fun h5 => by omega)
        (hw ▸ headerWord_not_idle a ipSum k) (hw ▸ headerWord_at a ipSum (by omega)) (by omega)
      exact ⟨[], us, rfl, ⟨⟨i.addrs, s.link.tx.tx.ipSum, rfl⟩, h1, hus⟩, RxSide.pulse_of_false h2⟩
  | first t ts =>
    obtain ⟨⟨a, ipSum, hw⟩, hr, hus⟩ := h
    have hr4 : Reads 4 .ipUdp s.rx := hr
    obtain ⟨h1, h2⟩ := reads_step (w := s.link.tx.out) hr4 (fun h5 => by omega)
      (hw ▸ headerWord_not_idle a ipSum 4) (hw ▸ headerWord_at a ipSum (by decide)) (by decide)
    exact ⟨[], us, rfl, ⟨⟨i.addrs, s.link.tx.tx.ipSum, rfl⟩, h1, hus⟩, RxSide.pulse_of_false h2⟩
  | data t ts =>
    obtain ⟨⟨a, ipSum, hw⟩, hr, hus⟩ := h
    obtain ⟨h1, h2⟩ := reads_match hr (hw ▸ headerWord_hasMagic a ipSum)
    have hd : s.link.tx.fifo.dout2 = t.first := hj.2.1
    refine ⟨[], us, rfl, ⟨?_, h1, hus⟩, RxSide.pulse_of_false h2⟩
    rw [← hd]
    rfl
  | pop t old w new ts hne =>
    -- a TLP of two words has one word after the first
    obtain ⟨-, -, hus⟩ := h
    obtain ⟨-, -, hr, -⟩ := hj
    rw [rest_of_mid_nil (h2 t (by simp [hus]))] at hr
    have hlen := congrArg List.length hr
    have hpos := List.length_pos_of_ne_nil hne
    simp only [List.length_append, List.length_cons, List.length_nil] at hlen
    omega
  | last t old w ts =>
    obtain ⟨hw, hr, hus⟩ := h
    obtain ⟨h1, h2', h3⟩ := tlp1_step (w := s.link.tx.out) hr
    obtain ⟨-, -, hrest, -, -, hd, -⟩ := hj
    rw [rest_of_mid_nil (h2 t (by simp [hus]))] at hrest
    obtain ⟨rfl, hlast⟩ : old = [] ∧ t.last = w := by
      cases old with
      | nil => exact ⟨rfl, by simpa using hrest⟩
      | cons v old => simp at hrest
    refine ⟨[], us, rfl, ⟨?_, h1, h3.trans hw, hus⟩, RxSide.pulse_of_false h2'⟩
    rw [hlast, ← show s.link.tx.fifo.dout2 = w from hd]
    rfl
  | term t ts =>
    obtain ⟨hw, hr, ht1, hus⟩ := h
    obtain ⟨h1, h2', h3, h4⟩ := tlp2_step (w := s.link.tx.out) hr
    refine ⟨[], us, rfl, ⟨t, h1, ?_, hus⟩, RxSide.pulse_of_false h2'⟩
    rw [h3, h4, ht1, hw]
    rfl
  | gap ts | gapArm t ts =>
    obtain ⟨u, hr, hpair, hus⟩ := h
    obtain ⟨h1, h2', h3, h4, -⟩ := tlp3_step (w := s.link.tx.out) hr
    refine ⟨[u], _, hus, ⟨rfl, h1, rfl⟩, ?_⟩
    rw [RxSide.pulse_of_true h2', h3, h4, hpair]
    rfl

theorem hearing_step (h2 : ∀ t ∈ ts, t.mid = []) (h : Hearing ts j s ps) (i : LinkIn)
    (hp : Prompt s.link i) :
    ∃ j', Job.Next j j' ∧ Hearing ts j' (s.step i) (ps ++ s.rx.pulse) := by
  obtain ⟨hj, done, us, rfl, hh, hps⟩ := h
  obtain ⟨j', hn, hj'⟩ := holds_step i hj hp
  have h2' : ∀ t ∈ us, t.mid = [] := fun t ht => h2 t (List.mem_append_right _ ht)
  obtain ⟨vs, us', rfl, hh', hps'⟩ := hh.next h2' hj i hn
  refine ⟨j', hn, hj', done ++ vs, us', by rw [List.append_assoc], hh', ?_⟩
  rw [hps, hps', List.map_append]

/-- Two edges after the last frame its pulse is over. -/
theorem hearing_drained (h2 : ∀ t ∈ ts, t.mid = []) (h : Hearing ts j s ps)
    (hnil : j.pending = []) (i : LinkIn) (hp : Prompt s.link i) :
    ps ++ s.rx.pulse ++ (s.step i).rx.pulse = ts.map StoredTlp.pair := by
  obtain ⟨j', hn, hj'⟩ := hearing_step h2 h i hp
  have hidle : j' = .idle [] := by
    cases j with
    | idle ts' | term ts' => obtain rfl : ts' = [] := hnil; cases hn; rfl
    | _ => cases hnil
  subst hidle
  obtain ⟨-, done, us, rfl, ⟨-, -, rfl⟩, hps⟩ := hj'
  rw [List.append_nil]
  exact hps

end Step

theorem hearing_tracks {ts : List StoredTlp} (h2 : ∀ t ∈ ts, t.mid = []) :
    Tracks Loopback.step (fun s _ => s.rx.pulse) Loopback.link (Hearing ts) :=
  ⟨fun _ _ => rfl, fun h => h.holds, fun h => hearing_step h2 h⟩

/-- **Wire round trip.**  For two-word TLPs complete in the FIFO when the last header word of
their frame goes out, whatever the addresses and the spacing, the receiver pulses once for each
TLP, in order, with its two words, and never otherwise; and every TLP gets its pulse. -/
theorem pulses_round_trip (ts : List StoredTlp) (h2 : ∀ t ∈ ts, t.mid = []) (x : XgmiiTx)
    (is : List LinkIn)
    (h : Along Loopback.step (fun s i => Prompt s.link i) (Loopback.start ts x) is) :
    (Loopback.start ts x).pulses is <+: ts.map StoredTlp.pair ∧
      ∀ js ks, is = js ++ ks → (run Loopback.step (Loopback.start ts x) js).link.todo = [] →
        cost ts + 5 ≤ ks.length →
          (Loopback.start ts x).pulses is = ts.map StoredTlp.pair := by
  constructor
  · obtain ⟨j, ⟨-, done, us, hts, -, hps⟩, -⟩ :=
      (hearing_tracks h2).run (hearing_start ts x) is h
    have hpre : done.map StoredTlp.pair <+: ts.map StoredTlp.pair := by
      rw [hts, List.map_append]
      exact List.prefix_append _ _
    rw [← hps] at hpre
    exact (List.prefix_append _ _).trans hpre
  · rintro js ks rfl htodo hlen
    -- the last two edges are kept for the pulse of the last TLP
    obtain ⟨as, i, k, rfl⟩ : ∃ as i k, ks = as ++ [i] ++ [k] := by
      obtain ⟨bs, k, rfl⟩ := List.eq_nil_or_concat' ks |>.resolve_left (by rintro rfl; simp at hlen)
      obtain ⟨as, i, rfl⟩ := List.eq_nil_or_concat' bs |>.resolve_left (by
        rintro rfl; simp at hlen)
      exact ⟨as, i, k, rfl⟩
    simp only [List.length_append, List.length_cons, List.length_nil] at hlen
    rw [← List.append_assoc, ← List.append_assoc] at h ⊢
    obtain ⟨h', -⟩ := (along_concat _ _ _ _ _).1 h
    obtain ⟨h', hi⟩ := (along_concat _ _ _ _ _).1 h'
    obtain ⟨j, hj, hnil⟩ :=
      (hearing_tracks h2).drains (hearing_start ts x) js as h' htodo (by omega)
    rw [Loopback.pulses, log_concat, log_concat, run_concat]
    exact hearing_drained h2 hj hnil i hi

/-- The memory read of the test bench, of one word at `0xFD6C0100`. -/
def memoryRead : StoredTlp where
  first := 0x11234010100000001#72
  mid := []
  last := 0x300000000fd6c0100#72
  first_start := by decide
  mid_start := StoredTlp.nil_start
  last_valid := by decide
  last_last := by decide

/-- Both words of the read arrive in the first cycle, then 40 cycles pass. -/
def memoryReadRun : List LinkIn := ⟨2, 0, default⟩ :: List.replicate 40 ⟨0, 0, default⟩

theorem pulses_memoryRead :
    (Loopback.start [memoryRead] default).pulses memoryReadRun =
      [(0x1234010100000001#64, 0x00000000fd6c0100#64)] := by
  have h0 : Prompt (Link.start [memoryRead] default) ⟨2, 0, default⟩ := fun h => by cases h
  obtain ⟨j, -, hj⟩ := holds_step ⟨2, 0, default⟩ (holds_start [memoryRead] default) h0
  have hrun : Along Loopback.step (fun s i => Prompt s.link i) (Loopback.start [memoryRead] default)
      memoryReadRun :=
    ⟨h0, along_prompt_of_todo_nil Loopback.link (fun _ _ => rfl) hj rfl _⟩
  exact (pulses_round_trip [memoryRead] (by simp [memoryRead]) default memoryReadRun hrun).2
    [⟨2, 0, default⟩] (List.replicate 40 ⟨0, 0, default⟩) rfl rfl (by decide)

/-- The first word of the read arrives in the first cycle, the second 20 cycles later. -/
def lateRun : List LinkIn :=
  ⟨1, 0, default⟩ :: (List.replicate 20 ⟨0, 0, default⟩ ++
    ⟨1, 0, default⟩ :: List.replicate 20 ⟨0, 0, default⟩)

/-- When the second word comes after the header, what the empty FIFO shows is sent in its place:
the only pulse of the run has another second word. -/
theorem lateRun_pulse : memoryRead.mid = [] ∧
    (run Loopback.step (Loopback.start [memoryRead] default) lateRun).link.todo = [] ∧
    (Loopback.start [memoryRead] default).pulses lateRun = [(0x1234010100000001#64, 0#64)] ∧
    [memoryRead].map StoredTlp.pair = [(0x1234010100000001#64, 0x00000000fd6c0100#64)] := by
  refine ⟨rfl, ?_, ?_, ?_⟩ <;> decide +kernel

end IpNuma
