import IpNuma.Fifo.AsFifo
import IpNuma.Kc705.TwoNodes

/-!
# The transmitter behind `asfifo`

`Link` has a list for the FIFO, and words arrive in it at any time.  Here the engine reads the
module `afifo72_w250_r156`, whose words come from the clock of the snoop.  A word that `empty`
still hides has not arrived for `Link`: that is all the difference the clocks make.

* `Follows` relates the states of the two to those of the runs of `Link` so far;
* `tx_linked`: every run of the two is one of `Link`, with the words that the FIFO took;
* a property of the edges of `Link` comes from one of the edges of the two (`Allows`), so what is
  known of `Link` holds of the two (`allows_of_timely`).
-/

namespace IpNuma

open Clocked

/-- `afifo72_w250_r156`: 72 bits, `ADDRESS_WIDTH` of 12. -/
abbrev Afifo72 := AsFifo (BitVec 72) 10

/-- The FIFO and the engine behind it. -/
structure TxNode where
  fifo : Afifo72
  tx : XgmiiTx

/-- An instant: the clocks with an edge, what is written, and the address registers. -/
structure TxNodeIn where
  clk : Bool
  wrEn : Bool
  din : BitVec 72
  xgmiiClk : Bool
  addrs : Addrs

namespace TxNode

/-- The inputs of the FIFO. -/
def fifoIn (s : TxNode) (i : TxNodeIn) : AsFifoIn (BitVec 72) :=
  ⟨i.clk, i.wrEn, i.din, i.xgmiiClk, s.tx.fifo.rdEn⟩

/-- One instant. -/
def step (s : TxNode) (i : TxNodeIn) : TxNode where
  fifo := s.fifo.step (s.fifoIn i)
  tx := if i.xgmiiClk then s.tx.step i.addrs s.fifo.dout s.fifo.empty else s.tx

/-- After reset. -/
def start (f : Afifo72) (x : XgmiiTx) : TxNode := ⟨f.reset, x.reset⟩

/-- The word that the FIFO takes. -/
def takes (s : TxNode) (i : TxNodeIn) : List (BitVec 72) :=
  (AsFifo.ports (BitVec 72) 10).puts s.fifo (s.fifoIn i)

/-- The word that the other node samples. -/
def sends (s : TxNode) (i : TxNodeIn) : List XgmiiWord := if i.xgmiiClk then [s.tx.out] else []

/-! ### What the engine can see -/

/-- The part of the queue that `empty` does not hide. -/
def visible (s : TxNode) (l : List (BitVec 72)) : List (BitVec 72) :=
  if s.fifo.empty then [] else l

variable {s : TxNode} {i : TxNodeIn} {l l' : List (BitVec 72)}

theorem visible_prefix (s : TxNode) (l : List (BitVec 72)) : s.visible l <+: l := by
  unfold visible
  split_ifs
  · exact List.nil_prefix
  · exact List.prefix_rfl

/-- The engine samples the head of what it sees. -/
theorem visible_ports (h : s.fifo.Holds l) :
    (s.visible l).headD s.fifo.dout = s.fifo.dout ∧ (s.visible l).isEmpty = s.fifo.empty := by
  unfold visible
  cases he : s.fifo.empty with
  | true => exact ⟨rfl, rfl⟩
  | false =>
    have hhead := AsFifo.isFifo.head h he
    cases l with
    | nil => cases hhead
    | cons w l => exact ⟨Option.some.inj hhead, rfl⟩

/-- A read takes the head of what the engine sees. -/
theorem gets_visible (h : s.fifo.Holds l) (hx : i.xgmiiClk = true) :
    (AsFifo.ports (BitVec 72) 10).gets s.fifo (s.fifoIn i) ++
      (if s.tx.fifo.rdEn then (s.visible l).tail else s.visible l) = s.visible l := by
  have hgets : (AsFifo.ports (BitVec 72) 10).gets s.fifo (s.fifoIn i) =
      if s.tx.fifo.rdEn && !s.fifo.empty then [s.fifo.dout] else [] := by
    simp [FifoPorts.gets, AsFifo.ports, fifoIn, hx]
  obtain ⟨hhead, hempty⟩ := visible_ports h
  rw [hgets]
  cases hv : s.visible l with
  | nil =>
    rw [hv] at hempty
    simp [← hempty]
  | cons w v =>
    rw [hv] at hhead hempty
    have hw : w = s.fifo.dout := hhead
    cases s.tx.fifo.rdEn <;> simp [← hempty, hw]

/-! ### The run of `Link` -/

/-- The edge has the property for `Link` if as many words arrive as the engine is to see next. -/
def Allows (Q : Link → LinkIn → Prop) (s : TxNode) (i : TxNodeIn) : Prop :=
  i.xgmiiClk = true → ∀ l u more n, s.fifo.Holds l → s.visible l ++ u = l →
    ((s.step i).fifo.empty = false → (u ++ s.takes i).length ≤ n) →
      Q ⟨u ++ (s.takes i ++ more), s.visible l, s.tx⟩ ⟨n, s.fifo.dout, i.addrs⟩

/-- There is a run of `Link` whose last input is open in the words that arrive, if they are at least
`least`; after it `q` is in the FIFO and `rest` is still to come, and neither the engine nor the
wire depends on the words that are taken later. -/
structure Reaches (Q : Link → LinkIn → Prop) (s : TxNode) (x : XgmiiTx) (least : ℕ)
    (q rest ws : List (BitVec 72)) (out : List XgmiiWord) : Prop where
  reach : ∀ n, least ≤ n → (out = [] → n = 0) → ∃ ls, ∀ more,
    Along Link.step Q (Link.fed (ws ++ more) x) ls ∧
    run Link.step (Link.fed (ws ++ more) x) ls =
      ⟨(rest ++ more).drop n, q ++ (rest ++ more).take n, s.tx⟩ ∧
    (Link.fed (ws ++ more) x).wire ls = out

/-- The words taken and sent so far, and where they are. -/
def Follows (Q : Link → LinkIn → Prop) (x : XgmiiTx) (s : TxNode) (ws : List (BitVec 72))
    (out : List XgmiiWord) : Prop :=
  ∃ l q rest least, s.fifo.Holds l ∧ q ++ rest = l ∧ least ≤ rest.length ∧
    q ++ rest.take least <+: s.visible l ∧ (out = [] → s.fifo.empty = true) ∧
      s.Reaches Q x least q rest ws out

variable {Q : Link → LinkIn → Prop} {x : XgmiiTx} {least : ℕ} {ws q rest : List (BitVec 72)}
  {out : List XgmiiWord}

/-- With as many arrivals as the engine sees the two are in the same place. -/
theorem Reaches.ready (h : s.Reaches Q x least q rest ws out) (hl : q ++ rest = l)
    (hleast : least ≤ rest.length) (hq : q ++ rest.take least <+: s.visible l)
    (hempty : out = [] → s.fifo.empty = true) :
    ∃ u ls, s.visible l ++ u = l ∧ ∀ more,
      Along Link.step Q (Link.fed (ws ++ more) x) ls ∧
      run Link.step (Link.fed (ws ++ more) x) ls = ⟨u ++ more, s.visible l, s.tx⟩ ∧
        (Link.fed (ws ++ more) x).wire ls = out := by
  obtain ⟨v, hv⟩ := (List.prefix_append q _).trans hq
  obtain ⟨u, hu⟩ := visible_prefix s l
  have hrest : rest = v ++ u := by
    rw [← hu, ← hv, List.append_assoc] at hl
    exact List.append_cancel_left hl
  have hle : least ≤ v.length := by
    have hlen := hq.length_le
    rw [← hv, List.length_append, List.length_append, List.length_take, min_eq_left hleast] at hlen
    omega
  have hnone : out = [] → v.length = 0 := by
    intro hout
    have hvis : s.visible l = [] := if_pos (hempty hout)
    rw [hvis] at hv
    simp [(List.append_eq_nil_iff.1 hv).2]
  obtain ⟨ls, hls⟩ := h.reach v.length hle hnone
  refine ⟨u, ls, hu, fun more => ?_⟩
  have hboth := hls more
  rw [hrest, List.append_assoc, List.drop_left, List.take_left, hv] at hboth
  exact hboth

theorem follows_start (f : Afifo72) (x : XgmiiTx) : Follows Q x (start f x) [] [] := by
  refine ⟨[], [], [], 0, AsFifo.holds_reset f, rfl, Nat.le_refl 0, List.nil_prefix, fun _ => rfl,
    ⟨fun n _ hn => ?_⟩⟩
  refine ⟨[], fun more => ⟨trivial, ?_, rfl⟩⟩
  rw [hn rfl]
  rfl

/-- An instant without an edge of `xgmii_clk`. -/
theorem Follows.wr (h : Follows Q x s ws out) (hx : i.xgmiiClk = false) :
    Follows Q x (s.step i) (ws ++ s.takes i) (out ++ s.sends i) := by
  obtain ⟨l, q, rest, least, hl, hsplit, hleast, hq, hempty, hreach⟩ := h
  obtain ⟨l', hmove, hl'⟩ := hl.moves (s.fifoIn i)
  have hgets : (AsFifo.ports (BitVec 72) 10).gets s.fifo (s.fifoIn i) = [] := by
    simp [FifoPorts.gets, AsFifo.ports, fifoIn, hx]
  have hmove' : l ++ s.takes i = l' := by
    rw [hgets] at hmove
    exact hmove
  have hsends : s.sends i = [] := if_neg (by simp [hx])
  have htx : (s.step i).tx = s.tx := if_neg (by simp [hx])
  -- a word more does not show before the next edge
  have hflag : (s.step i).fifo.empty = s.fifo.empty := by
    refine (hl.empty_step hl').trans ?_
    have hclk : (s.fifoIn i).rdClk = false := hx
    rw [hclk, ← hmove']
    cases l <;> simp
  have hvis : s.visible l <+: (s.step i).visible l' := by
    rw [visible, visible, hflag, ← hmove']
    split_ifs
    · exact List.prefix_rfl
    · exact List.prefix_append _ _
  rw [hsends, List.append_nil]
  refine ⟨l', q, rest ++ s.takes i, least, hl', ?_, ?_, ?_, ?_, ⟨fun n hn hn0 => ?_⟩⟩
  · rw [← List.append_assoc, hsplit, hmove']
  · rw [List.length_append]
    omega
  · rw [List.take_append_of_le_length hleast]
    exact hq.trans hvis
  · rw [hflag]
    exact hempty
  · obtain ⟨ls, hls⟩ := hreach.reach n hn hn0
    refine ⟨ls, fun more => ?_⟩
    rw [htx, List.append_assoc, List.append_assoc]
    exact hls _

/-- What is held after an edge of `xgmii_clk`: the words that were seen and not popped, then the
others. -/
theorem holds_step (hl : s.fifo.Holds l) (hx : i.xgmiiClk = true) {u : List (BitVec 72)}
    (hu : s.visible l ++ u = l) : (s.step i).fifo.Holds
      ((if s.tx.fifo.rdEn then (s.visible l).tail else s.visible l) ++ (u ++ s.takes i)) := by
  obtain ⟨l', hmove, hl'⟩ := hl.moves (s.fifoIn i)
  have hpop := gets_visible hl hx
  generalize (if s.tx.fifo.rdEn then (s.visible l).tail else s.visible l) = q' at hpop ⊢
  have hcancel : (AsFifo.ports (BitVec 72) 10).gets s.fifo (s.fifoIn i) ++ (q' ++ (u ++ s.takes i)) =
      (AsFifo.ports (BitVec 72) 10).gets s.fifo (s.fifoIn i) ++ l' := by
    rw [← List.append_assoc, hpop, ← List.append_assoc, hu]
    exact hmove
  rw [List.append_cancel_left hcancel]
  exact hl'

/-- Nothing is seen after the edge only when nothing was or nothing is left. -/
theorem popped_of_empty (hl : s.fifo.Holds l) (hx : i.xgmiiClk = true) {u : List (BitVec 72)}
    (hu : s.visible l ++ u = l) (he : (s.step i).fifo.empty = true) :
    (if s.tx.fifo.rdEn then (s.visible l).tail else s.visible l) = [] := by
  have hclk : (s.fifoIn i).rdClk = true := hx
  have hflag := (hl.empty_step (holds_step hl hx hu)).symm.trans he
  rw [hclk, if_pos rfl] at hflag
  cases l with
  | nil =>
    rw [(List.append_eq_nil_iff.1 hu).1]
    simp
  | cons w l => exact And.left (b := u = [] ∧ s.takes i = []) (by simpa using hflag)

/-- **An edge of `xgmii_clk`** is one of `Link`. -/
theorem Follows.rd (h : Follows Q x s ws out) (hx : i.xgmiiClk = true) (hi : Allows Q s i) :
    Follows Q x (s.step i) (ws ++ s.takes i) (out ++ s.sends i) := by
  obtain ⟨l, q, rest, least, hl, hsplit, hleast, hq, hempty, hreach⟩ := h
  obtain ⟨u, ls, hu, hls⟩ := hreach.ready hsplit hleast hq hempty
  have hl' := holds_step hl hx hu
  have hpopped := popped_of_empty hl hx hu
  have hsends : s.sends i = [s.tx.out] := if_pos hx
  have htx : (s.step i).tx = s.tx.step i.addrs s.fifo.dout s.fifo.empty := if_pos hx
  obtain ⟨hhead, hisEmpty⟩ := visible_ports hl
  have hQ := hi hx l u
  rw [hsends]
  generalize hq' : (if s.tx.fifo.rdEn then (s.visible l).tail else s.visible l) = q' at hl' hpopped
  refine ⟨_, q', u ++ s.takes i,
    if (s.step i).fifo.empty then 0 else (u ++ s.takes i).length, hl', rfl, ?_, ?_, by simp,
    ⟨fun n hn _ => ⟨ls ++ [⟨n, s.fifo.dout, i.addrs⟩], fun more => ?_⟩⟩⟩
  · split_ifs <;> omega
  · rw [visible]
    cases he : (s.step i).fifo.empty with
    | true => simp [hpopped he]
    | false =>
      simp only [Bool.false_eq_true, if_false, List.take_length]
      exact List.prefix_rfl
  · obtain ⟨halong, hrun, hwire⟩ := hls (s.takes i ++ more)
    rw [Link.wire] at hwire ⊢
    rw [List.append_assoc, along_concat, run_concat, log_concat, hrun, hwire]
    refine ⟨⟨halong, hQ more n hl hu fun he => ?_⟩, ?_, rfl⟩
    · rwa [he, if_neg Bool.false_ne_true] at hn
    · rw [Link.step, htx, List.append_assoc]
      simp only [hhead, hisEmpty, hq']

theorem follows_step (h : Follows Q x s ws out) (hi : Allows Q s i) :
    Follows Q x (s.step i) (ws ++ s.takes i) (out ++ s.sends i) := by
  cases hx : i.xgmiiClk with
  | true => exact h.rd hx hi
  | false => exact h.wr hx

theorem follows_run (f : Afifo72) (x : XgmiiTx) {is : List TxNodeIn}
    (his : Along step (Allows Q) (start f x) is) :
    Follows Q x (run step (start f x) is) (log step takes (start f x) is)
      (log step sends (start f x) is) :=
  log_induction₂ (J := Follows Q x) (follows_start f x) (fun _ _ _ _ h hi => follows_step h hi) is his

/-- **Every run is one of `Link`**: whatever the two clocks do, there is a run of `Link` with the
words that the FIFO took, in which the engine is in the same state, sends the same, and sees the
same words. -/
theorem tx_linked (f : Afifo72) (x : XgmiiTx) (is : List TxNodeIn) :
    ∃ ls l, (run step (start f x) is).fifo.Holds l ∧
      (run Link.step (Link.fed (log step takes (start f x) is) x) ls).tx =
        (run step (start f x) is).tx ∧
      (Link.fed (log step takes (start f x) is) x).wire ls = log step sends (start f x) is ∧
      (run Link.step (Link.fed (log step takes (start f x) is) x) ls).q =
        (run step (start f x) is).visible l ∧
      (run Link.step (Link.fed (log step takes (start f x) is) x) ls).q ++
        (run Link.step (Link.fed (log step takes (start f x) is) x) ls).todo = l := by
  have htrue : ∀ s i, Allows (fun _ _ => True) s i := fun _ _ _ _ _ _ _ _ _ _ => trivial
  obtain ⟨l, q, rest, least, hl, hsplit, hleast, hq, hempty, hreach⟩ :=
    follows_run f x (along_of_invariant (J := fun _ => True) (fun s i _ => htrue s i)
      (fun _ _ _ => trivial) trivial is)
  obtain ⟨u, ls, hu, hls⟩ := hreach.ready hsplit hleast hq hempty
  obtain ⟨-, hrun, hwire⟩ := hls []
  rw [List.append_nil] at hrun hwire
  refine ⟨ls, l, hl, ?_, hwire, ?_, ?_⟩ <;> rw [hrun]
  rw [List.append_nil, hu]

/-! ### The conditions of the transmitter -/

/-- The engine sees the end of the TLP from the edge that sends the last header word on. -/
def Timely (s : TxNode) (i : TxNodeIn) : Prop :=
  i.xgmiiClk = true → s.tx.tx.state = .header → s.tx.tx.txCounter = 0x30#32 →
    ((s.step i).visible (s.step i).fifo.words).any isLast = true

/-- When `empty` is high while the engine reads for the next TLP, `dout` is no first word. -/
def Clean (s : TxNode) (i : TxNodeIn) : Prop :=
  i.xgmiiClk = true → s.tx.fifo.state = .idle → s.tx.fifo.rdEn = true → s.fifo.empty = true →
    isStart s.fifo.dout = false

instance (s : TxNode) (i : TxNodeIn) : Decidable (s.Timely i) :=
  inferInstanceAs (Decidable (_ → _ → _ → _))

instance (s : TxNode) (i : TxNodeIn) : Decidable (s.Clean i) :=
  inferInstanceAs (Decidable (_ → _ → _ → _ → _))

/-- They are those of `Link`. -/
theorem allows_of_timely (ht : s.Timely i) (hc : s.Clean i) :
    Allows (fun s i => Prompt s i ∧ Blank s i) s i := by
  intro hx l u more n hl hu hn
  refine ⟨fun hst hcount => ?_, fun hst hrd hnil => hc hx hst hrd ?_⟩
  · obtain ⟨w, hw, hlast⟩ := List.any_eq_true.1 (ht hx hst hcount)
    rw [← (holds_step hl hx hu).eq_words, visible] at hw
    cases he : (s.step i).fifo.empty with
    | true =>
      rw [he, if_pos rfl] at hw
      cases hw
    | false =>
      rw [he, if_neg Bool.false_ne_true] at hw
      have htake : (u ++ (s.takes i ++ more)).take n =
          u ++ s.takes i ++ more.take (n - (u ++ s.takes i).length) := by
        rw [← List.append_assoc, List.take_append, List.take_of_length_le (hn he)]
      have hq : (Link.step ⟨u ++ (s.takes i ++ more), s.visible l, s.tx⟩
          ⟨n, s.fifo.dout, i.addrs⟩).q =
          (if s.tx.fifo.rdEn then (s.visible l).tail else s.visible l) ++ (u ++ s.takes i) ++
            more.take (n - (u ++ s.takes i).length) := by
        rw [Link.step, htake]
        exact (List.append_assoc _ _ _).symm
      exact ⟨w, hq ▸ List.mem_append_left _ hw, hlast⟩
  · -- `empty` is high when nothing is held
    have hvis : s.visible l = [] := hnil
    by_contra he
    have hlow : s.fifo.empty = false := by simpa using he
    have hhead := AsFifo.isFifo.head hl hlow
    have hall : s.visible l = l := if_neg he
    rw [← hall, hvis] at hhead
    cases hhead

end TxNode

end IpNuma
