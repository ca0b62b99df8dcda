import IpNuma.Ecp3.GmiiFrame
import IpNuma.Ecp3.RemoteFrame
import IpNuma.Ecp3.ServerNode

/-!
# A write from node to node

A `RemoteRun` connects the blocks that a remote write passes: the requester of one node and its
`fifo9togmii`, `gmii2fifo9` and the server of the other node, and the master sequencer behind it.
Each block runs on inputs of its own and reads what the block before it has written, in step with it
where both have one clock.

The frame has five bytes for the address in the page table, so bits 47 to 40 of `mem0_paddr` do not
reach the other node: the write goes to the address without them, and to the right one exactly if
they are zero.
-/

namespace IpNuma

open Clocked

/-- The blocks of a remote write, with the inputs each of them samples after its reset. -/
structure RemoteRun where
  cfg : IfConfig
  arrival : Arrival
  requester : Requester
  requesterIns : List RequesterIn
  tx : Fifo9ToGmii
  feeds : List FeedIn
  rx : Gmii2Fifo9
  server : Server
  phyOuts : List PhyOut
  tlp : PcieTlp
  numwords : ℕ
  mstIns : List MasterIn

/-- The words of the write that do not depend on the other node. -/
def writeHeader (addr : BitVec 48) : List (ℕ × BitVec 16) :=
  [(0, 0x6000#16), (1, 0x0001#16), (4, 0), (5, addr.extractLsb' 32 16), (6, addr.extractLsb' 16 16),
    (7, addr.extractLsb' 0 16)]

/-- The packet is a memory write of one DW to an address. -/
structure WritesTo (addr : BitVec 48) (d : BitVec 32) (ws : List TxWord) : Prop where
  length : ws.length = 10
  header : ∀ p ∈ writeHeader addr, ws[p.1]?.map TxWord.txData = some p.2
  data : (ws.map TxWord.txData).drop 8 = [d.extractLsb' 16 16, d.extractLsb' 0 16]

/-- A known word of the header is in the write. -/
theorem Command.Carried.header_word {c : Command} {ws : List TxWord} (h : c.Carried ws) {j : ℕ}
    {w : BitVec 16} (hj : j < 8) (hw : c.head j = some w) :
    ws[j]?.map TxWord.txData = some w := by
  have hlt : j < ws.length := by
    rw [h.length]
    omega
  rw [List.getElem?_eq_getElem hlt]
  exact congrArg some (h.head j w _ hw (List.getElem?_eq_getElem hlt))

/-- The write for a command goes to the address of the command if that is aligned. -/
theorem Command.Carried.writesTo {addr : BitVec 48} {d : BitVec 32} {ws : List TxWord}
    (h : (writeCommand addr d).Carried ws) (halign : addr.extractLsb' 0 2 = 0) :
    WritesTo addr d ws := by
  have hlen : 0#6 ++ BitVec.ofNat 10 1 = 1#16 := by decide
  have hlow : (addr.extractLsb' 0 16).extractLsb' 2 14 ++ 0b00#2 = addr.extractLsb' 0 16 := by
    have htail : (addr.extractLsb' 0 16).extractLsb' 0 2 = 0b00#2 :=
      (BitVec.extractLsb'_extractLsb'_of_le (by decide)).trans halign
    rw [← htail]
    exact BitVec.extractLsb'_append_extractLsb' (w := 14)
  refine ⟨h.length, ?_, h.data⟩
  simp only [writeHeader, List.forall_mem_cons, List.not_mem_nil, false_imp_iff, implies_true,
    and_true]
  exact ⟨h.header_word (by decide) rfl, h.header_word (by decide) (congrArg some hlen),
    h.header_word (by decide) rfl, h.header_word (by decide) rfl, h.header_word (by decide) rfl,
    h.header_word (by decide) (congrArg some hlow)⟩

/-- The write of a word to the lower forty bits of an address goes to the address if the others are
zero. -/
theorem writesTo_iff {addr : BitVec 48} {d : BitVec 32} {ws : List TxWord}
    (h : (writeCommand (0#8 ++ addr.extractLsb' 0 40) d).Carried ws)
    (halign : addr.extractLsb' 0 2 = 0) : WritesTo addr d ws ↔ addr.extractLsb' 40 8 = 0 := by
  constructor
  · intro hto
    have hword : ws[5]?.map TxWord.txData = some (addr.extractLsb' 32 16) :=
      hto.header (5, addr.extractLsb' 32 16) (by simp [writeHeader])
    have hhigh : (0#8 ++ addr.extractLsb' 0 40 : BitVec 48).extractLsb' 32 16 =
        addr.extractLsb' 32 16 :=
      Option.some.inj ((h.header_word (j := 5) (by decide) rfl).symm.trans hword)
    have hocts : octet (0#8 ++ addr.extractLsb' 0 40 : BitVec 48) 5 ++ octet _ 4 =
        octet addr 5 ++ octet addr 4 :=
      (octet_append_octet _ 4).trans (hhigh.trans (octet_append_octet addr 4).symm)
    have htop := congrArg (BitVec.extractLsb' 8 8) hocts
    rw [extractLsb'_append_high _ _ _ _ (Nat.le_refl 8), BitVec.extractLsb'_eq_self,
      extractLsb'_append_high _ _ _ _ (Nat.le_refl 8), BitVec.extractLsb'_eq_self] at htop
    exact htop.symm.trans (octet_append_high 0#8 5 (addr.extractLsb' 0 40) 0)
  · intro htop
    have haddr : (0#8 ++ addr.extractLsb' 0 40 : BitVec 48) = addr := by
      have hsplit : addr.extractLsb' 40 8 ++ addr.extractLsb' 0 40 = addr :=
        BitVec.extractLsb'_append_extractLsb' (w := 8)
      rwa [htop] at hsplit
    rw [haddr] at h
    exact h.writesTo halign

namespace RemoteRun

variable (r : RemoteRun)

/-- The data of the write to the trigger offset. -/
def word : BitVec 32 := r.arrival.req.firstDw

def host : ReqHost := ReqHost.start r.requester [r.arrival]

/-- The words the requester writes to the FIFO of the PHY. -/
def pushed : List (BitVec 9) := log ReqHost.step ReqHost.push r.host r.requesterIns

def feed : GmiiFeed := GmiiFeed.start r.tx r.pushed

/-- The bytes on the link. -/
def beats : List GmiiBeat := log GmiiFeed.step GmiiFeed.beat r.feed r.feeds

/-- The words that are received; the gap is that of the instance in `ipnuma.v`. -/
def received : List (BitVec 9) :=
  log (Gmii2Fifo9.step 8#4) (Gmii2Fifo9.push 8#4) r.rx.reset r.beats

/-- The words the server writes to the master FIFO. -/
def commands : List (BitVec 18) := log Server.step Server.push r.server.reset r.phyOuts

def master : MasterSide := ⟨r.tlp.reset, r.numwords, [], r.commands⟩

/-- The memory writes on the wire. -/
def writes : List (List TxWord) := (r.master.sent r.mstIns).filter MasterSide.isWrite

/-- The write triggers a frame, which is sent, received and parsed, and no FIFO of the PHY runs
empty while it is read. -/
structure Delivered : Prop where
  triggers : r.arrival.req.Triggers
  cfg : ∀ i ∈ r.requesterIns, i.cfg = r.cfg
  arrived : (run ReqHost.step r.host r.requesterIns).todo = []
  pushed : (run ReqHost.step r.host r.requesterIns).req.phy.status = .idle
  feed : Along GmiiFeed.step GmiiFeed.NoUnderflow r.feed r.feeds
  sent : (run GmiiFeed.step r.feed r.feeds).side.tx.state = .idle
  read : (run GmiiFeed.step r.feed r.feeds).queue = []
  serve : Along Server.step Server.NoUnderflow r.server.reset r.phyOuts
  parsed : log Server.step Server.taken r.server.reset r.phyOuts = r.received

/-- The master FIFO is written in the cycles in which the server pushes, and has room for a
command. -/
structure Passed : Prop extends r.Delivered where
  clocked : log Server.step Server.wrote r.server.reset r.phyOuts <+: r.mstIns.map MasterIn.push
  depth : 8 ≤ r.numwords

/-- All words of the command have been read, and the master sequencer is idle. -/
def Drained : Prop :=
  (run MasterSide.step r.master r.mstIns).tlp.mst.mstStatus = .idle ∧
    (run MasterSide.step r.master r.mstIns).queue = []

/-- No packet is received, and once the command is in the master FIFO `tx_rdy` is there for a
while. -/
def Patient : Prop :=
  (∀ i ∈ r.mstIns, i.pcie.rx.rxSt = false) ∧
    ∃ is js, r.mstIns = is ++ js ∧ (run MasterSide.step r.master is).todo = [] ∧
      (∀ i ∈ js, i.pcie.txRdy = true) ∧ 144 ≤ js.length

/-! ### The bytes of the frame -/

/-- The bytes up to the magic code. -/
def headerOctets (c : IfConfig) (d : BitVec 32) : List (BitVec 8) := (frameOctets60 c d).take 0x2e

/-- A frame is a header, a command and padding. -/
theorem frameOctets60_eq (c : IfConfig) (d : BitVec 32) : frameOctets60 c d =
    headerOctets c d ++ (Server.commandOctets c.mem0Paddr d ++ [0x00#8, 0x00#8]) := by
  conv_lhs => rw [← List.take_append_drop 0x2e (frameOctets60 c d)]
  rfl

theorem length_headerOctets (c : IfConfig) (d : BitVec 32) : (headerOctets c d).length = 0x2e := rfl

theorem matches_headerOctets (c : IfConfig) (d : BitVec 32) :
    PhyFrame.Matches (headerOctets c d) 0 := by
  intro p hp
  simp only [PhyFrame.signature, List.mem_cons, List.not_mem_nil, or_false] at hp
  rcases hp with rfl | rfl | rfl | rfl | rfl | rfl | rfl | rfl | rfl <;> rfl

/-! ### Block by block -/

variable {r}

theorem pushed_eq (h : r.Delivered) : r.pushed =
    (frameOctets60 r.cfg r.word).map Server.byteWord ++ GmiiFeed.gaps 9 :=
  ReqHost.pushed_single r.requester h.triggers r.cfg h.cfg h.arrived h.pushed

/-- The frame is received with its check sequence, and with words of gap behind it. -/
theorem received_eq (h : r.Delivered) : ∃ f : PhyFrame, r.received = f.words ∧
    ∃ fs, fs.length = 4 ∧ f.bytes = frameOctets60 r.cfg r.word ++ fs := by
  have hstart : r.feed = GmiiFeed.start r.tx
      ((frameOctets60 r.cfg r.word).map Server.byteWord ++ GmiiFeed.gaps 9) := by
    unfold feed
    rw [pushed_eq h]
  have hlen : (frameOctets60 r.cfg r.word).length = 60 := rfl
  have hfeed := h.feed
  have hsent := h.sent
  have hread := h.read
  rw [hstart] at hfeed hsent hread
  obtain ⟨fs, n, hfs, hn, hcarries⟩ :=
    GmiiFeed.wire_sent r.tx (by omega) (by decide) hfeed hsent hread
  rw [← hstart] at hcarries
  have hne : frameOctets60 r.cfg r.word ++ fs ≠ [] := by
    apply List.ne_nil_of_length_pos
    rw [List.length_append]
    omega
  have hgap : List.replicate (min (8#4).toNat n) 0x00#8 ≠ [] := by
    apply List.ne_nil_of_length_pos
    rw [List.length_replicate]
    change 0 < min 8 n
    omega
  refine ⟨⟨_, _, hgap⟩, (Gmii2Fifo9.log_received hne hcarries r.rx).trans ?_, fs, hfs, rfl⟩
  rw [PhyFrame.words, List.map_replicate]
  rfl

/-- The command the server makes of the frame. -/
theorem commands_eq (h : r.Delivered) : r.commands =
    (writeCommand (0#8 ++ r.cfg.mem0Paddr.extractLsb' 0 40) r.word).words := by
  obtain ⟨f, hf, fs, hfs, hbytes⟩ := received_eq h
  have halone : r.commands = Server.alone f.bytes :=
    Server.log_of_idle rfl rfl rfl h.serve (h.parsed.trans hf)
  rw [halone, hbytes, frameOctets60_eq, List.append_assoc, List.append_assoc]
  refine Server.alone_command (length_headerOctets _ _) (matches_headerOctets _ _) _ _ ?_
  rw [List.length_append, hfs]
  decide

theorem master_eq (h : r.Delivered) : r.master = MasterSide.start r.tlp r.numwords
    [writeCommand (0#8 ++ r.cfg.mem0Paddr.extractLsb' 0 40) r.word] := by
  unfold master MasterSide.start
  rw [commands_eq h, List.flatMap_singleton]

/-! ### The write -/

theorem along_room (h : r.Passed) : Along MasterSide.step MasterSide.Room r.master r.mstIns := by
  refine MasterSide.along_room ?_ _
  rw [master_eq h.toDelivered]
  exact h.depth

/-- The master FIFO does not run empty either. -/
theorem along_fed (h : r.Passed) :
    Along MasterSide.step (fun s _ => s.Fed) r.master r.mstIns := by
  obtain ⟨f, hf, fs, -, hbytes⟩ := received_eq h.toDelivered
  have htaken : log Server.step Server.taken r.server.reset r.phyOuts =
      (headerOctets r.cfg r.word ++ Server.commandOctets r.cfg.mem0Paddr r.word).map
          Server.byteWord ++
        (([0x00#8, 0x00#8] ++ fs).map Server.byteWord ++ f.gap.map Server.gapWord) := by
    rw [h.parsed, hf, PhyFrame.words, hbytes, frameOctets60_eq]
    simp only [List.map_append, List.append_assoc]
  rw [master_eq h.toDelivered]
  exact node_fed rfl rfl rfl h.serve (length_headerOctets _ _) (matches_headerOctets _ _) htaken
    h.clocked _ h.depth _

/-- Once the command is drained its write has been sent, and before that at most this one. -/
theorem drained_carried (h : r.Passed) : r.writes.length ≤ 1 ∧
    (r.Drained → ∃ ws, r.writes = [ws] ∧
      (writeCommand (0#8 ++ r.cfg.mem0Paddr.extractLsb' 0 40) r.word).Carried ws) := by
  have halong := (along_fed h).and _ _ (along_room h)
  unfold Drained writes
  rw [master_eq h.toDelivered] at halong ⊢
  obtain ⟨φ, done, rest, hall, hframed, hplace, hdone⟩ := MasterSide.sending_run halong
  have hqueue := MasterSide.queue_of_idle hframed hplace
  have hcarried : List.Forall₂ Command.Carried done ((MasterSide.sent _ _).filter _) := hdone
  have hlen := congrArg List.length hall
  rw [List.length_append, List.length_singleton] at hlen
  refine ⟨by rw [← hcarried.length_eq]; omega, fun ⟨hidle, hempty⟩ => ?_⟩
  have hrest : rest = [] := by
    cases rest with
    | nil => rfl
    | cons c cs =>
      have hnil := (hqueue hidle).symm.trans hempty
      rw [MasterSide.wordsOf_cons] at hnil
      cases hnil
  rw [hrest, List.append_nil] at hall
  rw [← hall] at hcarried
  obtain ⟨ws, wss, hws, hwss, hcons⟩ := List.forall₂_cons_left_iff.1 hcarried
  rw [List.forall₂_nil_left_iff.1 hwss] at hcons
  exact ⟨ws, hcons, hws⟩

theorem drained_of_patient (h : r.Passed) (hp : r.Patient) : r.Drained := by
  obtain ⟨hrx, is, js, hmst, htodo, hrdy, hlong⟩ := hp
  have halong := (along_fed h).and _ _ ((along_room h).and _ _ (along_of_forall _ hrx))
  unfold Drained
  rw [hmst] at halong ⊢
  rw [master_eq h.toDelivered] at halong htodo ⊢
  refine (MasterSide.all_sent (m := 1) ?_ halong htodo hrdy ?_).2
  · exact List.forall_mem_singleton.2 (Nat.le_refl 1)
  · exact hlong

/-- **A remote write** makes the other node write once, and to the address in the page table if and
only if that has forty bits. -/
theorem writes_once_iff (r : RemoteRun) (h : r.Passed)
    (halign : r.cfg.mem0Paddr.extractLsb' 0 2 = 0) :
    r.writes.length ≤ 1 ∧ (r.Patient → r.Drained) ∧
      (r.Drained → ((∃ ws, r.writes = [ws] ∧ WritesTo r.cfg.mem0Paddr r.word ws) ↔
        r.cfg.mem0Paddr.extractLsb' 40 8 = 0)) := by
  obtain ⟨hle, hcarried⟩ := drained_carried h
  refine ⟨hle, drained_of_patient h, fun hdrained => ?_⟩
  obtain ⟨ws, hws, hc⟩ := hcarried hdrained
  rw [← writesTo_iff hc halign, hws]
  constructor
  · rintro ⟨ws', hws', hto⟩
    cases hws'
    exact hto
  · exact fun hto => ⟨ws, rfl, hto⟩

/-- The registers of the interface after reset, but for the page table. -/
def ifConfig (addr : BitVec 48) : IfConfig :=
  ⟨0x0a0015c7#32, 0x003776000001#48, 0x0a0015ff#32, 0xffffffffffff#48, addr⟩

/-- A write of `0x11223344` with `addr` in the page table, up to the link. -/
def linkRun (addr : BitVec 48) : RemoteRun where
  cfg := ifConfig addr
  arrival := HostSide.after 0 (ReqHost.triggerWrite false 0x1122#16 0x3344#16)
  requester := default
  requesterIns := List.replicate 90 ⟨default, ifConfig addr⟩
  tx := default
  feeds := ⟨69, 0⟩ :: List.replicate 89 ⟨0, 0⟩
  rx := default
  server := default
  phyOuts := []
  tlp := default
  numwords := 1024
  mstIns := []

/-- The same write, received in consecutive cycles and written to the master FIFO; then `tx_rdy` is
there for a while. -/
def nodeRun (addr : BitVec 48) : RemoteRun :=
  let outs := (0#9 :: (linkRun addr).received).map Server.deliver
  { linkRun addr with
    phyOuts := outs
    mstIns :=
      (log Server.step Server.wrote (Server.reset default) outs).map (MasterSide.cycle true) ++
        List.replicate 144 (MasterSide.cycle true false) }

/-- From reset the first word is only looked at, and the words behind it are taken. -/
theorem taken_reset (s : Server) (ws : List (BitVec 9)) :
    Along Server.step Server.NoUnderflow s.reset ((0#9 :: ws).map Server.deliver) ∧
      log Server.step Server.taken s.reset ((0#9 :: ws).map Server.deliver) = ws := by
  have hdeliver := Server.taken_deliver (s := Server.step s.reset (Server.deliver 0)) rfl ws
  exact ⟨⟨fun _ => rfl, hdeliver.2⟩, hdeliver.1⟩

theorem map_push (rdy : Bool) (ps : List Bool) :
    (ps.map (MasterSide.cycle rdy)).map MasterIn.push = ps := by
  rw [List.map_map]
  exact List.map_id ps

/-- What is to be computed of the run for an address. -/
theorem nodeRun_passed (addr : BitVec 48)
    (harrived : (run ReqHost.step (linkRun addr).host (linkRun addr).requesterIns).todo = [] ∧
      (run ReqHost.step (linkRun addr).host (linkRun addr).requesterIns).req.phy.status = .idle)
    (hsent : Along GmiiFeed.step GmiiFeed.NoUnderflow (linkRun addr).feed (linkRun addr).feeds ∧
      (run GmiiFeed.step (linkRun addr).feed (linkRun addr).feeds).side.tx.state = .idle ∧
      (run GmiiFeed.step (linkRun addr).feed (linkRun addr).feeds).queue = []) :
    (nodeRun addr).Passed where
  triggers := ReqHost.triggerWrite_triggers _ _ _
  cfg := fun i hi => by rw [List.eq_of_mem_replicate hi]; rfl
  arrived := harrived.1
  pushed := harrived.2
  feed := hsent.1
  sent := hsent.2.1
  read := hsent.2.2
  serve := (taken_reset default (linkRun addr).received).1
  parsed := (taken_reset default (linkRun addr).received).2
  clocked := by
    have hpush := map_push true (log Server.step Server.wrote (Server.reset default)
      ((0#9 :: (linkRun addr).received).map Server.deliver))
    change _ <+: List.map MasterIn.push (_ ++ _)
    rw [List.map_append, hpush]
    exact List.prefix_append _ _
  depth := (by decide : 8 ≤ 1024)

theorem nodeRun_low : (nodeRun 0xd0000000#48).Passed :=
  nodeRun_passed _ (by decide +kernel) (by decide +kernel)

theorem nodeRun_high : (nodeRun 0x0100d0000000#48).Passed :=
  nodeRun_passed _ (by decide +kernel) (by decide +kernel)

/-- All words the server pushes are written. -/
theorem nodeRun_patient (addr : BitVec 48) : (nodeRun addr).Patient := by
  refine ⟨fun i hi => ?_, _, _, rfl, ?_, fun i hi => ?_, ?_⟩
  · rcases List.mem_append.1 hi with hi | hi
    · obtain ⟨p, -, rfl⟩ := List.mem_map.1 hi
      rfl
    · rw [List.eq_of_mem_replicate hi]
      rfl
  · rw [MasterSide.todo_run, map_push, ← Server.length_push]
    exact List.drop_length
  · rw [List.eq_of_mem_replicate hi]
    rfl
  · exact (List.length_replicate).ge

theorem nodeRun_low_written : ∃ ws, (nodeRun 0xd0000000#48).writes = [ws] ∧
    WritesTo 0xd0000000#48 0x11223344#32 ws := by
  obtain ⟨-, hdrained, hiff⟩ := writes_once_iff (nodeRun 0xd0000000#48) nodeRun_low (by decide)
  exact (hiff (hdrained (nodeRun_patient _))).2 (by decide)

/-- An address in the second terabyte: the write goes to the first one. -/
theorem nodeRun_high_lost : (nodeRun 0x0100d0000000#48).Passed ∧
    (nodeRun 0x0100d0000000#48).Patient ∧ (nodeRun 0x0100d0000000#48).Drained ∧
    ∃ ws, (nodeRun 0x0100d0000000#48).writes = [ws] ∧ WritesTo 0xd0000000#48 0x11223344#32 ws ∧
      ¬ WritesTo 0x0100d0000000#48 0x11223344#32 ws := by
  have hpatient := nodeRun_patient 0x0100d0000000#48
  have hdrained := drained_of_patient nodeRun_high hpatient
  obtain ⟨ws, hws, hcarried⟩ := (drained_carried nodeRun_high).2 hdrained
  refine ⟨nodeRun_high, hpatient, hdrained, ws, hws, hcarried.writesTo (by decide), ?_⟩
  exact fun hto => absurd ((writesTo_iff hcarried (by decide)).1 hto) (by decide)

end RemoteRun

end IpNuma
