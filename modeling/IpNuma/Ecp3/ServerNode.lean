import IpNuma.Ecp3.MasterFed
import IpNuma.Ecp3.RemoteCommand

/-!
# The server and the master sequencer in one node

The FIFO between the server and `pcie_tlp` has the clock of both, so a word is written to it in each
cycle in which `mst_wr_en` is set.  A server that is reading takes a byte in every cycle, and pushes
the data of a command behind its address in time.
-/

namespace IpNuma

open Clocked PhyFrame

namespace Server

/-- `mst_wr_en` in a cycle. -/
def wrote (s : Server) (_ : PhyOut) : List Bool := [s.mstWrEn]

variable {s : Server} {is : List PhyOut}

theorem length_wrote (s : Server) (is : List PhyOut) :
    (log step wrote s is).length = is.length := by
  induction is generalizing s with
  | nil => rfl
  | cons i is ih =>
    rw [log_cons, List.length_append, ih, List.length_cons, Nat.add_comm]
    rfl

/-- A word is pushed in each cycle with `mst_wr_en`. -/
theorem length_push (s : Server) (is : List PhyOut) :
    (log step push s is).length = (log step wrote s is).count true := by
  induction is generalizing s with
  | nil => rfl
  | cons i is ih =>
    rw [log_cons, log_cons, List.length_append, List.count_append, ih]
    unfold push wrote
    cases s.mstWrEn <;> rfl

/-- The server starts to read, and from then on takes a word in every cycle. -/
theorem reads_from (h : Along step NoUnderflow s is) (hne : log step taken s is ≠ []) :
    ∃ us, is = us ++ (log step taken s is).map deliver ∧ log step taken s us = [] ∧
      (run step s us).phyRdEn = true := by
  induction is generalizing s with
  | nil => exact absurd rfl hne
  | cons i is ih =>
    cases hr : s.phyRdEn with
    | true => exact ⟨[], run_ready hr h, rfl, hr⟩
    | false =>
      have htaken : taken s i = [] := if_neg (by rw [hr]; exact Bool.false_ne_true)
      rw [log_cons, htaken, List.nil_append] at hne ⊢
      obtain ⟨us, his, hus, hready⟩ := ih h.2 hne
      refine ⟨i :: us, congrArg (i :: ·) his, ?_, hready⟩
      rw [log_cons, htaken, hus]
      rfl

/-- The words pushed for the first bytes of a frame. -/
theorem log_first (hidle : s.srvStatus = .idle) (hc : s.counter = 0) (hw : s.mstWrEn = false)
    {us : List PhyOut} (hus : Along step NoUnderflow s us) (hnone : log step taken s us = [])
    (hready : (run step s us).phyRdEn = true) (l : List (BitVec 8)) :
    log step push s (us ++ byteCycles l) = log step push ready (byteCycles l) := by
  obtain ⟨htaken, halong⟩ := taken_deliver hready (l.map byteWord)
  refine log_bytes_of_idle hidle hc hw ((along_append _ _ _ _ _).2 ⟨hus, halong⟩) ?_
  rw [log_append, hnone, List.nil_append]
  exact htaken

end Server

/-- **The FIFO does not run empty** in the data of a command that a server in step with the master
sequencer takes from a frame. -/
theorem node_fed {s : Server} (hidle : s.srvStatus = .idle) (hc : s.counter = 0)
    (hw : s.mstWrEn = false) {outs : List PhyOut} (h : Along Server.step Server.NoUnderflow s outs)
    {l : List (BitVec 8)} (hlen : l.length = 0x2e) (hm : Matches l 0) {addr : BitVec 48}
    {d : BitVec 32} {ws : List (BitVec 9)} (htaken : log Server.step Server.taken s outs =
      (l ++ Server.commandOctets addr d).map Server.byteWord ++ ws)
    {is : List MasterIn} (hclock : log Server.step Server.wrote s outs <+: is.map MasterIn.push)
    (t : PcieTlp) {numwords : ℕ} (hdepth : 8 ≤ numwords) (a : BitVec 48) :
    Along MasterSide.step (fun s _ => s.Fed)
      (MasterSide.start t numwords [writeCommand a d]) is := by
  have hne : log Server.step Server.taken s outs ≠ [] := by
    rw [htaken]
    apply List.ne_nil_of_length_pos
    rw [List.length_append, List.length_map, List.length_append, hlen]
    omega
  obtain ⟨us, hcycles, hnone, hready⟩ := Server.reads_from h hne
  -- the cycles up to the address, those of the data, and the others
  let xs := us ++ Server.byteCycles (l ++ Server.addressOctets addr)
  let ys := Server.byteCycles (Server.dataOctets d)
  have houts : outs = xs ++ ys ++ ws.map Server.deliver := by
    rw [hcycles, htaken, Server.commandOctets_eq, ← List.append_assoc l]
    simp only [xs, ys, Server.byteCycles, List.map_append, List.append_assoc]
  have hall : xs ++ ys =
      us ++ Server.byteCycles (l ++ Server.addressOctets addr ++ Server.dataOctets d) := by
    rw [Server.byteCycles_append (l ++ Server.addressOctets addr), ← List.append_assoc]
  have hus : Along Server.step Server.NoUnderflow s us := by
    rw [hcycles] at h
    exact ((along_append _ _ _ _ _).1 h).1
  have hpush := Server.log_first hidle hc hw hus hnone hready
  obtain ⟨haddr, hdata⟩ := Server.length_log_command hlen hm addr d
  rw [← hpush, Server.length_push] at haddr hdata
  rw [← hall, log_append] at hdata
  obtain ⟨fl, hfl⟩ := hclock
  rw [houts, log_append, log_append, List.append_assoc, List.append_assoc] at hfl
  obtain ⟨is₁, is', rfl, hx, his'⟩ := List.map_eq_append_iff.1 hfl.symm
  obtain ⟨ms, js, rfl, hy, -⟩ := List.map_eq_append_iff.1 his'
  have hwords : (MasterSide.start t numwords [writeCommand a d]).todo = (writeCommand a d).words :=
    List.flatMap_singleton _ _
  have hseven : (writeCommand a d).words.length = 7 := rfl
  have hms : ms.length = 5 := by
    rw [← List.length_map, hy, Server.length_wrote]
    rfl
  rw [← List.append_assoc]
  refine MasterSide.along_fed hdepth ?_ (by omega) ?_
  · rw [MasterSide.todo_run, hwords, hx, haddr, List.length_drop, hseven]
    exact Nat.lt_succ_self 2
  · rw [MasterSide.todo_run, hwords, List.map_append, hx, hy, hdata]
    rfl

end IpNuma
