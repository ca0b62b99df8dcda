import IpNuma.Ecp3.CommandList

/-!
# The server over a stream of frames

Frames for the server come among frames for others.  A frame of at most 4096 bytes leaves the server
in `SRV_IDLE` if it has another header, or if it carries commands of up to 32 words with a zero byte
behind them (`idle_alone`).  So the frames of a stream do not disturb each other, and what is pushed
from reset on, at any pace, are the words of all commands in order (`stream_pushed`).
-/

namespace IpNuma

open Clocked PhyFrame Server

/-- A frame that carries commands, or one with another header. -/
inductive StreamFrame
  | commands (f : CommandFrame)
  | other (f : PhyFrame)

namespace StreamFrame

/-- The frame in the receive FIFO. -/
def frame : StreamFrame → PhyFrame
  | commands f => f.frame
  | other f => f

/-- The words of its commands. -/
def expected : StreamFrame → List (BitVec 18)
  | commands f => f.expected
  | other _ => []

/-- The commands are of up to 32 words, and the others do not match. -/
def Plain : StreamFrame → Prop
  | commands f => ∀ c ∈ f.commands, c.len.toNat ≤ 32
  | other f => ¬ Matches f.bytes 0

end StreamFrame

namespace Server

variable {s : Server}

/-- The counter does not come round in a frame of this length. -/
theorem not_reopens {l : List (BitVec 8)} {n : ℕ} (hl : l.length ≤ 4096) (hn : 0x2e ≤ n) :
    ¬ Reopens l n := by
  rintro ⟨q, hle, -, hlt, -⟩
  omega

/-- Nothing has been pushed for a frame with another header, and the server is in `SRV_IDLE`. -/
theorem idle_of_quiet {l : List (BitVec 8)} {q : ℕ} (h : Quiet l q s) (hl : l.length ≤ 4096)
    (hm : ¬ Matches l 0) : s.srvStatus = .idle := by
  have hlen := h.length
  rcases h.place with ⟨hst, -⟩ | ⟨-, hc, hmatch⟩ | ⟨-, hc, hmatch, -⟩
  · exact hst
  · obtain rfl : q = 0 := by omega
    exact absurd hmatch hm
  · obtain rfl : q = 0 := by omega
    exact absurd hmatch hm

/-- The bytes that a command takes are no header. -/
theorem not_matches_blank {n : ℕ} (hn : 0x2e ≤ n) (l : List (BitVec 8)) :
    ¬ Matches (blank n ++ l) 0 := by
  intro hm
  refine blank_not_matches n 0 fun p hp => ?_
  have hlt := lt_of_signature hp
  have hget := hm p hp
  rwa [List.getElem?_append_left (by rw [blank, List.length_map, List.length_range]; omega)] at hget

/-- **After a frame of its own** the server is in `SRV_IDLE`, and has pushed the words of the
commands. -/
theorem alone_commands (f : CommandFrame) (hlen : f.frame.bytes.length ≤ 4096)
    (hcs : ∀ c ∈ f.commands, c.len.toNat ≤ 32) :
    alone f.frame.bytes = f.expected ∧
      (run step ready (byteCycles f.frame.bytes)).srvStatus = .idle := by
  obtain ⟨-, hw⟩ := waiting_of_matches f.length_header f.matches_header
  obtain ⟨-, hw'⟩ := commands_run f.commands hcs hw
  have hsize : (f.header ++ f.payload).length =
      0x2e + (f.commands.flatMap fun c => c.octets).length + 1 := by
    rw [List.length_append, CommandFrame.payload, List.length_append, f.length_header]
    rfl
  have hbytes : f.frame.bytes = f.header ++ ((f.commands.flatMap fun c => c.octets) ++
      0x00#8 :: f.tail) := by
    simp [CommandFrame.frame, CommandFrame.payload]
  have hreopen := not_reopens hlen (n := (f.header ++ f.payload).length) (by omega)
  refine ⟨f.alone_iff.2 ⟨hcs, hreopen⟩, ?_⟩
  -- the zero byte ends the commands, and the bytes behind it do not open another
  obtain ⟨-, hr, hst, hwr, hc, hs⟩ := end_run hw'
  have hquiet := quiet_blank hr hst hwr (hsize ▸ hc) hs
  rw [hbytes, byteCycles_append, byteCycles_append, run_append, run_append, byteCycles_cons,
    run_cons]
  rcases (hquiet.bytes f.tail).2 with ⟨-, q, hq⟩ | ⟨-, hopen⟩
  · refine idle_of_quiet hq ?_ (not_matches_blank (by omega) _)
    rw [blank, List.length_append, List.length_map, List.length_range]
    rwa [CommandFrame.frame, List.length_append] at hlen
  · rw [hsize, ← hsize, opensAt_blank_iff] at hopen
    exact absurd hopen hreopen

/-- **After a frame for others** the server is in `SRV_IDLE`, and has pushed nothing. -/
theorem alone_other {l : List (BitVec 8)} (hlen : l.length ≤ 4096) (hm : ¬ Matches l 0) :
    alone l = [] ∧ (run step ready (byteCycles l)).srvStatus = .idle := by
  have hopen : ∀ q, ¬ OpensAt l (4096 * q) := by
    rintro q ⟨hmatch, hlt, -⟩
    obtain rfl : q = 0 := by omega
    exact hm hmatch
  refine ⟨alone_eq_nil_iff.2 hopen, ?_⟩
  rcases (quiet_or_opens l).2 with ⟨-, q, hq⟩ | ⟨-, q, hq⟩
  · exact idle_of_quiet hq hlen hm
  · exact absurd hq (hopen q)

theorem alone_plain {f : StreamFrame} (hlen : f.frame.bytes.length ≤ 4096) (hf : f.Plain) :
    alone f.frame.bytes = f.expected ∧
      (run step ready (byteCycles f.frame.bytes)).srvStatus = .idle := by
  cases f with
  | commands f => exact alone_commands f hlen hf
  | other f => exact alone_other hlen hf

/-- The server between two frames. -/
structure Between (s : Server) : Prop where
  reading : s.phyRdEn = true
  status : s.srvStatus = .idle
  counter : s.counter = 0
  wrEn : s.mstWrEn = false

/-- The gap leaves the state as it is. -/
theorem between_gap (hr : s.phyRdEn = true) (hst : s.srvStatus = .idle) {g : List (BitVec 8)}
    (hg : g ≠ []) : Between (run step s ((g.map gapWord).map deliver)) := by
  induction g generalizing s with
  | nil => exact absurd rfl hg
  | cons b g ih =>
    have hstep : step s (deliver (gapWord b)) = next (cleared s) 0 b := step_gap hr
    rw [List.map_cons, List.map_cons, run_cons, hstep]
    by_cases hnil : g = []
    · subst hnil
      exact ⟨rfl, hst, rfl, rfl⟩
    · exact ih rfl hst hnil

/-- **One frame of the stream.** -/
theorem frame_run (h : Between s) {f : StreamFrame} (hlen : f.frame.bytes.length ≤ 4096)
    (hf : f.Plain) :
    log step push s (f.frame.words.map deliver) = f.expected ∧
      Between (run step s (f.frame.words.map deliver)) := by
  obtain ⟨htaken, halong⟩ := taken_deliver h.reading f.frame.words
  obtain ⟨halone, hidle⟩ := alone_plain hlen hf
  have hs : { s with phyRdEn := true, phyDout2 := s.phyDout2 } = s := by
    rw [← h.reading]
  have hagree : Agree s ready := hs ▸ agree_ready h.status h.counter h.wrEn s.phyDout2
  have hafter := (hagree.bytes f.frame.bytes).2
  refine ⟨(log_of_idle h.status h.counter h.wrEn halong htaken).trans halone, ?_⟩
  rw [PhyFrame.words, List.map_append, run_append]
  exact between_gap hafter.reading.1 (hafter.status.symm.trans hidle) f.frame.gap_ne

/-- The frames of a stream, one after the other. -/
theorem frames_run (h : Between s) {fs : List StreamFrame}
    (hlen : ∀ f ∈ fs, f.frame.bytes.length ≤ 4096) (hfs : ∀ f ∈ fs, f.Plain) :
    log step push s ((fs.flatMap fun f => f.frame.words).map deliver) =
      fs.flatMap StreamFrame.expected := by
  induction fs generalizing s with
  | nil => rfl
  | cons f fs ih =>
    rw [List.forall_mem_cons] at hlen hfs
    obtain ⟨hlog, hbetween⟩ := frame_run h hlen.1 hfs.1
    rw [List.flatMap_cons, List.flatMap_cons, List.map_append, log_append, hlog,
      ih hbetween hlen.2 hfs.2]

/-- The stream, given to a server that has been reset. -/
theorem stream_run {s₀ : Server} {fs : List StreamFrame}
    (hlen : ∀ f ∈ fs, f.frame.bytes.length ≤ 4096) (hfs : ∀ f ∈ fs, f.Plain) {is : List PhyOut}
    (h : Along step NoUnderflow (reset s₀) is)
    (htaken : log step taken (reset s₀) is = fs.flatMap fun f => f.frame.words) :
    log step push (reset s₀) is = fs.flatMap StreamFrame.expected := by
  obtain ⟨d, hd⟩ := log_push_eq (s := reset s₀) rfl h
  rw [hd, htaken]
  exact frames_run ⟨rfl, rfl, rfl, rfl⟩ hlen hfs

/-- At any time the words of a beginning have been pushed. -/
theorem stream_begun {s₀ : Server} {fs : List StreamFrame}
    (hlen : ∀ f ∈ fs, f.frame.bytes.length ≤ 4096) (hfs : ∀ f ∈ fs, f.Plain) {is : List PhyOut}
    (h : Along step NoUnderflow (reset s₀) is)
    (htaken : log step taken (reset s₀) is <+: fs.flatMap fun f => f.frame.words) :
    log step push (reset s₀) is <+: fs.flatMap StreamFrame.expected := by
  -- the words that are still to come are delivered after the run
  obtain ⟨ws, hws⟩ := htaken
  obtain ⟨js, hjs, htaken'⟩ := exists_delivery (run step (reset s₀) is) ws
  have hall := stream_run hlen hfs ((along_append _ _ _ _ _).2 ⟨h, hjs⟩) (by
    rw [log_append, htaken', hws])
  rw [log_append] at hall
  exact ⟨_, hall⟩

/-- **The stream.**  From reset, whatever the pace at which the words of the frames come, as long as
the FIFO is not empty when it is read, the server has pushed at any time a beginning of the words of
all commands in order, nothing for the frames with another header, and at the end all of them. -/
theorem stream_pushed {s₀ : Server} {fs : List StreamFrame}
    (hlen : ∀ f ∈ fs, f.frame.bytes.length ≤ 4096) (hfs : ∀ f ∈ fs, f.Plain) {is : List PhyOut}
    (h : Along step NoUnderflow (reset s₀) is)
    (htaken : log step taken (reset s₀) is <+: fs.flatMap fun f => f.frame.words) :
    log step push (reset s₀) is <+: fs.flatMap StreamFrame.expected ∧
      ((log step taken (reset s₀) is = fs.flatMap fun f => f.frame.words) →
        log step push (reset s₀) is = fs.flatMap StreamFrame.expected) :=
  ⟨stream_begun hlen hfs h htaken, stream_run hlen hfs h⟩

theorem stream_pushed_two : log step push (reset default)
    (deliver 0 :: ((frameOf [shortCommand]).frame.words ++ broadcast.words ++
      (frameOf [wideCommand]).frame.words).map deliver) =
      (shortCommand.words ++ wideCommand.words : List (BitVec 18)) := by
  obtain ⟨htaken, halong⟩ := taken_deliver (s := step (reset default) (deliver 0)) rfl
    ((frameOf [shortCommand]).frame.words ++ broadcast.words ++ (frameOf [wideCommand]).frame.words)
  have h : Along step NoUnderflow (reset default) (deliver 0 :: ((frameOf [shortCommand]).frame.words
      ++ broadcast.words ++ (frameOf [wideCommand]).frame.words).map deliver) :=
    ⟨fun _ => rfl, halong⟩
  exact (@stream_pushed _
    [.commands (frameOf [shortCommand]), .other broadcast, .commands (frameOf [wideCommand])]
    (by decide) (by simp [StreamFrame.Plain]; decide) _ h
    ⟨[], (List.append_nil _).trans htaken⟩).2 htaken

end Server

end IpNuma
