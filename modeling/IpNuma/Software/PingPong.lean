import IpNuma.Clocked.Relay
import Mathlib.Tactic.Ring

/-!
# The ping-pong program over the shared memory

`software/pingpong/ipnuma_pingpong.c`, the loops of `main`.  Each side polls its own `rdata`, which
the other side overwrites through its mapping of BAR2, and answers with the value read plus one.  A
store is a posted write: it is on the way for any time before it arrives in the memory of the other
side.  Nothing tells a side that its store has arrived or has been read.

* `State.step` is one action: a step of a side up to its next access of `rdata`, or the arrival of
  the oldest store on the way to a side;
* `State.pos` and `Point.next` are the exchange as one sequential game, and `relay` says that every
  interleaving follows it;
* `exchange_run` says what the two sides have stored after any actions, `finishes` that the server
  finishes, and `stuck_of_lost` what one lost store does.
-/

namespace IpNuma.PingPong

open Clocked

/-- Where a side is in its loop. -/
inductive Pc
  | wait
  | test
  | save
  | send
  | poll
  | next
  | done
  deriving DecidableEq, Inhabited

/-- A side: `rdata` is written by the other side. -/
structure Side where
  pc : Pc
  rdata : ℤ
  rdata2 : ℤ
  sdata : ℤ
  deriving DecidableEq, Inhabited

/-- The body that both loops share; `again` is where the loop goes on. -/
def Side.body (again : Pc) (p : Side) : Side :=
  match p.pc with
  | .save => { p with rdata2 := p.rdata, pc := .send }
  | .send => { p with pc := .poll }
  | .poll => if p.rdata = p.rdata2 then p else { p with pc := .next }
  | .next => { p with sdata := p.rdata + 1, pc := again }
  | _ => p

/-- A step of the server. -/
def Side.server (p : Side) : Side :=
  match p.pc with
  | .wait => if p.rdata < 0 then p else { p with pc := .test }
  | .test => if p.rdata < 2000000 then { p with pc := .save } else { p with pc := .done }
  | _ => p.body .test

/-- A step of the client, whose loop has no end. -/
def Side.client (p : Side) : Side := p.body .save

/-- What a step stores in the memory of the other side. -/
def Side.stores (p : Side) : List ℤ := if p.pc = .send then [p.sdata] else []

/-- The two sides and the stores on the way to each, oldest first. -/
structure State where
  server : Side
  client : Side
  toServer : List ℤ
  toClient : List ℤ
  deriving DecidableEq, Inhabited

/-- An action. -/
inductive Action
  | server
  | client
  | toServer
  | toClient
  deriving DecidableEq

/-- One action. -/
def State.step (s : State) : Action → State
  | .server => { s with server := s.server.server, toClient := s.toClient ++ s.server.stores }
  | .client => { s with client := s.client.client, toServer := s.toServer ++ s.client.stores }
  | .toServer =>
    match s.toServer with
    | [] => s
    | v :: vs => { s with server := { s.server with rdata := v }, toServer := vs }
  | .toClient =>
    match s.toClient with
    | [] => s
    | v :: vs => { s with client := { s.client with rdata := v }, toClient := vs }

/-- Before the loops: `rdata` is `-1`, `sdata` is `0`, `rdata2` is not initialised. -/
def start (x y : ℤ) : State := ⟨⟨.wait, -1, x, 0⟩, ⟨.save, -1, y, 0⟩, [], []⟩

/-- What the server stores in an action. -/
def serverStores (s : State) (a : Action) : List ℤ := if a = .server then s.server.stores else []

/-- What the client stores in an action. -/
def clientStores (s : State) (a : Action) : List ℤ := if a = .client then s.client.stores else []

/-! ### The exchange as one sequence -/

/-- The `k`-th value the client stores: `0`, `1`, `3`, `5`, ... -/
def clientValue (k : ℕ) : ℤ := if k = 0 then 0 else 2 * k - 1

/-- The `k`-th value the server stores: `0`, `2`, `4`, ... -/
def serverValue (k : ℕ) : ℤ := 2 * k

/-- What a mailbox holds before the `k`-th value arrives, if it holds `v` at first. -/
def held (v : ℤ) (value : ℕ → ℤ) (k : ℕ) : ℤ := if k = 0 then v else value (k - 1)

@[simp] theorem held_zero (v : ℤ) (value : ℕ → ℤ) : held v value 0 = v := rfl

@[simp] theorem held_succ (v : ℤ) (value : ℕ → ℤ) (k : ℕ) : held v value (k + 1) = value k := rfl

@[simp] theorem clientValue_zero : clientValue 0 = 0 := rfl

@[simp] theorem serverValue_zero : serverValue 0 = 0 := rfl

theorem clientValue_succ (k : ℕ) : clientValue (k + 1) = serverValue k + 1 := by
  simp [clientValue, serverValue]
  omega

theorem serverValue_succ (k : ℕ) : serverValue (k + 1) = clientValue (k + 1) + 1 := by
  simp [clientValue, serverValue]

/-- Each value the client reads differs from the one before. -/
theorem serverValue_ne_held (k : ℕ) : serverValue k ≠ held (-1) serverValue k := by
  cases k with
  | zero => decide
  | succ k =>
    simp only [held_succ, serverValue]
    omega

/-- Each value the server reads differs from the one before. -/
theorem clientValue_ne_succ (k : ℕ) : clientValue (k + 1) ≠ clientValue k := by
  cases k with
  | zero => decide
  | succ k =>
    rw [clientValue, clientValue, if_neg (by omega), if_neg (by omega)]
    omega

/-- The server goes on in the rounds up to `1000000`. -/
theorem clientValue_lt_iff (k : ℕ) : clientValue k < 2000000 ↔ k ≤ 1000000 := by
  unfold clientValue
  split <;> omega

/-- The first store of the client. -/
inductive Opening
  | save
  | send
  | way
  | seen
  deriving DecidableEq

/-- A round: the server answers, then the client. -/
inductive Phase
  | test
  | save
  | send
  | way
  | seen
  | next
  | clientSave
  | clientSend
  | clientWay
  | clientSeen
  | clientNext
  deriving DecidableEq

/-- A point of the exchange. -/
inductive Point
  | opening (p : Opening)
  | round (k : ℕ) (p : Phase)
  | finished (k : ℕ)
  deriving DecidableEq

/-- The next point. -/
def Point.next : Point → Point
  | .opening .save => .opening .send
  | .opening .send => .opening .way
  | .opening .way => .opening .seen
  | .opening .seen => .round 0 .test
  | .round k .test => if clientValue k < 2000000 then .round k .save else .finished k
  | .round k .save => .round k .send
  | .round k .send => .round k .way
  | .round k .way => .round k .seen
  | .round k .seen => .round k .next
  | .round k .next => .round k .clientSave
  | .round k .clientSave => .round k .clientSend
  | .round k .clientSend => .round k .clientWay
  | .round k .clientWay => .round k .clientSeen
  | .round k .clientSeen => .round k .clientNext
  | .round k .clientNext => .round (k + 1) .test
  | .finished k => .finished k

/-- The server when it has the `k`-th value of the client. -/
def serverAt (x : ℤ) (k : ℕ) (pc : Pc) : Side :=
  ⟨pc, clientValue k, held x clientValue k, serverValue k⟩

/-- The server when it waits for the next value of the client. -/
def serverPolls (k : ℕ) : Side := ⟨.poll, clientValue k, clientValue k, serverValue k⟩

/-- The client when it waits for the `k`-th value of the server. -/
def clientPolls (k : ℕ) : Side :=
  ⟨.poll, held (-1) serverValue k, held (-1) serverValue k, clientValue k⟩

/-- The client when it has the `k`-th value of the server. -/
def clientAt (k : ℕ) (pc : Pc) (sdata : ℤ) : Side :=
  ⟨pc, serverValue k, held (-1) serverValue k, sdata⟩

/-- The state at a point. -/
def State.pos (x y : ℤ) : Point → State
  | .opening .save => start x y
  | .opening .send => ⟨⟨.wait, -1, x, 0⟩, ⟨.send, -1, -1, 0⟩, [], []⟩
  | .opening .way => ⟨⟨.wait, -1, x, 0⟩, clientPolls 0, [clientValue 0], []⟩
  | .opening .seen => ⟨serverAt x 0 .wait, clientPolls 0, [], []⟩
  | .round k .test => ⟨serverAt x k .test, clientPolls k, [], []⟩
  | .round k .save => ⟨serverAt x k .save, clientPolls k, [], []⟩
  | .round k .send => ⟨{ serverPolls k with pc := .send }, clientPolls k, [], []⟩
  | .round k .way => ⟨serverPolls k, clientPolls k, [], [serverValue k]⟩
  | .round k .seen => ⟨serverPolls k, clientAt k .poll (clientValue k), [], []⟩
  | .round k .next => ⟨serverPolls k, clientAt k .next (clientValue k), [], []⟩
  | .round k .clientSave => ⟨serverPolls k, clientAt k .save (clientValue (k + 1)), [], []⟩
  | .round k .clientSend => ⟨serverPolls k, { clientPolls (k + 1) with pc := .send }, [], []⟩
  | .round k .clientWay => ⟨serverPolls k, clientPolls (k + 1), [clientValue (k + 1)], []⟩
  | .round k .clientSeen =>
    ⟨{ serverPolls k with rdata := clientValue (k + 1) }, clientPolls (k + 1), [], []⟩
  | .round k .clientNext =>
    ⟨{ serverPolls k with rdata := clientValue (k + 1), pc := .next }, clientPolls (k + 1), [], []⟩
  | .finished k => ⟨serverAt x k .done, clientPolls k, [], []⟩

/-- The action that leads to the next point. -/
def Point.mover : Point → Action
  | .opening .save | .opening .send => .client
  | .opening .way => .toServer
  | .opening .seen => .server
  | .round _ .way => .toClient
  | .round _ .clientWay => .toServer
  | .round _ .test | .round _ .save | .round _ .send => .server
  | .round _ .clientSeen | .round _ .clientNext => .server
  | .round _ _ => .client
  | .finished _ => .toServer

/-- The mover leads to the next point. -/
theorem step_mover (x y : ℤ) (p : Point) :
    (State.pos x y p).step p.mover = State.pos x y p.next := by
  cases p with
  | opening p =>
    cases p <;>
      simp [Point.mover, Point.next, State.pos, start, State.step, Side.client, Side.server,
        Side.body, Side.stores, clientPolls, serverAt]
  | round k p =>
    cases p with
    | test =>
      by_cases hlt : clientValue k < 2000000 <;>
        simp [Point.mover, Point.next, State.pos, State.step, Side.server, Side.stores, serverAt,
          hlt]
    | _ =>
      simp [Point.mover, Point.next, State.pos, State.step, Side.client, Side.server, Side.body,
        Side.stores, clientPolls, clientAt, serverPolls, serverAt, clientValue_ne_succ,
        serverValue_ne_held, ← clientValue_succ, ← serverValue_succ]
  | finished k => simp [Point.mover, Point.next, State.pos, State.step]

/-- Every other action changes nothing. -/
theorem step_of_ne (x y : ℤ) {p : Point} {a : Action} (h : a ≠ p.mover) :
    (State.pos x y p).step a = State.pos x y p := by
  cases p with
  | opening p =>
    cases p <;> cases a <;>
      simp_all [Point.mover, State.pos, start, State.step, Side.client, Side.server, Side.body,
        Side.stores, clientPolls, serverAt]
  | round k p =>
    cases p <;> cases a <;>
      simp_all [Point.mover, State.pos, State.step, Side.client, Side.server, Side.body,
        Side.stores, clientPolls, clientAt, serverPolls, serverAt]
  | finished k =>
    cases a <;>
      simp_all [Point.mover, State.pos, State.step, Side.client, Side.server, Side.body,
        Side.stores, clientPolls, serverAt]

/-- Every interleaving follows the sequence. -/
theorem relay (x y : ℤ) : Relay State.step (State.pos x y) Point.next where
  follows p a := by
    by_cases h : a = p.mover
    · exact .inr (h ▸ step_mover x y p)
    · exact .inl (step_of_ne x y h)
  moves p := ⟨p.mover, step_mover x y p⟩

/-! ### What the sides store -/

/-- The number of values the client has stored at a point. -/
def Point.clientCount : Point → ℕ
  | .opening .save | .opening .send => 0
  | .opening _ => 1
  | .round k .clientWay | .round k .clientSeen | .round k .clientNext => k + 2
  | .round k _ => k + 1
  | .finished k => k + 1

/-- The number of values the server has stored at a point. -/
def Point.serverCount : Point → ℕ
  | .opening _ => 0
  | .round k .test | .round k .save | .round k .send => k
  | .round k _ => k + 1
  | .finished k => k

/-- The points that are reached. -/
def Point.Valid : Point → Prop
  | .opening _ => True
  | .round k .test => k ≤ 1000001
  | .round k _ => k ≤ 1000000
  | .finished k => k = 1000001

theorem Point.Valid.next {p : Point} (h : p.Valid) : p.next.Valid := by
  cases p with
  | opening p => cases p <;> simp [Point.next, Point.Valid]
  | round k p =>
    cases p with
    | test =>
      have hk : k ≤ 1000001 := h
      by_cases hlt : clientValue k < 2000000
      · have hle := (clientValue_lt_iff k).1 hlt
        simp only [Point.next, hlt, if_true, Point.Valid]
        omega
      · have hge : ¬ k ≤ 1000000 := fun hk' => hlt ((clientValue_lt_iff k).2 hk')
        simp only [Point.next, hlt, if_false, Point.Valid]
        omega
    | clientNext => exact Nat.succ_le_succ (show k ≤ 1000000 from h)
    | _ => exact h
  | finished k => exact h

/-- What the mover stores. -/
theorem stores_mover (x y : ℤ) (p : Point) :
    (List.range p.next.clientCount).map clientValue =
        (List.range p.clientCount).map clientValue ++ clientStores (State.pos x y p) p.mover ∧
      (List.range p.next.serverCount).map serverValue =
        (List.range p.serverCount).map serverValue ++ serverStores (State.pos x y p) p.mover := by
  cases p with
  | opening p =>
    cases p <;>
      simp [Point.next, Point.mover, Point.clientCount, Point.serverCount, clientStores,
        serverStores, State.pos, start, Side.stores, serverAt]
  | round k p =>
    cases p with
    | test =>
      by_cases hlt : clientValue k < 2000000 <;>
        simp [Point.next, Point.mover, Point.clientCount, Point.serverCount, clientStores,
          serverStores, State.pos, Side.stores, serverAt, hlt]
    | _ =>
      simp [Point.next, Point.mover, Point.clientCount, Point.serverCount, clientStores,
        serverStores, State.pos, Side.stores, serverAt, serverPolls, clientPolls, clientAt,
        List.range_succ]
  | finished k =>
    simp [Point.next, Point.mover, clientStores, serverStores]

/-- The others store nothing. -/
theorem stores_of_ne (x y : ℤ) {p : Point} {a : Action} (h : a ≠ p.mover) :
    clientStores (State.pos x y p) a = [] ∧ serverStores (State.pos x y p) a = [] := by
  cases p with
  | opening p =>
    cases p <;> cases a <;>
      simp_all [Point.mover, clientStores, serverStores, State.pos, start, Side.stores,
        clientPolls, serverAt]
  | round k p =>
    cases p <;> cases a <;>
      simp_all [Point.mover, clientStores, serverStores, State.pos, Side.stores, clientPolls,
        clientAt, serverPolls, serverAt]
  | finished k =>
    cases a <;>
      simp_all [Point.mover, clientStores, serverStores, State.pos, Side.stores, clientPolls,
        serverAt]

/-- What holds of a state and of what the client and the server have stored. -/
def Reached (x y : ℤ) (s : State) (cs ss : List ℤ) : Prop :=
  ∃ p : Point, p.Valid ∧ s = State.pos x y p ∧ cs = (List.range p.clientCount).map clientValue ∧
    ss = (List.range p.serverCount).map serverValue

theorem reached_step (x y : ℤ) {s : State} {cs ss : List ℤ} (a : Action)
    (h : Reached x y s cs ss) :
    Reached x y (s.step a) (cs ++ clientStores s a) (ss ++ serverStores s a) := by
  obtain ⟨p, hp, rfl, rfl, rfl⟩ := h
  by_cases ha : a = p.mover
  · subst ha
    obtain ⟨hc, hs⟩ := stores_mover x y p
    exact ⟨p.next, hp.next, step_mover x y p, hc.symm, hs.symm⟩
  · obtain ⟨hc, hs⟩ := stores_of_ne x y ha
    exact ⟨p, hp, step_of_ne x y ha, by rw [hc, List.append_nil], by rw [hs, List.append_nil]⟩

theorem reached_run (x y : ℤ) (as : List Action) :
    Reached x y (run State.step (start x y) as) (log State.step clientStores (start x y) as)
      (log State.step serverStores (start x y) as) := by
  refine log_induction₂ (P := fun _ _ => True) ⟨.opening .save, trivial, rfl, rfl, rfl⟩ ?_ as
    (along_true _ as)
  intro s a cs ss h _
  exact reached_step x y a h

/-- A round takes eleven changes. -/
theorem next_round {k : ℕ} (h : k ≤ 1000000) :
    Point.next^[11] (.round k .test) = .round (k + 1) .test := by
  simp [Point.next, (clientValue_lt_iff k).2 h]

theorem next_rounds {k : ℕ} (h : k ≤ 1000001) :
    Point.next^[11 * k] (.round 0 .test) = .round k .test := by
  induction k with
  | zero => rfl
  | succ k ih =>
    rw [show 11 * (k + 1) = 11 + 11 * k by ring, Function.iterate_add_apply, ih (by omega),
      next_round (by omega)]

/-- The number of changes of the whole exchange. -/
def total : ℕ := 1 + (11 * 1000001 + 4)

theorem next_total : Point.next^[total] (.opening .save) = .finished 1000001 := by
  have hopening : Point.next^[4] (.opening .save) = .round 0 .test := rfl
  have hend : ¬ clientValue 1000001 < 2000000 := by
    rw [clientValue_lt_iff]
    omega
  rw [total, Function.iterate_add_apply, Function.iterate_add_apply, hopening,
    next_rounds le_rfl, Function.iterate_one, Point.next, if_neg hend]

theorem next_of_ge {n : ℕ} (h : total ≤ n) :
    Point.next^[n] (.opening .save) = .finished 1000001 := by
  obtain ⟨m, rfl⟩ := Nat.exists_eq_add_of_le' h
  rw [Function.iterate_add_apply, next_total]
  exact Function.iterate_fixed rfl m

/-- **The server finishes.**  In `total` stretches of time in each of which every side takes a step
and every store on the way arrives, the server reaches the end of its loop with `2000001` in
`rdata`, and both sides have stored all their values.  No run has more than `total` actions that
change something. -/
theorem finishes (x y : ℤ) :
    (∀ bs : List (List Action), (∀ b ∈ bs, ∀ a, a ∈ b) → total ≤ bs.length →
      (run State.step (start x y) bs.flatten).server.pc = .done ∧
      (run State.step (start x y) bs.flatten).server.rdata = 2000001 ∧
      log State.step serverStores (start x y) bs.flatten =
        (List.range 1000001).map serverValue ∧
      log State.step clientStores (start x y) bs.flatten =
        (List.range 1000002).map clientValue) ∧
      ∀ as, changes State.step (start x y) as ≤ total := by
  refine ⟨fun bs hbs hlen => ?_, fun as => ?_⟩
  · obtain ⟨n, hn, hrun⟩ := (relay x y).fair hbs (.opening .save)
    rw [next_of_ge (hlen.trans hn)] at hrun
    obtain ⟨p, hp, hs, hcs, hss⟩ := reached_run x y bs.flatten
    have hpc : (State.pos x y p).server.pc = .done := by
      rw [← hs]
      exact congrArg (fun s => s.server.pc) hrun
    obtain ⟨k, rfl⟩ : ∃ k, p = .finished k := by
      cases p with
      | opening p => cases p <;> simp [State.pos, start, serverAt] at hpc
      | round k p => cases p <;> simp [State.pos, serverPolls, serverAt] at hpc
      | finished k => exact ⟨k, rfl⟩
    obtain rfl : k = 1000001 := hp
    exact ⟨hs ▸ rfl, hs ▸ rfl, hss, hcs⟩
  · exact (relay x y).changes_le (k := .opening .save) (by rw [next_total]; rfl) as

theorem finishes_round_robin :
    (run State.step (start 0 0) (List.replicate total
      [.server, .client, .toServer, .toClient]).flatten).server.rdata = 2000001 := by
  refine ((finishes 0 0).1 _ ?_ (by simp)).2.1
  intro b hb a
  rw [List.eq_of_mem_replicate hb]
  cases a <;> decide

/-! ### A lost store -/

/-- The network loses the oldest store on the way to the server. -/
def State.loseToServer (s : State) : State := { s with toServer := s.toServer.tail }

/-- The network loses the oldest store on the way to the client. -/
def State.loseToClient (s : State) : State := { s with toClient := s.toClient.tail }

theorem stays_of_loseToServer (x y : ℤ) (p : Point) (h : (State.pos x y p).toServer ≠ []) :
    (State.pos x y p).loseToServer.server.pc ≠ .done ∧
      ∀ a, (State.pos x y p).loseToServer.step a = (State.pos x y p).loseToServer := by
  cases p with
  | opening p =>
    cases p <;> simp [State.pos, start] at h
    refine ⟨by simp [State.loseToServer, State.pos], fun a => ?_⟩
    cases a <;>
      simp [State.loseToServer, State.pos, State.step, Side.server, Side.client, Side.body,
        Side.stores, clientPolls]
  | round k p =>
    cases p <;> simp [State.pos] at h
    refine ⟨by simp [State.loseToServer, State.pos, serverPolls], fun a => ?_⟩
    cases a <;>
      simp [State.loseToServer, State.pos, State.step, Side.server, Side.client, Side.body,
        Side.stores, clientPolls, serverPolls]
  | finished k => simp [State.pos] at h

theorem stays_of_loseToClient (x y : ℤ) (p : Point) (h : (State.pos x y p).toClient ≠ []) :
    (State.pos x y p).loseToClient.server.pc ≠ .done ∧
      ∀ a, (State.pos x y p).loseToClient.step a = (State.pos x y p).loseToClient := by
  cases p with
  | opening p => cases p <;> simp [State.pos, start] at h
  | round k p =>
    cases p <;> simp [State.pos] at h
    refine ⟨by simp [State.loseToClient, State.pos, serverPolls], fun a => ?_⟩
    cases a <;>
      simp [State.loseToClient, State.pos, State.step, Side.server, Side.client, Side.body,
        Side.stores, clientPolls, serverPolls]
  | finished k => simp [State.pos] at h

/-- **A lost store stops the exchange.**  When a store on the way is lost, at any point of any run,
no action changes anything any more: both sides poll forever, and the server does not finish. -/
theorem stuck_of_lost (x y : ℤ) (as bs : List Action) :
    ((run State.step (start x y) as).toServer ≠ [] →
      run State.step (run State.step (start x y) as).loseToServer bs =
          (run State.step (start x y) as).loseToServer ∧
        (run State.step (start x y) as).loseToServer.server.pc ≠ .done) ∧
      ((run State.step (start x y) as).toClient ≠ [] →
        run State.step (run State.step (start x y) as).loseToClient bs =
            (run State.step (start x y) as).loseToClient ∧
          (run State.step (start x y) as).loseToClient.server.pc ≠ .done) := by
  obtain ⟨p, -, hs, -, -⟩ := reached_run x y as
  rw [hs]
  refine ⟨fun h => ?_, fun h => ?_⟩
  · obtain ⟨hpc, hstays⟩ := stays_of_loseToServer x y p h
    exact ⟨run_of_stays hstays bs, hpc⟩
  · obtain ⟨hpc, hstays⟩ := stays_of_loseToClient x y p h
    exact ⟨run_of_stays hstays bs, hpc⟩

theorem stuck_of_first_lost :
    run State.step (run State.step (start 0 0) [.client, .client]).loseToServer
        [.toServer, .server, .client] =
      (run State.step (start 0 0) [.client, .client]).loseToServer ∧
    run State.step (run State.step (start 0 0)
        [.client, .client, .toServer, .server, .server, .server, .server]).loseToClient
        [.toClient, .server, .client] =
      (run State.step (start 0 0)
        [.client, .client, .toServer, .server, .server, .server, .server]).loseToClient :=
  ⟨((stuck_of_lost 0 0 [.client, .client] [.toServer, .server, .client]).1 (by decide)).1,
    ((stuck_of_lost 0 0 [.client, .client, .toServer, .server, .server, .server, .server]
      [.toClient, .server, .client]).2 (by decide)).1⟩

end IpNuma.PingPong
