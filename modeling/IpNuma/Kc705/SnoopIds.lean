import IpNuma.Kc705.RxSnoop

/-!
# The requester ID between two nodes

A request leaves a node with the top four bits of its requester ID inverted, and the completion
that answers it has them inverted again on its way back.  The two rewritings are in different
beats and at different bits: `[63:48]` of the first beat of a request, `[31:16]` of the second
beat of a completion.

* `invertId` is the rewriting of the ID alone, an involution;
* `idleData_request` and `header1Data_completion` say that the snoop does this to the ID of a
  request and of a completion, and nothing else to the beat;
* `requesterId_round_trip` puts them together.
-/

namespace IpNuma

open Clocked

/-- The rewriting of a requester ID. -/
def invertId (r : BitVec 16) : BitVec 16 := ~~~(r.extractLsb' 12 4) ++ r.extractLsb' 0 12

/-- The requester ID in the first beat of a request. -/
def requestId (d : BitVec 64) : BitVec 16 := d.extractLsb' 48 16

/-- The tag in the first beat of a request. -/
def requestTag (d : BitVec 64) : BitVec 8 := d.extractLsb' 40 8

/-- The first beat of a request with another requester ID. -/
def withRequestId (r : BitVec 16) (d : BitVec 64) : BitVec 64 := r ++ d.extractLsb' 0 48

/-- The requester ID in the second beat of a completion. -/
def cplId (d : BitVec 64) : BitVec 16 := d.extractLsb' 16 16

/-- The tag in the second beat of a completion. -/
def cplTag (d : BitVec 64) : BitVec 8 := d.extractLsb' 8 8

/-- The second beat of a completion with another requester ID. -/
def withCplId (r : BitVec 16) (d : BitVec 64) : BitVec 64 :=
  d.extractLsb' 32 32 ++ r ++ d.extractLsb' 0 16

/-! ### The fields -/

theorem invertId_invertId (r : BitVec 16) : invertId (invertId r) = r := by
  apply BitVec.eq_of_getLsbD_eq
  intro k hk
  simp only [invertId, BitVec.getLsbD_append, BitVec.getLsbD_extractLsb', BitVec.getLsbD_not]
  by_cases h : k < 12
  · simp [h]
  · simp [h, show k - 12 < 4 by omega, show 12 + (k - 12) = k by omega]

theorem requestId_withRequestId (r : BitVec 16) (d : BitVec 64) :
    requestId (withRequestId r d) = r := BitVec.extractLsb'_append_eq_left

theorem requestTag_withRequestId (r : BitVec 16) (d : BitVec 64) :
    requestTag (withRequestId r d) = requestTag d := by
  rw [requestTag, withRequestId, BitVec.extractLsb'_append_eq_of_add_le (by decide)]
  exact BitVec.extractLsb'_extractLsb'_of_le (by decide)

theorem cplId_withCplId (r : BitVec 16) (d : BitVec 64) : cplId (withCplId r d) = r := by
  rw [cplId, withCplId, BitVec.extractLsb'_append_eq_of_le (by decide)]
  exact BitVec.extractLsb'_append_eq_right

theorem cplTag_withCplId (r : BitVec 16) (d : BitVec 64) :
    cplTag (withCplId r d) = cplTag d := by
  rw [cplTag, withCplId, BitVec.extractLsb'_append_eq_of_add_le (by decide)]
  exact BitVec.extractLsb'_extractLsb'_of_le (by decide)

/-- The first beat of a request: only the ID changes. -/
theorem RxBeat.idleData_request {b : RxBeat} (h : b.isCompletion = false) :
    b.idleData = withRequestId (invertId (requestId b.tdata)) b.tdata := by
  rw [RxBeat.idleData, h, if_neg Bool.false_ne_true]
  apply BitVec.eq_of_getLsbD_eq
  intro k hk
  simp only [withRequestId, invertId, requestId, BitVec.getLsbD_append, BitVec.getLsbD_extractLsb',
    BitVec.getLsbD_not]
  -- the bits below the ID, its low twelve bits, its top four
  by_cases h1 : k < 48
  · simp [h1, show k < 60 by omega]
  · by_cases h2 : k < 60
    · simp [h1, h2, show k - 48 < 12 by omega, show 48 + (k - 48) = k by omega,
        show k - 48 < 16 by omega]
    · simp [h1, h2, show ¬ k - 48 < 12 by omega, show k - 48 - 12 = k - 60 by omega,
        show k - 60 < 4 by omega, show 48 + (12 + (k - 60)) = k by omega,
        show 12 + (k - 60) < 16 by omega, show 60 + (k - 60) = k by omega]

/-- The second beat of a completion: only the ID changes. -/
theorem RxBeat.header1Data_completion {b f : RxBeat} (h : f.isCompletion = true)
    (mem0Paddr : BitVec 36) :
    b.header1Data f.fmt f.type f.isCompletion mem0Paddr =
      withCplId (invertId (cplId b.tdata)) b.tdata := by
  have ht : f.type = 0b01010#5 := eq_of_beq h
  rw [RxBeat.header1Data, h, ht, if_neg (by decide), if_pos rfl]
  apply BitVec.eq_of_getLsbD_eq
  intro k hk
  simp only [withCplId, invertId, cplId, BitVec.getLsbD_append, BitVec.getLsbD_extractLsb',
    BitVec.getLsbD_not]
  by_cases h1 : k < 16
  · simp [h1, show k < 28 by omega]
  · by_cases h2 : k < 28
    · simp [h1, h2, show k - 16 < 12 by omega, show k - 16 < 16 by omega,
        show 16 + (k - 16) = k by omega]
    · by_cases h3 : k < 32
      · simp [h1, h2, show k - 28 < 4 by omega, show ¬ k - 16 < 12 by omega,
          show k - 16 < 16 by omega, show k - 16 - 12 = k - 28 by omega,
          show 16 + (12 + (k - 28)) = k by omega, show 12 + (k - 28) < 16 by omega,
          show 28 + (k - 28) = k by omega]
      · simp [h1, h2, show ¬ k - 28 < 4 by omega, show ¬ k - 16 < 16 by omega,
          show k - 28 - 4 = k - 32 by omega, show k - 16 - 16 = k - 32 by omega]

/-! ### Two nodes -/

/-- The first two cycles of a TLP. -/
theorem Presents.two {is : List SnoopIn} {t : RxTlp} (h : Presents is t) :
    ∃ i j js, is = i :: j :: js ∧ i.beat = t.first ∧ j.beat = t.second ∧
      js.map SnoopIn.beat = t.rest.tail ∧ ∀ k ∈ i :: j :: js, k.tvalid = true := by
  obtain ⟨hb, hv⟩ := h
  obtain ⟨i, l, rfl, hi, hl⟩ := List.map_eq_cons_iff.1 hb
  have hrest : t.rest = t.second :: t.rest.tail := by
    unfold RxTlp.rest RxTlp.second
    cases t.mid <;> rfl
  rw [hrest] at hl
  obtain ⟨j, js, rfl, hj, hjs⟩ := List.map_eq_cons_iff.1 hl
  exact ⟨i, j, js, rfl, hi, hj, hjs, hv⟩

/-- The beats behind the second, as they are. -/
def RxTlp.tailWords (t : RxTlp) : List (BitVec 72) := t.rest.tail.map fun b => b.word true b.tdata

theorem tailWords_eq {js : List SnoopIn} {t : RxTlp} (h : js.map SnoopIn.beat = t.rest.tail)
    (hv : ∀ k ∈ js, k.tvalid = true) :
    (js.map fun k => k.beat.word k.tvalid k.beat.tdata) = t.tailWords := by
  rw [RxTlp.tailWords, ← h, List.map_map]
  exact List.map_congr_left fun k hk => by rw [hv k hk]; rfl

/-- A request that hits BAR2 is forwarded with another ID in its first beat. -/
theorem Snoop.log_request {s : Snoop} (hs : s.state = .idle) {t : RxTlp} {is : List SnoopIn}
    (hp : Presents is t) (hbar : t.first.tuser.getLsbD 4 = true)
    (hreq : t.first.isCompletion = false) :
    ∃ ws, log step push s is =
      t.first.word true (withRequestId (invertId (requestId t.first.tdata)) t.first.tdata) :: ws := by
  obtain ⟨hlog, -⟩ := run_tlp hs hp (by simp [RxBeat.selected, hbar])
  obtain ⟨i, j, js, rfl, hi, -, -, hv⟩ := hp.two
  rw [List.forall_mem_cons] at hv
  exact ⟨_, by rw [hlog, rewritten, hv.1, hi, RxBeat.idleData_request hreq]⟩

/-- A completion is forwarded with another ID in its second beat. -/
theorem Snoop.log_completion {s : Snoop} (hs : s.state = .idle) {t : RxTlp} {is : List SnoopIn}
    (hp : Presents is t) (hcpl : t.first.isCompletion = true) :
    log step push s is = t.first.word true t.first.tdata ::
      t.second.word true (withCplId (invertId (cplId t.second.tdata)) t.second.tdata) ::
      t.tailWords := by
  obtain ⟨hlog, -⟩ := run_tlp hs hp (by simp [RxBeat.selected, hcpl])
  obtain ⟨i, j, js, rfl, hi, hj, hjs, hv⟩ := hp.two
  simp only [List.forall_mem_cons] at hv
  rw [hlog, rewritten, hv.1, hv.2.1, hi, hj, RxBeat.header1Data_completion hcpl,
    RxBeat.idleData, if_pos hcpl, tailWords_eq hjs hv.2.2]

/-- **The requester ID comes back.**  Node A forwards a request with the data `d` in its first beat,
which differs from the original in the ID alone.  Node B forwards a completion that has the ID and
the tag of `d` with the data `e` in its second beat, which has the ID and the tag of the original
request and differs from the second beat of the completion in the ID alone; all else is unchanged.
-/
theorem requesterId_round_trip {a b : Snoop} (ha : a.state = .idle) (hb : b.state = .idle)
    {q c : RxTlp} {qs cs : List SnoopIn} (hq : Presents qs q) (hc : Presents cs c)
    (hbar : q.first.tuser.getLsbD 4 = true) (hreq : q.first.isCompletion = false)
    (hcpl : c.first.isCompletion = true) :
    ∃ d ws, log Snoop.step Snoop.push a qs = q.first.word true d :: ws ∧
      d = withRequestId (requestId d) q.first.tdata ∧
      (cplId c.second.tdata = requestId d → cplTag c.second.tdata = requestTag d →
        ∃ e, log Snoop.step Snoop.push b cs =
            c.first.word true c.first.tdata :: c.second.word true e :: c.tailWords ∧
          e = withCplId (cplId e) c.second.tdata ∧
          cplId e = requestId q.first.tdata ∧ cplTag e = requestTag q.first.tdata) := by
  obtain ⟨ws, hws⟩ := Snoop.log_request ha hq hbar hreq
  refine ⟨_, ws, hws, by rw [requestId_withRequestId], fun hid htag => ?_⟩
  rw [requestId_withRequestId] at hid
  rw [requestTag_withRequestId] at htag
  refine ⟨_, Snoop.log_completion hb hc hcpl, by rw [cplId_withCplId], ?_, ?_⟩
  · rw [cplId_withCplId, hid, invertId_invertId]
  · rw [cplTag_withCplId, htag]

/-- A memory read of one word from requester `1234` that hits BAR2. -/
def readRequest : RxTlp :=
  .ofWords 0x1234010F00000001#64 [] 0x00000000FD6C0100#64 0x0f#8 0x10#22

/-- The completion with data that answers it, for requester `E234`. -/
def readCompletion : RxTlp :=
  .ofWords 0x020000044A000001#64 [] 0xAABBCCDDE2340100#64 0xff#8 0#22

theorem requesterId_round_trip_read :
    (log Snoop.step Snoop.push default (readRequest.backToBack 0)).map payload =
        [0xE234010F00000001#64, 0x0000000000000100#64] ∧
      (log Snoop.step Snoop.push default (readCompletion.backToBack 0)).map payload =
        [0x020000044A000001#64, 0xAABBCCDD12340100#64] := by
  obtain ⟨d, ws, hlog, -, hcpl⟩ := requesterId_round_trip (a := default) (b := default) rfl rfl
    (readRequest.presents_backToBack 0) (readCompletion.presents_backToBack 0) rfl rfl rfl
  have hreq : (log Snoop.step Snoop.push default (readRequest.backToBack 0)).map payload =
      [0xE234010F00000001#64, 0x0000000000000100#64] := by decide
  have hd : d = 0xE234010F00000001#64 := by
    rw [hlog, List.map_cons, payload_word] at hreq
    exact (List.cons.inj hreq).1
  obtain ⟨e, h, he, hid, -⟩ := hcpl (by rw [hd]; decide) (by rw [hd]; decide)
  rw [hid] at he
  exact ⟨hreq, by rw [h, he]; decide⟩

end IpNuma
