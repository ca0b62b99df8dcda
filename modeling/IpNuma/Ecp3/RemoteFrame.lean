import IpNuma.Ecp3.RequesterWrites

/-!
# The words for a single write

From reset, a requester that receives one write to the trigger offset, with any quiet cycles around
it, pushes sixty octets and nine words of gap, and nothing else (`pushed_single`).  The octets are
those of `frameOctets`, for registers of the interface that do not change meanwhile.
-/

namespace IpNuma

open Clocked

/-- The octets of the frame for a write of `d`. -/
def frameOctets60 (c : IfConfig) (d : BitVec 32) : List (BitVec 8) :=
  (List.range 60).map (ReqPhy.txByte c (ReqPhy.foldSum (ReqPhy.headerSum c)) d)

namespace ReqHost

/-- The samples are those of the frame for the write. -/
structure FrameFor (c : IfConfig) (r : MemReq) (cs : List ReqSample) : Prop where
  length : cs.length = 60
  cfg : ∀ x ∈ cs, x.1 = c
  data : Faithful r cs

/-- The first octet has no data in it. -/
theorem txByte_zero (c : IfConfig) (x : BitVec 24) (d d' : BitVec 32) :
    ReqPhy.txByte c x d 0 = ReqPhy.txByte c x d' 0 := rfl

theorem FrameFor.words {c : IfConfig} {r : MemReq} {cs : List ReqSample} (h : FrameFor c r cs) :
    sentBytes cs = (frameOctets60 c r.firstDw).map Server.byteWord := by
  obtain ⟨hlen, hcfg, hdata⟩ := h
  have hsum : checksumOf cs = ReqPhy.foldSum (ReqPhy.headerSum c) := by
    obtain ⟨x, xs, rfl⟩ := List.exists_cons_of_length_eq_add_one hlen
    exact congrArg (fun c => ReqPhy.foldSum (ReqPhy.headerSum c)) (hcfg x List.mem_cons_self)
  rw [sentBytes, frameOctets60, hsum, List.map_map]
  refine List.ext_getElem (by simp [hlen]) fun n hn hn' => ?_
  rw [List.length_mapIdx] at hn
  rw [List.getElem_mapIdx, List.getElem_map, List.getElem_range, hcfg _ (List.getElem_mem hn)]
  refine congrArg Server.byteWord ?_
  cases n with
  | zero => exact txByte_zero _ _ _ _
  | succ n => rw [hdata (n + 1) _ (List.getElem?_eq_getElem hn) (Nat.succ_pos n)]

/-- The words pushed so far, in each phase of the sender. -/
def Written (c : IfConfig) (r : MemReq) (ws : List (BitVec 9)) : ReqPhase → Prop
  | .idle => ws = [] ∨ phyFrames ws ≠ [] ∧
      ∃ cs, FrameFor c r cs ∧ ws = sentBytes cs ++ List.replicate 9 (Server.gapWord 0)
  | .send cs => (∀ x ∈ cs, x.1 = c) ∧ ws = sentBytes cs
  | .fin cs => (∀ x ∈ cs, x.1 = c) ∧ ws = sentBytes cs
  | .gap k => phyFrames ws ≠ [] ∧
      ∃ cs, FrameFor c r cs ∧ ws = sentBytes cs ++ List.replicate (9 - k) (Server.gapWord 0)

/-- The requester before, in and behind the frame of its only write. -/
structure Single (c : IfConfig) (r : MemReq) (ph : ReqPhase) (s : ReqHost) (ws : List (BitVec 9)) :
    Prop where
  serving : Serving [r] ph s ws
  written : Written c r ws ph
  /-- Before the frame the parser has not finished with a write. -/
  early : ph = .idle → ws = [] → s.req.tlp.status ≠ .fin

variable {c : IfConfig} {r : MemReq} {ph : ReqPhase} {s : ReqHost} {i : RequesterIn}
  {ws : List (BitVec 9)} {rs : List MemReq} {cur : Option MemReq}

/-- In a write no word starts another one. -/
theorem selects_of_drop {k : ℕ} {vs : List RxWord} (h : s.todo = r.words.drop k ++ vs) (h1 : 1 ≤ k)
    (hk : k < r.words.length) : ReqTlp.selects (s.rxWord i) = false := by
  have hmem : s.rxWord i ∈ r.words.drop k := by
    rw [rxWord, h, List.drop_eq_getElem_cons hk]
    exact List.mem_cons_self
  rw [ReqTlp.selects, quiet_of_drop h1 _ hmem, Bool.and_false, Bool.false_and]

/-- The first word of a write comes only while one is still to come, and finds the parser outside of
the words of a write. -/
theorem place_selects (h : s.Place rs cur) (hr : ∀ r ∈ rs, r.Triggers)
    (hcur : ∀ r ∈ cur, r.Triggers) (hsel : ReqTlp.selects (s.rxWord i) = true) :
    (s.req.tlp.status = .idle ∨ s.req.tlp.status = .fin) ∧ rs ≠ [] := by
  cases h with
  | @rest rs ws hst hws htodo =>
    refine ⟨hst, ?_⟩
    rintro rfl
    have htodo' : s.todo = ws := htodo
    have hquiet : (s.rxWord i).rxSt = false := by
      rw [rxWord, htodo']
      cases ws with
      | nil => rfl
      | cons w ws => exact hws w List.mem_cons_self
    rw [ReqTlp.selects, hquiet, Bool.and_false, Bool.false_and] at hsel
    cases hsel
  | @head r k as h1 hk hp htodo =>
    have hlen := headLen_lt (hr r List.mem_cons_self)
    exact absurd (hsel.symm.trans (selects_of_drop htodo h1 (by omega))) (by decide)
  | @half r as hp htodo =>
    have hlen := headLen_lt (hcur r rfl)
    exact absurd (hsel.symm.trans (selects_of_drop htodo (by omega) (by omega))) (by decide)

/-- The data of a write come only while it is still to start its frame. -/
theorem place_data0 (h : s.Place rs cur) (hst : s.req.tlp.status = .data0) : rs ≠ [] := by
  cases h with
  | rest hst' => rcases hst' with h | h <;> rw [h] at hst <;> cases hst
  | head => exact List.cons_ne_nil _ _
  | half hp =>
    have hst' := hp.status.trans (ReqTlp.statusAt_headLen _).2
    rw [hst'] at hst
    cases hst

/-- Only a write whose data are half taken is finished. -/
theorem place_data1 (h : s.Place rs none) (hr : ∀ r ∈ rs, r.Triggers) :
    s.req.tlp.status ≠ .data1 := by
  cases h with
  | rest hst => rcases hst with hst | hst <;> rw [hst] <;> decide
  | @head r k as h1 hk hp =>
    rw [hp.status]
    rcases Nat.lt_or_eq_of_le hk with hlt | rfl
    · exact (ReqTlp.statusAt_ne h1 hlt).2
    · rw [(ReqTlp.statusAt_headLen r).1]
      decide

theorem fin_of_step {t : ReqTlp} {w : RxWord} (h : (t.step w).status = .fin) :
    t.status = .data1 := by
  unfold ReqTlp.step at h
  cases hst : t.status with
  | data1 => rfl
  | _ =>
    rw [hst] at h
    simp only at h
    first
    | cases h
    | split_ifs at h <;> simp_all

/-- Where the parser is, and that the write is still to come only before the frame. -/
theorem Single.place (h : Single c r ph s ws) : ∃ rest cur, s.Place rest cur ∧
    (∀ r ∈ rest, r.Triggers) ∧ (∀ r ∈ cur, r.Triggers) ∧ (rest ≠ [] → ph = .idle ∧ ws = []) ∧
      (ph = .idle → cur = none) := by
  obtain ⟨⟨htrig, -, -, sent, pend, rest, cur, hall, hplace, howes, hframes⟩, hwritten, -⟩ := h
  have hpend : ∀ x ∈ pend, x.Triggers := fun x hx =>
    htrig x (by rw [hall]; exact List.mem_append_right _ (List.mem_append_left _ hx))
  have hrest : ∀ x ∈ rest, x.Triggers := fun x hx =>
    htrig x (by rw [hall]; exact List.mem_append_right _ (List.mem_append_right _ hx))
  refine ⟨rest, cur, hplace, hrest, howes.triggers hpend, fun hne => ?_, ?_⟩
  · have hlen := congrArg List.length hall
    have hpos := List.length_pos_iff.2 hne
    simp only [List.length_append, List.length_singleton] at hlen
    obtain rfl : sent = [] := List.eq_nil_of_length_eq_zero (by omega)
    obtain rfl : pend = [] := List.eq_nil_of_length_eq_zero (by omega)
    have hnone : phyFrames ws = [] := List.forall₂_nil_left_iff.1 hframes
    cases ph with
    | idle => exact ⟨rfl, hwritten.resolve_right fun h => h.1 hnone⟩
    | gap k => exact absurd hnone hwritten.1
    | send cs =>
      obtain ⟨x, hx, -⟩ := howes
      cases hx
    | fin cs =>
      obtain ⟨x, hx, -⟩ := howes
      cases hx
  · rintro rfl
    exact howes.2

/-- A single write is never missed. -/
theorem Single.calm (h : Single c r ph s ws) : s.Calm i := by
  obtain ⟨rest, cur, hplace, hrest, hcur, hwait, -⟩ := h.place
  refine ⟨fun hsel => ?_, fun hst => ?_⟩
  · obtain ⟨hst, hne⟩ := place_selects hplace hrest hcur hsel
    obtain ⟨hph, hws⟩ := hwait hne
    exact hst.resolve_right (h.early hph hws)
  · obtain ⟨rfl, -⟩ := hwait (place_data0 hplace hst)
    exact h.serving.at_phase

/-- What an edge adds to the words. -/
theorem written_step (h : Single c r ph s ws) (hi : i.cfg = c) :
    Written c r (ws ++ s.push i) (ph.next s.req.tlp i.cfg) := by
  have hpart : phyScan ws = ⟨ph.part, (phyScan ws).done⟩ := by rw [← h.serving.part]
  have hscan := phyFrames_push (i := i) h.serving.at_phase hpart
  have hdone : phyFrames (ws ++ s.push i) = phyFrames ws ++ ph.closes := by
    rw [phyFrames, hscan]
    rfl
  have hpush : s.push i = ph.emits s.req.tlp i.cfg := push_eq (s.reqIn i) h.serving.at_phase
  have hwritten := h.written
  cases ph with
  | idle =>
    obtain ⟨rest, cur, hplace, -, -, hwait, -⟩ := h.place
    rw [hpush, ReqPhase.emits, List.append_nil, ReqPhase.next]
    split_ifs with hst
    · obtain ⟨-, hws⟩ := hwait (place_data0 hplace hst)
      exact ⟨fun x hx => absurd hx List.not_mem_nil, hws⟩
    · exact hwritten
  | send cs =>
    obtain ⟨hcfg, hws⟩ := hwritten
    have hcfg' : ∀ x ∈ cs ++ [(i.cfg, s.req.tlp.data)], x.1 = c :=
      List.forall_mem_append.2 ⟨hcfg, List.forall_mem_singleton.2 hi⟩
    have hws' : ws ++ s.push i = sentBytes (cs ++ [(i.cfg, s.req.tlp.data)]) := by
      rw [hpush, ReqPhase.emits, sentBytes_concat, hws]
    rw [ReqPhase.next]
    split_ifs
    · exact ⟨hcfg', hws'⟩
    · exact ⟨hcfg', hws'⟩
  | fin cs =>
    obtain ⟨hcfg, hws⟩ := hwritten
    have hlen : cs.length = 60 := h.serving.at_phase.2.2
    obtain ⟨sent, pend, rest, cur, hall, -, ⟨x, hx, hdata, -⟩, -⟩ := h.serving.writes
    have hr : x = r := by
      have hmem : x ∈ [r] := by
        rw [hall, hx]
        exact List.mem_append_right _ List.mem_cons_self
      exact List.mem_singleton.1 hmem
    rw [hr] at hdata
    refine ⟨?_, cs, ⟨hlen, hcfg, hdata⟩, ?_⟩
    · rw [hdone]
      exact List.append_ne_nil_of_right_ne_nil _ (List.cons_ne_nil _ _)
    · rw [hpush, hws]
      rfl
  | gap k =>
    obtain ⟨hne, cs, hcs, hws⟩ := hwritten
    have hk : k ≤ 8 := h.serving.at_phase.2.2.1
    rw [ReqPhase.closes_gap, List.append_nil] at hdone
    cases k with
    | zero =>
      refine .inr ⟨by rw [hdone]; exact hne, cs, hcs, ?_⟩
      rw [hpush, ReqPhase.emits, List.append_nil, hws]
    | succ k =>
      refine ⟨by rw [hdone]; exact hne, cs, hcs, ?_⟩
      rw [hpush, ReqPhase.emits, hws, List.append_assoc, ← List.replicate_succ']
      rw [show 9 - (k + 1) + 1 = 9 - k by omega]

/-- **One edge.** -/
theorem single_step (h : Single c r ph s ws) (hi : i.cfg = c) :
    Single c r (ph.next s.req.tlp i.cfg) (s.step i) (ws ++ s.push i) := by
  refine ⟨serving_step h.serving h.calm, written_step h hi, fun hph hws hfin => ?_⟩
  obtain ⟨rest, cur, hplace, hrest, -, -, hnone⟩ := h.place
  have hdata1 : s.req.tlp.status = .data1 := fin_of_step hfin
  cases ph with
  | idle =>
    rw [hnone rfl] at hplace
    exact place_data1 hplace hrest hdata1
  | send cs =>
    rw [ReqPhase.next] at hph
    split_ifs at hph
  | fin cs => cases hph
  | gap k =>
    obtain ⟨-, cs, hcs, hwords⟩ := h.written
    have hlen := congrArg List.length (List.append_eq_nil_iff.1 hws).1
    rw [hwords, hcs.words, List.length_append, List.length_map, List.length_nil, frameOctets60,
      List.length_map, List.length_range] at hlen
    omega

/-- **A single write** gets a frame, and nothing else is pushed. -/
theorem pushed_single (t : Requester) {a : Arrival} (ha : a.req.Triggers) (c : IfConfig)
    {is : List RequesterIn} (hc : ∀ i ∈ is, i.cfg = c)
    (htodo : (run step (start t [a]) is).todo = [])
    (hidle : (run step (start t [a]) is).req.phy.status = .idle) :
    log step push (start t [a]) is =
      (frameOctets60 c a.req.firstDw).map Server.byteWord ++
        List.replicate 9 (Server.gapWord 0) := by
  have hw : ∀ r ∈ [a].map Arrival.req, r.Triggers := List.forall_mem_singleton.2 ha
  have hsingle : ∃ ph, Single c a.req ph (run step (start t [a]) is)
      (log step push (start t [a]) is) :=
    log_induction (J := fun s ws => ∃ ph, Single c a.req ph s ws) (P := fun _ i => i.cfg = c)
      ⟨.idle, serving_start t hw, .inl rfl, fun _ _ => (by decide : ReqTlpState.idle ≠ .fin)⟩
      (fun _ _ _ ⟨_, hph⟩ hi => ⟨_, single_step hph hi⟩) is (along_of_forall _ hc)
  revert hsingle htodo hidle
  generalize run step (start t [a]) is = s
  generalize log step push (start t [a]) is = ws
  rintro htodo hidle ⟨ph, h⟩
  have hat := h.serving.at_phase
  cases ph with
  | idle =>
    rcases h.written with rfl | ⟨-, cs, hcs, rfl⟩
    · -- without a frame the write would still be to come
      obtain ⟨sent, pend, rest, cur, hall, hplace, ⟨rfl, -⟩, hframes⟩ := h.serving.writes
      obtain rfl : sent = [] := List.forall₂_nil_right_iff.1 hframes
      have hrest : ∀ x ∈ rest, x.Triggers := by
        rw [List.nil_append, List.nil_append] at hall
        rw [← hall]
        exact List.forall_mem_singleton.2 ha
      rw [(place_nil hplace hrest htodo).1] at hall
      cases hall
    · rw [hcs.words]
  | send cs => exact absurd (hat.1.symm.trans hidle) (by decide)
  | fin cs => exact absurd (hat.1.symm.trans hidle) (by decide)
  | gap k => exact absurd (hat.1.symm.trans hidle) (by decide)

end ReqHost

end IpNuma
