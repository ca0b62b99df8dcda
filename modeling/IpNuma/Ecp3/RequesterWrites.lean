import IpNuma.Ecp3.Requester
import IpNuma.Ecp3.Traffic

/-!
# Writes through the requester

`ReqHost` is the requester with the words of the writes that are still to come, each write after
any number of quiet cycles.  A write is missed when its first word comes in the cycle after the
parser has finished with the one before it, and it gets no frame, and spoils the data of another
one, when its data come while the sender is busy.  `Calm` excludes both, and `writes_sent` says
that then every write gets its frame, in order, with its own data.
-/

namespace IpNuma

open Clocked

/-! ### The parser in a write -/

namespace MemReq

/-- A write to BAR2 with the trigger offset. -/
def Triggers (r : MemReq) : Prop :=
  r.write = true ∧ r.barHit.getLsbD 2 = true ∧ r.addr.extractLsb' 0 20 = ReqTlp.trigger

/-- The first DW of the data. -/
def firstDw (r : MemReq) : BitVec 32 := r.data.getD 0 0 ++ r.data.getD 1 0

end MemReq

namespace ReqTlp

/-- The state of the parser after `k` words of a write, up to the first DW of its data. -/
def statusAt (long : Bool) : ℕ → ReqTlpState
  | 0 => .idle
  | 1 => .head1
  | 2 => .head2
  | 3 => .head3
  | 4 => if long then .addr64 else .addr32
  | 5 => if long then .addr48 else .addr16
  | 6 => if long then .addr32 else .data0
  | 7 => if long then .addr16 else .data1
  | 8 => if long then .data0 else .fin
  | 9 => if long then .data1 else .idle
  | 10 => if long then .fin else .idle
  | _ => .idle

/-- The parser has taken `k` words of the write `r`. -/
structure Parsed (r : MemReq) (k : ℕ) (t : ReqTlp) : Prop where
  status : t.status = statusAt r.long k
  is64bit : k ≤ 3 → t.is64bit = r.long
  addr : k + 1 = r.headLen → t.addr.extractLsb' 14 4 = r.addr.extractLsb' 16 4
  data : k = r.headLen + 1 → t.data.extractLsb' 16 16 = r.data.getD 0 0

variable {r : MemReq} {t : ReqTlp} {w : RxWord} {k : ℕ}

/-- The words of the address and the data. -/
theorem words_address (hw : r.words[k]? = some w) :
    (k + 2 = r.headLen → w.rxData = r.mid) ∧ (k + 1 = r.headLen → w.rxData = r.low) ∧
      ∀ j, k = r.headLen + j → w.rxData = r.data.getD j 0 := by
  obtain ⟨-, -, hbody, -⟩ := MemReq.words_getElem hw
  have hheader : k < r.headLen → r.header[k]? = some w.rxData := fun hk => by
    rw [← MemReq.header_getElem hk, hbody]
  have haddr : r.header[r.headLen - 2]? = some r.mid ∧ r.header[r.headLen - 1]? = some r.low := by
    unfold MemReq.header MemReq.addrWords MemReq.headLen
    cases r.long <;> exact ⟨rfl, rfl⟩
  have hsix := r.six_le_headLen
  refine ⟨fun hk => ?_, fun hk => ?_, fun j hk => ?_⟩
  · have hword := hheader (by omega)
    rw [show k = r.headLen - 2 by omega, haddr.1] at hword
    exact (Option.some.inj hword).symm
  · have hword := hheader (by omega)
    rw [show k = r.headLen - 1 by omega, haddr.2] at hword
    exact (Option.some.inj hword).symm
  · rw [hk, MemReq.data_getElem] at hbody
    rw [List.getD_eq_getElem?_getD, hbody]
    rfl

/-- The comparison with the trigger. -/
theorem matches_trigger (hr : r.Triggers) :
    r.addr.extractLsb' 16 4 ++ r.low.extractLsb' 2 14 ++ 0#2 = trigger := by
  obtain ⟨-, -, haddr⟩ := hr
  have hbit : ∀ i < 20, r.addr.getLsbD i = trigger.getLsbD i := by
    intro i hi
    have hget := congrArg (fun x => x.getLsbD i) haddr
    simpa [hi] using hget
  have hzero : trigger.getLsbD 0 = false ∧ trigger.getLsbD 1 = false := by decide
  apply BitVec.eq_of_getLsbD_eq
  intro i hi
  rw [← hbit i hi, BitVec.getLsbD_append]
  by_cases h2 : i < 2
  · rw [if_pos h2, hbit i hi]
    interval_cases i
    · exact hzero.1.symm
    · exact hzero.2.symm
  · rw [if_neg h2, BitVec.getLsbD_append]
    by_cases h16 : i - 2 < 14
    · rw [if_pos h16]
      simp [MemReq.low, h16, show 2 + (i - 2) = i by omega]
    · rw [if_neg h16]
      simp [show i - 2 - 14 < 4 by omega, show 16 + (i - 2 - 14) = i by omega]

/-- The data register changes with the first DW of the data only. -/
theorem data_step (h0 : t.status ≠ .data0) (h1 : t.status ≠ .data1) (w : RxWord) :
    (t.step w).data = t.data := by
  unfold step
  cases hst : t.status with
  | data0 => exact absurd hst h0
  | data1 => exact absurd hst h1
  | idle =>
    simp only
    split_ifs <;> rfl
  | _ => rfl

theorem statusAt_headLen (r : MemReq) : statusAt r.long r.headLen = .data0 ∧
    statusAt r.long (r.headLen + 1) = .data1 := by
  unfold MemReq.headLen
  cases r.long <;> exact ⟨rfl, rfl⟩

theorem statusAt_ne (h1 : 1 ≤ k) (hk : k < r.headLen) :
    statusAt r.long k ≠ .data0 ∧ statusAt r.long k ≠ .data1 := by
  unfold MemReq.headLen at hk
  cases hlong : r.long <;> rw [hlong] at hk <;>
    simp only [Bool.false_eq_true, if_false, if_true] at hk <;> interval_cases k <;> decide

/-- A word that starts no write leaves the idle parser idle. -/
theorem quiet_step (hst : t.status = .idle ∨ t.status = .fin) (hw : selects w = false) :
    (t.step w).status = .idle := by
  rcases hst with hst | hst
  · simp only [step, hst, hw, Bool.false_eq_true, if_false]
  · simp only [step, hst]

/-- The first word of a write. -/
theorem selects_first (hr : r.Triggers) (hw : r.words[0]? = some w) :
    selects w = true ∧ w.rxData.getLsbD 13 = r.long := by
  obtain ⟨hst, -, hbody, hbar⟩ := MemReq.words_getElem hw
  have hdata : BitVec.ofBool r.reserved ++ r.fmt ++ 0#5 ++ r.traffic = w.rxData :=
    Option.some.inj hbody
  have hbit : ∀ i < 2, w.rxData.getLsbD (13 + i) = r.fmt.getLsbD i := by
    intro i hi
    rw [← hdata, BitVec.getLsbD_append, if_neg (by omega), BitVec.getLsbD_append, if_neg (by omega),
      BitVec.getLsbD_append, if_pos (by omega)]
    congr 1
    omega
  have h14 : w.rxData.getLsbD 14 = r.write := by
    rw [hbit 1 (by decide), MemReq.fmt]
    cases r.write <;> cases r.long <;> rfl
  have h13 : w.rxData.getLsbD 13 = r.long := by
    rw [hbit 0 (by decide), MemReq.fmt]
    cases r.write <;> cases r.long <;> rfl
  rw [selects, hbar, hst, h14, hr.1, hr.2.1]
  exact ⟨rfl, h13⟩

theorem parsed_first (hst : t.status = .idle) (hr : r.Triggers) (hw : r.words[0]? = some w) :
    Parsed r 1 (t.step w) := by
  obtain ⟨hsel, h13⟩ := selects_first hr hw
  have hlen := r.six_le_headLen
  simp only [step, hst, hsel, if_true]
  exact ⟨rfl, fun _ => h13, fun h => by omega, fun h => by omega⟩

/-- A word before the address that is compared. -/
theorem parsed_before (h : Parsed r k t) (h1 : 1 ≤ k) (hk : k + 2 < r.headLen) (w : RxWord) :
    Parsed r (k + 1) (t.step w) := by
  obtain ⟨hst, h64, -, -⟩ := h
  have hlong : 4 ≤ k → r.long = true := by
    intro h4
    unfold MemReq.headLen at hk
    cases hr : r.long with
    | true => rfl
    | false =>
      rw [hr, if_neg Bool.false_ne_true] at hk
      omega
  have hlen : r.headLen ≤ 8 := by
    unfold MemReq.headLen
    split <;> omega
  have hpast : ∀ u : ReqTlp, u.status = statusAt r.long (k + 1) →
      (k + 1 ≤ 3 → u.is64bit = r.long) → Parsed r (k + 1) u := fun u hu hu64 =>
    ⟨hu, hu64, fun h => by omega, fun h => by omega⟩
  apply hpast
  · unfold step
    rw [hst]
    have hk6 : k < 6 := by omega
    interval_cases k
    · rfl
    · rfl
    · change (if t.is64bit then _ else _) = _
      rw [h64 le_rfl]
      rfl
    · rw [hlong (by decide)]
      rfl
    · rw [hlong (by decide)]
      rfl
  · intro h3
    have hk3 : k < 3 := by omega
    unfold step
    rw [hst]
    interval_cases k
    · exact h64 (by decide)
    · exact h64 (by decide)

/-- The middle word of the address. -/
theorem parsed_mid (h : Parsed r k t) (hk : k + 2 = r.headLen) (hw : r.words[k]? = some w) :
    Parsed r (k + 1) (t.step w) := by
  have hsix := r.six_le_headLen
  have hst : t.status = .addr32 ∧ .addr16 = statusAt r.long (k + 1) := by
    rw [h.status, show k = r.headLen - 2 by omega]
    unfold MemReq.headLen
    cases r.long <;> exact ⟨rfl, rfl⟩
  have hword : w.rxData = r.mid := (words_address hw).1 hk
  have hmid : (setSlice t.addr 14 r.mid).extractLsb' 14 4 = r.addr.extractLsb' 16 4 := by
    rw [extractLsb'_setSlice _ _ (by decide) le_rfl (by decide), MemReq.mid]
    apply BitVec.eq_of_getLsbD_eq
    intro i hi
    simp [hi, show i < 16 by omega]
  simp only [step, hst.1, hword]
  exact ⟨hst.2, fun h3 => by omega, fun _ => hmid, fun hd => by omega⟩

/-- The last word of the address, with the offset of the trigger. -/
theorem parsed_low (h : Parsed r k t) (hk : k + 1 = r.headLen) (hr : r.Triggers)
    (hw : r.words[k]? = some w) : Parsed r (k + 1) (t.step w) := by
  have hsix := r.six_le_headLen
  have hst : t.status = .addr16 ∧ .data0 = statusAt r.long (k + 1) := by
    rw [h.status, show k = r.headLen - 1 by omega]
    unfold MemReq.headLen
    cases r.long <;> exact ⟨rfl, rfl⟩
  have hword : w.rxData = r.low := (words_address hw).2.1 hk
  have hmatch : t.addr.extractLsb' 14 4 ++ r.low.extractLsb' 2 14 ++ 0#2 = trigger := by
    rw [h.addr hk]
    exact matches_trigger hr
  simp only [step, hst.1, hword, hmatch, if_true]
  exact ⟨hst.2, fun h3 => by omega, fun ha => by omega, fun hd => by omega⟩

/-- The first half of the first DW. -/
theorem parsed_data0 (h : Parsed r r.headLen t) (hw : r.words[r.headLen]? = some w) :
    Parsed r (r.headLen + 1) (t.step w) := by
  have hsix := r.six_le_headLen
  have hst : t.status = .data0 := h.status.trans (statusAt_headLen r).1
  have hword : w.rxData = r.data.getD 0 0 := (words_address hw).2.2 0 rfl
  have hdata : (setSlice t.data 16 (r.data.getD 0 0)).extractLsb' 16 16 = r.data.getD 0 0 :=
    extractLsb'_setSlice_self _ _ (by decide)
  simp only [step, hst, hword]
  exact ⟨(statusAt_headLen r).2.symm, fun h3 => by omega, fun ha => by omega, fun _ => hdata⟩

/-- A word of the header, or the first half of the first DW. -/
theorem parsed_step (h : Parsed r k t) (h1 : 1 ≤ k) (hk : k ≤ r.headLen) (hr : r.Triggers)
    (hw : r.words[k]? = some w) : Parsed r (k + 1) (t.step w) := by
  by_cases hbefore : k + 2 < r.headLen
  · exact parsed_before h h1 hbefore w
  by_cases hmid : k + 2 = r.headLen
  · exact parsed_mid h hmid hw
  by_cases hlow : k + 1 = r.headLen
  · exact parsed_low h hlow hr hw
  obtain rfl : k = r.headLen := by omega
  exact parsed_data0 h hw

/-- The second half of the first DW. -/
theorem parsed_data1 (h : Parsed r (r.headLen + 1) t) (hw : r.words[r.headLen + 1]? = some w) :
    (t.step w).status = .fin ∧ (t.step w).data = r.firstDw := by
  have hst : t.status = .data1 := h.status.trans (statusAt_headLen r).2
  have hword : w.rxData = r.data.getD 1 0 := (words_address hw).2.2 1 rfl
  have hhigh := h.data rfl
  simp only [step, hst]
  refine ⟨trivial, BitVec.eq_of_getLsbD_eq fun i hi => ?_⟩
  rw [MemReq.firstDw, getLsbD_setSlice _ _ (by decide), BitVec.getLsbD_append, hword]
  by_cases h16 : i < 16
  · rw [if_pos (by omega), if_pos h16]
    rfl
  · rw [if_neg (by omega), if_neg h16, ← hhigh]
    simp [show i - 16 < 16 by omega, show 16 + (i - 16) = i by omega]

end ReqTlp

/-! ### The requester and the writes to come -/

/-- The requester and the cycles of the writes that are still to come. -/
structure ReqHost where
  req : Requester
  todo : List RxWord

namespace ReqHost

/-- The word that is received; the input only says what a quiet cycle after all writes looks
like. -/
def rxWord (s : ReqHost) (i : RequesterIn) : RxWord :=
  s.todo.headD { i.rx with rxSt := false, rxEnd := false }

def reqIn (s : ReqHost) (i : RequesterIn) : RequesterIn := ⟨s.rxWord i, i.cfg⟩

/-- One edge of `pcie_clk`. -/
def step (s : ReqHost) (i : RequesterIn) : ReqHost := ⟨s.req.step (s.reqIn i), s.todo.tail⟩

/-- The word that the FIFO of the PHY takes. -/
def push (s : ReqHost) (i : RequesterIn) : List (BitVec 9) := s.req.push (s.reqIn i)

/-- After reset. -/
def start (s : Requester) (as : List Arrival) : ReqHost := ⟨s.reset, traffic as⟩

/-- The first word of a write finds the parser idle, and the data of a write find the sender
idle. -/
def Calm (s : ReqHost) (i : RequesterIn) : Prop :=
  (ReqTlp.selects (s.rxWord i) = true → s.req.tlp.status = .idle) ∧
    (s.req.tlp.status = .data0 → s.req.phy.status = .idle)

instance (s : ReqHost) (i : RequesterIn) : Decidable (s.Calm i) :=
  inferInstanceAs (Decidable (_ ∧ _))

/-- The words `ws`, then the writes `rs` with quiet cycles between them. -/
def Ahead (ws : List RxWord) (rs : List MemReq) (todo : List RxWord) : Prop :=
  match rs with
  | [] => todo = ws
  | r :: rs => ∃ as, rs = as.map Arrival.req ∧ todo = ws ++ (r.words ++ traffic as)

/-- Where the parser is: the writes `rs` have still to start a frame, and one has just done so. -/
inductive Place (s : ReqHost) : List MemReq → Option MemReq → Prop
  /-- Outside of the words that count. -/
  | rest {rs : List MemReq} {ws : List RxWord}
      (hst : s.req.tlp.status = .idle ∨ s.req.tlp.status = .fin)
      (hws : ∀ w ∈ ws, w.rxSt = false) (htodo : Ahead ws rs s.todo) : Place s rs none
  /-- In a header. -/
  | head {r : MemReq} {k : ℕ} {as : List Arrival} (h1 : 1 ≤ k) (hk : k ≤ r.headLen)
      (hp : ReqTlp.Parsed r k s.req.tlp) (htodo : s.todo = r.words.drop k ++ traffic as) :
      Place s (r :: as.map Arrival.req) none
  /-- Between the halves of the first DW. -/
  | half {r : MemReq} {as : List Arrival} (hp : ReqTlp.Parsed r (r.headLen + 1) s.req.tlp)
      (htodo : s.todo = r.words.drop (r.headLen + 1) ++ traffic as) :
      Place s (as.map Arrival.req) (some r)

variable {s : ReqHost} {i : RequesterIn} {rs : List MemReq} {cur : Option MemReq}

/-- The writes to come, behind some quiet words. -/
theorem ahead_traffic (ws : List RxWord) (hws : ∀ w ∈ ws, w.rxSt = false) (as : List Arrival) :
    ∃ vs, (∀ w ∈ vs, w.rxSt = false) ∧ Ahead vs (as.map Arrival.req) (ws ++ traffic as) := by
  cases as with
  | nil => exact ⟨ws, hws, List.append_nil ws⟩
  | cons a as =>
    have hgap : ∀ w ∈ a.gap, w.rxSt = false := fun w hw => (a.quiet w hw).1
    refine ⟨ws ++ a.gap, List.forall_mem_append.2 ⟨hws, hgap⟩, as, rfl, ?_⟩
    rw [traffic, List.flatMap_cons, List.append_assoc, List.append_assoc]
    rfl

/-- The words of a write after the first one start nothing. -/
theorem quiet_of_drop {r : MemReq} {k : ℕ} (hk : 1 ≤ k) : ∀ w ∈ r.words.drop k, w.rxSt = false := by
  intro w hw
  obtain ⟨n, hn⟩ := List.mem_iff_getElem?.1 hw
  rw [List.getElem?_drop] at hn
  rw [(MemReq.words_getElem hn).1]
  exact decide_eq_false (by omega)

/-- The next word is one of a write. -/
theorem rxWord_of_drop {r : MemReq} {k : ℕ} {ws : List RxWord} (h : s.todo = r.words.drop k ++ ws)
    (hk : k < r.words.length) :
    r.words[k]? = some (s.rxWord i) ∧ (s.step i).todo = r.words.drop (k + 1) ++ ws := by
  unfold rxWord step
  rw [h, List.drop_eq_getElem_cons hk]
  exact ⟨List.getElem?_eq_getElem hk, rfl⟩

/-- A write is longer than its header and the first DW of its data. -/
theorem headLen_lt {r : MemReq} (hr : r.Triggers) : r.headLen + 2 ≤ r.words.length := by
  have hdws := r.dws_pos
  rw [MemReq.length_words, MemReq.length_body, MemReq.data_of_write hr.1]
  omega

/-- A cycle outside of the words that count. -/
theorem place_rest {ws : List RxWord} (hst : s.req.tlp.status = .idle ∨ s.req.tlp.status = .fin)
    (hws : ∀ w ∈ ws, w.rxSt = false) (htodo : Ahead ws rs s.todo) (hr : ∀ r ∈ rs, r.Triggers)
    (hc : s.Calm i) : (s.step i).Place rs none := by
  have hquiet : (s.rxWord i).rxSt = false → (s.step i).req.tlp.status = .idle := by
    intro hrxSt
    have hsel : ReqTlp.selects (s.rxWord i) = false := by
      rw [ReqTlp.selects, hrxSt, Bool.and_false, Bool.false_and]
    exact ReqTlp.quiet_step hst hsel
  cases ws with
  | nil =>
    cases rs with
    | nil =>
      have hnil : s.todo = [] := htodo
      have hword : (s.rxWord i).rxSt = false := by
        rw [rxWord, hnil]
        rfl
      have hahead : Ahead [] [] (s.step i).todo := by
        change s.todo.tail = []
        rw [hnil]
        rfl
      exact .rest (.inl (hquiet hword)) hws hahead
    | cons r rs =>
      obtain ⟨as, rfl, htodo⟩ := htodo
      have hr' := hr r List.mem_cons_self
      have hlen := headLen_lt hr'
      obtain ⟨hw, hnext⟩ := rxWord_of_drop (i := i) (k := 0) htodo (by omega)
      have hidle := hc.1 (ReqTlp.selects_first hr' hw).1
      exact .head le_rfl (Nat.le_trans (by decide) r.six_le_headLen)
        (ReqTlp.parsed_first hidle hr' hw) hnext
  | cons w ws =>
    have hword : s.rxWord i = w ∧ Ahead ws rs (s.step i).todo := by
      cases rs with
      | nil =>
        have hcons : s.todo = w :: ws := htodo
        unfold rxWord step
        rw [hcons]
        exact ⟨rfl, rfl⟩
      | cons r rs =>
        obtain ⟨as, rfl, htodo⟩ := htodo
        unfold rxWord step
        rw [htodo]
        exact ⟨rfl, as, rfl, rfl⟩
    have hrxSt : (s.rxWord i).rxSt = false := by
      rw [hword.1]
      exact hws w List.mem_cons_self
    exact .rest (.inl (hquiet hrxSt)) (fun x hx => hws x (List.mem_cons_of_mem w hx)) hword.2

/-- What a cycle does to the parser: a write starts a frame when its data come, and its data are in
the register two cycles later. -/
theorem place_step (h : s.Place rs cur) (hr : ∀ r ∈ rs, r.Triggers) (hcur : ∀ r ∈ cur, r.Triggers)
    (hc : s.Calm i) : ∃ rs' cur', (s.step i).Place rs' cur' ∧
      (if s.req.tlp.status = .data0 then ∃ r, rs = r :: rs' ∧ cur' = some r
        else rs' = rs ∧ cur' = none) ∧
      (s.req.tlp.status = .data1 ↔ cur.isSome) ∧
      (∀ r, cur = some r → (s.step i).req.tlp.data = r.firstDw) := by
  cases h with
  | rest hst hws htodo =>
    have hne : s.req.tlp.status ≠ .data0 ∧ s.req.tlp.status ≠ .data1 := by
      rcases hst with hst | hst <;> rw [hst] <;> decide
    refine ⟨rs, none, place_rest hst hws htodo hr hc, by rw [if_neg hne.1]; exact ⟨rfl, rfl⟩,
      iff_of_false hne.2 (by decide), fun r hr => by cases hr⟩
  | @head r k as h1 hk hp htodo =>
    have hr' := hr r List.mem_cons_self
    have hlen := headLen_lt hr'
    obtain ⟨hw, hnext⟩ := rxWord_of_drop (i := i) htodo (by omega)
    have hp' := ReqTlp.parsed_step hp h1 hk hr' hw
    rcases Nat.lt_or_eq_of_le hk with hlt | rfl
    · have hne := ReqTlp.statusAt_ne h1 hlt
      rw [← hp.status] at hne
      refine ⟨_, _, .head (Nat.le_succ_of_le h1) hlt hp' hnext, by rw [if_neg hne.1]; exact ⟨rfl, rfl⟩,
        iff_of_false hne.2 (by decide), fun r hr => by cases hr⟩
    · have hst := hp.status.trans (ReqTlp.statusAt_headLen r).1
      refine ⟨_, _, .half hp' hnext, by rw [if_pos hst]; exact ⟨r, rfl, rfl⟩,
        iff_of_false (by rw [hst]; decide) (by decide), fun r hr => by cases hr⟩
  | @half r as hp htodo =>
    have hr' := hcur r rfl
    have hlen := headLen_lt hr'
    obtain ⟨hw, hnext⟩ := rxWord_of_drop (i := i) htodo (by omega)
    obtain ⟨hfin, hdata⟩ := ReqTlp.parsed_data1 hp hw
    have hst := hp.status.trans (ReqTlp.statusAt_headLen r).2
    obtain ⟨vs, hvs, hahead⟩ := ahead_traffic _ (quiet_of_drop (r := r)
      (k := r.headLen + 1 + 1) (by omega)) as
    refine ⟨_, none, .rest (.inr hfin) hvs (by rw [hnext]; exact hahead), ?_,
      iff_of_true hst rfl, fun r' hr' => ?_⟩
    · rw [if_neg (by rw [hst]; decide)]
      exact ⟨rfl, rfl⟩
    · rw [← Option.some.inj hr']
      exact hdata

/-! ### The sender with the data of a write -/

/-- All bytes but the first are made with the data of the write. -/
def Faithful (r : MemReq) (cs : List ReqSample) : Prop :=
  ∀ n x, cs[n]? = some x → 1 ≤ n → x.2 = r.firstDw

theorem Faithful.concat {r : MemReq} {cs : List ReqSample} (h : Faithful r cs) {x : ReqSample}
    (hx : cs ≠ [] → x.2 = r.firstDw) : Faithful r (cs ++ [x]) := by
  intro n y hy hn
  rcases Nat.lt_trichotomy n cs.length with hlt | rfl | hgt
  · rw [List.getElem?_append_left hlt] at hy
    exact h n y hy hn
  · rw [List.getElem?_concat_length] at hy
    rw [← Option.some.inj hy]
    exact hx (List.length_pos_iff.1 hn)
  · rw [List.getElem?_eq_none (by rw [List.length_append, List.length_singleton]; omega)] at hy
    cases hy

/-- The sender is busy with the frame of a write, `cur` while its data are not complete. -/
def Owes (data : BitVec 32) : ReqPhase → List MemReq → Option MemReq → Prop
  | .idle, pend, cur | .gap _, pend, cur => pend = [] ∧ cur = none
  | .send cs, pend, cur => ∃ r, pend = [r] ∧ Faithful r cs ∧
      if cs = [] then cur = some r else cur = none ∧ data = r.firstDw
  | .fin cs, pend, cur => ∃ r, pend = [r] ∧ Faithful r cs ∧ cur = none

/-- The frame carries the data of the write in the bytes `0x35` to `0x38`. -/
def Carries (r : MemReq) (f : List (BitVec 9)) : Prop :=
  ((phyOctets f).drop 0x35).take 4 =
    [octet r.firstDw 3, octet r.firstDw 2, octet r.firstDw 1, octet r.firstDw 0]

theorem txByte_data (c : IfConfig) (x : BitVec 24) (d : BitVec 32) :
    ReqPhy.txByte c x d 0x35 = octet d 3 ∧ ReqPhy.txByte c x d 0x36 = octet d 2 ∧
      ReqPhy.txByte c x d 0x37 = octet d 1 ∧ ReqPhy.txByte c x d 0x38 = octet d 0 := by
  simp only [ReqPhy.txByte, ReqPhy.txBytes, List.getD_cons_succ, List.getD_cons_zero, and_self]

theorem carries_of_faithful {r : MemReq} {cs : List ReqSample} (hlen : cs.length = 60)
    (h : Faithful r cs) : Carries r (sentBytes cs ++ [Server.gapWord 0]) := by
  have hoctets := phyOctets_words ⟨cs, hlen⟩
  rw [ReqFrame.words] at hoctets
  have hdw : ∀ n (hn : n < cs.length), 1 ≤ n → cs[n].2 = r.firstDw := fun n hn h1 =>
    h n _ (List.getElem?_eq_getElem hn) h1
  rw [Carries, hoctets, List.drop_eq_getElem_cons (by simp [hlen]), List.take_succ_cons,
    List.drop_eq_getElem_cons (by simp [hlen]), List.take_succ_cons,
    List.drop_eq_getElem_cons (by simp [hlen]), List.take_succ_cons,
    List.drop_eq_getElem_cons (by simp [hlen]), List.take_succ_cons, List.take_zero]
  simp only [List.getElem_mapIdx, Nat.reduceAdd, (txByte_data _ _ _).1, (txByte_data _ _ _).2.1,
    (txByte_data _ _ _).2.2.1, (txByte_data _ _ _).2.2.2, hdw 53 (by omega) (by decide),
    hdw 54 (by omega) (by decide), hdw 55 (by omega) (by decide), hdw 56 (by omega) (by decide)]

/-- The writes have got their frames, or their frame is being sent, or they are still to come. -/
structure Serving (rs : List MemReq) (ph : ReqPhase) (s : ReqHost) (ws : List (BitVec 9)) :
    Prop where
  triggers : ∀ r ∈ rs, r.Triggers
  at_phase : ph.At s.req.phy
  part : (phyScan ws).part = ph.part
  writes : ∃ sent pend rest cur, rs = sent ++ (pend ++ rest) ∧ s.Place rest cur ∧
    Owes s.req.tlp.data ph pend cur ∧ List.Forall₂ Carries sent (phyFrames ws)

variable {ph : ReqPhase} {ws : List (BitVec 9)}

theorem serving_start (s : Requester) {as : List Arrival}
    (h : ∀ r ∈ as.map Arrival.req, r.Triggers) :
    Serving (as.map Arrival.req) .idle (start s as) [] := by
  obtain ⟨vs, hvs, hahead⟩ := ahead_traffic [] (fun _ hw => absurd hw List.not_mem_nil) as
  exact ⟨h, rfl, rfl, [], [], _, none, rfl, .rest (.inl rfl) hvs hahead, ⟨rfl, rfl⟩, .nil⟩

/-- The write whose frame is being sent is one of those that are served. -/
theorem Owes.triggers {data : BitVec 32} {pend : List MemReq} (h : Owes data ph pend cur)
    (hp : ∀ r ∈ pend, r.Triggers) : ∀ r ∈ cur, r.Triggers := by
  intro r hr
  cases ph with
  | idle => rw [h.2] at hr; cases hr
  | gap k => rw [h.2] at hr; cases hr
  | fin cs =>
    obtain ⟨_, -, -, hnone⟩ := h
    rw [hnone] at hr
    cases hr
  | send cs =>
    obtain ⟨r', rfl, -, hcur⟩ := h
    split_ifs at hcur with hcs
    · rw [hcur] at hr
      obtain rfl := Option.some.inj hr
      exact hp r' List.mem_cons_self
    · rw [hcur.1] at hr
      cases hr

/-- While the sender is busy no other write gets to its data. -/
theorem busy_ne (hc : s.Calm i) (hat : ph.At s.req.phy) (hph : ph ≠ .idle) :
    s.req.tlp.status ≠ .data0 := by
  intro hst
  have hidle := hc.2 hst
  cases ph with
  | idle => exact hph rfl
  | send cs => exact absurd (hidle.symm.trans hat.1) (by decide)
  | fin cs => exact absurd (hidle.symm.trans hat.1) (by decide)
  | gap k => exact absurd (hidle.symm.trans hat.1) (by decide)

/-- The frames after an edge. -/
theorem phyFrames_push {ds : List (List (BitVec 9))} (hat : ph.At s.req.phy)
    (hpart : phyScan ws = ⟨ph.part, ds⟩) : phyScan (ws ++ s.push i) =
      ⟨(ph.next s.req.tlp i.cfg).part, ds ++ ph.closes⟩ := by
  rw [push, push_eq _ hat]
  refine phyScan_emits (fun cs hcs => ?_) _ _ hpart
  subst hcs
  exact List.ne_nil_of_length_eq_add_one hat.2.2

/-- **One edge.** -/
theorem serving_step (h : Serving rs ph s ws) (hc : s.Calm i) :
    Serving rs (ph.next s.req.tlp i.cfg) (s.step i) (ws ++ s.push i) := by
  obtain ⟨htrig, hat, hpart, sent, pend, rest, cur, rfl, hplace, howes, hframes⟩ := h
  have hdone : phyScan ws = ⟨ph.part, (phyScan ws).done⟩ := by rw [← hpart]
  have hscan := phyFrames_push (i := i) hat hdone
  have hpend : ∀ r ∈ pend, r.Triggers := fun r hr =>
    htrig r (List.mem_append_right _ (List.mem_append_left _ hr))
  have hrest : ∀ r ∈ rest, r.Triggers := fun r hr =>
    htrig r (List.mem_append_right _ (List.mem_append_right _ hr))
  obtain ⟨rest', cur', hplace', hnew, hdata1, hdata⟩ :=
    place_step hplace hrest (howes.triggers hpend) hc
  refine ⟨htrig, step_at (s.reqIn i) hat, by rw [hscan], ?_⟩
  rw [phyFrames, hscan]
  -- while the sender is busy the parser only completes the data of its write
  have hbusy : ph ≠ .idle → rest' = rest ∧ cur' = none := fun hph => by
    rwa [if_neg (busy_ne hc hat hph)] at hnew
  cases ph with
  | idle =>
    obtain ⟨rfl, rfl⟩ := howes
    rw [ReqPhase.closes_idle, List.append_nil]
    split_ifs at hnew with hst
    · obtain ⟨r, rfl, rfl⟩ := hnew
      refine ⟨sent, [r], rest', some r, rfl, hplace', ?_, hframes⟩
      rw [ReqPhase.next, if_pos hst]
      exact ⟨r, rfl, fun n x hx => (by cases hx), by rw [if_pos rfl]⟩
    · obtain ⟨rfl, rfl⟩ := hnew
      refine ⟨sent, [], rest', none, rfl, hplace', ?_, hframes⟩
      rw [ReqPhase.next, if_neg hst]
      exact ⟨rfl, rfl⟩
  | send cs =>
    obtain ⟨rfl, rfl⟩ := hbusy (by simp)
    obtain ⟨r, rfl, hfaith, hcur⟩ := howes
    have hdata' : (s.step i).req.tlp.data = r.firstDw ∧ (cs ≠ [] → s.req.tlp.data = r.firstDw) := by
      split_ifs at hcur with hcs
      · exact ⟨hdata r hcur, fun h => absurd hcs h⟩
      · have hne : s.req.tlp.status ≠ .data1 := fun h => by
          have hsome := hdata1.1 h
          rw [hcur.1] at hsome
          cases hsome
        have hkeep := ReqTlp.data_step (busy_ne hc hat (by simp)) hne (s.rxWord i)
        exact ⟨hkeep.trans hcur.2, fun _ => hcur.2⟩
    have hfaith' : Faithful r (cs ++ [(i.cfg, s.req.tlp.data)]) := hfaith.concat hdata'.2
    rw [ReqPhase.closes_send, List.append_nil]
    refine ⟨sent, [r], rest', none, rfl, hplace', ?_, hframes⟩
    rw [ReqPhase.next]
    split_ifs
    · exact ⟨r, rfl, hfaith', rfl⟩
    · exact ⟨r, rfl, hfaith', by rw [if_neg (by simp)]; exact ⟨rfl, hdata'.1⟩⟩
  | fin cs =>
    obtain ⟨rfl, rfl⟩ := hbusy (by simp)
    obtain ⟨r, rfl, hfaith, rfl⟩ := howes
    refine ⟨sent ++ [r], [], rest', none, by simp, hplace', ⟨rfl, rfl⟩, ?_⟩
    exact List.rel_append hframes (.cons (carries_of_faithful hat.2.2 hfaith) .nil)
  | gap k =>
    obtain ⟨rfl, rfl⟩ := hbusy (by simp)
    obtain ⟨rfl, rfl⟩ := howes
    rw [ReqPhase.closes_gap, List.append_nil]
    refine ⟨sent, [], rest', none, rfl, hplace', ?_, hframes⟩
    cases k <;> exact ⟨rfl, rfl⟩

/-! ### Every write gets its frame -/

/-- The number of cycles until the frame that is being sent is complete. -/
def cyclesLeft : ReqPhase → ℕ
  | .send cs => 61 - cs.length
  | .fin _ => 1
  | _ => 0

/-- All writes have arrived, and the frame of the last one is complete in `n` cycles. -/
def Draining (rs : List MemReq) (s : ReqHost) (ws : List (BitVec 9)) (n : ℕ) : Prop :=
  ∃ ph, Serving rs ph s ws ∧ s.todo = [] ∧ cyclesLeft ph ≤ n

/-- Without words to come no write is still to start a frame. -/
theorem place_nil (h : s.Place rs cur) (hr : ∀ r ∈ rs, r.Triggers) (htodo : s.todo = []) :
    rs = [] ∧ s.req.tlp.status ≠ .data0 := by
  cases h with
  | rest hst hws hahead =>
    refine ⟨?_, by rcases hst with hst | hst <;> rw [hst] <;> decide⟩
    cases rs with
    | nil => rfl
    | cons r rs =>
      obtain ⟨as, -, heq⟩ := hahead
      have hlen := headLen_lt (hr r List.mem_cons_self)
      have hzero := congrArg List.length (heq.symm.trans htodo)
      simp only [List.length_append, List.length_nil] at hzero
      omega
  | @head r k as h1 hk hp heq =>
    have hlen := headLen_lt (hr r List.mem_cons_self)
    have hzero := congrArg List.length (heq.symm.trans htodo)
    simp only [List.length_append, List.length_drop, List.length_nil] at hzero
    omega
  | @half r as hp heq =>
    have hst := hp.status.trans (ReqTlp.statusAt_headLen r).2
    refine ⟨?_, by rw [hst]; decide⟩
    have hnil := List.append_eq_nil_iff.1 (heq.symm.trans htodo)
    cases as with
    | nil => rfl
    | cons a as =>
      have hlen := headLen_lt (hr a.req List.mem_cons_self)
      have hzero := congrArg List.length hnil.2
      simp only [traffic, List.flatMap_cons, List.length_append, List.length_nil] at hzero
      omega

theorem draining_step {n : ℕ} (h : Draining rs s ws n) (hc : s.Calm i) :
    Draining rs (s.step i) (ws ++ s.push i) (n - 1) := by
  obtain ⟨ph, hserving, htodo, hleft⟩ := h
  refine ⟨_, serving_step hserving hc, by rw [step, htodo]; rfl, ?_⟩
  obtain ⟨htrig, hat, -, sent, pend, rest, cur, rfl, hplace, -⟩ := hserving
  have hrest : ∀ r ∈ rest, r.Triggers := fun r hr =>
    htrig r (List.mem_append_right _ (List.mem_append_right _ hr))
  have hne := (place_nil hplace hrest htodo).2
  cases ph with
  | idle =>
    rw [ReqPhase.next, if_neg hne]
    exact Nat.zero_le _
  | send cs =>
    have hlen := hat.2.2.1
    simp only [cyclesLeft] at hleft
    simp only [ReqPhase.next]
    split_ifs with h59
    · simp only [cyclesLeft]
      omega
    · simp only [cyclesLeft, List.length_append, List.length_singleton]
      omega
  | fin cs => exact Nat.zero_le _
  | gap k => cases k <;> exact Nat.zero_le _

/-- When all writes have arrived and the sender has had the time, every write has its frame. -/
theorem Draining.all (h : Draining rs s ws 0) : List.Forall₂ Carries rs (phyFrames ws) := by
  obtain ⟨ph, hserving, htodo, hleft⟩ := h
  obtain ⟨htrig, hat, -, sent, pend, rest, cur, rfl, hplace, howes, hframes⟩ := hserving
  have hrest : ∀ r ∈ rest, r.Triggers := fun r hr =>
    htrig r (List.mem_append_right _ (List.mem_append_right _ hr))
  obtain ⟨rfl, -⟩ := place_nil hplace hrest htodo
  have hpend : pend = [] := by
    cases ph with
    | idle => exact howes.1
    | gap k => exact howes.1
    | send cs =>
      have hlen := hat.2.2.1
      simp only [cyclesLeft] at hleft
      omega
    | fin cs => exact absurd hleft (by simp [cyclesLeft])
  rw [hpend, List.append_nil, List.append_nil]
  exact hframes

/-- **Writes and frames.**  In every run from reset in which the first word of a write finds the
parser idle and the data of a write find the sender idle, the complete frames are those of the
first writes, in order, each with the data of its write; and 61 cycles after the last word every
write has its frame. -/
theorem writes_sent (s : Requester) {as : List Arrival} (hw : ∀ r ∈ as.map Arrival.req, r.Triggers)
    (is : List RequesterIn) (h : Along step Calm (start s as) is) :
    ∃ sent todo, as.map Arrival.req = sent ++ todo ∧
      List.Forall₂ Carries sent (phyFrames (log step push (start s as) is)) ∧
      ∀ js ks, is = js ++ ks → (run step (start s as) js).todo = [] → 61 ≤ ks.length →
        todo = [] := by
  have hserving : ∀ ls, Along step Calm (start s as) ls → ∃ ph, Serving (as.map Arrival.req) ph
      (run step (start s as) ls) (log step push (start s as) ls) :=
    log_induction (J := fun t ws => ∃ ph, Serving (as.map Arrival.req) ph t ws)
      ⟨_, serving_start s hw⟩ (fun _ _ _ ⟨_, hph⟩ hc => ⟨_, serving_step hph hc⟩)
  obtain ⟨ph, -, -, -, sent, pend, rest, cur, hall, -, -, hframes⟩ := hserving is h
  refine ⟨sent, pend ++ rest, hall, hframes, ?_⟩
  rintro js ks rfl htodo hlen
  obtain ⟨hjs, hks⟩ := (along_append _ _ _ _ _).1 h
  obtain ⟨ph', hserving'⟩ := hserving js hjs
  have hleft : cyclesLeft ph' ≤ 61 := by
    cases ph' <;> simp [cyclesLeft]
  have hdrained := log_countdown (J := fun t ws n => Draining (as.map Arrival.req) t ws n)
    (fun _ _ _ _ hd hc => draining_step hd hc) ⟨ph', hserving', htodo, hleft⟩ ks hks
  rw [← log_append, show 61 - ks.length = 0 by omega] at hdrained
  have hcount := hdrained.all.length_eq
  rw [← hframes.length_eq, hall, List.length_append] at hcount
  exact List.eq_nil_of_length_eq_zero (by omega)

/-- A write of one DW to the trigger offset. -/
def triggerWrite (long : Bool) (d₁ d₀ : BitVec 16) : MemReq where
  write := true
  long := long
  length := 1
  reqid := 0x0008#16
  tag := 0x06#8
  lastbe := 0
  firstbe := 0b1111#4
  addr := 0xd0037760#64
  data := [d₁, d₀]
  barHit := 0b0000100#7
  reserved := false
  traffic := 0
  attr := 0
  length_data := rfl

theorem triggerWrite_triggers (long : Bool) (d₁ d₀ : BitVec 16) :
    (triggerWrite long d₁ d₀).Triggers := by
  have hbar : (0b0000100#7).getLsbD 2 = true := by decide
  have haddr : (0xd0037760#64).extractLsb' 0 20 = ReqTlp.trigger := by decide
  exact ⟨rfl, hbar, haddr⟩

/-- A write with a short header, and one with a long header `n` cycles later. -/
def writesApart (n : ℕ) : List Arrival :=
  [HostSide.after 0 (triggerWrite false 0x1122#16 0x3344#16),
    HostSide.after n (triggerWrite true 0x5566#16 0x7788#16)]

theorem writesApart_sent : ∃ f g,
    phyFrames (log step push (start default (writesApart 62)) (List.replicate 160 default)) =
        [f, g] ∧
      Carries (triggerWrite false 0x1122#16 0x3344#16) f ∧
      Carries (triggerWrite true 0x5566#16 0x7788#16) g := by
  have hw : ∀ r ∈ (writesApart 62).map Arrival.req, r.Triggers :=
    List.forall_mem_cons.2 ⟨triggerWrite_triggers _ _ _,
      List.forall_mem_singleton.2 (triggerWrite_triggers _ _ _)⟩
  obtain ⟨sent, todo, hall, hframes, hlast⟩ :=
    writes_sent default hw (List.replicate 160 default) (by decide +kernel)
  have htodo := hlast (List.replicate 90 default) (List.replicate 70 default) rfl
    (by decide +kernel) (by decide)
  rw [htodo, List.append_nil] at hall
  rw [← hall] at hframes
  obtain ⟨f, fs, hf, hfs, hcons⟩ := List.forall₂_cons_left_iff.1 hframes
  obtain ⟨g, gs, hg, hgs, rfl⟩ := List.forall₂_cons_left_iff.1 hfs
  rw [List.forall₂_nil_left_iff.1 hgs] at hcons
  exact ⟨f, g, hcons, hf, hg⟩

/-- The data of the second write come while the sender is at byte `0x35` of the first frame: there
is one frame, with a byte of the first write and three of the second. -/
theorem writesApart_torn :
    (run step (start default (writesApart 44)) (List.replicate 160 default)).todo = [] ∧
    (phyFrames (log step push (start default (writesApart 44)) (List.replicate 160 default))).map
      (fun f => ((phyOctets f).drop 0x35).take 4) = [[0x11#8, 0x66#8, 0x77#8, 0x88#8]] := by
  decide +kernel

end ReqHost

end IpNuma
