import IpNuma.Clocked.Framing
import IpNuma.Cores.XgmiiSync

/-!
# `xgmiisync`: the frames behind the alignment

A reader of aligned words looks for a start character in lane 0 alone and then takes characters up
to the next terminate character.  The output of the core is not the input stream in words of
another place: when the alignment changes from lane 0 to lane 4 four characters are dropped, and
when it changes back four are repeated, the start character among them.

`readFrom c m` is what a reader of single characters has taken of the first `m` of the stream.
After output word `t` the reader of aligned words is where that one is at `front c (t + 1)`
(`read_outs`), so in a stream with four idle characters behind every terminate character both have
read the same frames.
-/

namespace IpNuma

open Clocked

/-- The character in lane `k`. -/
def XgmiiWord.lane (w : XgmiiWord) (k : ℕ) : XChar := ⟨w.c.getLsbD k, octet w.d k⟩

theorem lane_wordAt (c : ℕ → XChar) (q : ℕ) {k : ℕ} (hk : k < 8) :
    (wordAt c q).lane k = c (q + k) := by
  rw [XgmiiWord.lane, ctrl_wordAt c q hk, octet_wordAt c q hk]

/-- The reader takes a word: a frame starts in lane 0 alone. -/
def readWord (r : Scan XChar) (w : XgmiiWord) : Scan XChar :=
  [1, 2, 3, 4, 5, 6, 7].foldl
    (fun r k => r.next (fun _ => false) (· == .term) (w.lane k))
    (r.next (· == .start) (· == .term) (w.lane 0))

/-- The reader after a sequence of words. -/
def readWords (ws : List XgmiiWord) : Scan XChar := ws.foldl readWord ⟨none, []⟩

/-- A reader of the first `m` characters of a stream, which takes a frame in any lane. -/
def readFrom (c : ℕ → XChar) (m : ℕ) : Scan XChar :=
  scan (· == .start) (· == .term) (inputs c 0 m)

/-- In the stream every start character is in lane 0 or lane 4, outside of frames there are idle
characters, four of them at least behind a terminate character, and inside there is data. -/
structure WellSpaced (c : ℕ → XChar) : Prop where
  lane : ∀ q, c q = .start → 4 ∣ q
  outside : ∀ q, (readFrom c q).part = none → c q = .idle ∨ c q = .start
  inside : ∀ q, (readFrom c q).part ≠ none → (c q).ctrl = false ∨ c q = .term
  gap : ∀ q, c q = .term → ∀ k < 4, c (q + 1 + k) = .idle

theorem readFrom_succ (c : ℕ → XChar) (m : ℕ) :
    readFrom c (m + 1) = (readFrom c m).next (· == .start) (· == .term) (c m) := by
  rw [readFrom, inputs_succ, scan_concat, Nat.zero_add]
  rfl

/-! ### Start characters -/

section Read

variable {r : Scan XChar} {x : XChar}

/-- Outside of frames the reader skips all but start characters. -/
theorem next_outside (hr : r.part = none) {start : XChar → Bool} (hx : start x = false) :
    r.next start (· == .term) x = r := by
  simp [Scan.next, hr, hx]

/-- Only a terminate character ends a frame. -/
theorem next_inside (hr : r.part ≠ none) (hx : x ≠ .term) :
    (r.next (· == .start) (· == .term) x).part ≠ none := by
  obtain ⟨l, hl⟩ := Option.ne_none_iff_exists'.1 hr
  simp [Scan.next, hl, hx]

/-- A start character begins a frame. -/
theorem next_start (hr : r.part = none) :
    (r.next (· == .start) (· == .term) .start).part ≠ none := by
  simp [Scan.next, hr]

/-- On other characters it does not matter where a frame may start. -/
theorem next_congr (hx : x ≠ .start) :
    r.next (fun _ => false) (· == .term) x = r.next (· == .start) (· == .term) x := by
  have hb : (x == .start) = false := beq_eq_false_iff_ne.2 hx
  simp [Scan.next, hb]

end Read

namespace WellSpaced

variable {c : ℕ → XChar} (h : WellSpaced c) {q : ℕ}

include h

/-- A start character is outside of frames. -/
theorem part_of_start (hq : c q = .start) : (readFrom c q).part = none := by
  by_contra hin
  rcases h.inside q hin with hc | hc
  · rw [hq] at hc
    cases hc
  · rw [hq] at hc
    cases hc

/-- The four characters before a start character are idle, and the reader skips them. -/
theorem before_start {k : ℕ} (hk : k ≤ 4) (hq : c (q + k) = .start) :
    readFrom c q = readFrom c (q + k) ∧ (0 < k → c q = .idle) := by
  induction k generalizing q with
  | zero => exact ⟨rfl, fun h => absurd h (lt_irrefl 0)⟩
  | succ k ih =>
    rw [← Nat.add_assoc, Nat.add_right_comm] at hq ⊢
    obtain ⟨hread, -⟩ := ih (by omega) hq
    have hout : (readFrom c (q + 1)).part = none := by rw [hread, h.part_of_start hq]
    rw [readFrom_succ] at hread hout
    cases hp : (readFrom c q).part with
    | none =>
      have hidle : c q = .idle := by
        refine (h.outside q hp).resolve_right fun hs => ?_
        rw [hs] at hout
        exact next_start hp hout
      rw [next_outside hp (by rw [hidle]; rfl)] at hread
      exact ⟨hread, fun _ => hidle⟩
    | some l =>
      have hin : (readFrom c q).part ≠ none := by simp [hp]
      by_cases hterm : c q = .term
      · rw [h.gap q hterm k (by omega)] at hq
        cases hq
      · exact absurd hout (next_inside hin hterm)

end WellSpaced

/-! ### Words -/

open XgmiiSync

/-- The number of characters that the reader of the first `t` output words has gone through. -/
def front (c : ℕ → XChar) (t : ℕ) : ℕ :=
  if quad c t = true ∧ c (8 * t) ≠ .start then 8 * t + 4 else 8 * t

section Words

variable {c : ℕ → XChar} (h : WellSpaced c)

include h

/-- The reader takes an aligned word, but not a frame that starts in its lane 4. -/
theorem readWord_wordAt {q : ℕ} (hq : 4 ∣ q) : readWord (readFrom c q) (wordAt c q) =
    readFrom c (if c (q + 4) = .start then q + 4 else q + 8) := by
  have hnot : ∀ k, ¬ 4 ∣ k → c (q + k) ≠ .start := fun k hk hs =>
    hk ((Nat.dvd_add_right hq).1 (h.lane _ hs))
  have hfirst : (readFrom c q).next (· == .start) (· == .term) ((wordAt c q).lane 0) =
      readFrom c (q + 1) := by rw [lane_wordAt c q (by decide), readFrom_succ]; rfl
  have hnext : ∀ k < 8, c (q + k) ≠ .start →
      (readFrom c (q + k)).next (fun _ => false) (· == .term) ((wordAt c q).lane k) =
        readFrom c (q + (k + 1)) := by
    intro k hk hs
    rw [lane_wordAt c q hk, next_congr hs, ← readFrom_succ, Nat.add_assoc]
  rw [readWord, hfirst]
  simp only [List.foldl_cons, List.foldl_nil]
  rw [hnext 1 (by decide) (hnot 1 (by decide)), hnext 2 (by decide) (hnot 2 (by decide)),
    hnext 3 (by decide) (hnot 3 (by decide))]
  split_ifs with hs
  · -- the frame in lane 4 is not taken
    have hskip : ∀ x, (readFrom c (q + 4)).next (fun _ => false) (· == .term) x =
        readFrom c (q + 4) := fun x => next_outside (h.part_of_start hs) rfl
    rw [hskip, hskip, hskip, hskip]
  · rw [hnext 4 (by decide) hs, hnext 5 (by decide) (hnot 5 (by decide)),
      hnext 6 (by decide) (hnot 6 (by decide)), hnext 7 (by decide) (hnot 7 (by decide))]

omit h in
/-- The alignment after a word. -/
theorem quad_succ (c : ℕ → XChar) (t : ℕ) : quad c (t + 1) =
    if c (8 * t + 4) = .start then true else if c (8 * t) = .start then false else quad c t := by
  simp only [quad, nextShift, startIn_wordAt c _ (show 4 < 8 by decide),
    startIn_wordAt c _ (show 0 < 8 by decide), Nat.add_zero]

/-- The next output word is read from where the reader is. -/
theorem readFrom_front (t : ℕ) : readFrom c (front c t) = readFrom c (pos c t) := by
  rw [pos, quad_succ, front]
  by_cases h4 : c (8 * t + 4) = .start
  · -- what is dropped, if anything, is idle
    rw [if_pos h4, if_pos rfl]
    split_ifs
    · rfl
    · exact (h.before_start le_rfl h4).1
  · rw [if_neg h4]
    by_cases h0 : c (8 * t) = .start
    · rw [if_pos h0, if_neg Bool.false_ne_true, if_neg fun hq => hq.2 h0]
    · rw [if_neg h0]
      cases quad c t <;> simp [h0]

/-- **One output word.** -/
theorem read_step (t : ℕ) :
    readWord (readFrom c (front c t)) (wordAt c (pos c t)) = readFrom c (front c (t + 1)) := by
  have hdvd : 4 ∣ pos c t := by
    rw [pos]
    split_ifs <;> omega
  rw [readFrom_front h, readWord_wordAt h hdvd]
  congr 1
  rw [front, pos]
  cases hq : quad c (t + 1) with
  | true =>
    simp only [if_true, true_and, show 8 * (t + 1) = 8 * t + 8 by omega]
    by_cases hs : c (8 * t + 4 + 4) = .start <;> simp [hs]
  | false =>
    have h4 : c (8 * t + 4) ≠ .start := by
      intro h4
      rw [quad_succ, if_pos h4] at hq
      cases hq
    simp [h4]
    omega

end Words

/-- The output words of the core in the first `n` cycles after reset. -/
def outWords (c : ℕ → XChar) (n : ℕ) : List XgmiiWord :=
  log XgmiiSync.step (fun s _ => [s.out]) XgmiiSync.reset (inputs (fun t => wordAt c (8 * t)) 0 n)

theorem readWords_concat (ws : List XgmiiWord) (w : XgmiiWord) :
    readWords (ws ++ [w]) = readWord (readWords ws) w := by
  simp [readWords, List.foldl_append]

/-- The reader of the output is where the reader of single characters is at the front. -/
theorem read_outs {c : ℕ → XChar} (h : WellSpaced c) (n : ℕ) :
    readWords (outWords c n) = readFrom c (front c (n - 2)) := by
  have hreset : readWord (readFrom c (front c 0)) ⟨0, 0⟩ = readFrom c (front c 0) := rfl
  let J := fun t s ws => After c t s ∧ readWords ws = readFrom c (front c (t - 2))
  have hJ : J n (run XgmiiSync.step XgmiiSync.reset (inputs (fun t => wordAt c (8 * t)) 0 n))
      (outWords c n) := by
    refine stream_induction (J := J) _ 0 n ⟨after_reset c, rfl⟩ ?_
    rintro t - s ws ⟨hs, hws⟩
    rw [Nat.zero_add]
    refine ⟨after_step hs, ?_⟩
    rw [readWords_concat, hws, hs.out]
    match t with
    | 0 | 1 => exact hreset
    | t + 2 => exact read_step h t
  exact hJ.2

/-- **Lane realignment.**  From a stream of frames in lane 0 and lane 4 with at least four idle
characters behind each, a reader of the output words finds the frames of the stream, each once, in
order and unchanged: after `n + 2` cycles those of the first `8 * n` characters, or of up to four
more. -/
theorem frames_aligned {c : ℕ → XChar} (h : WellSpaced c) (n : ℕ) :
    ∃ m, 8 * n ≤ m ∧ m ≤ 8 * n + 4 ∧
      (readWords (outWords c (n + 2))).done = (readFrom c m).done := by
  refine ⟨front c n, ?_, ?_, by rw [read_outs h]; rfl⟩
  · rw [front]
    split_ifs <;> omega
  · rw [front]
    split_ifs <;> omega

/-! ### All changes of the alignment -/

/-- It is enough to look at a stream up to where it is idle. -/
theorem wellSpaced_of_idle {c : ℕ → XChar} {e : ℕ} (hidle : ∀ q, e ≤ q → c q = .idle)
    (hend : (readFrom c e).part = none) (hlane : ∀ q < e, c q = .start → 4 ∣ q)
    (hout : ∀ q < e, (readFrom c q).part = none → c q = .idle ∨ c q = .start)
    (hin : ∀ q < e, (readFrom c q).part ≠ none → (c q).ctrl = false ∨ c q = .term)
    (hgap : ∀ q < e, c q = .term → ∀ k < 4, c (q + 1 + k) = .idle) : WellSpaced c := by
  have hpart : ∀ k, (readFrom c (e + k)).part = none := by
    intro k
    induction k with
    | zero => exact hend
    | succ k ih =>
      rw [← Nat.add_assoc, readFrom_succ, hidle (e + k) (by omega), next_outside ih rfl]
      exact ih
  refine ⟨fun q hq => ?_, fun q hq => ?_, fun q hq => ?_, fun q hq => ?_⟩
  · rcases Nat.lt_or_ge q e with hlt | hge
    · exact hlane q hlt hq
    · rw [hidle q hge] at hq
      cases hq
  · rcases Nat.lt_or_ge q e with hlt | hge
    · exact hout q hlt hq
    · exact Or.inl (hidle q hge)
  · rcases Nat.lt_or_ge q e with hlt | hge
    · exact hin q hlt hq
    · obtain ⟨k, rfl⟩ := Nat.exists_eq_add_of_le hge
      exact absurd (hpart k) hq
  · rcases Nat.lt_or_ge q e with hlt | hge
    · exact hgap q hlt hq
    · rw [hidle q hge] at hq
      cases hq

/-- A frame of two octets. -/
def twoOctets (b : BitVec 8) : List XChar := [.start, .data b, .data b, .term]

def idles (n : ℕ) : List XChar := List.replicate n .idle

/-- Five frames at the smallest distances: two in lane 0, two in lane 4, one in lane 0. -/
def fiveFrames (q : ℕ) : XChar :=
  (twoOctets 1 ++ idles 4 ++ twoOctets 2 ++ idles 8 ++ twoOctets 3 ++ idles 4 ++ twoOctets 4 ++
    idles 8 ++ twoOctets 5).getD q .idle

theorem fiveFrames_wellSpaced : WellSpaced fiveFrames :=
  wellSpaced_of_idle (e := 44) (fun _ hq => List.getD_eq_default _ _ hq) (by decide +kernel)
    (by decide +kernel) (by decide +kernel) (by decide +kernel) (by decide +kernel)

theorem fiveFrames_aligned : ∃ m, 48 ≤ m ∧ m ≤ 52 ∧
    (readWords (outWords fiveFrames 8)).done = (readFrom fiveFrames m).done :=
  frames_aligned fiveFrames_wellSpaced 6

end IpNuma
