import IpNuma.Clocked.Run

/-!
# Recovering delimited packets from a stream of words

A reader skips words until one satisfies `start`, then takes words up to and including the first
that satisfies `last`.  `scan` is the state of this reader after a stream, `recover` the packets
it has completed.  The `scan_*` lemmas say what one more word, or one more packet, does.
-/

namespace Clocked

variable {α : Type*}

/-- The packet being taken, if any, and the packets completed. -/
structure Scan (α : Type*) where
  part : Option (List α)
  done : List (List α)

/-- The reader takes one word. -/
def Scan.next (start last : α → Bool) (s : Scan α) (w : α) : Scan α :=
  match s.part with
  | none => if start w then ⟨some [w], s.done⟩ else s
  | some ws => if last w then ⟨none, s.done ++ [ws ++ [w]]⟩ else ⟨some (ws ++ [w]), s.done⟩

/-- Whether a packet is being taken. -/
theorem Scan.isSome_next (start last : α → Bool) (s : Scan α) (w : α) :
    (s.next start last w).part.isSome = if s.part.isSome then !last w else start w := by
  unfold Scan.next
  cases hpart : s.part with
  | none => cases start w <;> simp [hpart]
  | some ws => cases last w <;> simp

/-- The reader after a stream. -/
def scan (start last : α → Bool) (ws : List α) : Scan α := run (Scan.next start last) ⟨none, []⟩ ws

/-- The packets of a stream. -/
def recover (start last : α → Bool) (ws : List α) : List (List α) := (scan start last ws).done

variable {start last : α → Bool} {ws : List α} {w : α} {p : List α} {ds : List (List α)}

theorem scan_concat (start last : α → Bool) (ws : List α) (w : α) :
    scan start last (ws ++ [w]) = (scan start last ws).next start last w := run_concat _ _ _ _

/-- A word that starts no packet is skipped. -/
theorem scan_skip (h : scan start last ws = ⟨none, ds⟩) (hw : start w = false) :
    scan start last (ws ++ [w]) = ⟨none, ds⟩ := by
  simp [scan_concat, h, Scan.next, hw]

/-- A start word opens a packet. -/
theorem scan_start (h : scan start last ws = ⟨none, ds⟩) (hw : start w = true) :
    scan start last (ws ++ [w]) = ⟨some [w], ds⟩ := by
  simp [scan_concat, h, Scan.next, hw]

/-- A word in the middle is taken. -/
theorem scan_take (h : scan start last ws = ⟨some p, ds⟩) (hw : last w = false) :
    scan start last (ws ++ [w]) = ⟨some (p ++ [w]), ds⟩ := by
  simp [scan_concat, h, Scan.next, hw]

/-- A last word completes the packet. -/
theorem scan_last (h : scan start last ws = ⟨some p, ds⟩) (hw : last w = true) :
    scan start last (ws ++ [w]) = ⟨none, ds ++ [p ++ [w]]⟩ := by
  simp [scan_concat, h, Scan.next, hw]

end Clocked
