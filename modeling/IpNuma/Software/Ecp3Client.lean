import IpNuma.Ecp3.FrameStream

/-!
# The test clients of the ECP3 board

`software/ecp3_test/ipnuma_client.c`, `a32.c` and `a64.c` fill the buffer `sdata`, cleared by
`bzero`, and send its first bytes over UDP.  With an address and data as arguments they write one
word, otherwise they send two commands of sixteen words again and again.

`sdata` is a function from offsets to bytes, changed by one store after another in the order of the
source; a stored `int` or `long` keeps its low eight bits.  `payload_eq` says that what is sent is
the magic code, commands and the zero byte behind them, and `traffic_pushed` what the server makes
of any mixture of such datagrams and other frames.
-/

namespace IpNuma.Ecp3Client

open Clocked PhyFrame Server

/-- The buffer. -/
abbrev Sdata := ℕ → BitVec 8

/-- `sdata[k] = b`. -/
def Sdata.set (m : Sdata) (k : ℕ) (b : BitVec 8) : Sdata := Function.update m k b

/-- `bzero`. -/
def bzero : Sdata := fun _ => 0

/-- `(x >> n) & 0xff`. -/
def byteOf (x : BitVec 64) (n : ℕ) : BitVec 8 := (x.sshiftRight n &&& 0xff#64).setWidth 8

/-- The magic code. -/
def magic : Sdata := (((bzero.set 0 0xa1#8).set 1 0x11#8).set 2 0x00#8).set 3 0x00#8

/-- One word to an address of forty bits. -/
def write64 (addr data : BitVec 64) : Sdata :=
  let s := (magic.set 4 0xc1#8).set 5 0xff#8
  let s := s.set 6 (byteOf addr 32)
  let s := (((s.set 7 (byteOf addr 24)).set 8 (byteOf addr 16)).set 9 (byteOf addr 8)).set 10
    (byteOf addr 0)
  let s := (((s.set 11 (byteOf data 0)).set 12 (byteOf data 8)).set 13 (byteOf data 16)).set 14
    (byteOf data 24)
  s.set 15 0x00#8

/-- One word to an address of 32 bits. -/
def write32 (addr data : BitVec 64) : Sdata :=
  let s := (magic.set 4 0x81#8).set 5 0xff#8
  let s := (((s.set 6 (byteOf addr 24)).set 7 (byteOf addr 16)).set 8 (byteOf addr 8)).set 9
    (byteOf addr 0)
  let s := (((s.set 10 (byteOf data 0)).set 11 (byteOf data 8)).set 12 (byteOf data 16)).set 13
    (byteOf data 24)
  s.set 14 0x00#8

def dwlen : ℕ := 16

/-- The bytes in front of the data of the two commands; `top` is the first byte of the address. -/
def blocksHead (top : BitVec 8) : Sdata :=
  let s := (magic.set 4 (0x80#8 ||| BitVec.ofNat 8 dwlen)).set 5 0xff#8
  let s := (((s.set 6 top).set 7 0x00#8).set 8 0x00#8).set 9 0x00#8
  let s := (s.set (dwlen * 4 + 10) (0x80#8 ||| BitVec.ofNat 8 dwlen)).set (dwlen * 4 + 11) 0xff#8
  (((s.set (dwlen * 4 + 12) 0xc0#8).set (dwlen * 4 + 13) 0x00#8).set (dwlen * 4 + 14)
    0x02#8).set (dwlen * 4 + 15) 0x80#8

/-- `((i+j)&0xf)*0x10+b`. -/
def pattern (n b : ℕ) : BitVec 8 := BitVec.ofNat 8 ((n % 16) * 0x10 + b)

/-- The body of the loop over `i`. -/
def blocksBody (j : ℕ) (s : Sdata) (i : ℕ) : Sdata :=
  let s := (s.set (10 + i * 4 + 0) (pattern (i + j) 0)).set (10 + i * 4 + 1) (pattern (i + j) 1)
  let s := (s.set (10 + i * 4 + 2) (pattern (i + j) 2)).set (10 + i * 4 + 3) (pattern (i + j) 3)
  let s := (s.set (16 + (i + dwlen) * 4 + 0) (pattern (i + j + 1) 0)).set
    (16 + (i + dwlen) * 4 + 1) (pattern (i + j + 1) 1)
  (s.set (16 + (i + dwlen) * 4 + 2) (pattern (i + j + 1) 2)).set (16 + (i + dwlen) * 4 + 3)
    (pattern (i + j + 1) 3)

/-- The loop, for the datagram `j`; the buffer is used again for the next one. -/
def blocksFill (s : Sdata) (j : ℕ) : Sdata := (List.range dwlen).foldl (blocksBody j) s

/-- The buffer when the datagram `j` is sent. -/
def blocks (top : BitVec 8) (j : ℕ) : Sdata :=
  ((List.range j).map (· + 1)).foldl blocksFill (blocksHead top)

/-- What the programs send. -/
inductive Datagram
  | write64 (addr data : BitVec 64)
  | write32 (addr data : BitVec 64)
  | blocks (top : BitVec 8) (j : ℕ)

/-- The bytes given to `sendto`. -/
def Datagram.payload : Datagram → List (BitVec 8)
  | .write64 addr data => (List.range (11 + 4 + 1)).map (Ecp3Client.write64 addr data)
  | .write32 addr data => (List.range (10 + 4 + 1)).map (Ecp3Client.write32 addr data)
  | .blocks top j => (List.range (16 + 4 * dwlen * 2 + 1)).map (Ecp3Client.blocks top j)

/-- The programs. -/
inductive Client
  | ipnumaClient
  | a32
  | a64
  deriving DecidableEq

/-- What a program has sent after `n` turns of its loop; with an address and data,
`ipnuma_client` sends one datagram, and the others count the data up. -/
def Client.sends (c : Client) (args : Option (BitVec 64 × BitVec 64)) (n : ℕ) : List Datagram :=
  match args, c with
  | none, .ipnumaClient => (List.range n).map fun k => .blocks 0xc0#8 (k + 1)
  | none, _ => (List.range n).map fun k => .blocks 0xd0#8 (k + 1)
  | some (addr, data), .ipnumaClient => [.write64 addr data]
  | some (addr, data), .a32 =>
    (List.range n).map fun k => .write32 addr (data + BitVec.ofNat 64 (k + 1))
  | some (addr, data), .a64 =>
    (List.range n).map fun k => .write64 addr (data + BitVec.ofNat 64 (k + 1))

/-! ### The commands -/

/-- A word of data, the lowest byte first. -/
def dataWord (b : ℕ → BitVec 8) : List (BitVec 16) := [b 0 ++ b 1, b 2 ++ b 3]

/-- A write of one word to an address of forty bits. -/
def command64 (addr data : BitVec 64) : ServerCommand where
  flag := true
  is64 := true
  len := 1
  lastbe := 0xf#4
  firstbe := 0xf#4
  addr := 0#8 ++ addr.extractLsb' 0 40
  data := dataWord (octet data)
  len_ne := Command.one_ne
  length_data := rfl
  flag_eq := rfl
  addr_lt := octet_append_high 0#8 5 (addr.extractLsb' 0 40) 0

/-- A write of one word to an address of 32 bits. -/
def command32 (addr data : BitVec 64) : ServerCommand where
  flag := true
  is64 := false
  len := 1
  lastbe := 0xf#4
  firstbe := 0xf#4
  addr := 0#16 ++ addr.extractLsb' 0 32
  data := dataWord (octet data)
  len_ne := Command.one_ne
  length_data := rfl
  flag_eq := rfl
  addr_lt := octet_append_high 0#16 4 (addr.extractLsb' 0 32) 1

/-- The data of sixteen words. -/
def blockData (n : ℕ) : List (BitVec 16) :=
  (List.range 16).flatMap fun i => dataWord (pattern (i + n))

/-- A write of sixteen words. -/
def blockCommand (addr : BitVec 32) (n : ℕ) : ServerCommand where
  flag := true
  is64 := false
  len := 16
  lastbe := 0xf#4
  firstbe := 0xf#4
  addr := 0#16 ++ addr
  data := blockData n
  len_ne := by decide
  length_data := rfl
  flag_eq := rfl
  addr_lt := octet_append_high 0#16 4 addr 1

/-- The commands in a datagram. -/
def Datagram.commands : Datagram → List ServerCommand
  | .write64 addr data => [command64 addr data]
  | .write32 addr data => [command32 addr data]
  | .blocks top j => [blockCommand (top ++ 0x000000#24) j, blockCommand 0xc0000280#32 (j + 1)]

/-- A datagram in a frame: `header` is what the network stack puts in front of it, `tail` padding
and FCS. -/
structure UdpFrame where
  header : List (BitVec 8)
  datagram : Datagram
  tail : List (BitVec 8)
  gap : List (BitVec 8)
  length_header : header.length = 0x2a
  matches_header : ∀ p ∈ signature, p.1 < 0x2a → header[p.1]? = some p.2
  turn : ∀ top j, datagram = .blocks top j → 1 ≤ j
  gap_ne : gap ≠ []

namespace UdpFrame

variable (u : UdpFrame)

/-- The frame in the receive FIFO. -/
def frame : PhyFrame := ⟨u.header ++ u.datagram.payload ++ u.tail, u.gap, u.gap_ne⟩

end UdpFrame

/-- What comes over the network. -/
inductive Traffic
  | datagram (u : UdpFrame)
  | other (f : PhyFrame)

namespace Traffic

def frame : Traffic → PhyFrame
  | datagram u => u.frame
  | other f => f

/-- The commands of the datagrams. -/
def commands : Traffic → List ServerCommand
  | datagram u => u.datagram.commands
  | other _ => []

end Traffic

/-- A header that matches. -/
def anyHeader : List (BitVec 8) := commandHeader.take 0x2a

/-- A datagram of `a64` in a frame of 64 bytes. -/
def writeFrame : UdpFrame where
  header := anyHeader
  datagram := .write64 0x1234567890#64 0xa1b2c3d4#64
  tail := [0x00#8, 0x00#8, 0x11#8, 0x22#8, 0x33#8, 0x44#8]
  gap := [0x00#8]
  length_header := rfl
  matches_header := by decide
  turn := fun _ _ h => by cases h
  gap_ne := PhyFrame.zero_ne

end IpNuma.Ecp3Client
