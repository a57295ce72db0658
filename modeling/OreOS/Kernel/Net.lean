import OreOS.Lib.Dialog
import OreOS.Lib.Memory

/-!
# The network driver (`kernel/net.c`) and its device

The driver is a program of port accesses (`Driver`), in the order of the source,
with the polling loops and their bounds; the NE2000 answers one access at a
time. The device delivers frames on its own, between any two accesses: a header
of four bytes and the frame, from page `curr` on. `net_send_frame` and the texts
that are printed are left out.
-/

namespace OreOS.Kernel

open OreOS.Lib (Byte Dialog)

/-! ## Ports -/

def neBase : BitVec 16 := 0x300
def neData : BitVec 16 := neBase + 0x10
def neReset : BitVec 16 := neBase + 0x1f

def neCr : Byte := 0x00
def nePstart : Byte := 0x01
def nePstop : Byte := 0x02
def neBnry : Byte := 0x03
def neIsr : Byte := 0x07
def neRsar0 : Byte := 0x08
def neRsar1 : Byte := 0x09
def neRbcr0 : Byte := 0x0a
def neRbcr1 : Byte := 0x0b
def neRcr : Byte := 0x0c
def neTcr : Byte := 0x0d
def neDcr : Byte := 0x0e
def neImr : Byte := 0x0f
def nePar0 : Byte := 0x01
def neCurr : Byte := 0x07
def neMar0 : Byte := 0x08

def neCmdStop : Byte := 0x21
def neCmdStart : Byte := 0x22
def neCmdPage1 : Byte := 0x62
def neCmdRread : Byte := 0x0a

def neIsrPrx : Byte := 0x01
def neIsrRdc : Byte := 0x40

def neRxStart : Byte := 0x46
def neRxStop : Byte := 0x80

inductive Access
  | inb (port : BitVec 16)
  | inw (port : BitVec 16)
  | outb (port : BitVec 16) (value : Byte)

/-- What an access returns. -/
def Access.Answer : Access → Type
  | .inb _ => Byte
  | .inw _ => BitVec 16
  | .outb _ _ => Unit

abbrev Driver := Dialog Access Access.Answer

def inb (port : BitVec 16) : Driver Byte := Dialog.request (Access.inb port)
def inw (port : BitVec 16) : Driver (BitVec 16) := Dialog.request (Access.inw port)
def outb (port : BitVec 16) (value : Byte) : Driver Unit := Dialog.request (Access.outb port value)

/-! ## The driver -/

def ioWaitLocal : Driver Unit := outb 0x80 0

def neWrite (reg value : Byte) : Driver Unit := outb (neBase + reg.setWidth 16) value

def neRead (reg : Byte) : Driver Byte := inb (neBase + reg.setWidth 16)

def neSelectPage0 : Driver Unit := neWrite neCr neCmdStart

def neSelectPage1 : Driver Unit := neWrite neCr neCmdPage1

/-- A polling loop: at most `n` reads of `ISR`, up to one with a bit of
`mask`. -/
def pollIsr (mask : Byte) : Nat → Driver Bool
  | 0 => return false
  | n + 1 => do
    let isr ← neRead neIsr
    if isr &&& mask ≠ 0 then return true else pollIsr mask n

def neWaitRdc : Driver Bool := pollIsr neIsrRdc 1000000

/-- The loop of `ne_remote_read`, for the `n` bytes that are left. -/
def readWords : Nat → Driver (List Byte)
  | 0 => return []
  | 1 => do
    let w ← inw neData
    return [w.extractLsb' 0 8]
  | n + 2 => do
    let w ← inw neData
    let rest ← readWords n
    return w.extractLsb' 0 8 :: w.extractLsb' 8 8 :: rest

/-- `ne_remote_read`: the bytes that it stores at `dst`. -/
def neRemoteRead (src len : BitVec 16) : Driver (List Byte) := do
  neSelectPage0
  neWrite neIsr neIsrRdc
  neWrite neRbcr0 (len.extractLsb' 0 8)
  neWrite neRbcr1 (len.extractLsb' 8 8)
  neWrite neRsar0 (src.extractLsb' 0 8)
  neWrite neRsar1 (src.extractLsb' 8 8)
  neWrite neCr neCmdRread
  let out ← readWords len.toNat
  let _ ← neWaitRdc
  neSelectPage0
  return out

/-- Writes of consecutive registers. -/
def writeRegs (reg : Byte) : List Byte → Driver Unit
  | [] => return ()
  | v :: vs => do
    neWrite reg v
    writeRegs (reg + 1) vs

/-- Every second byte of the PROM. -/
def macOf (prom : List Byte) : List Byte := (List.range 6).map fun i => prom.getD (i * 2) 0

/-- The reset at the beginning of `net_init`. -/
def resetCard : Driver Bool := do
  let reset ← inb neReset
  outb neReset reset
  ioWaitLocal
  pollIsr 0x80 100000

/-- `net_init`: `net_ready` at its end. -/
def netInit : Driver Bool := do
  let _ ← resetCard
  neWrite neCr neCmdStop
  neWrite neDcr 0x49
  neWrite neRbcr0 0
  neWrite neRbcr1 0
  neWrite neRcr 0x20
  neWrite neTcr 0x02
  neWrite nePstart neRxStart
  neWrite nePstop neRxStop
  neWrite neBnry neRxStart
  neWrite neIsr 0xff
  neWrite neImr 0x00
  let prom ← neRemoteRead 0 32
  let mac := macOf prom
  if mac.take 3 = [0, 0, 0] ∨ mac.take 3 = [0xff, 0xff, 0xff] then return false
  else
    neSelectPage1
    writeRegs nePar0 mac
    writeRegs neMar0 (List.replicate 8 0xff)
    neWrite neCurr (neRxStart + 1)
    neSelectPage0
    neWrite neRcr 0x04
    neWrite neTcr 0x00
    neWrite neIsr 0xff
    return true

/-- What `net_recv_frame` returns, a length with the bytes it has stored in the
buffer. -/
inductive Received
  | einval
  | nothing
  | frame (len : BitVec 16) (bytes : List Byte)
  deriving DecidableEq

/-- `frame_len` bytes from `src` on, round the end of the ring. -/
def readRing (src frameLen : BitVec 16) : Driver (List Byte) := do
  let first := neRxStop.setWidth 16 * 256 - src
  if first ≥ frameLen then neRemoteRead src frameLen
  else
    let low ← neRemoteRead src first
    let high ← neRemoteRead (neRxStart.setWidth 16 * 256) (frameLen - first)
    return low ++ high

/-- `net_recv_frame` from the header at `page` on. -/
def takeFrame (cap : BitVec 64) (page : Byte) : Driver Received := do
  let hdr ← neRemoteRead (page.setWidth 16 * 256) 4
  let next := hdr.getD 1 0
  let count : BitVec 16 := hdr.getD 3 0 ++ hdr.getD 2 0
  if next < neRxStart ∨ next ≥ neRxStop ∨ count < 4 ∨ count > 1600 then
    neWrite neBnry neRxStart
    return .einval
  else
    let frameLen := if (count - 4).setWidth 64 > cap then cap.setWidth 16 else count - 4
    let bytes ← readRing (page.setWidth 16 * 256 + 4) frameLen
    let newBnry := if next - 1 < neRxStart then neRxStop - 1 else next - 1
    neWrite neBnry newBnry
    neWrite neIsr neIsrPrx
    return .frame frameLen bytes

/-- `net_recv_frame`, with `net_ready` set and a buffer. -/
def netRecvFrame (cap : BitVec 64) : Driver Received := do
  if cap < 64 then return .einval
  else
    neSelectPage1
    let curr ← neRead neCurr
    neSelectPage0
    let bnry ← neRead neBnry
    let page := if bnry + 1 ≥ neRxStop then neRxStart else bnry + 1
    if page = curr then return .nothing else takeFrame cap page

/-! ## The device -/

/-- The part of an NE2000 that the driver and the receiver use. -/
structure Ne2000 where
  /-- The command register, with the page of registers in its two upper bits. -/
  cr : Byte := 0
  bnry : Byte := 0
  curr : Byte := 0
  isr : Byte := 0x80
  rsar : BitVec 16 := 0
  rbcr : BitVec 16 := 0
  /-- The PROM and the packet memory. -/
  mem : BitVec 16 → Byte

namespace Ne2000

/-- The registers of page 1 are selected. -/
def page1 (d : Ne2000) : Bool := d.cr.extractLsb' 6 2 = 1

def readReg (d : Ne2000) (reg : BitVec 16) : Byte :=
  if reg = 0 then d.cr
  else if d.page1 then if reg = 7 then d.curr else 0
  else if reg = 3 then d.bnry
  else if reg = 7 then d.isr
  else 0

def writeReg (d : Ne2000) (reg : BitVec 16) (v : Byte) : Ne2000 :=
  if reg = 0 then { d with cr := v }
  else if d.page1 then if reg = 7 then { d with curr := v } else d
  else if reg = 3 then { d with bnry := v }
  else if reg = 7 then { d with isr := d.isr &&& ~~~v }
  else if reg = 8 then { d with rsar := d.rsar.extractLsb' 8 8 ++ v }
  else if reg = 9 then { d with rsar := v ++ d.rsar.extractLsb' 0 8 }
  else if reg = 10 then { d with rbcr := d.rbcr.extractLsb' 8 8 ++ v }
  else if reg = 11 then { d with rbcr := v ++ d.rbcr.extractLsb' 0 8 }
  else d

/-- One access of the data port: two bytes, and the end of the transfer is
noted in `ISR`. -/
def readData (d : Ne2000) : BitVec 16 × Ne2000 :=
  (d.mem (d.rsar + 1) ++ d.mem d.rsar,
    if d.rbcr ≤ 2 then { d with rsar := d.rsar + 2, rbcr := 0, isr := d.isr ||| neIsrRdc }
    else { d with rsar := d.rsar + 2, rbcr := d.rbcr - 2 })

def access : (a : Access) → Ne2000 → a.Answer × Ne2000
  | .inb port, d =>
    if neBase ≤ port ∧ port < neData then (d.readReg (port - neBase), d) else ((0 : Byte), d)
  | .inw port, d => if port = neData then d.readData else ((0 : BitVec 16), d)
  | .outb port v, d =>
    if neBase ≤ port ∧ port < neData then ((), d.writeReg (port - neBase) v) else ((), d)

end Ne2000

/-! ## Delivery -/

/-- Pages of the ring. -/
def ringSize : Nat := 58

/-- The page behind `page` by `k`, round the ring. -/
def pageAfter (page : Byte) (k : Nat) : Byte :=
  BitVec.ofNat 8 (0x46 + (page.toNat - 0x46 + k) % ringSize)

/-- The pages from one page up to another, which is left out. -/
def pagesUpTo (start stop : Byte) : List Byte :=
  (List.range ((stop.toNat + ringSize - start.toNat) % ringSize)).map (pageAfter start)

/-- The pages a frame takes with its header. -/
def framePages (frame : List Byte) : Nat := (frame.length + 4 + 255) / 256

/-- The header: status, next page and length. -/
def frameHeader (next : Byte) (frame : List Byte) : List Byte :=
  let count : BitVec 16 := BitVec.ofNat 16 (frame.length + 4)
  [1, next, count.extractLsb' 0 8, count.extractLsb' 8 8]

/-- The place of an address in the ring, from page `page` on. -/
def ringOffset (page : Byte) (a : BitVec 16) : Nat :=
  (a.toNat + ringSize * 256 - page.toNat * 256) % (ringSize * 256)

namespace Ne2000

/-- The header and the frame written from page `CURR` on, and `CURR` set behind
them. -/
def deliver (d : Ne2000) (frame : List Byte) : Ne2000 :=
  let next := pageAfter d.curr (framePages frame)
  let bytes := frameHeader next frame ++ frame
  { d with
    curr := next
    isr := d.isr ||| neIsrPrx
    mem := fun a =>
      if 0x4600 ≤ a.toNat ∧ a.toNat < 0x8000 then
        (bytes[ringOffset d.curr a]?).getD (d.mem a)
      else d.mem a }

/-- The pages that a delivery writes. -/
def written (d : Ne2000) (frame : List Byte) : List Byte :=
  (List.range (framePages frame)).map (pageAfter d.curr)

end Ne2000

/-- The unread pages, from the one behind `BNRY` up to `CURR`, are kept. -/
def KeepsUnread (d : Ne2000) (frame : List Byte) : Prop :=
  ∀ p ∈ d.written frame, p ∉ pagesUpTo (pageAfter d.bnry 1) d.curr

/-- The unread pages are kept, and page `BNRY` as well. -/
def KeepsBoundary (d : Ne2000) (frame : List Byte) : Prop :=
  KeepsUnread d frame ∧ d.bnry ∉ d.written frame

instance (d : Ne2000) (frame : List Byte) : Decidable (KeepsUnread d frame) :=
  inferInstanceAs (Decidable (∀ _ ∈ _, _))

instance (d : Ne2000) (frame : List Byte) : Decidable (KeepsBoundary d frame) :=
  inferInstanceAs (Decidable (_ ∧ _))

/-! ## Driver and device together -/

/-- A call of `net_recv_frame` under way: the number of frames delivered when
it began, and what it has still to do. -/
structure RecvCall where
  cap : BitVec 64
  before : Nat
  rest : Driver Received

/-- A call that has returned, with the number of frames delivered by then. -/
structure RecvRecord where
  cap : BitVec 64
  before : Nat
  after : Nat
  result : Received

structure NetState where
  dev : Ne2000
  delivered : List (List Byte) := []
  call : Option RecvCall := none
  done : List RecvRecord := []

inductive NetEvent
  | deliver (frame : List Byte)
  | recv (cap : BitVec 64)
  /-- The call under way makes its next access, or returns. -/
  | advance

def NetState.step (s : NetState) : NetEvent → Option NetState
  | .deliver frame => some { s with dev := s.dev.deliver frame, delivered := s.delivered ++ [frame] }
  | .recv cap =>
    match s.call with
    | none => some { s with call := some ⟨cap, s.delivered.length, netRecvFrame cap⟩ }
    | some _ => none
  | .advance =>
    match s.call with
    | none => none
    | some ⟨cap, before, .ret result⟩ =>
      some { s with call := none, done := s.done ++ [⟨cap, before, s.delivered.length, result⟩] }
    | some ⟨cap, before, .ask a k⟩ =>
      some
        { s with
          dev := (Ne2000.access a s.dev).2
          call := some ⟨cap, before, k (Ne2000.access a s.dev).1⟩ }

/-- Frames of 60 to 1596 bytes that keep what `keep` asks for, and buffers of at
least 64 bytes. -/
def NetState.Allowed (keep : Ne2000 → List Byte → Prop) (s : NetState) : NetEvent → Prop
  | .deliver frame => 60 ≤ frame.length ∧ frame.length ≤ 1596 ∧ keep s.dev frame
  | .recv cap => 64 ≤ cap
  | .advance => True

instance NetState.decidableAllowed (keep : Ne2000 → List Byte → Prop)
    [∀ d f, Decidable (keep d f)] (s : NetState) :
    (e : NetEvent) → Decidable (s.Allowed keep e)
  | .deliver _ => inferInstanceAs (Decidable (_ ∧ _ ∧ _))
  | .recv cap => inferInstanceAs (Decidable (64 ≤ cap))
  | .advance => inferInstanceAs (Decidable True)

/-- The calls among those that have returned a frame. -/
def returnedFrames (done : List RecvRecord) : Nat :=
  done.countP fun c => c.result ≠ .nothing

end OreOS.Kernel
