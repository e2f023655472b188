import Galileo.Lib.Layout

/-!
# Messages between processes (`compat/imsg`)

The parent and its proxies talk over socket pairs. A message is a header and data, and may carry a
descriptor; `imsg_compose` puts it into a buffer of its own (`Ibuf`) and queues the buffer,
`msgbuf_write` hands as much of the queue to `sendmsg` as the kernel takes, `imsg_read` appends what
`recvmsg` gives to the read buffer, and `imsg_get` cuts the next message out of it.

* **The kernel.** What is on its way is a list of bytes (`Chan`). A descriptor rides on the first
  byte of the `sendmsg` it was given to, and `recvmsg` does not go beyond a second descriptor:
  ancillary data is a barrier. How many bytes a call takes is up to the kernel, and so is when it
  fails.
* **Descriptors** are named by the open file they refer to, which is what the two processes share.
  The ones a process has closed are listed in `closed`.
* **The header** is copied as it lies in memory. Both processes run on one machine, so the order of
  the bytes does not matter to them; it is low byte first here. Allocation does not fail, and calls
  that are interrupted are made again, so neither is seen. `queued` is a `uint32_t`, too large to
  overflow.
-/

set_option autoImplicit false

namespace Galileo

open Lib

namespace Wire

def ibufReadSize : Nat := 65535

/-- `IMSG_HEADER_SIZE`. -/
def headerSize : Nat := 16

def maxImsgsize : Nat := 16384

def sizeMax : Nat := 2 ^ 64 - 1

def iovMax : Nat := 1024

/-! ## Headers -/

/-- `struct imsg_hdr`. -/
structure Hdr where
  type : UInt32
  len : UInt16
  flags : UInt16
  peerid : UInt32
  pid : UInt32
deriving DecidableEq

/-- The header in memory. -/
def Hdr.bytes (h : Hdr) : Bytes :=
  le 4 h.type.toNat ++ (le 2 h.len.toNat ++ (le 2 h.flags.toNat ++
    (le 4 h.peerid.toNat ++ le 4 h.pid.toNat)))

/-- The header in the first bytes of a buffer. -/
def Hdr.ofBytes (s : Bytes) : Hdr where
  type := UInt32.ofNat (unle (s.take 4))
  len := UInt16.ofNat (unle ((s.drop 4).take 2))
  flags := UInt16.ofNat (unle ((s.drop 6).take 2))
  peerid := UInt32.ofNat (unle ((s.drop 8).take 4))
  pid := UInt32.ofNat (unle ((s.drop 12).take 4))

/-- `IMSGF_HASFD`. -/
def hasfd : UInt16 := 1

/-! ## Buffers -/

/-- `struct ibuf`. The length of `buf` is `size`. -/
structure Ibuf where
  buf : Bytes
  max : Nat
  wpos : Nat
  rpos : Nat
  fd : Option Nat
deriving DecidableEq

def ibufDynamic (len max : Nat) : Option Ibuf :=
  if max < len then none else some ⟨List.replicate len 0, max, 0, 0, none⟩

/-- `recallocarray` to a larger size: what is new is zero. -/
def recallocarray (s : Bytes) (n : Nat) : Bytes := s ++ List.replicate (n - s.length) 0

def ibufRealloc (b : Ibuf) (len : Nat) : Option Ibuf :=
  if sizeMax - b.wpos < len || b.max < b.wpos + len then none
  else some { b with buf := recallocarray b.buf (b.wpos + len) }

/-- `ibuf_reserve`: where the new part is, and the buffer with zeros there. -/
def ibufReserve (b : Ibuf) (len : Nat) : Option (Nat × Ibuf) :=
  if sizeMax - b.wpos < len then none
  else
    (if b.buf.length < b.wpos + len then ibufRealloc b len else some b).map fun b =>
      (b.wpos, { b with
        buf := overwrite b.buf b.wpos (List.replicate len 0)
        wpos := b.wpos + len })

def ibufAdd (b : Ibuf) (data : Bytes) : Option Ibuf :=
  (ibufReserve b data.length).map fun r => { r.2 with buf := overwrite r.2.buf r.1 data }

/-- `ibuf_fd_set`, with the descriptor it closes. -/
def ibufFdSet (b : Ibuf) (fd : Option Nat) : Ibuf × List Nat := ({ b with fd := fd }, b.fd.toList)

/-- What is still to be written of a buffer. -/
def Ibuf.rest (b : Ibuf) : Bytes := (b.buf.take b.wpos).drop b.rpos

/-! ## The write queue -/

/-- `struct msgbuf`. -/
structure Msgbuf where
  bufs : List Ibuf
  queued : Nat
  closed : List Nat
deriving DecidableEq

/-- `msgbuf_init`. -/
def Msgbuf.init : Msgbuf := ⟨[], 0, []⟩

/-- `ibuf_enqueue`. -/
def ibufEnqueue (w : Msgbuf) (b : Ibuf) : Msgbuf :=
  { w with bufs := w.bufs ++ [b], queued := w.queued + 1 }

/-- `msgbuf_drain`, with `ibuf_dequeue` of the buffers that are done. -/
def msgbufDrain (queued : Nat) (closed : List Nat) : Nat → List Ibuf → Msgbuf
  | _, [] => ⟨[], queued, closed⟩
  | n, b :: bs =>
    if n = 0 then ⟨b :: bs, queued, closed⟩
    else if b.wpos - b.rpos ≤ n then
      msgbufDrain (queued - 1) (closed ++ b.fd.toList) (n - (b.wpos - b.rpos)) bs
    else ⟨{ b with rpos := b.rpos + n } :: bs, queued, closed⟩

/-- `msgbuf_clear`. -/
def msgbufClear (w : Msgbuf) : Msgbuf :=
  ⟨[], w.queued - w.bufs.length, w.closed ++ w.bufs.flatMap (·.fd.toList)⟩

/-- A byte on its way, and the descriptor that rides on it. -/
abbrev Chan := List (UInt8 × Option Nat)

/-- Bytes with a descriptor on the first of them. -/
def tag (fd : Option Nat) : Bytes → Chan
  | [] => []
  | b :: s => (b, fd) :: s.map (·, none)

/-- What `sendmsg` does: fail, for now or for good, or take so many bytes. -/
inductive Send where
  | again
  | fail
  | sent (n : Nat)
deriving DecidableEq

/-- What `msgbuf_write` returns. -/
inductive Wrote where
  | error (again : Bool)
  | closed
  | ok
deriving DecidableEq

/-- The buffers of one `sendmsg`, of which `i` are there: a descriptor is only sent with the
first. -/
def gather (i : Nat) : List Ibuf → List Ibuf
  | [] => []
  | b :: bs =>
    if iovMax ≤ i then []
    else if 0 < i && b.fd.isSome then []
    else b :: gather (i + 1) bs

/-- `buf0->fd`. -/
def firstFd (bufs : List Ibuf) : Option Nat := bufs.head?.bind (·.fd)

/-- `close(buf0->fd)`. -/
def closeFirst : List Ibuf → List Ibuf
  | [] => []
  | b :: bs => { b with fd := none } :: bs

/-- `msgbuf_write`: what it returns, the queue, and what goes on its way. -/
def msgbufWrite (res : Send) (w : Msgbuf) : Wrote × Msgbuf × Chan :=
  match res with
  | .again => (.error true, w, [])
  | .fail => (.error false, w, [])
  | .sent n =>
    let s := ((gather 0 w.bufs).flatMap Ibuf.rest).take n
    if s.length = 0 then (.closed, w, [])
    else
      (.ok, msgbufDrain w.queued (w.closed ++ (firstFd w.bufs).toList) s.length (closeFirst w.bufs),
        tag (firstFd w.bufs) s)

/-! ## One end -/

/-- `struct imsgbuf`: the descriptors that have come, what is in the read buffer, the write queue,
and the process id for headers that name none. -/
structure Imsgbuf where
  fds : List Nat
  r : Bytes
  w : Msgbuf
  pid : UInt32
deriving DecidableEq

/-- `imsg_init`. -/
def Imsgbuf.init (pid : UInt32) : Imsgbuf := ⟨[], [], .init, pid⟩

/-- What a caller of `imsg_compose` gives it. `datalen` is a `uint16_t`. -/
structure Request where
  type : UInt32
  peerid : UInt32
  pid : UInt32
  fd : Option Nat
  data : Bytes
  data_lt : data.length < 65536

/-- `imsg_create`: `datalen` is added to in its sixteen bits. `len` is set by `imsg_close`. -/
def imsgCreate (b : Imsgbuf) (type peerid pid : UInt32) (datalen : UInt16) : Option Ibuf :=
  let datalen := datalen + UInt16.ofNat headerSize
  if maxImsgsize < datalen.toNat then none
  else
    let hdr : Hdr := ⟨type, 0, 0, peerid, if pid = 0 then b.pid else pid⟩
    (ibufDynamic datalen.toNat maxImsgsize).bind fun wbuf => ibufAdd wbuf hdr.bytes

def imsgAdd (msg : Ibuf) (data : Bytes) : Option Ibuf :=
  if data.length = 0 then some msg else ibufAdd msg data

/-- The header `imsg_close` leaves in the buffer. -/
def closedHdr (msg : Ibuf) : Hdr :=
  let hdr := Hdr.ofBytes msg.buf
  { hdr with
    flags := if msg.fd.isSome then (hdr.flags &&& ~~~hasfd) ||| hasfd else hdr.flags &&& ~~~hasfd
    len := UInt16.ofNat msg.wpos }

def imsgClose (w : Msgbuf) (msg : Ibuf) : Msgbuf :=
  ibufEnqueue w { msg with buf := overwrite msg.buf 0 (closedHdr msg).bytes }

/-- `imsg_compose`; `none` is -1, and nothing is queued then. -/
def imsgCompose (req : Request) (b : Imsgbuf) : Option Imsgbuf :=
  (imsgCreate b req.type req.peerid req.pid (UInt16.ofNat req.data.length)).bind fun wbuf =>
    (imsgAdd wbuf req.data).map fun wbuf =>
      let r := ibufFdSet wbuf req.fd
      let w := imsgClose b.w r.1
      { b with w := { w with closed := w.closed ++ r.2 } }

/-- What `recvmsg` takes off the channel: at most `n` bytes, and one descriptor. -/
def received : Nat → Bool → Chan → Chan
  | 0, _, _ => []
  | _ + 1, _, [] => []
  | n + 1, seen, (b, fd) :: c =>
    if fd.isSome && seen then [] else (b, fd) :: received n (seen || fd.isSome) c

/-- `imsg_read`, when `recvmsg` gives these bytes and descriptors: only the first descriptor is
kept. -/
def imsgRead (s : Bytes) (fds : List Nat) (b : Imsgbuf) : Imsgbuf :=
  { b with
    r := b.r ++ s
    fds := b.fds ++ fds.take 1
    w := { b.w with closed := b.w.closed ++ fds.drop 1 } }

/-- `struct imsg`. -/
structure Message where
  type : UInt32
  peerid : UInt32
  pid : UInt32
  fd : Option Nat
  data : Bytes
deriving DecidableEq

/-- What `imsg_get` returns: -1, 0, or the size of a message. -/
inductive Got where
  | error
  | nothing
  | message (m : Message)
deriving DecidableEq

def imsgGet (b : Imsgbuf) : Got × Imsgbuf :=
  if b.r.length < headerSize then (.nothing, b)
  else
    let hdr := Hdr.ofBytes b.r
    if hdr.len.toNat < headerSize || maxImsgsize < hdr.len.toNat then (.error, b)
    else if b.r.length < hdr.len.toNat then (.nothing, b)
    else
      let data := (b.r.take hdr.len.toNat).drop headerSize
      let fd := if hdr.flags &&& hasfd = 0 then none else b.fds.head?
      (.message ⟨hdr.type, hdr.peerid, hdr.pid, fd, data⟩,
        { b with
          r := b.r.drop hdr.len.toNat
          fds := if hdr.flags &&& hasfd = 0 then b.fds else b.fds.tail })

/-- `imsg_clear`. -/
def imsgClear (b : Imsgbuf) : Imsgbuf :=
  let w := msgbufClear b.w
  { b with w := { w with closed := w.closed ++ b.fds }, fds := [] }

/-! ## Two ends

Either end may compose, write, read and take a message at any time. `composed` and `got` are what an
end has put in and taken out so far. -/

structure End where
  ibuf : Imsgbuf
  composed : List Message
  got : List Message
deriving DecidableEq

/-- The socket pair, seen from one of its ends. -/
structure Pipe where
  near : End
  far : End
  toFar : Chan
  toNear : Chan
deriving DecidableEq

def Pipe.swap (p : Pipe) : Pipe := ⟨p.far, p.near, p.toNear, p.toFar⟩

def Pipe.new (pid pid' : UInt32) : Pipe := ⟨⟨.init pid, [], []⟩, ⟨.init pid', [], []⟩, [], []⟩

/-- The message a request becomes. -/
def Request.message (req : Request) (b : Imsgbuf) : Message :=
  ⟨req.type, req.peerid, if req.pid = 0 then b.pid else req.pid, req.fd, req.data⟩

/-- What an end does. -/
inductive Act where
  | compose (req : Request)
  | write (res : Send)
  /-- `recvmsg` is ready to give so many bytes. -/
  | read (n : Nat)
  | get

/-- The near end does something. -/
def Pipe.act (p : Pipe) : Act → Pipe
  | .compose req =>
    match imsgCompose req p.near.ibuf with
    | none => p
    | some b => { p with near := { p.near with
        ibuf := b
        composed := p.near.composed ++ [req.message p.near.ibuf] } }
  | .write res =>
    let r := msgbufWrite res p.near.ibuf.w
    { p with
      near := { p.near with ibuf := { p.near.ibuf with w := r.2.1 } }
      toFar := p.toFar ++ r.2.2 }
  | .read n =>
    let c := received (min n (ibufReadSize - p.near.ibuf.r.length)) false p.toNear
    { p with
      near := { p.near with ibuf := imsgRead (c.map (·.1)) (c.filterMap (·.2)) p.near.ibuf }
      toNear := p.toNear.drop c.length }
  | .get =>
    match imsgGet p.near.ibuf with
    | (.message m, b) => { p with near := { p.near with ibuf := b, got := p.near.got ++ [m] } }
    | (_, b) => { p with near := { p.near with ibuf := b } }

inductive Side where
  | near
  | far
deriving DecidableEq

def Pipe.step (p : Pipe) (e : Side × Act) : Pipe :=
  match e.1 with
  | .near => p.act e.2
  | .far => (p.swap.act e.2).swap

end Wire

end Galileo
