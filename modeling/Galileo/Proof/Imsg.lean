import Mathlib.Data.List.Infix
import Galileo.Lib.Run
import Galileo.Model.Imsg

/-!
# What the functions of `imsg` do to the bytes

A message that is composed is a list of bytes with the descriptor on the first of them
(`Message.wire`). For each function, what it does to such lists: `imsg_compose` queues the wire form
of its message or nothing, `msgbuf_write` moves a first part of what is queued to the channel, and
`imsg_get` takes the wire form of a message off the read buffer.
-/

set_option autoImplicit false

namespace Galileo

open Lib

namespace Wire

/-! ## Headers -/

@[simp] theorem Hdr.length_bytes (h : Hdr) : h.bytes.length = headerSize := by
  simp [Hdr.bytes, headerSize]

theorem Hdr.ofBytes_append (h : Hdr) (s : Bytes) : Hdr.ofBytes (h.bytes ++ s) = h := by
  obtain ⟨type, len, flags, peerid, pid⟩ := h
  have htype : unle (le 4 type.toNat) = type.toNat := unle_le type.toNat_lt
  have hlen : unle (le 2 len.toNat) = len.toNat := unle_le len.toNat_lt
  have hflags : unle (le 2 flags.toNat) = flags.toNat := unle_le flags.toNat_lt
  have hpeerid : unle (le 4 peerid.toNat) = peerid.toNat := unle_le peerid.toNat_lt
  have hpid : unle (le 4 pid.toNat) = pid.toNat := unle_le pid.toNat_lt
  simp [Hdr.ofBytes, Hdr.bytes, List.drop_append, List.drop_of_length_le, htype, hlen, hflags,
    hpeerid, hpid]

theorem Hdr.ofBytes_take (s : Bytes) : Hdr.ofBytes (s.take headerSize) = Hdr.ofBytes s := by
  simp [Hdr.ofBytes, headerSize, List.drop_take, List.take_take]

/-! ## The wire form of a message -/

namespace Message

variable (m : Message)

def hdr : Hdr :=
  ⟨m.type, UInt16.ofNat (headerSize + m.data.length), if m.fd.isSome then hasfd else 0, m.peerid,
    m.pid⟩

def bytes : Bytes := m.hdr.bytes ++ m.data

def wire : Chan := tag m.fd m.bytes

/-- A message that `imsg_compose` accepts. -/
def Fits : Prop := headerSize + m.data.length ≤ maxImsgsize

@[simp] theorem length_bytes : m.bytes.length = headerSize + m.data.length := by simp [bytes]

end Message

@[simp] theorem tag_fst (fd : Option Nat) (s : Bytes) : (tag fd s).map (·.1) = s := by
  cases s with
  | nil => rfl
  | cons b s => simp [tag, Function.comp_def]

theorem tag_snd {fd : Option Nat} {s : Bytes} (h : s ≠ []) :
    (tag fd s).filterMap (·.2) = fd.toList := by
  cases s with
  | nil => exact absurd rfl h
  | cons b s => cases fd <;> simp [tag]

@[simp] theorem length_tag (fd : Option Nat) (s : Bytes) : (tag fd s).length = s.length := by
  rw [← List.length_map (f := (·.1)), tag_fst]

theorem Message.bytes_ne_nil (m : Message) : m.bytes ≠ [] := by
  intro h
  have hlen := m.length_bytes
  rw [h, headerSize, List.length_nil] at hlen
  omega

/-! ## Composing -/

section Compose

variable {b : Ibuf} {data : Bytes}

/-- Adding to a buffer that has exactly the room. -/
theorem ibufAdd_room (data : Bytes) (hw : b.wpos ≤ b.buf.length)
    (hroom : b.wpos + data.length ≤ b.max) (hmax : b.max ≤ sizeMax) :
    ∃ b', ibufAdd b data = some b' ∧ b'.wpos = b.wpos + data.length ∧ b'.max = b.max ∧
      b'.rpos = b.rpos ∧ b'.fd = b.fd ∧ b'.wpos ≤ b'.buf.length ∧
      b'.buf.length = max b.buf.length (b.wpos + data.length) ∧
      b'.buf.take b'.wpos = b.buf.take b.wpos ++ data := by
  have hsize : ¬ sizeMax - b.wpos < data.length := by omega
  -- the buffer after it has grown, if it has to
  have hgrow : ∃ c : Bytes, (if b.buf.length < b.wpos + data.length then ibufRealloc b data.length
      else some b) = some { b with buf := c } ∧ c.length = max b.buf.length (b.wpos + data.length) ∧
      c.take b.wpos = b.buf.take b.wpos := by
    by_cases hfull : b.buf.length < b.wpos + data.length
    · refine ⟨recallocarray b.buf (b.wpos + data.length), ?_, ?_, ?_⟩
      · rw [if_pos hfull, ibufRealloc, if_neg (by simp; omega)]
      · simp only [recallocarray, List.length_append, List.length_replicate]
        omega
      · rw [recallocarray, List.take_append_of_le_length hw]
    · exact ⟨b.buf, by rw [if_neg hfull], by omega, rfl⟩
  obtain ⟨c, hc, hlen, htake⟩ := hgrow
  have hle : b.wpos ≤ c.length := by omega
  have hzero : b.wpos + (List.replicate data.length (0 : UInt8)).length ≤ c.length := by
    simp only [List.length_replicate]
    omega
  have hzlen := length_overwrite hzero
  refine ⟨⟨overwrite (overwrite c b.wpos (List.replicate data.length 0)) b.wpos data, b.max,
    b.wpos + data.length, b.rpos, b.fd⟩, ?_, rfl, rfl, rfl, rfl, ?_, ?_, ?_⟩
  · rw [ibufAdd, ibufReserve, if_neg hsize, hc]
    rfl
  · show b.wpos + data.length ≤ _
    rw [length_overwrite (by rw [hzlen]; omega), hzlen]
    omega
  · show List.length _ = _
    rw [length_overwrite (by rw [hzlen]; omega), hzlen, hlen]
  · rw [take_add_overwrite (by rw [hzlen]; exact hle), take_overwrite hle, htake]

theorem ibufAdd_full (h : b.max < b.wpos + data.length) (hb : b.buf.length ≤ b.max) :
    ibufAdd b data = none := by
  rw [ibufAdd, ibufReserve]
  split
  · rfl
  · rw [if_pos (by omega), ibufRealloc, if_pos (by simp [h])]
    rfl

/-- The buffer of a message. -/
def Message.ibuf (m : Message) : Ibuf := ⟨m.bytes, maxImsgsize, m.bytes.length, 0, m.fd⟩

theorem toNat_datalen {n : Nat} (h : n < 65536) :
    (UInt16.ofNat n + UInt16.ofNat headerSize).toNat = (n + headerSize) % 65536 := by
  simp [headerSize, Nat.mod_eq_of_lt h]

/-- The buffer in which a message is put together: a header that is not closed yet, and the data. -/
theorem imsgClose_eq {msg : Ibuf} {hdr : Hdr} (hbuf : msg.buf = hdr.bytes ++ data)
    (hflags : hdr.flags = 0) (hwpos : msg.wpos = headerSize + data.length) (w : Msgbuf) :
    imsgClose w msg = ibufEnqueue w
      ⟨(⟨hdr.type, hdr.peerid, hdr.pid, msg.fd, data⟩ : Message).bytes, msg.max, msg.wpos, msg.rpos,
        msg.fd⟩ := by
  have hhdr : Hdr.ofBytes msg.buf = hdr := by rw [hbuf, Hdr.ofBytes_append]
  have hclosed : closedHdr msg = (⟨hdr.type, hdr.peerid, hdr.pid, msg.fd, data⟩ : Message).hdr := by
    cases hfd : msg.fd with
    | none => simp [closedHdr, Message.hdr, hhdr, hflags, hwpos, hfd, hasfd]
    | some fd => simp [closedHdr, Message.hdr, hhdr, hflags, hwpos, hfd, hasfd]
  have hover : overwrite msg.buf 0 (closedHdr msg).bytes = (closedHdr msg).bytes ++ data := by
    have hdrop : (hdr.bytes ++ data).drop (closedHdr msg).bytes.length = data := by
      rw [Hdr.length_bytes, ← hdr.length_bytes, List.drop_left]
    rw [overwrite, List.take_zero, List.nil_append, Nat.zero_add, hbuf, hdrop]
  rw [imsgClose, hover, hclosed]
  rfl

/-- The header `imsg_create` puts in. -/
def openHdr (req : Request) (b : Imsgbuf) : Hdr :=
  ⟨req.type, 0, 0, req.peerid, if req.pid = 0 then b.pid else req.pid⟩

/-- `imsg_create` makes a buffer with a header, whatever the length has become in sixteen bits. -/
theorem imsgCreate_spec (req : Request) (b : Imsgbuf)
    (h : (req.data.length + headerSize) % 65536 ≤ maxImsgsize) :
    ∃ c : Ibuf, imsgCreate b req.type req.peerid req.pid (UInt16.ofNat req.data.length) = some c ∧
      c.wpos = headerSize ∧ c.max = maxImsgsize ∧ c.rpos = 0 ∧ c.fd = none ∧ c.wpos ≤ c.buf.length ∧
      c.buf.length = max ((req.data.length + headerSize) % 65536) headerSize ∧
      c.buf.take c.wpos = (openHdr req b).bytes := by
  obtain ⟨c, hadd, hwpos, hmax, hrpos, hfd, hroom, hsize, htake⟩ :=
    ibufAdd_room
      (b := ⟨List.replicate ((req.data.length + headerSize) % 65536) 0, maxImsgsize, 0, 0, none⟩)
      (openHdr req b).bytes (Nat.zero_le _) (by simp [headerSize, maxImsgsize])
      (show maxImsgsize ≤ sizeMax by decide)
  refine ⟨c,
    ?_, by simpa using hwpos, hmax, hrpos, hfd, hroom, by simpa using hsize, by simpa using htake⟩
  unfold imsgCreate
  simp only [toNat_datalen req.data_lt]
  rw [if_neg (Nat.not_lt.mpr h), ibufDynamic, if_neg (Nat.not_lt.mpr h), Option.bind_some]
  exact hadd

/-- `imsg_add` of data that fit fills the buffer `imsg_create` has made for them. -/
theorem imsgAdd_spec {c : Ibuf} {hdr : Hdr} (hwpos : c.wpos = headerSize)
    (hmax : c.max = maxImsgsize) (hroom : c.wpos ≤ c.buf.length)
    (hsize : c.buf.length = headerSize + data.length) (htake : c.buf.take c.wpos = hdr.bytes)
    (hfits : headerSize + data.length ≤ maxImsgsize) :
    imsgAdd c data
      = some ⟨hdr.bytes ++ data, maxImsgsize, headerSize + data.length, c.rpos, c.fd⟩ := by
  by_cases hempty : data.length = 0
  · have hnil := List.eq_nil_of_length_eq_zero hempty
    subst hnil
    obtain ⟨buf, cmax, wpos, rpos, fd⟩ := c
    have hbuf : buf = hdr.bytes := by
      rw [← htake, List.take_of_length_le]
      simp only at hsize hwpos ⊢
      rw [hsize, hwpos]
      exact Nat.le_refl _
    simp only at hwpos hmax
    rw [imsgAdd, if_pos hempty, hwpos, hmax, hbuf, List.append_nil]
    rfl
  · obtain ⟨c', hadd, hwpos', hmax', hrpos', hfd', -, hsize', htake'⟩ :=
      ibufAdd_room data hroom (by rw [hwpos, hmax]; exact hfits)
        (by rw [hmax]; exact (by decide : maxImsgsize ≤ sizeMax))
    obtain ⟨buf, cmax, wpos, rpos, fd⟩ := c'
    simp only at hwpos' hmax' hrpos' hfd' hsize' htake'
    have hbuf : buf = hdr.bytes ++ data := by
      rw [← htake, ← htake', List.take_of_length_le]
      omega
    rw [imsgAdd, if_neg hempty, hadd, hbuf, hmax', hmax, hwpos', hwpos, hrpos', hfd']

/-- **What `imsg_compose` queues**: the message, in a buffer of its size, if it fits, and nothing
otherwise. That `imsg_create` adds in sixteen bits does not let a larger message through. -/
theorem imsgCompose_eq (req : Request) (b : Imsgbuf) :
    imsgCompose req b =
      if headerSize + req.data.length ≤ maxImsgsize then
        some { b with w := ibufEnqueue b.w (req.message b).ibuf }
      else none := by
  have hdata := req.data_lt
  by_cases hbig : (req.data.length + headerSize) % 65536 ≤ maxImsgsize
  · obtain ⟨c, hcreate, hwpos, hmax, hrpos, hfd, hroom, hsize, htake⟩ := imsgCreate_spec req b hbig
    rw [imsgCompose, hcreate, Option.bind_some]
    by_cases hfits : headerSize + req.data.length ≤ maxImsgsize
    · have hsize' : c.buf.length = headerSize + req.data.length := by
        simp only [headerSize, maxImsgsize] at hfits hsize ⊢
        omega
      have hclose := imsgClose_eq
        (show Ibuf.buf
          ⟨(openHdr req b).bytes ++ req.data, maxImsgsize, headerSize + req.data.length, 0, req.fd⟩
          = (openHdr req b).bytes ++ req.data from rfl) rfl rfl b.w
      rw [if_pos hfits, imsgAdd_spec hwpos hmax hroom hsize' htake hfits, Option.map_some, hrpos,
        hfd]
      simp only [ibufFdSet, hclose]
      simp [Message.ibuf, Request.message, openHdr, ibufEnqueue]
    · -- the length has wrapped, and the data are too much for the buffer
      have hfull : ibufAdd c req.data = none := by
        refine ibufAdd_full ?_ ?_
        · rw [hwpos, hmax]
          exact Nat.not_le.mp hfits
        · rw [hsize, hmax]
          simp only [headerSize, maxImsgsize] at hbig ⊢
          omega
      have hne : req.data.length ≠ 0 := by
        simp only [headerSize, maxImsgsize] at hfits
        omega
      rw [if_neg hfits, imsgAdd, if_neg hne, hfull]
      rfl
  · rw [imsgCompose, imsgCreate]
    simp only [toNat_datalen req.data_lt]
    rw [if_pos (Nat.not_le.mp hbig), if_neg]
    · rfl
    · simp only [headerSize, maxImsgsize] at hbig ⊢
      omega

end Compose

/-! ## Writing -/

/-- What is left to write of a queue, with the descriptors where they will be. -/
def unsent (bufs : List Ibuf) : Chan := bufs.flatMap fun b => tag b.fd b.rest

/-- A buffer in the queue is within its bounds, and there is something left of it. -/
structure Ibuf.Queued (b : Ibuf) : Prop where
  rpos_lt : b.rpos < b.wpos
  wpos_le : b.wpos ≤ b.buf.length

section Write

variable {b : Ibuf} {bs g : List Ibuf} {n : Nat}

theorem Ibuf.Queued.length_rest (h : b.Queued) : b.rest.length = b.wpos - b.rpos := by
  have hle := h.wpos_le
  simp only [Ibuf.rest, List.length_drop, List.length_take]
  omega

/-- Bytes without descriptors. -/
def bare (s : Bytes) : Chan := s.map (·, none)

theorem tag_none (s : Bytes) : tag none s = bare s := by
  cases s with
  | nil => rfl
  | cons b s => rfl

theorem unsent_bare (h : ∀ b ∈ g, b.fd = none) : unsent g = bare (g.flatMap Ibuf.rest) := by
  induction g with
  | nil => rfl
  | cons b g ih =>
    have hg := ih fun x hx => h x (List.mem_cons_of_mem _ hx)
    have hhead : unsent (b :: g) = tag b.fd b.rest ++ unsent g := List.flatMap_cons
    rw [hhead, hg, h b List.mem_cons_self, tag_none]
    simp [bare]

theorem unsent_append (g rest : List Ibuf) : unsent (g ++ rest) = unsent g ++ unsent rest :=
  List.flatMap_append

theorem Message.ibuf_queued (m : Message) : m.ibuf.Queued := by
  have hlen : 0 < m.bytes.length := List.length_pos_iff.mpr m.bytes_ne_nil
  exact ⟨hlen, Nat.le_refl _⟩

theorem Message.unsent_ibuf (m : Message) : unsent [m.ibuf] = m.wire := by
  have hrest : m.ibuf.rest = m.bytes := by
    rw [Ibuf.rest, Message.ibuf, List.drop_zero, List.take_length]
  rw [unsent, List.flatMap_cons, List.flatMap_nil, List.append_nil, hrest]
  rfl

/-- The list of buffers `gather` takes is a first part of the queue, and only the first of them may
have a descriptor. -/
theorem gather_append (i : Nat) (bufs : List Ibuf) :
    ∃ rest, bufs = gather i bufs ++ rest ∧ (0 < i → ∀ b ∈ gather i bufs, b.fd = none) := by
  induction bufs generalizing i with
  | nil => exact ⟨[], rfl, fun _ b hb => by cases hb⟩
  | cons b bs ih =>
    rw [gather]
    split
    · exact ⟨b :: bs, rfl, fun _ b hb => by cases hb⟩
    · split
      · exact ⟨b :: bs, rfl, fun _ b hb => by cases hb⟩
      · next hfd =>
        obtain ⟨rest, hrest, hbare⟩ := ih (i + 1)
        refine ⟨rest, by rw [List.cons_append, ← hrest], fun hi x hx => ?_⟩
        rcases List.mem_cons.mp hx with rfl | hx
        · simpa [hi] using hfd
        · exact hbare (Nat.succ_pos i) x hx

/-- **Draining** what has no descriptors: the bytes that were taken are gone, and nothing else. -/
theorem unsent_drain (queued : Nat) (closed : List Nat) (rest : List Ibuf) (hq : ∀ b ∈ g, b.Queued)
    (hbare : ∀ b ∈ g, b.fd = none) (hn : n ≤ (g.flatMap Ibuf.rest).length) :
    unsent (msgbufDrain queued closed n (g ++ rest)).bufs = (unsent (g ++ rest)).drop n ∧
      (msgbufDrain queued closed n (g ++ rest)).closed = closed := by
  induction g generalizing n queued with
  | nil =>
    have hn0 : n = 0 := by simpa using hn
    subst hn0
    rw [List.nil_append]
    cases rest with
    | nil => exact ⟨rfl, rfl⟩
    | cons b rest => simp [msgbufDrain]
  | cons b g ih =>
    have hb := hq b List.mem_cons_self
    have hfd := hbare b List.mem_cons_self
    have hlen := hb.length_rest
    have hunsent : unsent (b :: g ++ rest) = bare b.rest ++ unsent (g ++ rest) := by
      rw [← tag_none, ← hfd]
      rfl
    rw [List.flatMap_cons, List.length_append] at hn
    rw [hunsent, List.cons_append, msgbufDrain]
    by_cases hn0 : n = 0
    · subst hn0
      rw [if_pos rfl, List.drop_zero, ← hunsent]
      exact ⟨rfl, rfl⟩
    · rw [if_neg hn0]
      by_cases hall : b.wpos - b.rpos ≤ n
      · -- the whole buffer is done
        rw [if_pos hall, hfd, Option.toList_none, List.append_nil]
        have hdrop : (bare b.rest ++ unsent (g ++ rest)).drop n
            = (unsent (g ++ rest)).drop (n - (b.wpos - b.rpos)) := by
          rw [List.drop_append, List.drop_of_length_le (by simp [bare]; omega), List.nil_append]
          simp [bare, hlen]
        rw [hdrop]
        exact ih (queued - 1) (fun x hx => hq x (List.mem_cons_of_mem _ hx))
          (fun x hx => hbare x (List.mem_cons_of_mem _ hx)) (by omega)
      · rw [if_neg hall]
        refine ⟨?_, rfl⟩
        have hrest : Ibuf.rest { b with rpos := b.rpos + n } = b.rest.drop n := by
          simp [Ibuf.rest, List.drop_drop]
        have hhead : unsent ({ b with rpos := b.rpos + n } :: (g ++ rest))
            = bare (b.rest.drop n) ++ unsent (g ++ rest) := by
          rw [← hrest, ← tag_none, ← hfd]
          rfl
        rw [hhead, List.drop_append_of_le_length (by simp [bare]; omega)]
        simp [bare]

/-- Putting a descriptor on the first byte. -/
def retag (fd : Option Nat) : Chan → Chan
  | [] => []
  | (b, _) :: c => (b, fd) :: c

theorem tag_eq_retag (fd : Option Nat) (s : Bytes) : tag fd s = retag fd (bare s) := by
  cases s with
  | nil => rfl
  | cons b s => rfl

theorem retag_append {fd : Option Nat} {c : Chan} (h : c ≠ []) (d : Chan) :
    retag fd (c ++ d) = retag fd c ++ d := by
  cases c with
  | nil => exact absurd rfl h
  | cons b c => rfl

/-- **One `msgbuf_write`**: what goes on its way is the first part of what was left to write, the
descriptor with it, and the rest stays. -/
theorem unsent_write {w : Msgbuf} (hq : ∀ b ∈ w.bufs, b.Queued) (res : Send) :
    unsent w.bufs = (msgbufWrite res w).2.2 ++ unsent (msgbufWrite res w).2.1.bufs := by
  cases res with
  | again => rfl
  | fail => rfl
  | sent n =>
    rw [msgbufWrite]
    split
    · rfl
    · next hs =>
      cases hbufs : w.bufs with
      | nil => simp [hbufs, gather] at hs
      | cons b bs =>
        rw [hbufs] at hq
        obtain ⟨rest, hrest, hbare⟩ := gather_append 1 bs
        have hg : gather 0 (b :: bs) = b :: gather 1 bs := by
          rw [gather, if_neg (by decide)]
          rfl
        have hb := hq b List.mem_cons_self
        have hqg : ∀ x ∈ gather 1 bs, x.Queued := fun x hx =>
          hq x (List.mem_cons_of_mem _ (hrest ▸ List.mem_append_left _ hx))
        -- the queue with the descriptor taken off
        have hclose : closeFirst (b :: bs) = ({ b with fd := none } :: gather 1 bs) ++ rest := by
          rw [List.cons_append, ← hrest]
          rfl
        have hbytes : ({ b with fd := none } :: gather 1 bs).flatMap Ibuf.rest
            = (gather 0 (b :: bs)).flatMap Ibuf.rest := by
          rw [hg]
          rfl
        have hU : unsent (closeFirst (b :: bs)) = bare b.rest ++ unsent bs := by
          rw [← tag_none]
          rfl
        have hne : bare b.rest ≠ [] := by
          intro h
          have hlen := congrArg List.length h
          rw [bare, List.length_map, hb.length_rest, List.length_nil] at hlen
          have := hb.rpos_lt
          omega
        have hleft : unsent (b :: bs) = retag b.fd (unsent (closeFirst (b :: bs))) := by
          rw [hU, retag_append hne, ← tag_eq_retag]
          rfl
        obtain ⟨hdrain, -⟩ :=
          unsent_drain (n := (((gather 0 (b :: bs)).flatMap Ibuf.rest).take n).length)
          (g := { b with fd := none } :: gather 1 bs) w.queued
          (w.closed ++ (firstFd (b :: bs)).toList) rest
          (fun x hx => by
            rcases List.mem_cons.mp hx with rfl | hx
            · exact ⟨hb.rpos_lt, hb.wpos_le⟩
            · exact hqg x hx)
          (fun x hx => by
            rcases List.mem_cons.mp hx with rfl | hx
            · rfl
            · exact hbare Nat.one_pos x hx)
          (by rw [hbytes]; exact List.length_take_le' _ _)
        rw [← hclose] at hdrain
        rw [hbufs] at hs
        dsimp only
        rw [hdrain, hleft]
        -- what is sent is the first part of the queue without its descriptor
        generalize hsent : ((gather 0 (b :: bs)).flatMap Ibuf.rest).take n = s at hs ⊢
        have htake : (unsent (closeFirst (b :: bs))).take s.length = bare s := by
          have hpre : s <+: (gather 0 (b :: bs)).flatMap Ibuf.rest := hsent ▸ List.take_prefix _ _
          rw [hclose, unsent_append, unsent_bare (fun x hx => by
            rcases List.mem_cons.mp hx with rfl | hx
            · rfl
            · exact hbare Nat.one_pos x hx), hbytes]
          obtain ⟨t, ht⟩ := hpre
          rw [← ht]
          simp [bare]
        have hnil : bare s ≠ [] := by
          intro h
          exact hs (by simpa [bare] using congrArg List.length h)
        have hfirst : firstFd (b :: bs) = b.fd := rfl
        rw [hfirst, tag_eq_retag, ← retag_append hnil, ← htake, List.take_append_drop]

/-- When nothing is sent, nothing changes. -/
theorem msgbufWrite_nothing {w : Msgbuf} {res : Send} (h : (msgbufWrite res w).2.2.length = 0) :
    (msgbufWrite res w).2.1 = w := by
  cases res with
  | again => rfl
  | fail => rfl
  | sent n =>
    rw [msgbufWrite] at h ⊢
    split
    · rfl
    · next hs =>
      rw [if_neg hs, length_tag] at h
      exact absurd h hs

/-- Something is sent if the kernel takes anything and there is something to send. -/
theorem length_write_pos {w : Msgbuf} (hq : ∀ b ∈ w.bufs, b.Queued) (hne : w.bufs ≠ []) (n : Nat) :
    0 < (msgbufWrite (.sent (n + 1)) w).2.2.length := by
  cases hbufs : w.bufs with
  | nil => exact absurd hbufs hne
  | cons b bs =>
    have hb := hq b (by rw [hbufs]; exact List.mem_cons_self)
    have hlen := hb.length_rest
    have hlt := hb.rpos_lt
    have hg : gather 0 (b :: bs) = b :: gather 1 bs := by
      rw [gather, if_neg (by decide)]
      rfl
    have hs : 0 < (((gather 0 w.bufs).flatMap Ibuf.rest).take (n + 1)).length := by
      rw [hbufs, hg, List.flatMap_cons, List.length_take, List.length_append]
      omega
    rw [msgbufWrite, if_neg (Nat.pos_iff_ne_zero.mp hs), length_tag]
    exact hs

/-- The descriptors in a queue. -/
def queuedFds (bufs : List Ibuf) : List Nat := bufs.flatMap (·.fd.toList)

theorem unsent_fds {bufs : List Ibuf} (hq : ∀ b ∈ bufs, b.Queued) :
    (unsent bufs).filterMap (·.2) = queuedFds bufs := by
  induction bufs with
  | nil => rfl
  | cons b bs ih =>
    have hb := hq b List.mem_cons_self
    have hne : b.rest ≠ [] := by
      intro h
      have hlen := hb.length_rest
      have hlt := hb.rpos_lt
      rw [h, List.length_nil] at hlen
      omega
    have hhead : unsent (b :: bs) = tag b.fd b.rest ++ unsent bs := List.flatMap_cons
    have hfds : queuedFds (b :: bs) = b.fd.toList ++ queuedFds bs := List.flatMap_cons
    rw [hhead, hfds, List.filterMap_append, tag_snd hne,
      ih fun x hx => hq x (List.mem_cons_of_mem _ hx)]

/-- **The queue is kept in order**: its buffers are in their bounds, `queued` counts them, and of
the descriptors it had the first ones are closed and the others still queued. -/
structure Msgbuf.Ok (w : Msgbuf) (fds : List Nat) : Prop where
  queued : ∀ b ∈ w.bufs, b.Queued
  count : w.queued = w.bufs.length
  fds : w.closed ++ queuedFds w.bufs = fds

theorem drain_ok {queued : Nat} {closed fds : List Nat} {bufs : List Ibuf}
    (h : Msgbuf.Ok ⟨bufs, queued, closed⟩ fds) (n : Nat) :
    (msgbufDrain queued closed n bufs).Ok fds := by
  induction bufs generalizing queued closed n with
  | nil => exact h
  | cons b bs ih =>
    obtain ⟨hq, hcount, hfds⟩ := h
    rw [msgbufDrain]
    split
    · exact ⟨hq, hcount, hfds⟩
    · split
      · refine ih ⟨fun x hx => hq x (List.mem_cons_of_mem _ hx), ?_, ?_⟩ _
        · simp only [List.length_cons] at hcount ⊢
          omega
        · simpa [queuedFds] using hfds
      · next hpart =>
        have hb := hq b List.mem_cons_self
        refine ⟨fun x hx => ?_, by simpa using hcount, by simpa [queuedFds] using hfds⟩
        rcases List.mem_cons.mp hx with rfl | hx
        · exact ⟨by simp only; omega, hb.wpos_le⟩
        · exact hq x (List.mem_cons_of_mem _ hx)

theorem write_ok {w : Msgbuf} {fds : List Nat} (h : w.Ok fds) (res : Send) :
    (msgbufWrite res w).2.1.Ok fds := by
  cases res with
  | again => exact h
  | fail => exact h
  | sent n =>
    rw [msgbufWrite]
    split
    · exact h
    · refine drain_ok ?_ _
      obtain ⟨bufs, queued, closed⟩ := w
      obtain ⟨hq, hcount, hfds⟩ := h
      cases bufs with
      | nil => exact ⟨hq, hcount, by simpa [firstFd, closeFirst] using hfds⟩
      | cons b bs =>
        refine ⟨fun x hx => ?_, by simpa [closeFirst] using hcount, ?_⟩
        · rcases List.mem_cons.mp hx with rfl | hx
          · exact ⟨(hq b List.mem_cons_self).rpos_lt, (hq b List.mem_cons_self).wpos_le⟩
          · exact hq x (List.mem_cons_of_mem _ hx)
        · simpa [firstFd, closeFirst, queuedFds] using hfds

end Write

/-! ## Reading -/

theorem received_prefix (n : Nat) (seen : Bool) (c : Chan) : received n seen c <+: c := by
  induction n generalizing seen c with
  | zero => exact List.nil_prefix
  | succ n ih =>
    cases c with
    | nil => exact List.nil_prefix
    | cons x c =>
      rw [received]
      split
      · exact List.nil_prefix
      · exact List.cons_prefix_cons.mpr ⟨rfl, ih _ c⟩

theorem length_received (n : Nat) (seen : Bool) (c : Chan) : (received n seen c).length ≤ n := by
  induction n generalizing seen c with
  | zero => exact Nat.le_refl 0
  | succ n ih =>
    cases c with
    | nil => exact Nat.zero_le _
    | cons x c =>
      rw [received]
      split
      · exact Nat.zero_le _
      · exact Nat.succ_le_succ (ih _ c)

/-- At most one descriptor is received, none when there was one before. -/
theorem length_fds_received (n : Nat) (seen : Bool) (c : Chan) :
    ((received n seen c).filterMap (·.2)).length ≤ if seen then 0 else 1 := by
  induction n generalizing seen c with
  | zero => simp [received]
  | succ n ih =>
    cases c with
    | nil => simp [received]
    | cons x c =>
      obtain ⟨b, fd⟩ := x
      rw [received]
      cases fd with
      | none =>
        have hrest := ih seen c
        simpa using hrest
      | some fd =>
        cases seen with
        | true => simp
        | false =>
          have hrest := ih true c
          simp only [if_true, Nat.le_zero] at hrest
          simp [hrest]

/-- `imsg_get` does not touch the write queue. -/
theorem imsgGet_w (b : Imsgbuf) : (imsgGet b).2.w = b.w := by
  rw [imsgGet]
  split
  · rfl
  · dsimp only
    split
    · rfl
    · split
      · rfl
      · rfl

/-- What `imsg_get` sees when the bytes it has are the beginning of the wire form of a message. -/
theorem imsgGet_of_wire {m : Message} (hm : m.Fits) {r : Imsgbuf} {read rest more : Chan}
    (hbytes : read.map (·.1) = r.r) (hfds : read.filterMap (·.2) = r.fds)
    (hwire : read ++ more = m.wire ++ rest) :
    (read.length < m.wire.length ∧ imsgGet r = (.nothing, r)) ∨
      ∃ read', read = m.wire ++ read' ∧
        imsgGet r
          = (.message m, { r with r := read'.map (·.1), fds := read'.filterMap (·.2) }) := by
  have hlen : m.hdr.len.toNat = headerSize + m.data.length := by
    simp only [Message.Fits, headerSize, maxImsgsize] at hm
    simp only [Message.hdr, headerSize, UInt16.toNat_ofNat']
    exact Nat.mod_eq_of_lt (by omega)
  have hwlen : m.wire.length = headerSize + m.data.length := by
    rw [Message.wire, length_tag, Message.length_bytes]
  have hrlen : r.r.length = read.length := by rw [← hbytes, List.length_map]
  have hok : ¬ (m.hdr.len.toNat < headerSize || maxImsgsize < m.hdr.len.toNat) = true := by
    rw [hlen]
    simpa [Message.Fits] using hm
  have hpre : ∀ k, k ≤ read.length → k ≤ m.wire.length → r.r.take k = m.bytes.take k := by
    intro k hk hk'
    have htake : read.take k = m.wire.take k := by
      have happ := congrArg (List.take k) hwire
      rwa [List.take_append_of_le_length hk, List.take_append_of_le_length hk'] at happ
    rw [← hbytes, ← List.map_take, htake, List.map_take, Message.wire, tag_fst]
  have hhdr : headerSize ≤ read.length → Hdr.ofBytes r.r = m.hdr := by
    intro hk
    have hbegin : m.bytes.take headerSize = m.hdr.bytes := by
      rw [Message.bytes, ← m.hdr.length_bytes, List.take_left]
    rw [← Hdr.ofBytes_take, hpre headerSize hk (by rw [hwlen]; omega), hbegin,
      ← List.append_nil m.hdr.bytes, Hdr.ofBytes_append]
  by_cases hpart : read.length < m.wire.length
  · refine Or.inl ⟨hpart, ?_⟩
    rw [imsgGet]
    split
    · rfl
    · next hhead =>
      rw [hrlen] at hhead
      simp only [hhdr (Nat.not_lt.mp hhead)]
      rw [if_neg hok, if_pos (by rw [hrlen, hlen, ← hwlen]; exact hpart)]
  · refine Or.inr ?_
    have hfull := Nat.not_lt.mp hpart
    have hwpre : m.wire <+: read :=
      List.prefix_of_prefix_length_le ⟨rest, hwire.symm⟩ (List.prefix_append read more) hfull
    obtain ⟨read', rfl⟩ := hwpre
    refine ⟨read', rfl, ?_⟩
    have hr : r.r = m.bytes ++ read'.map (·.1) := by
      rw [← hbytes, List.map_append, Message.wire, tag_fst]
    have hf : r.fds = m.fd.toList ++ read'.filterMap (·.2) := by
      rw [← hfds, List.filterMap_append, Message.wire, tag_snd m.bytes_ne_nil]
    have hdata : (r.r.take (headerSize + m.data.length)).drop headerSize = m.data := by
      rw [hr, ← m.length_bytes, List.take_left, Message.bytes, ← m.hdr.length_bytes, List.drop_left]
    have hrest : r.r.drop (headerSize + m.data.length) = read'.map (·.1) := by
      rw [hr, ← m.length_bytes, List.drop_left]
    rw [imsgGet, if_neg (by rw [hrlen]; omega)]
    simp only [hhdr (by omega)]
    rw [if_neg hok, if_neg (by rw [hrlen, hlen]; omega), hlen, hdata, hrest]
    obtain ⟨type, peerid, pid, fd, data⟩ := m
    cases fd with
    | none => simp [Message.hdr, hf]
    | some fd => simp [Message.hdr, hasfd, hf]

end Wire

end Galileo
