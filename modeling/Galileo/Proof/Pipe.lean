import Galileo.Lib.Run
import Galileo.Proof.Imsg

/-!
# Every message arrives once, in order, with its descriptor

`Model/Daemon` takes the channel between the parent and a proxy for a queue of messages. This is why
it may: whatever the kernel takes of the write queue and however it cuts up what it gives back, the
messages one end gets are the ones the other has composed, from the first on.

The argument is one equation (`Flow`): what is in the read buffer of the receiver, on its way, and
in the write queue of the sender is together the wire form of the messages that have not been taken.
Each function moves the boundaries in this list and changes nothing else. The descriptors are in the
list too, so the equation also says where each of them is.
-/

set_option autoImplicit false

namespace Galileo

open Lib

namespace Wire

variable {req : Request} {b : Imsgbuf} {n : Nat}

/-! ## One direction -/

/-- **The equation.** Of what one end has `composed` the other has `got` a first part; the rest is
`pending`, and its wire form is what has been read (with the descriptors that came with it: `read`),
what is on its way, and what is queued. -/
structure Flow (composed : List Message) (bufs : List Ibuf) (c : Chan) (r : Bytes) (fds : List Nat)
    (got pending : List Message) (read : Chan) : Prop where
  composed : composed = got ++ pending
  fits : ∀ m ∈ pending, m.Fits
  bytes : read.map (·.1) = r
  fds : read.filterMap (·.2) = fds
  wire : read ++ (c ++ unsent bufs) = pending.flatMap Message.wire

namespace Flow

variable {composed got pending : List Message} {bufs : List Ibuf} {c read : Chan} {r : Bytes}
  {fds : List Nat}

theorem compose (h : Flow composed bufs c r fds got pending read) {m : Message} (hm : m.Fits) :
    Flow (composed ++ [m]) (bufs ++ [m.ibuf]) c r fds got (pending ++ [m]) read where
  composed := by rw [h.composed, List.append_assoc]
  fits x hx := by
    rcases List.mem_append.mp hx with hx | hx
    · exact h.fits x hx
    · rw [List.mem_singleton.mp hx]
      exact hm
  bytes := h.bytes
  fds := h.fds
  wire := by
    rw [List.flatMap_append, ← h.wire, unsent_append, m.unsent_ibuf]
    simp

theorem write {w : Msgbuf} (h : Flow composed w.bufs c r fds got pending read)
    (hq : ∀ x ∈ w.bufs, x.Queued) (res : Send) :
    Flow composed (msgbufWrite res w).2.1.bufs
      (c ++ (msgbufWrite res w).2.2) r fds got pending read where
  composed := h.composed
  fits := h.fits
  bytes := h.bytes
  fds := h.fds
  wire := by rw [← h.wire, unsent_write hq res, List.append_assoc]

theorem receive (h : Flow composed bufs c b.r b.fds got pending read) (n : Nat) :
    let s := received n false c
    let b' := imsgRead (s.map (·.1)) (s.filterMap (·.2)) b
    Flow composed bufs (c.drop s.length) b'.r b'.fds got pending (read ++ s) where
  composed := h.composed
  fits := h.fits
  bytes := by
    rw [List.map_append, h.bytes]
    rfl
  fds := by
    have hone : ((received n false c).filterMap (·.2)).length ≤ 1 := length_fds_received n false c
    rw [List.filterMap_append, h.fds, ← List.take_of_length_le hone]
    simp [imsgRead, List.take_take]
  wire := by
    obtain ⟨rest, hrest⟩ := received_prefix n false c
    have hdrop : (received n false c ++ rest).drop (received n false c).length = rest :=
      List.drop_left
    rw [hrest] at hdrop
    rw [← h.wire, hdrop, List.append_assoc, ← List.append_assoc _ rest, hrest]

/-- The receiver takes the next message, if all of it has been read. -/
theorem get (h : Flow composed bufs c b.r b.fds got pending read) :
    (imsgGet b = (.nothing, b) ∧ b.r.length < maxImsgsize ∧
      (pending = [] ∨ c ++ unsent bufs ≠ [])) ∨
      ∃ m pending' read' b', pending = m :: pending' ∧ imsgGet b = (.message m, b') ∧
        b'.r.length + headerSize ≤ b.r.length ∧
        Flow composed bufs c b'.r b'.fds (got ++ [m]) pending' read' := by
  have hr : b.r.length = read.length := by rw [← h.bytes, List.length_map]
  cases pending with
  | nil =>
    have hnil : read = [] := (List.append_eq_nil_iff.mp h.wire).1
    rw [hnil, List.length_nil] at hr
    refine Or.inl ⟨?_, by rw [hr]; decide, Or.inl rfl⟩
    rw [imsgGet, if_pos (by rw [hr]; decide)]
  | cons m pending =>
    have hwire := h.wire
    have hm := h.fits m List.mem_cons_self
    have hlen : m.wire.length = headerSize + m.data.length := by
      rw [Message.wire, length_tag, Message.length_bytes]
    rw [List.flatMap_cons] at hwire
    rcases imsgGet_of_wire hm h.bytes h.fds hwire with ⟨hpart, hget⟩ | ⟨read', rfl, hget⟩
    · refine Or.inl ⟨hget, ?_, Or.inr fun hnil => ?_⟩
      · rw [hr]
        rw [Message.Fits] at hm
        omega
      · rw [hnil, List.append_nil] at hwire
        rw [hwire, List.length_append] at hpart
        omega
    · refine Or.inr ⟨m, pending, read', _, rfl, hget, ?_, ?_⟩
      · simp only [List.length_map]
        rw [hr, List.length_append]
        omega
      · rw [List.append_assoc, List.append_cancel_left_eq] at hwire
        exact ⟨by rw [h.composed]; simp, fun x hx => h.fits x (List.mem_cons_of_mem _ hx), rfl, rfl,
          hwire⟩

/-- Where the descriptors of the pending messages are. -/
theorem pending_fds (h : Flow composed bufs c r fds got pending read) (hq : ∀ x ∈ bufs, x.Queued) :
    pending.filterMap (·.fd) = fds ++ (c.filterMap (·.2) ++ queuedFds bufs) := by
  have hpending : ∀ l : List Message,
      (l.flatMap Message.wire).filterMap (·.2) = l.filterMap (·.fd) := by
    intro l
    induction l with
    | nil => rfl
    | cons m l ih =>
      rw [List.flatMap_cons, List.filterMap_append, ih, Message.wire, tag_snd m.bytes_ne_nil]
      cases hfd : m.fd <;> simp [hfd]
  rw [← hpending, ← h.wire, List.filterMap_append, List.filterMap_append, h.fds, unsent_fds hq]

end Flow

/-! ## Both directions -/

/-- What goes from the near end to the far one is in order. -/
def Pipe.Flows (p : Pipe) : Prop :=
  ∃ pending read,
    Flow p.near.composed p.near.ibuf.w.bufs p.toFar p.far.ibuf.r p.far.ibuf.fds p.far.got
    pending read

/-- An end is in order: its write queue is, and what it has read is in the buffer. -/
structure End.Ok (e : End) : Prop where
  queue : e.ibuf.w.Ok (e.composed.filterMap (·.fd))
  room : e.ibuf.r.length ≤ ibufReadSize

structure Pipe.Ok (p : Pipe) : Prop where
  toFar : p.Flows
  toNear : p.swap.Flows
  near : p.near.Ok
  far : p.far.Ok

section Pipe

variable {p : Pipe}

theorem Pipe.Ok.swap (h : p.Ok) : p.swap.Ok := ⟨h.toNear, h.toFar, h.far, h.near⟩

theorem Pipe.ok_new (pid pid' : UInt32) : (Pipe.new pid pid').Ok where
  toFar := ⟨[], [], rfl, List.forall_mem_nil _, rfl, rfl, rfl⟩
  toNear := ⟨[], [], rfl, List.forall_mem_nil _, rfl, rfl, rfl⟩
  near := ⟨⟨List.forall_mem_nil _, rfl, rfl⟩, Nat.zero_le _⟩
  far := ⟨⟨List.forall_mem_nil _, rfl, rfl⟩, Nat.zero_le _⟩

theorem Msgbuf.Ok.enqueue {w : Msgbuf} {ms : List Message} (h : w.Ok (ms.filterMap (·.fd)))
    (m : Message) : (ibufEnqueue w m.ibuf).Ok ((ms ++ [m]).filterMap (·.fd)) where
  queued x hx := by
    rcases List.mem_append.mp hx with hx | hx
    · exact h.queued x hx
    · rw [List.mem_singleton.mp hx]
      exact m.ibuf_queued
  count := by
    rw [ibufEnqueue, h.count, List.length_append]
    rfl
  fds := by
    rw [List.filterMap_append, ← h.fds]
    cases hfd : m.fd <;> simp [ibufEnqueue, queuedFds, Message.ibuf, hfd]

/-- Composing a message that fits queues it. -/
theorem Pipe.act_compose (p : Pipe) (h : (req.message p.near.ibuf).Fits) :
    p.act (.compose req) = { p with near := { p.near with
      ibuf := { p.near.ibuf with w := ibufEnqueue p.near.ibuf.w (req.message p.near.ibuf).ibuf }
      composed := p.near.composed ++ [req.message p.near.ibuf] } } := by
  have hfits : headerSize + req.data.length ≤ maxImsgsize := h
  rw [Pipe.act, imsgCompose_eq, if_pos hfits]

theorem Pipe.Ok.compose (h : p.Ok) (req : Request) : (p.act (.compose req)).Ok := by
  by_cases hfits : (req.message p.near.ibuf).Fits
  · obtain ⟨⟨pending, read, hflow⟩, hnear, hn, hf⟩ := h
    rw [p.act_compose hfits]
    exact ⟨⟨_, read, hflow.compose hfits⟩, hnear, ⟨hn.queue.enqueue _, hn.room⟩, hf⟩
  · have hbig : ¬ headerSize + req.data.length ≤ maxImsgsize := hfits
    rw [Pipe.act, imsgCompose_eq, if_neg hbig]
    exact h

theorem Pipe.Ok.write (h : p.Ok) (res : Send) : (p.act (.write res)).Ok := by
  obtain ⟨⟨pending, read, hflow⟩, hnear, hn, hf⟩ := h
  exact ⟨⟨pending, read, hflow.write hn.queue.queued res⟩, hnear, ⟨write_ok hn.queue res, hn.room⟩,
    hf⟩

theorem Pipe.Ok.read (h : p.Ok) (n : Nat) : (p.act (.read n)).Ok := by
  obtain ⟨hfar, ⟨pending, read, hflow⟩, hn, hf⟩ := h
  refine ⟨hfar, ⟨pending, _, hflow.receive _⟩, ⟨⟨hn.queue.queued, hn.queue.count, ?_⟩, ?_⟩, hf⟩
  · -- there is no second descriptor to close
    have hone := length_fds_received (min n (ibufReadSize - p.near.ibuf.r.length)) false p.toNear
    have hnone := List.drop_of_length_le hone
    simp only [Bool.false_eq_true, if_false] at hnone
    simp only [Pipe.act, imsgRead]
    rw [hnone, List.append_nil]
    exact hn.queue.fds
  · have hlen := length_received (min n (ibufReadSize - p.near.ibuf.r.length)) false p.toNear
    have hroom := hn.room
    simp only [Pipe.act, imsgRead, List.length_append, List.length_map]
    omega

/-- The near end takes the next message of the other, or there is none in its read buffer. -/
theorem Pipe.Ok.get_cases (h : p.Ok) :
    ((imsgGet p.near.ibuf).1 = .nothing ∧ p.act .get = p ∧ p.near.ibuf.r.length < maxImsgsize ∧
        (p.near.got = p.far.composed ∨ p.toNear ++ unsent p.far.ibuf.w.bufs ≠ [])) ∨
      ∃ m b, (imsgGet p.near.ibuf).1 = .message m ∧
        p.act .get = { p with near := { p.near with ibuf := b, got := p.near.got ++ [m] } } ∧
        b.w = p.near.ibuf.w ∧ b.r.length + headerSize ≤ p.near.ibuf.r.length ∧
        (p.act .get).swap.Flows := by
  obtain ⟨pending, read, hflow⟩ := h.toNear
  rcases hflow.get with ⟨hget, hlen, hrest⟩ | ⟨m, rest, read', b, rfl, hget, hlen, hflow⟩
  · have hget' : imsgGet p.near.ibuf = (.nothing, p.near.ibuf) := hget
    refine Or.inl ⟨by rw [hget'], by rw [Pipe.act, hget'], hlen, ?_⟩
    rcases hrest with rfl | hrest
    · exact Or.inl (by have hall := hflow.composed; rw [List.append_nil] at hall; exact hall.symm)
    · exact Or.inr hrest
  · have hget' : imsgGet p.near.ibuf = (.message m, b) := hget
    have hw := imsgGet_w p.near.ibuf
    rw [hget'] at hw
    have hact :
        p.act .get = { p with near := { p.near with ibuf := b, got := p.near.got ++ [m] } } := by
      rw [Pipe.act, hget']
    refine Or.inr ⟨m, b, by rw [hget'], hact, hw, hlen, ?_⟩
    rw [hact]
    exact ⟨rest, read', hflow⟩

theorem Pipe.Ok.get (h : p.Ok) : (p.act .get).Ok := by
  rcases h.get_cases with ⟨-, hact, -⟩ | ⟨m, b, -, hact, hw, hlen, hflows⟩
  · rw [hact]
    exact h
  · obtain ⟨pending, read, hfar⟩ := h.toFar
    have hroom := h.near.room
    rw [hact] at hflows ⊢
    refine ⟨⟨pending, read, ?_⟩, hflows, ⟨?_, ?_⟩, h.far⟩
    · simp only [hw]
      exact hfar
    · simp only [hw]
      exact h.near.queue
    · simp only
      omega

/-- What an end does keeps a pipe in order. -/
theorem Pipe.Ok.act (h : p.Ok) (e : Act) : (p.act e).Ok := by
  cases e with
  | compose req => exact h.compose req
  | write res => exact h.write res
  | read n => exact h.read n
  | get => exact h.get

theorem Pipe.Ok.step (h : p.Ok) (e : Side × Act) : (p.step e).Ok := by
  obtain ⟨side, e⟩ := e
  cases side with
  | near => exact h.act e
  | far => exact (h.swap.act e).swap

theorem Pipe.Ok.run (h : p.Ok) (es : List (Side × Act)) : (Run.run Pipe.step p es).Ok :=
  Run.invariant (C := fun _ _ => True) (fun _ e hp _ => hp.step e) h
    (Run.Steps.of_forall (fun _ _ => trivial) _ es)

theorem Pipe.ok_run (pid pid' : UInt32) (es : List (Side × Act)) :
    (Run.run Pipe.step (Pipe.new pid pid') es).Ok := (Pipe.ok_new pid pid').run es

/-! ## The two queues -/

/-- What the near end has composed and the far end has not taken. -/
def Pipe.pending (p : Pipe) : List Message := p.near.composed.drop p.far.got.length

theorem Pipe.Ok.composed (h : p.Ok) : p.near.composed = p.far.got ++ p.pending := by
  obtain ⟨pending, read, hflow⟩ := h.toFar
  rw [Pipe.pending, hflow.composed, List.drop_left]

theorem Pipe.act_far (p : Pipe) (e : Act) : (p.act e).far = p.far := by
  cases e with
  | compose req =>
    rw [Pipe.act]
    split
    · rfl
    · rfl
  | write res => rfl
  | read n => rfl
  | get =>
    rw [Pipe.act]
    split
    · rfl
    · rfl

theorem Pipe.Ok.pending_compose (h : p.Ok) (hfits : (req.message p.near.ibuf).Fits) :
    (p.act (.compose req)).pending = p.pending ++ [req.message p.near.ibuf] := by
  have hlen : p.far.got.length ≤ p.near.composed.length := by
    rw [h.composed, List.length_append]
    exact Nat.le_add_right _ _
  rw [p.act_compose hfits, Pipe.pending, List.drop_append_of_le_length hlen]
  rfl

theorem Pipe.swap_pending_compose (hfits : (req.message p.near.ibuf).Fits) :
    (p.act (.compose req)).swap.pending = p.swap.pending := by
  rw [p.act_compose hfits]
  rfl

/-- Taking a message takes the first one off the queue. -/
theorem Pipe.Ok.pending_get (h : p.Ok) {m : Message}
    (hact : p.act .get = { p with near := { p.near with ibuf := b, got := p.near.got ++ [m] } }) :
    p.swap.pending = m :: (p.act .get).swap.pending ∧ (p.act .get).pending = p.pending := by
  have hbefore : p.far.composed = p.near.got ++ p.swap.pending := h.swap.composed
  have hafter : (p.act .get).far.composed = (p.act .get).near.got ++ (p.act .get).swap.pending :=
    h.get.swap.composed
  refine ⟨?_, by rw [hact]; rfl⟩
  rw [Pipe.act_far, hact, hbefore] at hafter
  rw [hact]
  simpa using hafter

/-! ## What this means for the two processes -/

/-- What the far end has taken is what the near end has composed, from the first message on; the far
end never sees a header that is wrong; and when nothing is left to write, nothing on its way and no
message in the read buffer, it has taken everything. -/
structure Pipe.Delivers (p : Pipe) : Prop where
  in_order : p.far.got <+: p.near.composed
  no_error : (imsgGet p.far.ibuf).1 ≠ .error
  all : p.near.ibuf.w.queued = 0 → p.toFar = [] → (imsgGet p.far.ibuf).1 = .nothing →
    p.far.got = p.near.composed

theorem Pipe.Ok.delivers (h : p.Ok) : p.Delivers := by
  have hcases := h.swap.get_cases
  refine ⟨?_, ?_, ?_⟩
  · obtain ⟨pending, read, hflow⟩ := h.toFar
    exact ⟨pending, hflow.composed.symm⟩
  · intro herror
    rcases hcases with ⟨hget, -⟩ | ⟨m, b, hget, -⟩
    · exact Got.noConfusion (hget.symm.trans herror)
    · exact Got.noConfusion (hget.symm.trans herror)
  · intro hqueued hchan hnothing
    have hbufs : p.near.ibuf.w.bufs = [] := by
      rw [h.near.queue.count] at hqueued
      exact List.eq_nil_of_length_eq_zero hqueued
    rcases hcases with ⟨-, -, -, hall | hleft⟩ | ⟨m, b, hget, -⟩
    · exact hall
    · refine absurd ?_ hleft
      show p.toFar ++ unsent p.near.ibuf.w.bufs = []
      rw [hchan, hbufs]
      rfl
    · exact Got.noConfusion (hget.symm.trans hnothing)

/-- **Messages are delivered**, in both directions and whatever the two ends and the kernel do: in
order, unchanged, each with its descriptor, none of them twice, and none is lost. -/
theorem messages_delivered (pid pid' : UInt32) (es : List (Side × Act)) :
    (Run.run Pipe.step (Pipe.new pid pid') es).Delivers ∧
      (Run.run Pipe.step (Pipe.new pid pid') es).swap.Delivers :=
  ⟨(Pipe.ok_run pid pid' es).delivers, (Pipe.ok_run pid pid' es).swap.delivers⟩

/-! ## Descriptors -/

/-- Where the descriptors of the near end are. It closes each of them once it is on its way, in the
order in which they were composed, and `imsg_clear` closes the rest; and each of them is with the
far end, on its way or queued, and never in two of these places. -/
structure Pipe.Accounts (p : Pipe) : Prop where
  sent : p.near.ibuf.w.closed ++ queuedFds p.near.ibuf.w.bufs = p.near.composed.filterMap (·.fd)
  cleared : (imsgClear p.near.ibuf).w.closed = p.near.composed.filterMap (·.fd) ++ p.near.ibuf.fds
  places : p.near.composed.filterMap (·.fd) = p.far.got.filterMap (·.fd) ++
    (p.far.ibuf.fds ++ (p.toFar.filterMap (·.2) ++ queuedFds p.near.ibuf.w.bufs))

theorem Pipe.Ok.accounts (h : p.Ok) : p.Accounts where
  sent := h.near.queue.fds
  cleared := by
    rw [← h.near.queue.fds]
    rfl
  places := by
    obtain ⟨pending, read, hflow⟩ := h.toFar
    rw [hflow.composed, List.filterMap_append, hflow.pending_fds h.near.queue.queued]

/-- **No descriptor is lost, doubled, or closed twice.** -/
theorem descriptors_accounted (pid pid' : UInt32) (es : List (Side × Act)) :
    (Run.run Pipe.step (Pipe.new pid pid') es).Accounts ∧
      (Run.run Pipe.step (Pipe.new pid pid') es).swap.Accounts :=
  ⟨(Pipe.ok_run pid pid' es).accounts, (Pipe.ok_run pid pid' es).swap.accounts⟩

/-! ## Progress

However little the kernel takes and gives at a time, nothing stays behind. -/

/-- What is left to be done: a byte in the queue is to be written and read, one on its way to be
read. -/
def Pipe.work (p : Pipe) : Nat := 2 * (unsent p.near.ibuf.w.bufs).length + p.toFar.length

/-- The far end takes messages. -/
def takes (n : Nat) : List (Side × Act) := List.replicate n (.far, .get)

/-- The far end takes messages, the near end writes and the far end reads, a byte or more. -/
def turn (n : Nat) (amount : Nat × Nat) : List (Side × Act) :=
  takes n ++ [(.near, .write (.sent (amount.1 + 1))), (.far, .read (amount.2 + 1))]

theorem run_gets_of_nothing {es : List (Side × Act)} (hes : ∀ e ∈ es, e = (.far, .get))
    (h : p.step (.far, .get) = p) : Run.run Pipe.step p es = p := by
  induction es with
  | nil => rfl
  | cons e es ih =>
    rw [Run.run_cons, hes e List.mem_cons_self, h]
    exact ih fun x hx => hes x (List.mem_cons_of_mem _ hx)

/-- Taking messages leaves the other end and what is on its way alone, and goes on until there is
none. -/
theorem Pipe.Ok.gets (h : p.Ok) (n : Nat) :
    let q := Run.run Pipe.step p (takes n)
    q.near = p.near ∧ q.toFar = p.toFar ∧
      ((imsgGet q.far.ibuf).1 = .nothing ∨
        q.far.ibuf.r.length + headerSize * n ≤ p.far.ibuf.r.length) := by
  induction n generalizing p with
  | zero => exact ⟨rfl, rfl, Or.inr (Nat.le_refl _)⟩
  | succ n ih =>
    rcases h.swap.get_cases with ⟨hget, hact, -⟩ | ⟨m, b, -, hact, -, hlen, -⟩
    · have hstep : p.step (.far, .get) = p := congrArg Pipe.swap hact
      rw [takes, run_gets_of_nothing (fun e he => (List.mem_replicate.mp he).2) hstep]
      exact ⟨rfl, rfl, Or.inl hget⟩
    · have hstep : p.step (.far, .get) =
          { p with far := { p.far with ibuf := b, got := p.far.got ++ [m] } } :=
            congrArg Pipe.swap hact
      obtain ⟨hnear, hchan, hrest⟩ := ih (h.step (.far, .get))
      rw [takes, List.replicate_succ, Run.run_cons]
      rw [hstep] at hnear hchan hrest ⊢
      refine ⟨hnear, hchan, hrest.imp id fun hle => ?_⟩
      have hlen' : b.r.length + headerSize ≤ p.far.ibuf.r.length := hlen
      have hle' := Nat.add_le_add_right hle headerSize
      rw [Nat.mul_succ, ← Nat.add_assoc]
      exact Nat.le_trans hle' hlen'

/-- A read buffer has no room for more than so many messages. -/
theorem Pipe.Ok.takes (h : p.Ok) (hn : ibufReadSize < headerSize * n) :
    let q := Run.run Pipe.step p (takes n)
    q.near = p.near ∧ q.toFar = p.toFar ∧ (imsgGet q.far.ibuf).1 = .nothing := by
  obtain ⟨hnear, hchan, hnothing | hlen⟩ := h.gets n
  · exact ⟨hnear, hchan, hnothing⟩
  · have hroom := h.far.room
    omega

/-- Writing gets work done or changes nothing. -/
theorem Pipe.Ok.work_write (h : p.Ok) (res : Send) :
    p.act (.write res) = p ∨ (p.act (.write res)).work < p.work := by
  have hmoved := congrArg List.length (unsent_write h.near.queue.queued res)
  rw [List.length_append] at hmoved
  by_cases hnil : (msgbufWrite res p.near.ibuf.w).2.2.length = 0
  · refine Or.inl ?_
    have hsame := msgbufWrite_nothing hnil
    rw [List.length_eq_zero_iff] at hnil
    rw [Pipe.act, hsame, hnil, List.append_nil]
  · refine Or.inr ?_
    simp only [Pipe.act, Pipe.work, List.length_append]
    omega

/-- It gets some done if there is something to write. -/
theorem Pipe.Ok.work_write_lt (h : p.Ok) (hne : p.near.ibuf.w.bufs ≠ []) (n : Nat) :
    (p.act (.write (.sent (n + 1)))).work < p.work := by
  have hmoved := congrArg List.length (unsent_write h.near.queue.queued (.sent (n + 1)))
  have hpos := length_write_pos h.near.queue.queued hne n
  rw [List.length_append] at hmoved
  simp only [Pipe.act, Pipe.work, List.length_append]
  omega

/-- Reading gets work of the other end done or changes nothing. -/
theorem Pipe.work_read (p : Pipe) (n : Nat) :
    p.act (.read n) = p ∨ (p.act (.read n)).swap.work < p.swap.work := by
  cases hs : received (min n (ibufReadSize - p.near.ibuf.r.length)) false p.toNear with
  | nil =>
    refine Or.inl ?_
    simp [Pipe.act, hs, imsgRead]
  | cons x s =>
    refine Or.inr ?_
    obtain ⟨rest, hrest⟩ :=
      received_prefix (min n (ibufReadSize - p.near.ibuf.r.length)) false p.toNear
    rw [hs] at hrest
    have hlen := congrArg List.length hrest
    rw [List.length_append, List.length_cons] at hlen
    simp only [Pipe.act, Pipe.swap, Pipe.work, hs, List.length_drop, List.length_cons]
    omega

/-- It gets some done if there is something to read and room for it. -/
theorem Pipe.work_read_lt (hne : p.toNear ≠ []) (hroom : p.near.ibuf.r.length < ibufReadSize)
    (n : Nat) : (p.act (.read (n + 1))).swap.work < p.swap.work := by
  obtain ⟨k, hk⟩ : ∃ k, min (n + 1) (ibufReadSize - p.near.ibuf.r.length) = k + 1 :=
    ⟨min (n + 1) (ibufReadSize - p.near.ibuf.r.length) - 1, by omega⟩
  cases hc : p.toNear with
  | nil => exact absurd hc hne
  | cons x c =>
    simp only [Pipe.act, Pipe.swap, Pipe.work, hk, hc, received, Bool.and_false, Bool.false_eq_true,
      if_false, List.length_drop, List.length_cons]
    omega

/-- Taking a message moves nothing. -/
theorem Pipe.Ok.work_get (h : p.Ok) :
    (p.act .get).work = p.work ∧ (p.act .get).swap.work = p.swap.work := by
  rcases h.get_cases with ⟨-, hact, -⟩ | ⟨m, b, -, hact, hw, -⟩
  · rw [hact]
    exact ⟨rfl, rfl⟩
  · rw [hact]
    simp only [Pipe.work, Pipe.swap, hw, and_self]

/-- A turn gets work done, as long as there is some. -/
theorem Pipe.Ok.work_turn (h : p.Ok) (hn : ibufReadSize < headerSize * n) (amount : Nat × Nat) :
    let q := Run.run Pipe.step p (turn n amount)
    q.near.composed = p.near.composed ∧ q.work ≤ p.work - 1 := by
  obtain ⟨hnear, hchan, hnothing⟩ := h.takes hn
  have hok := h.run (Wire.takes n)
  have hroom : (Run.run Pipe.step p (Wire.takes n)).far.ibuf.r.length < maxImsgsize := by
    rcases hok.swap.get_cases with ⟨-, -, hlen, -⟩ | ⟨m, b, hget, -⟩
    · exact hlen
    · exact Got.noConfusion (hget.symm.trans hnothing)
  rw [turn, Run.run_append]
  generalize Run.run Pipe.step p (Wire.takes n) = q at hnear hchan hok hroom ⊢
  have hwork : q.work = p.work := by rw [Pipe.work, Pipe.work, hnear, hchan]
  refine ⟨by rw [← hnear]; rfl, ?_⟩
  -- the two calls
  have hwrite : (q.act (.write (.sent (amount.1 + 1)))).work ≤ q.work := by
    rcases hok.work_write (.sent (amount.1 + 1)) with hsame | hless
    · rw [hsame]
    · exact Nat.le_of_lt hless
  have hread : ((q.act (.write (.sent (amount.1 + 1)))).step (.far, .read (amount.2 + 1))).work
      ≤ (q.act (.write (.sent (amount.1 + 1)))).work := by
    rcases (q.act (.write (.sent (amount.1 + 1)))).swap.work_read (amount.2 + 1) with hsame | hless
    · exact Nat.le_of_eq (congrArg (fun p => p.swap.work) hsame)
    · exact Nat.le_of_lt hless
  show ((q.act (.write (.sent (amount.1 + 1)))).step (.far, .read (amount.2 + 1))).work ≤ p.work - 1
  by_cases hbufs : q.near.ibuf.w.bufs = []
  · by_cases hempty : q.toFar = []
    · -- there was nothing to do
      have hzero : q.work = 0 := by rw [Pipe.work, hbufs, hempty]; rfl
      omega
    · have hfull : (q.act (.write (.sent (amount.1 + 1)))).swap.toNear ≠ [] := by
        intro hnil
        exact hempty (List.append_eq_nil_iff.mp hnil).1
      have hlt : ((q.act (.write (.sent (amount.1 + 1)))).step (.far, .read (amount.2 + 1))).work
          < (q.act (.write (.sent (amount.1 + 1)))).work :=
        Pipe.work_read_lt hfull (Nat.lt_trans hroom (by decide)) amount.2
      omega
  · have hlt := hok.work_write_lt hbufs amount.1
    omega

theorem Pipe.Ok.turns (h : p.Ok) (hn : ibufReadSize < headerSize * n) {amounts : List (Nat × Nat)}
    (hwork : p.work ≤ amounts.length) :
    let q := Run.run Pipe.step p (amounts.flatMap (turn n))
    q.near.composed = p.near.composed ∧ q.work = 0 := by
  induction amounts generalizing p with
  | nil => exact ⟨rfl, Nat.le_zero.mp hwork⟩
  | cons amount amounts ih =>
    obtain ⟨hcomposed, hless⟩ := h.work_turn hn amount
    have hrest := ih (h.run (turn n amount)) (by rw [List.length_cons] at hwork; omega)
    rw [List.flatMap_cons, Run.run_append]
    exact ⟨hrest.1.trans hcomposed, hrest.2⟩

theorem Pipe.Ok.delivered (h : p.Ok) (hn : ibufReadSize < headerSize * n)
    {amounts : List (Nat × Nat)} (hwork : p.work ≤ amounts.length) :
    (Run.run Pipe.step p (amounts.flatMap (turn n) ++ Wire.takes n)).far.got = p.near.composed := by
  obtain ⟨hcomposed, hdone⟩ := h.turns hn hwork
  have hok := h.run (amounts.flatMap (turn n))
  rw [Run.run_append]
  generalize Run.run Pipe.step p (amounts.flatMap (turn n)) = q at hcomposed hdone hok ⊢
  obtain ⟨hnear, hchan, hnothing⟩ := hok.takes hn
  have hzero : unsent q.near.ibuf.w.bufs = [] ∧ q.toFar = [] := by
    rw [Pipe.work] at hdone
    exact ⟨List.eq_nil_of_length_eq_zero (by omega), List.eq_nil_of_length_eq_zero (by omega)⟩
  rcases (hok.run (Wire.takes n)).swap.get_cases with ⟨-, -, -, hall | hleft⟩ | ⟨m, b, hget, -⟩
  · rw [← hcomposed, ← hnear]
    exact hall
  · refine absurd ?_ hleft
    show (Run.run Pipe.step q (Wire.takes n)).toFar ++
      unsent (Run.run Pipe.step q (Wire.takes n)).near.ibuf.w.bufs = []
    rw [hchan, hnear, hzero.1, hzero.2]
    rfl
  · exact Got.noConfusion (hget.symm.trans hnothing)

/-- **Messages are delivered in time.** In any state the two ends can get into: if from then on the
far end takes what messages it has, the near end writes and the far end reads in turn, all that was
composed has arrived after as many turns as there is work, whatever the amounts the kernel takes and
gives. -/
theorem messages_delivered_in_time (pid pid' : UInt32) (es : List (Side × Act))
    (amounts : Nat → Nat × Nat) :
    let p := Run.run Pipe.step (Pipe.new pid pid') es
    let n := ibufReadSize / headerSize + 1
    (Run.run Pipe.step p (((List.range p.work).map amounts).flatMap (turn n) ++ takes n)).far.got
      = p.near.composed := by
  intro p n
  have hlen : p.work = ((List.range p.work).map amounts).length := by
    rw [List.length_map, List.length_range]
  exact (Pipe.ok_run pid pid' es).delivered (by decide) (Nat.le_of_eq hlen)

end Pipe

end Wire

end Galileo
