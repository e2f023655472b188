import Galileo.Model.Privsep
import Galileo.Proof.Pipe
import Mathlib.Data.Prod.Lex

/-!
# A socket pair between two event loops

`proc_dispatch` reads, writes and then takes messages until there are none, and asks libevent for
`EV_WRITE` again if something is left to write. Two things could go wrong without a call failing:
the read buffer could be full, and nothing could be queued when `msgbuf_write` is called; either
would be taken for the end of the connection. Neither happens. A process that waits has taken all
messages, so there is less than one message in its buffer; and it waits for `EV_WRITE` if and only
if something is queued (`Line.Near`).
-/

set_option autoImplicit false

namespace Galileo

open Lib

namespace Wire

/-- What a process is doing with its end. -/
inductive Mode where
  /-- It is in its event loop. -/
  | settled
  /-- It writes until there is nothing left. -/
  | flushing
  /-- It is in `proc_dispatch`. -/
  | dispatching

/-- A process that is not in `proc_dispatch` has taken all messages it has, and one that is in its
event loop asks for `EV_WRITE` if and only if there is something to write. -/
def Line.Near : Mode → Line → Prop
  | .settled, l =>
    l.nearWrite = (l.pipe.near.ibuf.w.queued != 0) ∧ (imsgGet l.pipe.near.ibuf).1 = .nothing
  | .flushing, l => (imsgGet l.pipe.near.ibuf).1 = .nothing
  | .dispatching, _ => True

structure Line.Ok (near far : Mode) (l : Line) : Prop where
  pipe : l.pipe.Ok
  near : l.Near near
  far : l.swap.Near far

section Line

variable {l : Line} {near far : Mode} {req : Request}

theorem Line.Ok.swap (h : l.Ok near far) : l.swap.Ok far near := ⟨h.pipe.swap, h.far, h.near⟩

/-- Whether there is a message depends on what was read. -/
theorem imsgGet_congr {b b' : Imsgbuf} (hr : b'.r = b.r) (hfds : b'.fds = b.fds) :
    (imsgGet b').1 = (imsgGet b).1 := by
  obtain ⟨fds, r, w, pid⟩ := b
  obtain ⟨fds', r', w', pid'⟩ := b'
  simp only at hr hfds
  subst hr hfds
  simp only [imsgGet]
  split
  · rfl
  · split
    · rfl
    · split
      · rfl
      · rfl

theorem Line.Near.flushing (h : l.Near .settled) : l.Near .flushing := h.2

theorem Line.Near.eventAdd (h : l.Near .flushing) : (imsgEventAdd l).Near .settled := ⟨rfl, h⟩

/-- The far end does not notice what the near end does. -/
theorem Line.far_congr {l' : Line} (h : l.swap.Near far) (hwrite : l'.farWrite = l.farWrite)
    (hfar : l'.pipe.far = l.pipe.far) : l'.swap.Near far := by
  cases far with
  | settled =>
    refine ⟨?_, ?_⟩
    · show l'.farWrite = (l'.pipe.far.ibuf.w.queued != 0)
      rw [hwrite, hfar]
      exact h.1
    · show (imsgGet l'.pipe.far.ibuf).1 = .nothing
      rw [hfar]
      exact h.2
  | flushing =>
    show (imsgGet l'.pipe.far.ibuf).1 = .nothing
    rw [hfar]
    exact h
  | dispatching => trivial

theorem imsgComposeEvent_eq (hfits : headerSize + req.data.length ≤ maxImsgsize) (l : Line) :
    imsgComposeEvent req l = some (imsgEventAdd (l.act (.compose req))) := by
  rw [imsgComposeEvent, imsgCompose_eq, if_pos hfits]
  rfl

theorem Line.Ok.compose (h : l.Ok near far) (hfits : headerSize + req.data.length ≤ maxImsgsize) :
    (imsgEventAdd (l.act (.compose req))).Ok near far := by
  refine ⟨h.pipe.compose req, ?_, Line.far_congr h.far rfl (l.pipe.act_far (.compose req))⟩
  have hact : l.pipe.act (.compose req) = _ :=
    l.pipe.act_compose (show (req.message l.pipe.near.ibuf).Fits from hfits)
  have hidle : (imsgGet l.pipe.near.ibuf).1 = .nothing →
      (imsgGet (l.act (.compose req)).pipe.near.ibuf).1 = .nothing := by
    intro hnothing
    rw [Line.act, hact, ← hnothing]
    exact imsgGet_congr rfl rfl
  cases near with
  | settled => exact ⟨rfl, hidle h.near.2⟩
  | flushing => exact hidle h.near
  | dispatching => trivial

/-- `sendmsg` takes something or fails for now. -/
def Send.Works (send : Send) : Prop := send ≠ .fail ∧ send ≠ .sent 0

/-- `recvmsg` gives something or fails for now. -/
def Recv.Works (recv : Recv) : Prop := recv ≠ .fail ∧ recv ≠ .eof

structure Ready.Works (ready : Ready) : Prop where
  read : ∀ recv, ready.read = some recv → recv.Works
  write : ∀ send, ready.write = some send → send.Works

theorem dispatchRead_eq (h : l.pipe.Ok) (hidle : (imsgGet l.pipe.near.ibuf).1 = .nothing)
    {recv : Recv} (hrecv : recv.Works) : (dispatchRead recv l = some l ∧ ∀ n, recv ≠ .ready n) ∨
      ∃ n, recv = .ready n ∧ dispatchRead recv l = some (l.act (.read (n + 1))) ∧
        l.pipe.near.ibuf.r.length < ibufReadSize := by
  cases recv with
  | again => exact Or.inl ⟨rfl, fun _ => Recv.noConfusion⟩
  | fail => exact absurd rfl hrecv.1
  | eof => exact absurd rfl hrecv.2
  | ready n =>
    -- a message that is not complete leaves room
    have hroom : l.pipe.near.ibuf.r.length < maxImsgsize := by
      rcases h.get_cases with ⟨-, -, hlen, -⟩ | ⟨m, b, hget, -⟩
      · exact hlen
      · exact Got.noConfusion (hget.symm.trans hidle)
    have hlt : l.pipe.near.ibuf.r.length < ibufReadSize := Nat.lt_trans hroom (by decide)
    exact Or.inr ⟨n, rfl, by rw [dispatchRead, if_neg (Nat.ne_of_lt hlt)], hlt⟩

theorem dispatchWrite_eq (h : l.pipe.near.ibuf.w.queued ≠ 0) (hok : l.pipe.Ok) {send : Send}
    (hsend : send.Works) : dispatchWrite send l = some (l.act (.write send)) := by
  cases send with
  | again => rfl
  | fail => exact absurd rfl hsend.1
  | sent n =>
    obtain ⟨n, rfl⟩ : ∃ k, n = k + 1 :=
      ⟨n - 1, by have hn : n ≠ 0 := fun hn => hsend.2 (by rw [hn]); omega⟩
    have hne : l.pipe.near.ibuf.w.bufs ≠ [] := by
      intro hnil
      exact h (by rw [hok.near.queue.count, hnil]; rfl)
    have hpos := length_write_pos hok.near.queue.queued hne n
    have hwrote : (msgbufWrite (.sent (n + 1)) l.pipe.near.ibuf.w).1 = .ok := by
      rw [msgbufWrite] at hpos ⊢
      split
      · next hzero =>
        simp [hzero] at hpos
      · rfl
    rw [dispatchWrite, hwrote]

/-- What a line has moved from `l` to `l'` without a message being composed or taken. -/
structure Line.Moved (l l' : Line) : Prop where
  ok : l'.pipe.Ok
  down : l'.pipe.pending = l.pipe.pending
  up : l'.pipe.swap.pending = l.pipe.swap.pending
  far : l'.pipe.far = l.pipe.far
  farWrite : l'.farWrite = l.farWrite

/-- The work that is left in both directions. -/
def Line.work (l : Line) : Nat := l.pipe.work + l.pipe.swap.work

theorem Line.work_swap (l : Line) : l.swap.work = l.work := Nat.add_comm _ _

/-- What the two processes have still to do about answers: an `IMSG_CFG_DONE` is to be taken by the
far end and then its answer by the near one. -/
def Line.due (l : Line) : Nat :=
  2 * l.pipe.pending.countP (·.type == ImsgType.cfgDone.code) + l.pipe.swap.pending.length

/-- What is left to be done at all. An answer makes new work, so answers go first. -/
def Line.left (l : Line) : ℕ ×ₗ ℕ := toLex (l.due, l.work)

/-- Less is left to be done or all is the same; and less is left if there was something to read or,
when it was asked for, something could be written. -/
structure Ready.Progress (ready : Ready) (readable asked same less : Prop) : Prop where
  changed : same ∨ less
  read : ∀ n, ready.read = some (.ready n) → readable → less
  write : ∀ n, ready.write = some (.sent (n + 1)) → asked → less

theorem Ready.Progress.imp {ready : Ready} {readable asked same less same' less' : Prop}
    (h : ready.Progress readable asked same less) (hsame : same → same') (hless : less → less') :
    ready.Progress readable asked same' less' where
  changed := h.changed.imp hsame hless
  read n hn hreadable := hless (h.read n hn hreadable)
  write n hn hasked := hless (h.write n hn hasked)

theorem Line.Moved.due {l' : Line} (h : l.Moved l') : l'.due = l.due := by
  rw [Line.due, Line.due, h.down, h.up]

theorem Line.Moved.refl (h : l.pipe.Ok) : l.Moved l := ⟨h, rfl, rfl, rfl, rfl⟩

section Somebody

variable {ready : Ready} {α : Type} {readable asked : α → Prop} {same less : Prop}

/-- There is nobody to read or write. -/
theorem Ready.Progress.nobody (h : same) :
    ready.Progress (∃ k ∈ (none : Option α), readable k)
      (∃ k ∈ (none : Option α), asked k) same less where
  changed := Or.inl h
  read _ _ hk := by
    obtain ⟨k, hk, -⟩ := hk
    cases hk
  write _ _ hk := by
    obtain ⟨k, hk, -⟩ := hk
    cases hk

theorem Ready.Progress.somebody {k : α} (h : ready.Progress (readable k) (asked k) same less) :
    ready.Progress (∃ k' ∈ some k, readable k') (∃ k' ∈ some k, asked k') same less where
  changed := h.changed
  read n hn hk := by
    obtain ⟨k', hk', hk⟩ := hk
    obtain rfl := Option.some.inj hk'
    exact h.read n hn hk
  write n hn hk := by
    obtain ⟨k', hk', hk⟩ := hk
    obtain rfl := Option.some.inj hk'
    exact h.write n hn hk

end Somebody

/-- The part for `EV_READ`. -/
theorem dispatchRead_spec (h : l.pipe.Ok) (hidle : (imsgGet l.pipe.near.ibuf).1 = .nothing)
    {read : Option Recv} (hread : ∀ recv, read = some recv → recv.Works) :
    ∃ l', (read.elim (some l) fun recv => dispatchRead recv l) = some l' ∧ l.Moved l' ∧
      l'.pipe.near.ibuf.w.queued = l.pipe.near.ibuf.w.queued ∧ (l' = l ∨ l'.work < l.work) ∧
      ∀ n, read = some (.ready n) → l.pipe.toNear ≠ [] → l'.work < l.work := by
  cases read with
  | none =>
    refine ⟨l, rfl, .refl h, rfl, Or.inl rfl, fun n hn => ?_⟩
    cases hn
  | some recv =>
    rcases dispatchRead_eq h hidle (hread recv rfl) with ⟨heq, hnone⟩ | ⟨n, rfl, heq, hroom⟩
    · refine ⟨l, heq, .refl h, rfl, Or.inl rfl, fun n hn => ?_⟩
      exact absurd (Option.some.inj hn) (hnone n)
    · refine ⟨l.act (.read (n + 1)), heq, ⟨h.read (n + 1), rfl, rfl, rfl, rfl⟩, rfl, ?_, ?_⟩
      · rcases l.pipe.work_read (n + 1) with hsame | hless
        · exact Or.inl (by rw [Line.act, hsame])
        · exact Or.inr (Nat.add_lt_add_left hless l.pipe.work)
      · intro _ _ hne
        exact Nat.add_lt_add_left (Pipe.work_read_lt hne hroom n) l.pipe.work

/-- The part for `EV_WRITE`. -/
theorem dispatchWrite_spec (hqueued : l.pipe.near.ibuf.w.queued ≠ 0) (h : l.pipe.Ok)
    {write : Option Send} (hwrite : ∀ send, write = some send → send.Works) :
    ∃ l', (write.elim (some l) fun send => dispatchWrite send l) = some l' ∧ l.Moved l' ∧
      (l' = l ∨ l'.work < l.work) ∧ ∀ n, write = some (.sent (n + 1)) → l'.work < l.work := by
  cases write with
  | none =>
    refine ⟨l, rfl, .refl h, Or.inl rfl, fun n hn => ?_⟩
    cases hn
  | some send =>
    refine ⟨l.act (.write send), dispatchWrite_eq hqueued h (hwrite send rfl),
      ⟨h.write send, rfl, rfl, rfl, rfl⟩, ?_, ?_⟩
    · rcases h.work_write send with hsame | hless
      · exact Or.inl (by rw [Line.act, hsame])
      · exact Or.inr (Nat.add_lt_add_right hless l.pipe.swap.work)
    · intro n hn
      cases hn
      have hne : l.pipe.near.ibuf.w.bufs ≠ [] := by
        intro hnil
        exact hqueued (by rw [h.near.queue.count, hnil]; rfl)
      exact Nat.add_lt_add_right (h.work_write_lt hne n) l.pipe.swap.work

/-- `proc_dispatch` reads and writes, and does not take the pipe for dead. -/
theorem dispatchIo_spec (h : l.Ok .settled far) {ready : Ready} (hready : ready.Works) :
    ∃ l', dispatchIo ready l = some l' ∧ l.Moved l' ∧
      ready.Progress (l.pipe.toNear ≠ []) (l.nearWrite = true) (l' = l) (l'.work < l.work) := by
  obtain ⟨hflag, hidle⟩ := h.near
  obtain ⟨l₁, hl₁, hmoved, hw, hchanged, hreads⟩ := dispatchRead_spec h.pipe hidle hready.read
  rw [dispatchIo, hl₁, Option.bind_some]
  cases hasked : l.nearWrite with
  | false =>
    exact ⟨l₁, rfl, hmoved, hchanged, hreads, fun n _ => Bool.noConfusion⟩
  | true =>
    have hne : l₁.pipe.near.ibuf.w.queued ≠ 0 := by
      rw [hw]
      rw [hasked] at hflag
      simpa using hflag.symm
    obtain ⟨l₂, hl₂, hmoved₂, hchanged₂, hwrites⟩ := dispatchWrite_spec hne hmoved.ok hready.write
    have hle : l₁.work ≤ l.work := hchanged.elim (fun hsame => by rw [hsame]) Nat.le_of_lt
    have hle₂ : l₂.work ≤ l₁.work := hchanged₂.elim (fun hsame => by rw [hsame]) Nat.le_of_lt
    refine ⟨l₂, by rw [if_pos rfl]; exact hl₂, ⟨hmoved₂.ok, hmoved₂.down.trans hmoved.down,
      hmoved₂.up.trans hmoved.up, hmoved₂.far.trans hmoved.far,
      hmoved₂.farWrite.trans hmoved.farWrite⟩, ?_, ?_, ?_⟩
    · rcases hchanged₂ with rfl | hless
      · exact hchanged
      · exact Or.inr (Nat.lt_of_lt_of_le hless hle)
    · intro n hn hfull
      exact Nat.lt_of_le_of_lt hle₂ (hreads n hn hfull)
    · intro n hn _
      exact Nat.lt_of_lt_of_le (hwrites n hn) hle

end Line

/-- **The loop of `proc_dispatch`.** When the callback handles every message, and what is left to be
handled gets less, the loop ends where there is no message left. -/
theorem dispatchLoop_rule {S : Type} {get : S → Got × S} {cb : Message → S → Option S}
    {I : S → Prop} {M : S → Nat} (hturn : ∀ s, I s → get s = (.nothing, s) ∨
      ∃ m s₁ s', get s = (.message m, s₁) ∧ cb m s₁ = some s' ∧ I s' ∧ M s' < M s)
    {n : Nat} {s : S} (hs : I s) (hn : M s < n) :
    ∃ s', dispatchLoop get cb n s = some s' ∧ I s' ∧ (get s').1 = .nothing := by
  induction n generalizing s with
  | zero => omega
  | succ n ih =>
    rcases hturn s hs with hnothing | ⟨m, s₁, s', hget, hcb, hI, hlt⟩
    · exact ⟨s, by rw [dispatchLoop, hnothing], hs, by rw [hnothing]⟩
    · obtain ⟨t, ht, hIt, hend⟩ := ih hI (by omega)
      exact ⟨t, by rw [dispatchLoop, hget]; simp only [hcb, Option.bind_some, ht], hIt, hend⟩

end Wire

end Galileo
