import Galileo.Lib.Peers
import Galileo.Proof.Line
import Galileo.Proof.Memory
import Galileo.Proof.Reload

/-!
# The bytes carry the daemon

`Model/Daemon` says what the parent and its proxies are to each other: processes with queues of
messages between them, and a reload that is one step. The program has socket pairs, structures
copied into messages, event loops that read and write what the kernel lets them, and a reload during
which the parent waits for each of its proxies in turn. Every run of the program is a run of
`Model/Daemon` (`privsep_refines_daemon`), as long as the system calls do not fail; and then no
process ends, so none of the many `fatal`s around the messages is ever reached.

A proxy is at any time somewhere between two things the parent did at once. So the relation between
the two levels (`LinkRel`) has what the parent has still to compose for a proxy (`todo`) behind what
is in the socket pair.
-/

set_option autoImplicit false

namespace Galileo

open Lib

namespace Wire

/-! ## Messages -/

theorem ImsgType.ofCode_code (t : ImsgType) : ImsgType.ofCode t.code = some t := by
  cases t <;> rfl

variable {hostNameMax pathMax : Nat} {file : ConfFile} {ready : Ready} {k : Link}

/-- The message of `Model/Daemon` that a message stands for in `proxy_dispatch_parent`. The number
of the round is nowhere in it. -/
inductive Carries (hostNameMax pathMax : Nat) (m : Message) : Imsg → Prop
  | cfgSrv {conf : ProxyConfig} (htype : m.type = ImsgType.cfgSrv.code)
      (hsize : m.data.length = sizeofProxy hostNameMax pathMax)
      (hconf : ofProxyBytes hostNameMax pathMax m.data = conf) :
      Carries hostNameMax pathMax m (.cfgSrv conf)
  | cfgSock {fd : Nat} (htype : m.type = ImsgType.cfgSock.code) (hfd : m.fd = some fd) :
      Carries hostNameMax pathMax m (.cfgSock fd)
  | cfgDone (round : Nat) (htype : m.type = ImsgType.cfgDone.code) :
      Carries hostNameMax pathMax m (.cfgDone round)
  | ctlStart (htype : m.type = ImsgType.ctlStart.code) : Carries hostNameMax pathMax m .ctlStart
  | ctlReset (htype : m.type = ImsgType.ctlReset.code) : Carries hostNameMax pathMax m .ctlReset

/-- A request for a message that is not too long, and stands for `x`. -/
structure Asks (hostNameMax pathMax : Nat) (req : Request) (x : Imsg) : Prop where
  fits : headerSize + req.data.length ≤ maxImsgsize
  carries : ∀ b, Carries hostNameMax pathMax (req.message b) x

theorem Asks.cfgSrv (hsize : headerSize + sizeofProxy hostNameMax pathMax ≤ maxImsgsize)
    {conf : ProxyConfig} (h : Fits hostNameMax pathMax conf) (mem : Nat → UInt8) :
    Asks hostNameMax pathMax
      (request .cfgSrv 0 none (proxyBytes hostNameMax pathMax mem conf)) (.cfgSrv conf) := by
  have hlen := length_proxyBytes h mem
  have hdata : (request .cfgSrv 0 none (proxyBytes hostNameMax pathMax mem conf)).data
      = proxyBytes hostNameMax pathMax mem conf := by
    simp only [headerSize, maxImsgsize] at hsize
    refine List.take_of_length_le (Nat.le_of_eq ?_)
    rw [Nat.mod_eq_of_lt]
    omega
  refine ⟨by rw [hdata, hlen]; exact hsize, fun b => .cfgSrv rfl ?_ ?_⟩
  · rw [Request.message, hdata, hlen]
  · rw [Request.message, hdata, ofProxyBytes_proxyBytes h mem]

theorem Asks.cfgSock (fd : Nat) :
    Asks hostNameMax pathMax (request .cfgSock 0 (some fd) []) (.cfgSock fd) :=
  ⟨(by decide : headerSize + 0 ≤ maxImsgsize), fun _ => .cfgSock rfl rfl⟩

theorem Asks.cfgDone (mem : Nat → UInt8) (round : Nat) :
    Asks hostNameMax pathMax (request .cfgDone 0 none (gap mem 0 8)) (.cfgDone round) := by
  refine ⟨?_, fun _ => .cfgDone round rfl⟩
  have hlen := List.length_take_le (gap mem 0 8).length (gap mem 0 8)
  simp only [request, length_gap, headerSize, maxImsgsize, List.length_take] at hlen ⊢
  omega

theorem ctlStart_fits : headerSize + (request .ctlStart 0 none []).data.length ≤ maxImsgsize := by
  decide

theorem Asks.ctlStart : Asks hostNameMax pathMax (request .ctlStart 0 none []) .ctlStart :=
  ⟨ctlStart_fits, fun _ => .ctlStart rfl⟩

theorem Asks.ctlReset : Asks hostNameMax pathMax (request .ctlReset 0 none []) .ctlReset :=
  ⟨by decide, fun _ => .ctlReset rfl⟩

/-! ## A proxy -/

/-- **The relation for one proxy.** The process is the same; the messages on their way to it, and
those the parent has still `todo` for it, are the ones of its queue; and it has sent as many
answers. -/
structure LinkRel (hostNameMax pathMax : Nat) (near far : Mode) (todo : List Imsg) (k : Link)
    (peer : Peer) : Prop where
  line : k.line.Ok near far
  proc : peer.proc = k.proc
  down : ∃ inbox, peer.inbox = inbox ++ todo ∧
    List.Forall₂ (Carries hostNameMax pathMax) k.line.pipe.pending inbox
  up : k.line.pipe.swap.pending.length = peer.outbox.length
  acks : ∀ m ∈ k.line.pipe.swap.pending, m.type = ImsgType.cfgDone.code

section Link

variable {peer : Peer} {near far : Mode} {todo : List Imsg}

/-- The parent does something at once that takes the program some time. -/
theorem LinkRel.defer (h : LinkRel hostNameMax pathMax near far todo k peer) (ms : List Imsg) :
    LinkRel hostNameMax pathMax near far (todo ++ ms) k (peer.send ms) where
  line := h.line
  proc := h.proc
  down := by
    obtain ⟨inbox, hin, hall⟩ := h.down
    exact ⟨inbox, by rw [Peer.send, hin, List.append_assoc], hall⟩
  up := h.up
  acks := h.acks

/-- The parent composes a message for a proxy. -/
def Link.send (req : Request) (k : Link) : Link :=
  { k with line := imsgEventAdd (k.line.act (.compose req)) }

/-- It was the next thing to do. -/
theorem LinkRel.send {x : Imsg} (h : LinkRel hostNameMax pathMax near far (x :: todo) k peer)
    {req : Request} (hreq : Asks hostNameMax pathMax req x) :
    LinkRel hostNameMax pathMax near far todo (k.send req) peer where
  line := h.line.compose hreq.fits
  proc := h.proc
  down := by
    obtain ⟨inbox, hin, hall⟩ := h.down
    have hpending : (k.send req).line.pipe.pending =
        k.line.pipe.pending ++ [req.message k.line.pipe.near.ibuf] :=
      h.line.pipe.pending_compose hreq.fits
    refine ⟨inbox ++ [x], by rw [hin]; simp, ?_⟩
    rw [hpending]
    exact List.rel_append hall (.cons (hreq.carries _) .nil)
  up := by
    have hup : (k.send req).line.pipe.swap.pending = k.line.pipe.swap.pending :=
      Pipe.swap_pending_compose hreq.fits
    rw [hup]
    exact h.up
  acks := by
    have hup : (k.send req).line.pipe.swap.pending = k.line.pipe.swap.pending :=
      Pipe.swap_pending_compose hreq.fits
    rw [hup]
    exact h.acks

/-- The parent has read and written. -/
theorem LinkRel.parent_moved (h : LinkRel hostNameMax pathMax near far todo k peer) {l : Line}
    (hl : k.line.Moved l) {near' : Mode} (hnear : l.Near near') :
    LinkRel hostNameMax pathMax near' far todo { k with line := l } peer where
  line := ⟨hl.ok, hnear, Line.far_congr h.line.far hl.farWrite hl.far⟩
  proc := h.proc
  down := by
    obtain ⟨inbox, hin, hall⟩ := h.down
    exact ⟨inbox, hin, by rw [hl.down]; exact hall⟩
  up := by
    rw [hl.up]
    exact h.up
  acks := by
    rw [hl.up]
    exact h.acks

/-- The proxy has. -/
theorem LinkRel.proxy_moved (h : LinkRel hostNameMax pathMax near far todo k peer) {l : Line}
    (hl : k.line.swap.Moved l) {far' : Mode} (hfar : l.Near far') :
    LinkRel hostNameMax pathMax near far' todo { k with line := l.swap } peer where
  line := ⟨hl.ok.swap, Line.far_congr h.line.swap.far hl.farWrite hl.far, hfar⟩
  proc := h.proc
  down := by
    obtain ⟨inbox, hin, hall⟩ := h.down
    exact ⟨inbox, hin, by rw [show l.swap.pipe.pending = _ from hl.up]; exact hall⟩
  up := by
    rw [show l.swap.pipe.swap.pending = _ from hl.down]
    exact h.up
  acks := by
    rw [show l.swap.pipe.swap.pending = _ from hl.down]
    exact h.acks

/-- The proxy answers. -/
def Link.ack (inst : Nat) (k : Link) : Link :=
  { k with
    line := (imsgEventAdd (k.line.swap.act (.compose (request .cfgDone inst none [])))).swap }

theorem ack_fits (inst : Nat) :
    headerSize + (request .cfgDone inst none []).data.length ≤ maxImsgsize :=
  (by decide : headerSize + 0 ≤ maxImsgsize)

theorem pending_ack (h : k.line.pipe.Ok) (inst : Nat) :
    (k.ack inst).line.pipe.pending = k.line.pipe.pending ∧
      (k.ack inst).line.pipe.swap.pending = k.line.pipe.swap.pending ++
        [(request .cfgDone inst none []).message k.line.pipe.far.ibuf] :=
  ⟨Pipe.swap_pending_compose (p := k.line.pipe.swap) (ack_fits inst),
    h.swap.pending_compose (ack_fits inst)⟩

theorem LinkRel.ack (h : LinkRel hostNameMax pathMax near far todo k peer) (inst round : Nat) :
    LinkRel hostNameMax pathMax near far todo (k.ack inst)
      { peer with outbox := peer.outbox ++ [round] } := by
  obtain ⟨hdown, hup⟩ := pending_ack h.line.pipe inst
  refine ⟨(h.line.swap.compose (ack_fits inst)).swap, h.proc, ?_, ?_, ?_⟩
  · rw [hdown]
    exact h.down
  · rw [hup, List.length_append, List.length_append, h.up]
    rfl
  · rw [hup]
    intro m hm
    rcases List.mem_append.mp hm with hm | hm
    · exact h.acks m hm
    · rw [List.mem_singleton.mp hm]
      rfl

/-- A proxy handles the next message. -/
theorem LinkRel.receive (h : LinkRel hostNameMax pathMax near .dispatching todo k peer)
    (inst : Nat) :
    k.get = (.nothing, k) ∨
      ∃ m k₁ k', k.get = (.message m, k₁) ∧
        proxyDispatchParent hostNameMax pathMax inst m k₁ = some k' ∧
        LinkRel hostNameMax pathMax near .dispatching todo k' peer.receive ∧
        k'.line.pipe.far.ibuf.r.length < k.line.pipe.far.ibuf.r.length ∧
          k'.line.left ≤ k.line.left := by
  have hok := h.line.pipe.swap
  rcases hok.get_cases with ⟨hget, hact, -⟩ | ⟨m, b, hget, hact, -, hlen, -⟩
  · refine Or.inl ?_
    rw [Link.get, Line.act, show k.line.swap.pipe.act .get = k.line.swap.pipe from hact]
    exact Prod.ext hget rfl
  · obtain ⟨hdown, hup⟩ := hok.pending_get hact
    obtain ⟨inbox, hin, hall⟩ := h.down
    rw [show k.line.pipe.pending = _ from hdown] at hall
    cases hall with
    | @cons _ x _ inbox hx hrest =>
    -- the link and its peer without the message
    have hk₁ : LinkRel hostNameMax pathMax near .dispatching todo
        { k with line := (k.line.swap.act .get).swap } { peer with inbox := inbox ++ todo } := by
      refine ⟨⟨hok.get.swap, ?_, trivial⟩, h.proc, ⟨inbox, rfl, hrest⟩, ?_, ?_⟩
      · exact Line.far_congr h.line.swap.far rfl (k.line.swap.pipe.act_far .get)
      · show (k.line.pipe.swap.act .get).pending.length = _
        rw [hup]
        exact h.up
      · show ∀ m ∈ (k.line.pipe.swap.act .get).pending, _
        rw [hup]
        exact h.acks
    have hreceive : peer.receive = ⟨(Galileo.proxyDispatchParent x peer.proc).1, inbox ++ todo,
        peer.outbox ++ (Galileo.proxyDispatchParent x peer.proc).2.toList⟩ := by
      rw [Peer.receive, hin]
      rfl
    have hless : (k.line.swap.act .get).swap.pipe.far.ibuf.r.length
        < k.line.pipe.far.ibuf.r.length := by
      show (k.line.swap.pipe.act .get).near.ibuf.r.length < k.line.swap.pipe.near.ibuf.r.length
      rw [show k.line.swap.pipe.act .get = _ from hact]
      have hheader : 0 < headerSize := by decide
      simp only
      exact Nat.lt_of_lt_of_le (Nat.lt_add_of_pos_right hheader) hlen
    have hproc := h.proc
    have hdue : k.line.due = (k.line.swap.act .get).swap.due
        + if m.type == ImsgType.cfgDone.code then 2 else 0 := by
      show 2 * k.line.pipe.swap.swap.pending.countP _ + k.line.pipe.swap.pending.length
        = 2 * (k.line.pipe.swap.act .get).swap.pending.countP _
          + (k.line.pipe.swap.act .get).pending.length + _
      rw [hdown, hup, List.countP_cons]
      split
      · omega
      · omega
    -- a message that is not answered
    have hquiet : (Galileo.proxyDispatchParent x k.proc).2 = none → m.type ≠ ImsgType.cfgDone.code →
        LinkRel hostNameMax pathMax near .dispatching todo
            { line := (k.line.swap.act .get).swap,
              proc := (Galileo.proxyDispatchParent x k.proc).1 }
            peer.receive ∧
          (k.line.swap.act .get).swap.pipe.far.ibuf.r.length < k.line.pipe.far.ibuf.r.length ∧
          (k.line.swap.act .get).swap.left ≤ k.line.left := by
      intro hnone hother
      refine ⟨?_, hless, le_of_eq ?_⟩
      · rw [hreceive, hproc, hnone, Option.toList_none, List.append_nil]
        exact ⟨hk₁.line, rfl, hk₁.down, hk₁.up, hk₁.acks⟩
      · have hwork : (k.line.swap.act .get).swap.work = k.line.work := by
          rw [Line.work_swap, ← Line.work_swap k.line]
          exact congrArg₂ (· + ·) hok.work_get.1 hok.work_get.2
        rw [Line.left, Line.left, hdue, hwork, if_neg (by simpa using hother)]
        rfl
    refine Or.inr ⟨m, { k with line := (k.line.swap.act .get).swap }, ?_⟩
    have hgetm : k.get = (.message m, { k with line := (k.line.swap.act .get).swap }) :=
      Prod.ext hget rfl
    have hcode : ∀ t : ImsgType, m.type = t.code → t ≠ .cfgDone →
        m.type ≠ ImsgType.cfgDone.code := by
      intro t htype hne hdone
      have hsame := congrArg ImsgType.ofCode (htype.symm.trans hdone)
      rw [ImsgType.ofCode_code, ImsgType.ofCode_code] at hsame
      exact hne (Option.some.inj hsame)
    cases hx with
    | cfgSrv htype hsize hconf =>
      refine ⟨_, hgetm, ?_, hquiet rfl (hcode _ htype ImsgType.noConfusion)⟩
      rw [proxyDispatchParent, htype, ImsgType.ofCode_code]
      simp only [hsize, hconf, ne_eq, not_true_eq_false, if_false]
    | cfgSock htype hfd =>
      refine ⟨_, hgetm, ?_, hquiet rfl (hcode _ htype ImsgType.noConfusion)⟩
      rw [proxyDispatchParent, htype, ImsgType.ofCode_code]
      simp only [hfd, Option.map_some]
    | cfgDone round htype =>
      have hack := hk₁.ack inst round
      refine ⟨{ Link.ack inst { k with line := (k.line.swap.act .get).swap } with
        proc := (Galileo.proxyDispatchParent (.cfgDone 0) k.proc).1 }, hgetm, ?_, ?_, ?_, ?_⟩
      · rw [proxyDispatchParent, htype, ImsgType.ofCode_code]
        simp only [imsgComposeEvent_eq (ack_fits inst), Option.getD_some]
        rfl
      · rw [hreceive, hproc]
        exact ⟨hack.line, rfl, hack.down, hack.up, hack.acks⟩
      · refine Nat.lt_of_le_of_lt (Nat.le_of_eq ?_) hless
        show ((k.line.swap.act .get).pipe.act _).near.ibuf.r.length = _
        rw [@Pipe.act_compose (request .cfgDone inst none []) _ (ack_fits inst)]
        rfl
      · -- one message less for the proxy, one more for the parent
        obtain ⟨hdown₁, hup₁⟩ := pending_ack hk₁.line.pipe inst
        rw [htype, if_pos (beq_self_eq_true _)] at hdue
        refine le_of_lt (Prod.Lex.toLex_lt_toLex.mpr (Or.inl ?_))
        show (Link.ack inst _).line.due < k.line.due
        rw [Line.due, hdown₁, hup₁, List.length_append, List.length_singleton, hdue, Line.due]
        dsimp only
        omega
    | ctlStart htype =>
      refine ⟨_, hgetm, ?_, hquiet rfl (hcode _ htype ImsgType.noConfusion)⟩
      rw [proxyDispatchParent, htype, ImsgType.ofCode_code]
    | ctlReset htype =>
      refine ⟨_, hgetm, ?_, hquiet rfl (hcode _ htype ImsgType.noConfusion)⟩
      rw [proxyDispatchParent, htype, ImsgType.ofCode_code]

/-- **`proc_dispatch` in a proxy** takes some messages off its queue. -/
theorem LinkRel.procDispatch (h : LinkRel hostNameMax pathMax near .settled todo k peer)
    (inst : Nat) (hready : ready.Works) :
    ∃ n k', k.procDispatch hostNameMax pathMax inst ready = some k' ∧
      LinkRel hostNameMax pathMax near .settled todo k' (Peer.receive^[n] peer) ∧
      ready.Progress (k.line.pipe.toFar ≠ []) (k.line.farWrite = true) (k'.line = k.line)
        (k'.line.left < k.line.left) := by
  obtain ⟨l, hio, hmoved, hprogress⟩ := dispatchIo_spec h.line.swap hready
  have hstart : LinkRel hostNameMax pathMax near .dispatching todo { k with line := l.swap } peer :=
    h.proxy_moved hmoved trivial
  obtain ⟨k', hloop, ⟨⟨n, hrel⟩, hleft⟩, hend⟩ := dispatchLoop_rule
    (I := fun k' =>
      (∃ n, LinkRel hostNameMax pathMax near .dispatching todo k' (Peer.receive^[n] peer)) ∧
      k'.line.left ≤ l.swap.left)
    (M := fun k => k.line.pipe.far.ibuf.r.length)
    (fun k hk => by
      obtain ⟨⟨n, hrel⟩, hleft⟩ := hk
      rcases hrel.receive inst with hnothing | ⟨m, k₁, k', hget, hcb, hrel', hless, hle⟩
      · exact Or.inl hnothing
      · refine Or.inr ⟨m, k₁, k', hget, hcb, ⟨⟨n + 1, ?_⟩, le_trans hle hleft⟩, hless⟩
        rw [Function.iterate_succ_apply']
        exact hrel')
    (n := l.pipe.near.ibuf.r.length + 1) ⟨⟨0, hstart⟩, le_refl _⟩ (Nat.lt_succ_self _)
  refine ⟨n, { k' with line := (imsgEventAdd k'.line.swap).swap }, ?_, ?_, hprogress.imp ?_ ?_⟩
  · rw [Link.procDispatch, hio]
    simp only [Option.bind_eq_bind, Option.bind_some, hloop]
    rfl
  · have hnear := @Line.far_congr _ _ (imsgEventAdd k'.line.swap) hrel.line.swap.far rfl rfl
    exact ⟨⟨hrel.line.pipe, hnear, ⟨rfl, hend⟩⟩, hrel.proc, hrel.down, hrel.up, hrel.acks⟩
  · -- there was no message before
    rintro rfl
    have hget : Link.get { k with line := k.line.swap.swap } = (.nothing, k) := by
      rcases hstart.receive inst with hnothing | ⟨m, k₁, k₂, hget, -⟩
      · exact hnothing
      · have hidle : (Link.get { k with line := k.line.swap.swap }).1 = .nothing := h.line.far.2
        rw [hget] at hidle
        exact Got.noConfusion hidle
    rw [dispatchLoop, hget] at hloop
    obtain rfl := Option.some.inj hloop
    show (⟨k.line.pipe, k.line.nearWrite, k.line.pipe.far.ibuf.w.queued != 0⟩ : Line) = k.line
    rw [show (k.line.pipe.far.ibuf.w.queued != 0) = k.line.farWrite from h.line.far.1.symm]
  · intro hless
    have hdue : l.swap.due = k.line.due := by
      rw [Line.due, Line.due, show l.swap.pipe.pending = _ from hmoved.up,
        show l.swap.pipe.swap.pending = _ from hmoved.down]
      rfl
    refine lt_of_le_of_lt hleft (Prod.Lex.toLex_lt_toLex.mpr (Or.inr ⟨hdue, ?_⟩))
    rw [Line.work_swap, ← Line.work_swap k.line]
    exact hless

end Link

/-! ## The parent -/

/-- The two parents have read the same configuration and wait for as many answers. -/
structure Agree (p : Parent) (q : Galileo.Parent) : Prop where
  scProxies : q.scProxies = p.scProxies
  scPrefork : q.scPrefork = p.scPrefork
  scReload : q.scReload = p.scReload

/-- What is left to be done at some lines. -/
def left (ls : List Line) : ℕ ×ₗ ℕ := toLex ((ls.map Line.due).sum, (ls.map Line.work).sum)

/-- The part of the state that is about messages: where the parent is, and the lines. -/
def Privsep.view (w : Privsep) : Control × List Line := (w.control, w.links.map (·.line))

/-- The proxies that wait for a socket and the end of their configuration. -/
def Control.left (n : Nat) : Control → Nat
  | .loop => 0
  | .flushing m .. => n - m

/-- What is left to be done. What the parent does for the proxies makes more work for the lines. -/
def rank (v : Control × List Line) : ℕ ×ₗ ℕ ×ₗ ℕ := toLex (v.1.left v.2.length, left v.2)

/-- All proxies, with what the parent is doing at each of their lines and has still to do. -/
def Links (hostNameMax pathMax : Nat) (near : Nat → Mode) (todo : Nat → List Imsg) (ks : List Link)
    (peers : List Peer) : Prop :=
  Matched (fun i => LinkRel hostNameMax pathMax (near i) .settled (todo i)) ks peers

section Parent

variable {w : Privsep} {d : Daemon} {ks : List Link} {peers : List Peer} {near : Nat → Mode}
  {todo : Nat → List Imsg} {req : Request}

theorem procComposeImsg_eq (hfits : headerSize + req.data.length ≤ maxImsgsize) (ks : List Link) :
    procComposeImsg req ks = (true, ks.map (Link.send req)) := by
  induction ks with
  | nil => rfl
  | cons k ks ih =>
    rw [procComposeImsg, imsgComposeEvent_eq hfits]
    simp only [ih]
    rfl

theorem Links.defer (h : Links hostNameMax pathMax near todo ks peers) (ms : List Imsg) :
    Links hostNameMax pathMax near (fun i => todo i ++ ms) ks (peers.map (Peer.send ms)) := by
  have hboth := Matched.map (f := id) (g := Peer.send ms) h fun i k peer _ hk => hk.defer ms
  rwa [List.map_id] at hboth

theorem Links.send {x : Imsg} (h : Links hostNameMax pathMax near (fun i => x :: todo i) ks peers)
    (hreq : Asks hostNameMax pathMax req x) :
    Links hostNameMax pathMax near todo (ks.map (Link.send req)) peers :=
  Matched.map_left h fun _ _ _ _ hk => hk.send hreq

theorem left_modify {i : Nat} {f : Link → Link} (hk : ks[i]? = some k) :
    ((f k).line.left ≤ k.line.left → left ((ks.modify i f).map (·.line)) ≤ left (ks.map (·.line))) ∧
      ((f k).line.left < k.line.left →
        left ((ks.modify i f).map (·.line)) < left (ks.map (·.line))) := by
  have hdue := sum_modify (fun k : Link => k.line.due) (f := f) hk
  have hwork := sum_modify (fun k : Link => k.line.work) (f := f) hk
  simp only [left, Line.left, List.map_map, Function.comp_def, Prod.Lex.toLex_le_toLex,
    Prod.Lex.toLex_lt_toLex]
  exact ⟨fun h => by omega, fun h => by omega⟩

theorem left_eventAdd (i : Nat) (ks : List Link) :
    left ((ks.modify i fun k => { k with line := imsgEventAdd k.line }).map (·.line))
      = left (ks.map (·.line)) := by
  have hdue := map_modify (l := ks) (f := fun k => { k with line := imsgEventAdd k.line })
    (g := fun k => k.line.due) (fun _ => rfl) i
  have hwork := map_modify (l := ks) (f := fun k => { k with line := imsgEventAdd k.line })
    (g := fun k => k.line.work) (fun _ => rfl) i
  simp only [left, List.map_map, Function.comp_def, hdue, hwork]

/-- A message that is not answered is nothing that is due. -/
theorem due_send (hfits : headerSize + req.data.length ≤ maxImsgsize)
    (htype : req.type ≠ ImsgType.cfgDone.code) (h : k.line.pipe.Ok) :
    (k.send req).line.due = k.line.due := by
  have hdown : (k.send req).line.pipe.pending = _ := h.pending_compose hfits
  have hup : (k.send req).line.pipe.swap.pending = _ := Pipe.swap_pending_compose hfits
  have hother : ((req.message k.line.pipe.near.ibuf).type == ImsgType.cfgDone.code) = false :=
    beq_false_of_ne htype
  rw [Line.due, Line.due, hdown, hup, List.countP_append, List.countP_singleton, hother]
  rfl

/-- `parent_configure_done` does the same on both sides. -/
theorem Links.configureDone (hagree : Agree w.parent d.parent)
    (h : Links hostNameMax pathMax near (fun _ => []) w.links d.peers) :
    (parentConfigureDone w).control = w.control ∧
      Agree (parentConfigureDone w).parent (Galileo.parentConfigureDone d).parent ∧
      Links hostNameMax pathMax near (fun _ => []) (parentConfigureDone w).links
        (Galileo.parentConfigureDone d).peers := by
  have hstart : Links hostNameMax pathMax near (fun _ => [])
      (w.links.map (Link.send (request .ctlStart 0 none [])))
        (d.peers.map (Peer.send [.ctlStart])) :=
    Links.send (h.defer [.ctlStart]) Asks.ctlStart
  have hcompose := procComposeImsg_eq ctlStart_fits w.links
  have hreload := hagree.scReload
  rw [parentConfigureDone, Galileo.parentConfigureDone, hreload]
  by_cases hzero : w.parent.scReload = 0
  · rw [if_pos hzero, if_pos hzero]
    exact ⟨rfl, hagree, h⟩
  · rw [if_neg hzero, if_neg hzero]
    dsimp only
    by_cases hone : w.parent.scReload - 1 = 0
    · rw [if_pos hone, if_pos hone]
      rw [procCompose, hcompose]
      exact ⟨rfl, ⟨hagree.scProxies, hagree.scPrefork, rfl⟩, hstart⟩
    · rw [if_neg hone, if_neg hone]
      exact ⟨rfl, ⟨hagree.scProxies, hagree.scPrefork, rfl⟩, h⟩

/-- It makes nothing due. -/
theorem dues_configureDone (h : ∀ k ∈ w.links, k.line.pipe.Ok) :
    (parentConfigureDone w).links.map (·.line.due) = w.links.map (·.line.due) := by
  have hcompose := procComposeImsg_eq ctlStart_fits w.links
  rw [parentConfigureDone]
  split
  · rfl
  · dsimp only
    split
    · simp only [procCompose, hcompose, List.map_map, Function.comp_def]
      exact List.map_congr_left fun k hk => due_send ctlStart_fits (by decide) (h k hk)
    · rfl

/-- What is in the read buffer of the parent for a proxy. -/
def Privsep.unread (i : Nat) (w : Privsep) : Nat :=
  (w.links[i]?.map fun k => k.line.pipe.near.ibuf.r.length).getD 0

theorem unread_configureDone (i : Nat) (w : Privsep) :
    (parentConfigureDone w).unread i = w.unread i := by
  have hcompose := procComposeImsg_eq ctlStart_fits w.links
  have hsend : ∀ k : Link, (k.send (request .ctlStart 0 none [])).line.pipe.near.ibuf.r
      = k.line.pipe.near.ibuf.r := by
    intro k
    show (k.line.pipe.act _).near.ibuf.r = _
    rw [@Pipe.act_compose (request .ctlStart 0 none []) _ ctlStart_fits]
  rw [parentConfigureDone]
  split
  · rfl
  · dsimp only
    split
    · simp only [procCompose, hcompose, Privsep.unread, List.getElem?_map, Option.map_map,
        Function.comp_def, hsend]
    · rfl

/-- The modes when the parent is in `proc_dispatch` for the proxy with this number. -/
def dispatchingAt (i : Nat) (j : Nat) : Mode := if j = i then .dispatching else .settled

/-- The parent handles the next message of a proxy. -/
theorem Links.takeAck (i : Nat) (hagree : Agree w.parent d.parent)
    (h : Links hostNameMax pathMax (dispatchingAt i) (fun _ => []) w.links d.peers) :
    w.get i = (.nothing, w) ∨
      ∃ m w₁ w', w.get i = (.message m, w₁) ∧ parentDispatchProxy m w₁ = some w' ∧
        w'.control = w.control ∧ Agree w'.parent (d.takeAck i).parent ∧
        Links hostNameMax pathMax (dispatchingAt i) (fun _ => []) w'.links (d.takeAck i).peers ∧
        w'.unread i < w.unread i ∧ left (w'.links.map (·.line)) ≤ left (w.links.map (·.line)) := by
  rw [Privsep.get]
  cases hk : w.links[i]? with
  | none => exact Or.inl rfl
  | some k =>
    obtain ⟨peer, hpeer, hrel⟩ := Matched.exists_right h hk
    have hok := hrel.line.pipe
    rcases hok.get_cases with ⟨hget, hact, -⟩ | ⟨m, b, hget, hact, -, hlen, -⟩
    · refine Or.inl (Prod.ext hget ?_)
      have hfixed : { k with line := k.line.act .get } = k := by
        rw [Line.act, hact]
      rw [modify_of_fixed hk hfixed]
    · obtain ⟨hup, hdown⟩ := hok.pending_get hact
      -- there is an answer in the queue too
      have hout := hrel.up
      rw [hup, List.length_cons] at hout
      obtain ⟨round, outbox, hbox⟩ : ∃ round outbox, peer.outbox = round :: outbox := by
        cases hbox : peer.outbox with
        | nil =>
          rw [hbox, List.length_nil] at hout
          omega
        | cons round outbox => exact ⟨round, outbox, rfl⟩
      rw [hbox, List.length_cons] at hout
      have htype : m.type = ImsgType.cfgDone.code :=
        hrel.acks m (by rw [hup]; exact List.mem_cons_self)
      -- both sides without it
      have hlinks : Links hostNameMax pathMax (dispatchingAt i) (fun _ => [])
          (w.links.modify i fun k => { k with line := k.line.act .get })
          (d.peers.modify i fun peer => { peer with outbox := outbox }) := by
        refine Matched.modify h (fun k' peer' hk' hpeer' hrel' => ?_) fun _ _ _ _ hrel' => hrel'
        obtain rfl : k' = k := Option.some.inj (hk'.symm.trans hk)
        obtain rfl : peer' = peer := Option.some.inj (hpeer'.symm.trans hpeer)
        refine ⟨⟨hok.get, ?_, ?_⟩, hrel.proc, ?_, ?_, ?_⟩
        · rw [dispatchingAt, if_pos rfl]
          trivial
        · exact Line.far_congr hrel.line.far rfl (k'.line.pipe.act_far .get)
        · obtain ⟨inbox, hin, hall⟩ := hrel.down
          refine ⟨inbox, hin, ?_⟩
          show List.Forall₂ _ (k'.line.pipe.act .get).pending inbox
          rw [hdown]
          exact hall
        · show (k'.line.pipe.act .get).swap.pending.length = outbox.length
          omega
        · intro m' hm'
          exact hrel.acks m' (by rw [hup]; exact List.mem_cons_of_mem _ hm')
      have htake : d.takeAck i = Galileo.parentConfigureDone
          { parent := { d.parent with log := d.parent.log ++ [.acked i round] }
            peers := d.peers.modify i fun peer => { peer with outbox := outbox } } := by
        rw [Daemon.takeAck, hpeer]
        simp only [hbox]
      have hagree' : Agree w.parent { d.parent with log := d.parent.log ++ [.acked i round] } :=
        ⟨hagree.scProxies, hagree.scPrefork, hagree.scReload⟩
      have hdone := Links.configureDone
        (w := { w with links := w.links.modify i fun k => { k with line := k.line.act .get } })
        (d := ⟨{ d.parent with log := d.parent.log ++ [.acked i round] },
          d.peers.modify i fun peer => { peer with outbox := outbox }⟩) hagree' hlinks
      rw [← htake] at hdone
      refine Or.inr ⟨m, _, _, Prod.ext hget rfl, ?_, hdone.1, hdone.2.1, hdone.2.2, ?_, ?_⟩
      · rw [parentDispatchProxy, htype, ImsgType.ofCode_code]
      · rw [unread_configureDone, Privsep.unread, Privsep.unread, getElem?_modify_self hk, hk]
        show (k.line.pipe.act .get).near.ibuf.r.length < k.line.pipe.near.ibuf.r.length
        rw [hact]
        have hheader : 0 < headerSize := by decide
        simp only
        exact Nat.lt_of_lt_of_le (Nat.lt_add_of_pos_right hheader) hlen
      · -- one answer less
        have hpipes : ∀ k' ∈ w.links.modify i fun k => { k with line := k.line.act .get },
            k'.line.pipe.Ok := by
          intro k' hk'
          obtain ⟨j, hj⟩ := List.getElem?_of_mem hk'
          obtain ⟨peer', -, hrel'⟩ := Matched.exists_right hlinks hj
          exact hrel'.line.pipe
        have hdues := dues_configureDone
          (w := { w with links := w.links.modify i fun k => { k with line := k.line.act .get } })
            hpipes
        have hone : (k.line.act .get).due + 1 = k.line.due := by
          rw [Line.due, Line.due, hup, List.length_cons]
          show 2 * (k.line.pipe.act .get).pending.countP _ + _ + 1 = _
          rw [hdown]
          rfl
        have hsum := sum_modify (fun k : Link => k.line.due)
          (f := fun k => { k with line := k.line.act .get }) hk
        refine le_of_lt (Prod.Lex.toLex_lt_toLex.mpr (Or.inl ?_))
        simp only [List.map_map, Function.comp_def, hdues]
        dsimp only at hsum
        omega

/-! ## Sending a configuration -/

/-- The messages that are left for the proxies when the one with number `n` is sent its socket
next. -/
def todoFrom (fd round n i : Nat) : List Imsg :=
  if n ≤ i then [.cfgSock fd, .cfgDone round] else [.cfgDone round]

/-- The modes when the parent flushes the line of the proxy with this number. -/
def flushingAt (n i : Nat) : Mode := if i = n then .flushing else .settled

/-- **The relation between the two levels.** When the parent is in its event loop they are in step;
when it waits for the proxy with number `n` to be sent its socket, it has yet to compose the socket
for those behind and `IMSG_CFG_DONE` for all. -/
inductive Related (hostNameMax pathMax : Nat) (w : Privsep) (d : Daemon) : Prop
  | loop (hcontrol : w.control = .loop) (hagree : Agree w.parent d.parent)
      (hlinks : Links hostNameMax pathMax (fun _ => .settled) (fun _ => []) w.links d.peers)
  | flushing {n fd : Nat} {mem : Memory} (hcontrol : w.control = .flushing n fd mem)
      (hn : n < w.links.length)
      (hagree : Agree ⟨[], w.parent.scPrefork, w.parent.scPrefork⟩ d.parent)
      (hlinks :
        Links hostNameMax pathMax (flushingAt n) (todoFrom fd d.parent.round (n + 1)) w.links
        d.peers)

theorem foldlM_configSetproxy (hsize : headerSize + sizeofProxy hostNameMax pathMax ≤ maxImsgsize)
    (mem : Memory) {confs : List ProxyConfig}
    (hfits : ∀ conf ∈ confs, Fits hostNameMax pathMax conf) (w : Privsep)
    (h : Links hostNameMax pathMax near (fun i => confs.map .cfgSrv ++ todo i) w.links peers) :
    ∃ ks, confs.foldlM (fun w conf => configSetproxy hostNameMax pathMax mem conf w) w
        = some { w with links := ks } ∧
      Links hostNameMax pathMax near todo ks peers := by
  induction confs generalizing w with
  | nil => exact ⟨w.links, rfl, h⟩
  | cons conf confs ih =>
    have hreq := Asks.cfgSrv hsize (hfits conf List.mem_cons_self) (mem.proxy conf)
    obtain ⟨ks, hks, hrel⟩ := ih (fun c hc => hfits c (List.mem_cons_of_mem _ hc))
      { w with links := w.links.map (Link.send
        (request .cfgSrv 0 none (proxyBytes hostNameMax pathMax (mem.proxy conf) conf))) }
      (Links.send h hreq)
    refine ⟨ks, ?_, hrel⟩
    have hone : configSetproxy hostNameMax pathMax mem conf w = some
        { w with
          links := w.links.map (Link.send
            (request .cfgSrv 0 none (proxyBytes hostNameMax pathMax (mem.proxy conf) conf))) } := by
      simp only [configSetproxy, procCompose, procComposeImsg_eq hreq.fits]
    rw [List.foldlM_cons, hone]
    exact hks

/-- `config_setsock` from a proxy on: it goes on to the next one, or the configuration is
complete. -/
theorem configSetsock_related {fd n : Nat} (mem : Memory) {q : Galileo.Parent}
    (hagree : Agree ⟨[], w.parent.scPrefork, w.parent.scPrefork⟩ q)
    (h : Links hostNameMax pathMax (fun _ => .settled) (todoFrom fd q.round n) w.links peers) :
    ∃ w', configSetsock fd mem n w = some w' ∧ Related hostNameMax pathMax w' ⟨q, peers⟩ ∧
      w'.links.length = w.links.length ∧ w'.control.left w'.links.length ≤ w.links.length - n := by
  rw [configSetsock]
  cases hk : w.links[n]? with
  | none =>
    have hlen := List.getElem?_eq_none_iff.mp hk
    have hreq : Asks hostNameMax pathMax _ (.cfgDone q.round) := Asks.cfgDone mem.galileo q.round
    have hlast : Links hostNameMax pathMax (fun _ => .settled) (fun _ => [.cfgDone q.round]) w.links
        peers := by
      refine Matched.mono h fun i k peer hi hrel => ?_
      have hlt := (List.getElem?_eq_some_iff.mp hi).1
      rwa [todoFrom, if_neg (by omega)] at hrel
    refine ⟨_, rfl, .loop rfl ?_ ?_, ?_, Nat.zero_le _⟩
    · simp only [configured, procCompose, procComposeImsg_eq hreq.fits]
      exact ⟨hagree.scProxies, hagree.scPrefork, hagree.scReload⟩
    · simp only [configured, procCompose, procComposeImsg_eq hreq.fits]
      exact Links.send hlast hreq
    · simp only [configured, procCompose, procComposeImsg_eq hreq.fits, List.length_map]
  | some k =>
    have hreq : Asks hostNameMax pathMax _ (.cfgSock fd) := Asks.cfgSock fd
    have hlt := (List.getElem?_eq_some_iff.mp hk).1
    simp only [imsgComposeEvent_eq hreq.fits, Option.map_some]
    refine ⟨_, rfl, .flushing rfl (by simpa using hlt) hagree ?_, List.length_modify ..,
      by rw [Control.left, List.length_modify]⟩
    refine Matched.modify_left h (fun k' peer hk' hrel => ?_) fun i k' peer hi hrel => ?_
    · obtain rfl : k' = k := Option.some.inj (hk'.symm.trans hk)
      rw [todoFrom, if_pos (Nat.le_refl n)] at hrel
      have hsent := hrel.send hreq
      rw [flushingAt, if_pos rfl, todoFrom, if_neg (by omega)]
      exact ⟨⟨hsent.line.pipe, hsent.line.near.flushing, hsent.line.far⟩, hsent.proc, hsent.down,
        hsent.up, hsent.acks⟩
    · rw [flushingAt, if_neg hi]
      rw [todoFrom] at hrel ⊢
      by_cases hni : n ≤ i
      · rw [if_pos hni] at hrel
        rw [if_pos (by omega)]
        exact hrel
      · rw [if_neg hni] at hrel
        rw [if_neg (by omega)]
        exact hrel

/-- `parent_configure` does over time what it does at once in `Model/Daemon`. -/
theorem parentConfigure_related (hsize : headerSize + sizeofProxy hostNameMax pathMax ≤ maxImsgsize)
    {fd : Nat} (mem : Memory) {q : Galileo.Parent}
    (hfits : ∀ conf ∈ w.parent.scProxies, Fits hostNameMax pathMax conf)
    (hagree : Agree ⟨[], w.parent.scPrefork, w.parent.scPrefork⟩ q)
    (h : Links hostNameMax pathMax (fun _ => .settled)
      (fun _ => roundMsgs w.parent.scProxies fd q.round) w.links peers) :
    ∃ w', parentConfigure hostNameMax pathMax fd mem w = some w' ∧
      Related hostNameMax pathMax w' ⟨q, peers⟩ := by
  obtain ⟨ks, hks, hlinks⟩ := foldlM_configSetproxy hsize mem hfits w h
  have hlinks' : Links hostNameMax pathMax (fun _ => .settled) (todoFrom fd q.round 0) ks peers :=
    Matched.mono hlinks fun i _ _ _ hrel => by
      rw [todoFrom, if_pos (Nat.zero_le i)]
      exact hrel
  obtain ⟨w', hw', hrel, -⟩ :=
    configSetsock_related (w := { w with links := ks }) mem hagree hlinks'
  refine ⟨w', ?_, hrel⟩
  rw [parentConfigure, hks]
  exact hw'

/-! ## Events -/

/-- Whatever the parent is doing, it does not matter to what happens in the proxies. -/
theorem Related.links (h : Related hostNameMax pathMax w d) :
    ∃ near todo, Links hostNameMax pathMax near todo w.links d.peers ∧
      ∀ ks peers, ks.length = w.links.length → Links hostNameMax pathMax near todo ks peers →
        Related hostNameMax pathMax { w with links := ks } { d with peers := peers } := by
  cases h with
  | loop hcontrol hagree hlinks =>
    exact ⟨_, _, hlinks, fun ks peers _ hlinks' => .loop hcontrol hagree hlinks'⟩
  | flushing hcontrol hn hagree hlinks =>
    exact ⟨_, _, hlinks, fun ks peers hlen hlinks' =>
      .flushing hcontrol (Nat.lt_of_lt_of_eq hn hlen.symm) hagree hlinks'⟩

theorem Related.own (h : Related hostNameMax pathMax w d) (i : Nat) (e : ProcEvent) :
    Related hostNameMax pathMax (w.proxy i e) (d.proxy i e) := by
  obtain ⟨near, todo, hlinks, hback⟩ := h.links
  refine hback _ _ (List.length_modify ..)
    (Matched.modify hlinks (fun k peer _ _ hrel => ?_) fun _ _ _ _ hrel => hrel)
  exact ⟨hrel.line, by rw [hrel.proc], hrel.down, hrel.up, hrel.acks⟩

theorem view_own (w : Privsep) (i : Nat) (e : ProcEvent) : (w.proxy i e).view = w.view :=
  congrArg (Prod.mk w.control)
    (map_modify (f := fun k : Link => { k with proc := k.proc.handle e }) (fun _ => rfl) i)

/-- What happens at one line. -/
theorem view_modify {i : Nat} {k k' : Link} (hk : w.links[i]? = some k) {f : Link → Link}
    (hf : f k = k') : (k'.line = k.line → { w with links := w.links.modify i f }.view = w.view) ∧
      (k'.line.left < k.line.left →
        rank { w with links := w.links.modify i f }.view < rank w.view) := by
  subst hf
  refine ⟨fun hsame => ?_, fun hless => ?_⟩
  · exact congrArg (Prod.mk w.control) (map_modify_of_fixed hk hsame)
  · refine Prod.Lex.toLex_lt_toLex.mpr (Or.inr ⟨?_, (left_modify hk).2 hless⟩)
    simp only [Privsep.view, List.length_map, List.length_modify]

theorem run_receives (d : Daemon) (i n : Nat) :
    d.run (List.replicate n (.receive i))
      = { d with peers := d.peers.modify i (Peer.receive^[n]) } := by
  induction n generalizing d with
  | zero =>
    rw [Function.iterate_zero, List.modify_id]
    rfl
  | succ n ih =>
    rw [Daemon.run, List.replicate_succ, Run.run_cons]
    rw [show Run.run Daemon.handle _ _ = _ from ih _]
    simp only [Daemon.handle, List.modify_modify_eq]
    rfl

/-- `proc_dispatch` in a proxy. -/
theorem Related.proxyReady (h : Related hostNameMax pathMax w d) (i : Nat) (hready : ready.Works) :
    ∃ w' n, w.handle hostNameMax pathMax (.proxyReady i ready) = some w' ∧
      Related hostNameMax pathMax w' (d.run (List.replicate n (.receive i))) ∧
      ready.Progress (∃ k ∈ w.links[i]?, k.line.pipe.toFar ≠ [])
        (∃ k ∈ w.links[i]?, k.line.farWrite = true)
        (w'.view = w.view) (rank w'.view < rank w.view) := by
  rw [Privsep.handle]
  cases hk : w.links[i]? with
  | none => exact ⟨w, 0, rfl, h, .nobody rfl⟩
  | some k =>
    obtain ⟨near, todo, hlinks, hback⟩ := h.links
    obtain ⟨peer, hpeer, hrel⟩ := Matched.exists_right hlinks hk
    obtain ⟨n, k', hdispatch, hrel', hprogress⟩ := hrel.procDispatch i hready
    have hview := view_modify hk (f := fun _ => k') rfl
    refine ⟨{ w with links := w.links.modify i fun _ => k' }, n, by simp only [hdispatch]; rfl, ?_,
      (hprogress.imp hview.1 hview.2).somebody⟩
    rw [run_receives]
    refine hback _ _ (List.length_modify ..)
      (Matched.modify hlinks (fun _ peer' _ hpeer' _ => ?_) fun _ _ _ _ hrel => hrel)
    obtain rfl : peer' = peer := Option.some.inj (hpeer'.symm.trans hpeer)
    exact hrel'

/-- `proc_dispatch` in the parent. -/
theorem Related.parentReady (h : Related hostNameMax pathMax w d) (i : Nat) (hready : ready.Works) :
    ∃ w' es, w.handle hostNameMax pathMax (.parentReady i ready) = some w' ∧
      (∀ e ∈ es, e = .takeAck i) ∧ Related hostNameMax pathMax w' (d.run es) ∧
      (w.control = .loop → ready.Progress (∃ k ∈ w.links[i]?, k.line.pipe.toNear ≠ [])
        (∃ k ∈ w.links[i]?, k.line.nearWrite = true) (w'.view = w.view)
        (rank w'.view < rank w.view)) ∧
      (w.control ≠ .loop → w' = w) := by
  rw [Privsep.handle]
  cases h with
  | flushing hcontrol hn hagree hlinks =>
    rw [hcontrol]
    exact ⟨w, [], rfl, List.forall_mem_nil _, .flushing hcontrol hn hagree hlinks,
      Control.noConfusion, fun _ => rfl⟩
  | loop hcontrol hagree hlinks =>
    rw [hcontrol, Privsep.procDispatch]
    cases hk : w.links[i]? with
    | none =>
      exact ⟨w, [], rfl, List.forall_mem_nil _, .loop hcontrol hagree hlinks, fun _ => .nobody rfl,
        fun _ => rfl⟩
    | some k =>
      obtain ⟨peer, hpeer, hrel⟩ := Matched.exists_right hlinks hk
      obtain ⟨l, hio, hmoved, hprogress⟩ := dispatchIo_spec hrel.line hready
      have hstart : Links hostNameMax pathMax (dispatchingAt i) (fun _ => [])
          (w.links.modify i fun k => { k with line := l }) d.peers := by
        refine Matched.modify_left hlinks (fun k' peer' hk' hrel' => ?_) fun j _ _ hj hrel' => ?_
        · obtain rfl : k' = k := Option.some.inj (hk'.symm.trans hk)
          rw [dispatchingAt, if_pos rfl]
          exact hrel'.parent_moved hmoved trivial
        · rw [dispatchingAt, if_neg hj]
          exact hrel'
      -- the loop takes one answer after the other
      obtain ⟨w', hloop, ⟨⟨es, hes, hcontrol', hagree', hlinks'⟩, hleft⟩, hend⟩ := dispatchLoop_rule
        (S := Privsep)
        (I := fun w' => (∃ es, (∀ e ∈ es, e = DaemonEvent.takeAck i) ∧ w'.control = .loop ∧
            Agree w'.parent (d.run es).parent ∧
            Links hostNameMax pathMax (dispatchingAt i) (fun _ => []) w'.links (d.run es).peers) ∧
          left (w'.links.map (·.line))
            ≤ left ((w.links.modify i fun k => { k with line := l }).map (·.line)))
        (M := Privsep.unread i)
        (fun w' hw' => by
          obtain ⟨⟨es, hes, hcontrol', hagree', hlinks'⟩, hleft⟩ := hw'
          rcases Links.takeAck i hagree' hlinks' with
            hnothing | ⟨m, w₁, w₂, hget, hcb, hsame, hagree₂, hlinks₂, hless, hle⟩
          · exact Or.inl hnothing
          · have hrun : d.run (es ++ [.takeAck i]) = (d.run es).takeAck i := by
              rw [Daemon.run, Run.run_append]
              rfl
            refine Or.inr ⟨m, w₁, w₂, hget, hcb,
              ⟨⟨es ++ [.takeAck i], ?_, hsame.trans hcontrol', ?_, ?_⟩, le_trans hle hleft⟩, hless⟩
            · intro e he
              rcases List.mem_append.mp he with he | he
              · exact hes e he
              · exact List.mem_singleton.mp he
            · rw [hrun]
              exact hagree₂
            · rw [hrun]
              exact hlinks₂)
        (n := l.pipe.near.ibuf.r.length + 1)
        (s := { w with links := w.links.modify i fun k => { k with line := l } })
        ⟨⟨[], List.forall_mem_nil _, hcontrol, hagree, hstart⟩, le_refl _⟩
        (by rw [Privsep.unread, getElem?_modify_self hk]; exact Nat.lt_succ_self _)
      refine ⟨{ w' with
        links := w'.links.modify i fun k => { k with line := imsgEventAdd k.line } }, es, ?_, hes,
        .loop hcontrol' hagree' ?_, fun _ => (hprogress.imp ?_ ?_).somebody,
        fun hne => absurd rfl hne⟩
      · simp only [hio, Option.bind_eq_bind, Option.bind_some, hloop]
        rfl
      · refine Matched.modify_left hlinks' (fun k' peer' hk' hrel' => ?_) fun j _ _ hj hrel' => ?_
        · have hidle : (imsgGet k'.line.pipe.near.ibuf).1 = .nothing := by
            rw [Privsep.get, hk'] at hend
            exact hend
          exact ⟨⟨hrel'.line.pipe, ⟨rfl, hidle⟩, Line.far_congr hrel'.line.far rfl rfl⟩, hrel'.proc,
            hrel'.down, hrel'.up, hrel'.acks⟩
        · rwa [dispatchingAt, if_neg hj] at hrel'
      · -- there was no message before
        rintro rfl
        have hget :
            Privsep.get i { w with links := w.links.modify i fun k' => { k' with line := k.line } }
            = (.nothing, w) := by
          have hsame : (w.links.modify i fun k' => { k' with line := k.line }) = w.links :=
            modify_of_fixed hk rfl
          rw [hsame] at hstart ⊢
          rcases Links.takeAck i hagree hstart with hnothing | ⟨m, w₁, w₂, hget, -⟩
          · exact hnothing
          · have hidle : (w.get i).1 = .nothing := by
              rw [Privsep.get, hk]
              exact hrel.line.near.2
            rw [hget] at hidle
            exact Got.noConfusion hidle
        rw [dispatchLoop, hget] at hloop
        obtain rfl := Option.some.inj hloop
        refine (view_modify hk rfl).1 ?_
        show (⟨k.line.pipe, k.line.pipe.near.ibuf.w.queued != 0, k.line.farWrite⟩ : Line) = k.line
        rw [← hrel.line.near.1]
      · intro hless
        refine Prod.Lex.toLex_lt_toLex.mpr (Or.inr ⟨?_, ?_⟩)
        · simp only [Privsep.view, hcontrol, hcontrol', Control.left]
        · have hlower : l.left < k.line.left :=
            Prod.Lex.toLex_lt_toLex.mpr (Or.inr ⟨hmoved.due, hless⟩)
          rw [Privsep.view, Privsep.view]
          rw [left_eventAdd]
          exact lt_of_le_of_lt hleft ((left_modify hk).2 hlower)

/-- A turn in `imsg_flush` does not show, even when it is the last one; and it leaves less to be
done. -/
theorem Related.flush (h : Related hostNameMax pathMax w d) {send : Send} (hsend : send.Works) :
    ∃ w', w.handle hostNameMax pathMax (.flush send) = some w' ∧ Related hostNameMax pathMax w' d ∧
      (w'.view = w.view ∨ rank w'.view < rank w.view) ∧
      (w.control ≠ .loop → ∀ n, send = .sent (n + 1) → rank w'.view < rank w.view) := by
  rw [Privsep.handle, imsgFlush]
  cases h with
  | loop hcontrol hagree hlinks =>
    rw [hcontrol]
    exact ⟨w, rfl, .loop hcontrol hagree hlinks, Or.inl rfl, fun hne => absurd rfl hne⟩
  | @flushing n fd mem hcontrol hn hagree hlinks =>
    rw [hcontrol]
    dsimp only
    have hk : w.links[n]? = some w.links[n] := List.getElem?_eq_getElem hn
    rw [hk]
    dsimp only
    generalize w.links[n] = k at hk ⊢
    obtain ⟨peer, hpeer, hrel⟩ := Matched.exists_right hlinks hk
    rw [flushingAt, if_pos rfl] at hrel
    split
    · -- all is written: on to the next proxy
      have hnext :
          Links hostNameMax pathMax (fun _ => .settled) (todoFrom fd d.parent.round (n + 1))
          (w.links.modify n fun k => { k with line := imsgEventAdd k.line }) d.peers := by
        refine Matched.modify_left hlinks (fun k' peer' hk' hrel' => ?_) fun j _ _ hj hrel' => ?_
        · rw [flushingAt, if_pos rfl] at hrel'
          exact ⟨⟨hrel'.line.pipe, hrel'.line.near.eventAdd, Line.far_congr hrel'.line.far rfl rfl⟩,
            hrel'.proc, hrel'.down, hrel'.up, hrel'.acks⟩
        · rwa [flushingAt, if_neg hj] at hrel'
      obtain ⟨w', hw', hrel', hlen, hleft⟩ := configSetsock_related
        (w := { w with links := w.links.modify n fun k => { k with line := imsgEventAdd k.line } })
        mem hagree hnext
      have hlower : rank w'.view < rank w.view := by
        refine Prod.Lex.toLex_lt_toLex.mpr (Or.inl ?_)
        simp only [Privsep.view, List.length_map, hcontrol, List.length_modify] at hlen hleft ⊢
        refine Nat.lt_of_le_of_lt hleft ?_
        rw [Control.left]
        omega
      exact ⟨w', hw', hrel', Or.inr hlower, fun _ _ _ => hlower⟩
    · next hne =>
      have hworks : ∀ send', some send = some send' → send'.Works := by
        intro send' heq
        rwa [← Option.some.inj heq]
      obtain ⟨l, hl, hmoved, hchanged, hwrites⟩ := dispatchWrite_spec hne hrel.line.pipe hworks
      have hview := view_modify hk (f := fun k => { k with line := l }) rfl
      rw [hcontrol] at hview
      have hlower : l.work < k.line.work → l.left < k.line.left := fun hless =>
        Prod.Lex.toLex_lt_toLex.mpr (Or.inr ⟨hmoved.due, hless⟩)
      rw [Option.elim_some] at hl
      rw [hl, Option.map_some]
      refine ⟨_, rfl, .flushing rfl (by simpa using hn) hagree ?_,
        hchanged.imp hview.1 fun hless => hview.2 (hlower hless),
        fun _ n hsent => hview.2 (hlower (hwrites n (congrArg some hsent)))⟩
      refine Matched.modify_left hlinks (fun k' peer' hk' hrel' => ?_) fun _ _ _ _ hrel' => hrel'
      obtain rfl : k' = k := Option.some.inj (hk'.symm.trans hk)
      rw [flushingAt, if_pos rfl] at hrel' ⊢
      rw [dispatchWrite_eq hne hrel.line.pipe hsend] at hl
      obtain rfl := Option.some.inj hl
      have hsame : (imsgGet (k'.line.act (.write send)).pipe.near.ibuf).1
          = (imsgGet k'.line.pipe.near.ibuf).1 := imsgGet_congr rfl rfl
      exact hrel'.parent_moved hmoved (hsame.trans hrel'.line.near)

/-- `SIGHUP`. -/
theorem Related.sighup (hsize : headerSize + sizeofProxy hostNameMax pathMax ≤ maxImsgsize)
    (h : Related hostNameMax pathMax w d) (hloop : w.control = .loop)
    (hfits : ∀ conf ∈ file.stored, Fits hostNameMax pathMax conf) (fd : Nat) (mem : Memory) :
    ∃ w', w.handle hostNameMax pathMax (.sighup file fd mem) = some w' ∧
      Related hostNameMax pathMax w' (d.handle (.sighup file fd)) := by
  cases h with
  | flushing hcontrol hn hagree hlinks => exact Control.noConfusion (hloop.symm.trans hcontrol)
  | loop hcontrol hagree hlinks =>
    rw [Privsep.handle, hloop, Daemon.handle, parentReload_eq]
    simp only [parentReload, parseConfig, Parent.configPurge, List.nil_append]
    by_cases hvalid : file.valid = true
    · have hparsed : (!file.errors && !file.stored.isEmpty) = true := hvalid
      have hreq : Asks hostNameMax pathMax _ .ctlReset := Asks.ctlReset
      rw [if_pos hvalid, hparsed]
      simp only [procCompose, procComposeImsg_eq hreq.fits]
      refine parentConfigure_related (w := Privsep.mk _ _ _) hsize mem hfits ?_ ?_
      · exact ⟨rfl, by rw [hagree.scPrefork], by rw [hagree.scPrefork]⟩
      · exact Links.send (hlinks.defer _) hreq
    · have hparsed : (!file.errors && !file.stored.isEmpty) = false := by
        rw [ConfFile.valid] at hvalid
        simpa using hvalid
      rw [if_neg hvalid, hparsed]
      exact ⟨_, rfl, .loop hcontrol ⟨rfl, by rw [hagree.scPrefork], hagree.scReload⟩ hlinks⟩

/-! ## Runs -/

/-- The reload an event is. -/
def WireEvent.reloads : WireEvent → List (ConfFile × Nat)
  | .sighup file fd _ => [(file, fd)]
  | _ => []

/-- The same in `Model/Daemon`. -/
def reloads : DaemonEvent → List (ConfFile × Nat)
  | .sighup file fd => [(file, fd)]
  | _ => []

theorem reloads_of_forall {es : List DaemonEvent} (h : ∀ e ∈ es, reloads e = []) :
    es.flatMap reloads = [] := List.flatMap_eq_nil_iff.mpr h

/-- The system does its part: a signal is handled in the event loop, a configuration has room in
memory, and no call fails for good. -/
def Allowed (hostNameMax pathMax : Nat) (w : Privsep) : WireEvent → Prop
  | .sighup file _ _ => w.control = .loop ∧ ∀ conf ∈ file.stored, Fits hostNameMax pathMax conf
  | .flush send => send.Works
  | .parentReady _ ready => ready.Works
  | .proxyReady _ ready => ready.Works
  | _ => True

/-- **One event of the program** is some events of `Model/Daemon`, with the same reloads. -/
theorem Related.handle (hsize : headerSize + sizeofProxy hostNameMax pathMax ≤ maxImsgsize)
    (h : Related hostNameMax pathMax w d) {e : WireEvent} (he : Allowed hostNameMax pathMax w e) :
    ∃ w' es, w.handle hostNameMax pathMax e = some w' ∧ Related hostNameMax pathMax w' (d.run es) ∧
      es.flatMap reloads = e.reloads := by
  cases e with
  | sighup file fd mem =>
    obtain ⟨w', hw', hrel⟩ := h.sighup hsize he.1 he.2 fd mem
    exact ⟨w', [.sighup file fd], hw', hrel, rfl⟩
  | flush send =>
    obtain ⟨w', hw', hrel, -⟩ := h.flush he
    exact ⟨w', [], hw', hrel, rfl⟩
  | parentReady i ready =>
    obtain ⟨w', es, hw', hes, hrel, -⟩ := h.parentReady i he
    exact ⟨w', es, hw', hrel, reloads_of_forall fun e he => by rw [hes e he]; rfl⟩
  | proxyReady i ready =>
    obtain ⟨w', n, hw', hrel, -⟩ := h.proxyReady i he
    exact ⟨w', _, hw', hrel,
      reloads_of_forall fun e he => by rw [(List.mem_replicate.mp he).2]; rfl⟩
  | acceptable i a => exact ⟨_, [.acceptable i a], rfl, h.own i _, rfl⟩
  | pauseOver i a => exact ⟨_, [.pauseOver i a], rfl, h.own i _, rfl⟩
  | sock i id e => exact ⟨_, [.sock i id e], rfl, h.own i _, rfl⟩

theorem valid_of_boot {fd : Nat} {mem : Memory} {pid : UInt32} {pids : Nat → UInt32}
    (hboot : boot hostNameMax pathMax file fd mem pid pids = some w) :
    file.valid = true := by
  simp only [boot, parseConfig, List.nil_append] at hboot
  cases hvalid : (!file.errors && !file.stored.isEmpty) with
  | false =>
    rw [hvalid] at hboot
    cases hboot
  | true => exact hvalid

/-- At the start, the processes wait for the first configuration. -/
theorem boot_related (hsize : headerSize + sizeofProxy hostNameMax pathMax ≤ maxImsgsize)
    (hfits : ∀ conf ∈ file.stored, Fits hostNameMax pathMax conf) (hvalid : file.valid = true)
    (fd : Nat) (mem : Memory) (pid : UInt32) (pids : Nat → UInt32) :
    ∃ w d, boot hostNameMax pathMax file fd mem pid pids = some w ∧
      Galileo.boot hostNameMax pathMax file fd = some d ∧ Related hostNameMax pathMax w d := by
  have hparsed : (!file.errors && !file.stored.isEmpty) = true := hvalid
  have hnew : Links hostNameMax pathMax (fun _ => .settled) (fun _ => [])
      ((List.range (file.prefork.getD proxyNumproc)).map fun i =>
        ⟨⟨Pipe.new pid (pids i), false, false⟩, Process.new hostNameMax pathMax⟩)
      (List.replicate (file.prefork.getD proxyNumproc)
        ⟨Process.new hostNameMax pathMax, [], []⟩) := by
    refine ⟨by simp, fun i k peer hk hpeer => ?_⟩
    rw [List.getElem?_map] at hk
    obtain ⟨j, -, rfl⟩ := Option.map_eq_some_iff.mp hk
    obtain rfl := (List.mem_replicate.mp (List.mem_of_getElem? hpeer)).2
    exact ⟨⟨Pipe.ok_new pid (pids j), ⟨rfl, rfl⟩, ⟨rfl, rfl⟩⟩, rfl, ⟨[], rfl, .nil⟩, rfl,
      List.forall_mem_nil _⟩
  obtain ⟨w, hw, hrel⟩ := parentConfigure_related
    (w := ⟨⟨file.stored, file.prefork.getD proxyNumproc, 0⟩, .loop, _⟩) hsize mem hfits
    (q := ⟨[], file.prefork.getD proxyNumproc, file.prefork.getD proxyNumproc, 1, []⟩)
      ⟨rfl, rfl, rfl⟩
    (hnew.defer (roundMsgs file.stored fd 1))
  refine ⟨w, _, ?_, ?_, hrel⟩
  · simp only [boot, parseConfig, List.nil_append, hparsed]
    exact hw
  · simp only [Galileo.boot, Galileo.parseConfig, List.nil_append, hparsed, parentConfigure_eq]

end Parent

section Runs

variable {w : Privsep} {file : ConfFile} {fd : Nat} {mem : Memory} {pid : UInt32}
    {pids : Nat → UInt32}
  {es : List WireEvent}

/-- A run in which the system does its part. -/
def Works (hostNameMax pathMax : Nat) (w : Privsep) (es : List WireEvent) : Prop :=
  Run.Steps (Privsep.step hostNameMax pathMax)
    (fun s e => ∀ w, s = some w → Allowed hostNameMax pathMax w e) (some w) es

/-- Every run of the program, as a run of `Model/Daemon`. -/
theorem exists_run (hsize : headerSize + sizeofProxy hostNameMax pathMax ≤ maxImsgsize)
    (hfits : ∀ conf ∈ file.stored, Fits hostNameMax pathMax conf)
    (hboot : boot hostNameMax pathMax file fd mem pid pids = some w)
    (hes : Works hostNameMax pathMax w es) :
    ∃ w' d es', Run.run (Privsep.step hostNameMax pathMax) (some w) es = some w' ∧
      Galileo.boot hostNameMax pathMax file fd = some d ∧
      es'.flatMap reloads = es.flatMap WireEvent.reloads ∧
      Related hostNameMax pathMax w' (d.run es') := by
  obtain ⟨w₀, d, hw₀, hd, hrel⟩ := boot_related hsize hfits (valid_of_boot hboot) fd mem pid pids
  obtain rfl : w₀ = w := Option.some.inj (hw₀.symm.trans hboot)
  obtain ⟨es', ⟨w', hw', hrel'⟩, hobs⟩ := Run.simulates
    (R := fun s d => ∃ w, s = some w ∧ Related hostNameMax pathMax w d)
    (fun s e d hs he => by
      obtain ⟨w, rfl, hrel⟩ := hs
      obtain ⟨w', es, hw', hrel', hobs⟩ := hrel.handle hsize (he w rfl)
      exact ⟨es, ⟨w', hw', hrel'⟩, hobs⟩)
    ⟨w₀, rfl, hrel⟩ hes
  exact ⟨w', d, es', hw', hd, hobs, hrel'⟩

theorem Links.procs {near : Nat → Mode} {todo : Nat → List Imsg} {ks : List Link}
    {peers : List Peer} (h : Links hostNameMax pathMax near todo ks peers) :
    ks.map (·.proc) = peers.map (·.proc) := by
  refine List.ext_getElem? fun i => ?_
  rw [List.getElem?_map, List.getElem?_map]
  cases hk : ks[i]? with
  | none =>
    have hlen := List.getElem?_eq_none_iff.mp hk
    rw [Matched.length h] at hlen
    rw [List.getElem?_eq_none_iff.mpr hlen]
    rfl
  | some k =>
    obtain ⟨peer, hpeer, hrel⟩ := Matched.exists_right h hk
    rw [hpeer, Option.map_some, Option.map_some, hrel.proc]

theorem two_in_range : ((some 2).all fun n => 0 < n && n ≤ procMaxInstances) = true := rfl

/-- Two processes that share one proxy. -/
def twoFile : ConfFile := oneProxy [104] (some 2) two_in_range

theorem twoFile_fits : ∀ conf ∈ twoFile.stored, Fits 255 1024 conf := by
  intro conf hconf
  obtain rfl := List.mem_singleton.mp hconf
  exact ⟨by decide, by decide, by decide, by decide, by decide⟩

/-- The first process is sent its socket, in pieces, and takes its first messages meanwhile. -/
def firstSocket : List WireEvent :=
  [.flush (.sent 1000), .proxyReady 0 ⟨some (.ready 999), none⟩, .flush .again, .flush (.sent 4096),
    .proxyReady 0 ⟨some (.ready 4096), none⟩, .flush (.sent 16), .flush (.sent 1)]

theorem firstSocket_works (w : Privsep) : Works 255 1024 w firstSocket := by
  have hsend : ∀ n, Send.Works (.sent (n + 1)) := fun n => ⟨Send.noConfusion, by simp⟩
  have hready : ∀ n, Ready.Works ⟨some (.ready n), none⟩ := fun n =>
    ⟨fun recv h => by cases h; exact ⟨Recv.noConfusion, Recv.noConfusion⟩, fun send h => by cases h⟩
  exact ⟨fun _ _ => hsend 999, fun _ _ => hready 999,
    fun _ _ => ⟨Send.noConfusion, Send.noConfusion⟩, fun _ _ => hsend 4095,
    fun _ _ => hready 4096, fun _ _ => hsend 15, fun _ _ => hsend 0, trivial⟩

theorem exists_boot_two : ∃ w, boot 255 1024 twoFile 3 ⟨fun _ _ => 7, fun _ => 8⟩ 100 (fun _ => 101)
    = some w := by
  obtain ⟨w, -, hw, -⟩ := boot_related (by decide) twoFile_fits rfl 3 ⟨fun _ _ => 7, fun _ => 8⟩ 100
    fun _ => 101
  exact ⟨w, hw⟩

/-- **The program is the daemon.** In every run in which the system does its part no process ends;
and there is a run of `Model/Daemon` with the same reloads after which the processes of the proxies
are in the same states, and, when the parent is in its event loop, the parents too. -/
theorem privsep_refines_daemon (hsize : headerSize + sizeofProxy hostNameMax pathMax ≤ maxImsgsize)
    (hfits : ∀ conf ∈ file.stored, Fits hostNameMax pathMax conf)
    (hboot : boot hostNameMax pathMax file fd mem pid pids = some w)
    (hes : Works hostNameMax pathMax w es) :
    ∃ w' d es', Run.run (Privsep.step hostNameMax pathMax) (some w) es = some w' ∧
      Galileo.boot hostNameMax pathMax file fd = some d ∧
      es'.flatMap reloads = es.flatMap WireEvent.reloads ∧
      w'.links.map (·.proc) = (d.run es').peers.map (·.proc) ∧
      (w'.control = .loop → Agree w'.parent (d.run es').parent) := by
  obtain ⟨w', d, es', hw', hd, hobs, hrel⟩ := exists_run hsize hfits hboot hes
  refine ⟨w', d, es', hw', hd, hobs, ?_, fun hloop => ?_⟩
  · obtain ⟨near, todo, hlinks, -⟩ := hrel.links
    exact hlinks.procs
  · cases hrel with
    | loop hcontrol hagree hlinks => exact hagree
    | flushing hcontrol hn hagree hlinks => exact Control.noConfusion (hloop.symm.trans hcontrol)

theorem firstSocket_refined : ∃ w,
    boot 255 1024 twoFile 3 ⟨fun _ _ => 7, fun _ => 8⟩ 100 (fun _ => 101) = some w ∧
    ∃ w' d es', Run.run (Privsep.step 255 1024) (some w) firstSocket = some w' ∧
      Galileo.boot 255 1024 twoFile 3 = some d ∧
      es'.flatMap reloads = firstSocket.flatMap WireEvent.reloads ∧
      w'.links.map (·.proc) = (d.run es').peers.map (·.proc) ∧
      (w'.control = .loop → Agree w'.parent (d.run es').parent) := by
  obtain ⟨w, hw⟩ := exists_boot_two
  exact ⟨w, hw, privsep_refines_daemon (by decide) twoFile_fits hw (firstSocket_works w)⟩

/-- The configuration after a reload. -/
def loaded (confs : List ProxyConfig) (r : ConfFile × Nat) : List ProxyConfig :=
  if r.1.valid then r.1.stored else confs

theorem foldl_lastConfig (es : List DaemonEvent) (confs : List ProxyConfig) :
    es.foldl lastConfig confs = (es.flatMap reloads).foldl loaded confs := by
  induction es generalizing confs with
  | nil => rfl
  | cons e es ih =>
    rw [List.foldl_cons, ih, List.flatMap_cons, List.foldl_append]
    cases e <;> rfl

/-- When the parent is in its event loop, and nothing is queued for a proxy or on its way, there is
nothing left for the proxy. -/
theorem Related.inbox_nil {w : Privsep} {d : Daemon} (h : Related hostNameMax pathMax w d)
    (hloop : w.control = .loop) (hk : k ∈ w.links) (hqueued : k.line.pipe.near.ibuf.w.queued = 0)
    (hchan : k.line.pipe.toFar = []) :
    ∃ peer ∈ d.peers, peer.proc = k.proc ∧ peer.inbox = [] := by
  cases h with
  | flushing hcontrol hn hagree hlinks => exact Control.noConfusion (hloop.symm.trans hcontrol)
  | loop hcontrol hagree hlinks =>
    obtain ⟨i, hi⟩ := List.getElem?_of_mem hk
    obtain ⟨peer, hpeer, hrel⟩ := Matched.exists_right hlinks hi
    have hgot := hrel.line.pipe.delivers.all hqueued hchan hrel.line.far.2
    have hpending : k.line.pipe.pending = [] := by
      rw [Pipe.pending, ← hgot, List.drop_length]
    obtain ⟨inbox, hin, hall⟩ := hrel.down
    rw [hpending, List.forall₂_nil_left_iff] at hall
    rw [hall, List.append_nil] at hin
    exact ⟨peer, List.mem_of_getElem? hpeer, hrel.proc, hin⟩

/-- A process with nothing left for it has the last configuration. -/
theorem confs_of_inbox_nil {d : Daemon} (hd : Galileo.boot hostNameMax pathMax file fd = some d)
    (es : List DaemonEvent) {peer : Peer} (hpeer : peer ∈ (d.run es).peers)
    (hin : peer.inbox = []) :
    peer.proc.scProxies.map Proxy.prConf = (es.flatMap reloads).foldl loaded file.stored := by
  have hconv := (Everyone.mem (converges_run (converges_boot hd) es) hpeer).replay
  rwa [hin, List.foldl_nil, foldl_lastConfig] at hconv

/-- **The configuration arrives.** When the parent is back in its event loop, and nothing is queued
for a proxy or on its way, the proxy has exactly the configuration of the last reload that
succeeded, read from the bytes it was sent. -/
theorem configuration_arrives (hsize : headerSize + sizeofProxy hostNameMax pathMax ≤ maxImsgsize)
    (hfits : ∀ conf ∈ file.stored, Fits hostNameMax pathMax conf)
    (hboot : boot hostNameMax pathMax file fd mem pid pids = some w)
    (hes : Works hostNameMax pathMax w es) :
    ∃ w', Run.run (Privsep.step hostNameMax pathMax) (some w) es = some w' ∧
      (w'.control = .loop → ∀ k ∈ w'.links, k.line.pipe.near.ibuf.w.queued = 0 →
        k.line.pipe.toFar = [] →
        k.proc.scProxies.map Proxy.prConf
          = (es.flatMap WireEvent.reloads).foldl loaded file.stored) := by
  obtain ⟨w', d, es', hw', hd, hobs, hrel⟩ := exists_run hsize hfits hboot hes
  refine ⟨w', hw', fun hloop k hk hqueued hchan => ?_⟩
  obtain ⟨peer, hpeer, hproc, hin⟩ := hrel.inbox_nil hloop hk hqueued hchan
  rw [← hproc, ← hobs]
  exact confs_of_inbox_nil hd es' hpeer hin

theorem firstSocket_arrives : ∃ w,
    boot 255 1024 twoFile 3 ⟨fun _ _ => 7, fun _ => 8⟩ 100 (fun _ => 101) = some w ∧
    ∃ w', Run.run (Privsep.step 255 1024) (some w) firstSocket = some w' ∧
      (w'.control = .loop → ∀ k ∈ w'.links, k.line.pipe.near.ibuf.w.queued = 0 →
        k.line.pipe.toFar = [] →
        k.proc.scProxies.map Proxy.prConf
          = (firstSocket.flatMap WireEvent.reloads).foldl loaded twoFile.stored) := by
  obtain ⟨w, hw⟩ := exists_boot_two
  exact ⟨w, hw, configuration_arrives (by decide) twoFile_fits hw (firstSocket_works w)⟩

/-- **Nobody waits with something to say.** In every run in which the system does its part: a proxy
asks for `EV_WRITE` if and only if it has something to write, and so does the parent for each of its
proxies whenever it is in its event loop; and no process has a whole message that it has not
taken. -/
theorem writes_asked_for (hsize : headerSize + sizeofProxy hostNameMax pathMax ≤ maxImsgsize)
    (hfits : ∀ conf ∈ file.stored, Fits hostNameMax pathMax conf)
    (hboot : boot hostNameMax pathMax file fd mem pid pids = some w)
    (hes : Works hostNameMax pathMax w es) :
    ∃ w', Run.run (Privsep.step hostNameMax pathMax) (some w) es = some w' ∧
      ∀ k ∈ w'.links, k.line.farWrite = (k.line.pipe.far.ibuf.w.queued != 0) ∧
        (imsgGet k.line.pipe.far.ibuf).1 = .nothing ∧ (imsgGet k.line.pipe.near.ibuf).1 = .nothing ∧
        (w'.control = .loop → k.line.nearWrite = (k.line.pipe.near.ibuf.w.queued != 0)) := by
  obtain ⟨w', d, es', hw', hd, -, hrel⟩ := exists_run hsize hfits hboot hes
  refine ⟨w', hw', fun k hk => ?_⟩
  obtain ⟨i, hi⟩ := List.getElem?_of_mem hk
  cases hrel with
  | loop hcontrol hagree hlinks =>
    obtain ⟨peer, hpeer, hrel⟩ := Matched.exists_right hlinks hi
    exact ⟨hrel.line.far.1, hrel.line.far.2, hrel.line.near.2, fun _ => hrel.line.near.1⟩
  | @flushing n fd mem hcontrol hn hagree hlinks =>
    obtain ⟨peer, hpeer, hrel⟩ := Matched.exists_right hlinks hi
    have hidle : (imsgGet k.line.pipe.near.ibuf).1 = .nothing := by
      have hnear := hrel.line.near
      by_cases hin : i = n
      · rwa [flushingAt, if_pos hin] at hnear
      · rw [flushingAt, if_neg hin] at hnear
        exact hnear.2
    exact ⟨hrel.line.far.1, hrel.line.far.2, hidle, fun hloop =>
      Control.noConfusion (hloop.symm.trans hcontrol)⟩

theorem firstSocket_asked_for : ∃ w,
    boot 255 1024 twoFile 3 ⟨fun _ _ => 7, fun _ => 8⟩ 100 (fun _ => 101) = some w ∧
    ∃ w', Run.run (Privsep.step 255 1024) (some w) firstSocket = some w' ∧
      ∀ k ∈ w'.links, k.line.farWrite = (k.line.pipe.far.ibuf.w.queued != 0) ∧
        (imsgGet k.line.pipe.far.ibuf).1 = .nothing ∧ (imsgGet k.line.pipe.near.ibuf).1 = .nothing ∧
        (w'.control = .loop → k.line.nearWrite = (k.line.pipe.near.ibuf.w.queued != 0)) := by
  obtain ⟨w, hw⟩ := exists_boot_two
  exact ⟨w, hw, writes_asked_for (by decide) twoFile_fits hw (firstSocket_works w)⟩

end Runs

end Wire

end Galileo
