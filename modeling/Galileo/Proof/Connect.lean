import Galileo.Model.Connect
import Galileo.Proof.Requests

/-!
# Making the connection

Two questions about `proxy_connect`. Does it go through the addresses of the capsule until one takes
the connection? And is the request only queued when there is a connection?

Both have the same answer: all that is decided in the loop is decided by `socket`. The first address
for which there is a socket is the only one that is ever connected to (`firstSocket`). If its
connection fails later the request fails, and if `connect` refuses it at once, or nothing has
happened for five seconds, `SO_ERROR` is 0 and the request is queued as if there were a connection.
-/

set_option autoImplicit false

namespace Galileo

open Lib Lib.FastCgi Lib.Run

variable {net : NetEnv} {ps : List Addrinfo} {c' : Client} {s : Setup} {fd : Int}

/-! ## The loop -/

theorem firstSocket_eq_none {ts : List Target} :
    firstSocket ts = none ↔ ∀ t ∈ ts, t.socket = none := by
  induction ts with
  | nil => simp [firstSocket]
  | cons t ts ih =>
    rw [firstSocket, List.forall_mem_cons]
    cases hsocket : t.socket with
    | none => simp [ih]
    | some fd => simp

theorem firstSocket_eq_some {ts rest : List Target} {t : Target}
    (h : firstSocket ts = some (t, rest)) :
    ∃ pre fd, ts = pre ++ t :: rest ∧ (∀ u ∈ pre, u.socket = none) ∧ t.socket = some fd := by
  induction ts with
  | nil => cases h
  | cons u us ih =>
    rw [firstSocket] at h
    cases hsocket : u.socket with
    | none =>
      rw [hsocket] at h
      obtain ⟨pre, fd, rfl, hpre, hfd⟩ := ih h
      exact ⟨u :: pre, fd, rfl, List.forall_mem_cons.mpr ⟨hsocket, hpre⟩, hfd⟩
    | some fd =>
      rw [hsocket] at h
      cases h
      exact ⟨[], fd, rfl, by simp, hsocket⟩

/-- **The loop stops at the first socket.** -/
theorem connectAgain_targets (net : NetEnv) (ts : List Target) :
    connectAgain net (-1) (ts.map Target.socket) (ts.map Target.addr)
      = match firstSocket ts with
        | none => (.err, -1, [])
        | some (t, rest) => (if net.connected then .done else .wait, (t.socket.getD 0 : Nat),
            (t :: rest).map Target.addr) := by
  induction ts with
  | nil => rfl
  | cons t ts ih =>
    rw [List.map_cons, List.map_cons, connectAgain.eq_def, firstSocket]
    dsimp only
    rw [if_neg (by simp)]
    cases hsocket : t.socket with
    | none => simpa using ih
    | some fd => simp [hsocket]

/-- A call back looks at `SO_ERROR` only. -/
theorem connectAgain_back (net : NetEnv) (hfd : fd ≠ -1) (socks : List (Option Nat))
    (hps : ps ≠ []) :
    connectAgain net fd socks ps = (if net.soError = some 0 then .done else .err, fd, ps) := by
  cases ps with
  | nil => exact absurd rfl hps
  | cons p ps =>
    rw [connectAgain.eq_def]
    simp only [ne_eq, hfd, not_false_eq_true, if_true]
    split <;> rfl

theorem linkOf_some {ts rest : List Target} {t : Target} (h : firstSocket ts = some (t, rest)) :
    linkOf ts = t.result.link := by
  rw [linkOf, h]

/-! ## The client between two calls -/

/-- A connection has been tried, and how it stands: no socket, or an error 0, are not among that. -/
def Link.Tried : Link → Prop
  | .absent => False
  | .broken err => err ≠ 0
  | _ => True

theorem Link.Tried.completed {l : Link} (h : l.Tried) : l.completed.Tried := by
  cases l with
  | pending err =>
    rw [Link.completed]
    split
    · trivial
    · assumption
  | _ => exact h

/-- What holds of a client while it waits for the resolver or for its connection. -/
structure Client.Dials (c : Client) (l : Link) : Prop where
  config : c.cltPc.isSome = true
  query : c.cltEvasr = true → c.cltFd = -1 ∧ c.cltEvconnLive = false
  event : c.cltEvconnLive = true → c.cltFd ≠ -1 ∧ c.cltP ≠ [] ∧ l.Tried

def Dial.Ready (i : UInt16) (d : Dial) : Prop := ∀ c, d.clt i = some c → c.Dials d.link

section Scripts

variable {c : Client}

/-- What is left when `proxy_connect` has found a way to go on. -/
theorem connectScript_goes (h : (connectScript net c).next = .goes c') :
    c'.cltPc = c.cltPc ∧ c'.cltEvasr = c.cltEvasr ∧
      (c'.cltEvconnLive = false ∨
        (connectAgain net c.cltFd net.sockets c.cltP).1 = .wait ∧
        (c'.cltFd, c'.cltP) = (connectAgain net c.cltFd net.sockets c.cltP).2) := by
  revert h
  unfold connectScript
  generalize connectAgain net c.cltFd net.sockets c.cltP = r
  obtain ⟨_ | _ | _, fd, ps⟩ := r <;> cases c.cltPc <;> dsimp only
  case wait.none | wait.some =>
    intro h
    cases h
    exact ⟨rfl, rfl, .inr ⟨rfl, rfl⟩⟩
  case done.some =>
    split <;> intro h <;> cases h
    exact ⟨rfl, rfl, .inl rfl⟩
  all_goals exact fun h => nomatch h

end Scripts

/-- Whoever is found afterwards is whom the script leaves. -/
theorem Heard.find_eq {f g : Fcgi} {i : UInt16} {c c₁ : Client} {s : Script}
    (h : Heard f i c s g) (hfind : g.find i.toUInt32 = some c₁) :
    ∃ c' tp, s.next = .goes c' ∧ c₁ = { c' with cltTp := tp } := by
  cases h with
  | goes hnext hserial htext hcap hfind' =>
    rw [hfind'] at hfind
    exact ⟨_, _, hnext, (Option.some.inj hfind).symm⟩
  | ends hnext htext hfind' =>
    rw [hfind'] at hfind
    cases hfind
  | crashed hnext htext htrace hclosed hnone =>
    rw [Fcgi.find, hnone] at hfind
    cases hfind
  | torn hfail htext htrace hclosed hnone =>
    rw [Fcgi.find, hnone] at hfind
    cases hfind

/-! ## Steps -/

section Steps

variable {env : Env} {i : UInt16} {d : Dial} {e : DialEvent} {c : Client} {net : NetEnv}

theorem Dial.clt_eq_some :
    d.clt i = some c ↔ d.fcgi.closed = false ∧ d.fcgi.find i.toUInt32 = some c := by
  unfold Dial.clt
  cases d.fcgi.closed <;> simp

/-- **Whom `proxy_connect` is called for**: a client whose resolver answers, or one whose event was
added. -/
theorem DialEvent.call_cases (hcall : e.call i d = some (c, net)) :
    ∃ c₀, d.clt i = some c₀ ∧
      ((∃ ts s, e = .resolved ts s ∧ c₀.cltEvasr = true ∧ net = dialNet ts s ∧
          c = { c₀ with cltEvasr := false, cltP := ts.map Target.addr }) ∨
        ∃ opt s, (e = .writable opt s ∨ e = .timeout opt s) ∧ c₀.cltEvconnLive = true ∧
          net = d.link.net opt s ∧ c = c₀) := by
  cases e with
  | completed => cases hcall
  | resolved ts s =>
    obtain ⟨c₀, hc₀, heq⟩ := Option.map_eq_some_iff.mp hcall
    obtain ⟨hc₀, hasr⟩ := Option.filter_eq_some_iff.mp hc₀
    obtain ⟨hc, hnet⟩ := Prod.mk.inj heq
    exact ⟨c₀, hc₀, .inl ⟨ts, s, rfl, hasr, hnet.symm, hc.symm⟩⟩
  | writable opt s =>
    obtain ⟨c₀, hc₀, heq⟩ := Option.map_eq_some_iff.mp hcall
    obtain ⟨hc₀, hlive⟩ := Option.filter_eq_some_iff.mp hc₀
    obtain ⟨hc, hnet⟩ := Prod.mk.inj heq
    exact ⟨c₀, hc₀, .inr ⟨opt, s, .inl rfl, hlive, hnet.symm, hc.symm⟩⟩
  | timeout opt s =>
    obtain ⟨c₀, hc₀, heq⟩ := Option.map_eq_some_iff.mp hcall
    obtain ⟨hc₀, hlive⟩ := Option.filter_eq_some_iff.mp hc₀
    obtain ⟨hc, hnet⟩ := Prod.mk.inj heq
    exact ⟨c₀, hc₀, .inr ⟨opt, s, .inr rfl, hlive, hnet.symm, hc.symm⟩⟩

/-- A call of `proxy_connect` is heard as its script. -/
theorem dialStep_heard (hready : d.Ready i) (hcall : e.call i d = some (c, net)) :
    ∃ c₀, d.clt i = some c₀ ∧
      Heard d.fcgi i c₀ (connectScript net c) (dialStep env i d e).fcgi := by
  obtain ⟨c₀, hc₀, hcases⟩ := DialEvent.call_cases hcall
  obtain ⟨hopen, hfind⟩ := Dial.clt_eq_some.mp hc₀
  have hstarted : c₀.started = true := (hready c₀ hc₀).config
  refine ⟨c₀, hc₀, ?_⟩
  rcases hcases with ⟨ts, s, rfl, -, -, rfl⟩ | ⟨opt, s, rfl | rfl, -, -, rfl⟩ <;>
    simp only [dialStep, hcall, step, hopen, handle]
  · exact heard_callback hfind hstarted (proxyResolved_follows _ _)
  · exact heard_callback hfind hstarted (proxyConnect_follows _)
  · exact heard_callback hfind hstarted (proxyConnect_follows _)

/-- Nobody is called: only the socket may change. -/
theorem dialStep_of_call_none (hcall : e.call i d = none) :
    dialStep env i d e = d ∨ dialStep env i d e = { d with link := d.link.completed } := by
  cases e with
  | completed => exact .inr rfl
  | _ =>
    left
    unfold dialStep
    rw [hcall]

/-- **Waiting clients stay ready**, whatever happens. -/
theorem dialStep_ready (hready : d.Ready i) : (dialStep env i d e).Ready i := by
  cases hcall : e.call i d with
  | none =>
    rcases @dialStep_of_call_none env i d e hcall with h | h <;> rw [h]
    · exact hready
    · intro c hc
      obtain ⟨hconfig, hquery, hevent⟩ := hready c hc
      refine ⟨hconfig, hquery, fun h => ?_⟩
      obtain ⟨hfd, hp, htried⟩ := hevent h
      exact ⟨hfd, hp, htried.completed⟩
  | some p =>
    intro c₁ hc₁
    obtain ⟨c, net⟩ := p
    obtain ⟨c₀, hc₀, hheard⟩ := @dialStep_heard env i d e c net hready hcall
    obtain ⟨c', tp, hnext, rfl⟩ := hheard.find_eq (Dial.clt_eq_some.mp hc₁).2
    obtain ⟨hpc, hasr, hlive⟩ := connectScript_goes hnext
    obtain ⟨hconfig, hquery, hevent⟩ := hready c₀ hc₀
    obtain ⟨c₀', hc₀', hcases⟩ := DialEvent.call_cases hcall
    cases hc₀.symm.trans hc₀'
    rcases hcases with ⟨ts, s, rfl, hquery', rfl, rfl⟩ | ⟨opt, s, he, hevent', rfl, rfl⟩
    · -- `proxy_resolved`: the query is done, and an event is only added behind a socket
      have hlink : (dialStep env i d (.resolved ts s)).link = linkOf ts := by
        simp only [dialStep, hcall]
      refine ⟨(congrArg Option.isSome hpc).trans hconfig, fun h => ?_, fun h => ?_⟩
      · exact absurd (hasr.symm.trans h) (by simp)
      · have hwait := hlive.resolve_left fun hdead => by
          rw [show c'.cltEvconnLive = true from h] at hdead
          cases hdead
        dsimp only [dialNet] at hwait
        rw [(hquery hquery').1, connectAgain_targets] at hwait
        obtain ⟨hwait, hplace⟩ := hwait
        cases hfirst : firstSocket ts with
        | none =>
          rw [hfirst] at hwait
          cases hwait
        | some p =>
          obtain ⟨t, rest⟩ := p
          rw [hfirst] at hplace
          obtain ⟨hfd, hp⟩ := Prod.mk.inj hplace
          refine ⟨?_, ?_, ?_⟩
          · show c'.cltFd ≠ -1
            rw [hfd]
            exact fun h => nomatch h
          · show c'.cltP ≠ []
            rw [hp]
            exact List.cons_ne_nil _ _
          · rw [hlink, linkOf_some hfirst]
            cases t.result <;> trivial
    · -- called back: there is no way to wait again
      obtain ⟨hfd, hp, -⟩ := hevent hevent'
      have hdead : c'.cltEvconnLive = false := by
        refine hlive.resolve_right fun hwait => ?_
        rw [connectAgain_back _ hfd _ hp] at hwait
        have := hwait.1
        split at this <;> cases this
      refine ⟨(congrArg Option.isSome hpc).trans hconfig, fun h => ?_, fun h => ?_⟩
      · have := hquery (hasr.symm.trans h)
        rw [hevent'] at this
        cases this.2
      · cases hdead.symm.trans h

end Steps

/-! ## Only on a connection -/

/-- An event leads to the part of `proxy_connect` that creates the `bufferevent` and queues the
request. -/
def Reaches (i : UInt16) (d : Dial) (e : DialEvent) : Prop :=
  ∃ c net, e.call i d = some (c, net) ∧ (connectAgain net c.cltFd net.sockets c.cltP).1 = .done

/-- There is a reason to: `connect` has returned 0, or the event is the one of a connection that was
in progress, and there is no error. -/
def Established (d : Dial) : DialEvent → Prop
  | .resolved ts _ => linkOf ts = .up
  | .writable _ _ => d.link = .up ∨ ∃ err, d.link = .pending err
  | .completed | .timeout _ _ => False

/-- The event does not belong to a connection that `connect` itself has refused, and is not the end
of the five seconds unless the connection has failed. (Without `getsockopt` there is an error
anyway.) -/
def Timely (i : UInt16) (d : Dial) (e : DialEvent) : Prop :=
  match e with
  | .writable opt _ => (e.call i d).isSome = true → opt = true → d.link ≠ .refused
  | .timeout opt _ => (e.call i d).isSome = true → opt = true → ∃ err, d.link = .broken err
  | _ => True

section Established

variable {env : Env} {i : UInt16} {d : Dial}

/-- The first call gets there when `connect` returns 0. -/
theorem reaches_resolved (hready : d.Ready i) {ts : List Target}
    (h : Reaches i d (.resolved ts s)) : linkOf ts = .up := by
  obtain ⟨c, net, hcall, hdone⟩ := h
  obtain ⟨c₀, hc₀, hcases⟩ := DialEvent.call_cases hcall
  rcases hcases with ⟨ts', s', he, hquery, rfl, rfl⟩ | ⟨opt, s', he | he, -⟩
  case inr.inl | inr.inr => cases he
  cases he
  dsimp only [dialNet] at hdone
  rw [((hready c₀ hc₀).query hquery).1, connectAgain_targets] at hdone
  cases hfirst : firstSocket ts with
  | none =>
    rw [hfirst] at hdone
    cases hdone
  | some p =>
    rw [hfirst] at hdone
    dsimp only at hdone
    split at hdone
    · exact beq_iff_eq.mp ‹_›
    · cases hdone

/-- A call back gets there when `getsockopt` reports no error. -/
theorem reaches_back (hready : d.Ready i) {e : DialEvent} {opt : Bool}
    (he : e = .writable opt s ∨ e = .timeout opt s) :
    Reaches i d e ↔ (e.call i d).isSome = true ∧ opt = true ∧ d.link.soError = 0 := by
  have hback {c : Client} {net : NetEnv} (hcall : e.call i d = some (c, net)) :
      (connectAgain net c.cltFd net.sockets c.cltP).1 = .done ↔
        opt = true ∧ d.link.soError = 0 := by
    obtain ⟨c₀, hc₀, hcases⟩ := DialEvent.call_cases hcall
    rcases hcases with ⟨ts, s', rfl, -⟩ | ⟨opt', s', he', hlive, rfl, rfl⟩
    · rcases he with he | he <;> cases he
    · obtain ⟨hfd, hp, -⟩ := (hready c hc₀).event hlive
      have hopt : opt' = opt := by
        rcases he with rfl | rfl <;> rcases he' with he' | he' <;> cases he' <;> rfl
      subst hopt
      rw [connectAgain_back _ hfd _ hp, Link.net]
      cases opt' <;> simp
  constructor
  · rintro ⟨c, net, hcall, hdone⟩
    rw [hcall]
    exact ⟨rfl, (hback hcall).mp hdone⟩
  · rintro ⟨hsome, hno⟩
    obtain ⟨⟨c, net⟩, hcall⟩ := Option.isSome_iff_exists.mp hsome
    exact ⟨c, net, hcall, (hback hcall).mpr hno⟩

/-- Somebody who is called back has tried. -/
theorem tried_of_call (hready : d.Ready i) {e : DialEvent} {opt : Bool}
    (he : e = .writable opt s ∨ e = .timeout opt s) (hsome : (e.call i d).isSome = true) :
    d.link.Tried := by
  obtain ⟨⟨c, net⟩, hcall⟩ := Option.isSome_iff_exists.mp hsome
  obtain ⟨c₀, hc₀, hcases⟩ := DialEvent.call_cases hcall
  rcases hcases with ⟨ts, s', rfl, -⟩ | ⟨opt', s', he', hlive, rfl, rfl⟩
  · rcases he with he | he <;> cases he
  · exact ((hready c hc₀).event hlive).2.2

/-- **One step**: the request is queued without a reason exactly when the event is not timely. -/
theorem established_iff (hready : d.Ready i) (e : DialEvent) :
    (Reaches i d e → Established d e) ↔ Timely i d e := by
  cases e with
  | completed =>
    refine iff_of_true ?_ trivial
    rintro ⟨c, net, hcall, -⟩
    cases hcall
  | resolved ts s => exact iff_of_true (reaches_resolved hready) trivial
  | writable opt s =>
    rw [reaches_back hready (.inl rfl)]
    unfold Established Timely
    constructor
    · intro h hsome hopt hlink
      have := h ⟨hsome, hopt, by rw [hlink]; rfl⟩
      simp [hlink] at this
    · rintro h ⟨hsome, hopt, hno⟩
      have htried := tried_of_call hready (.inl rfl) hsome
      have hne := h hsome hopt
      cases hlink : d.link with
      | up => exact .inl rfl
      | pending err => exact .inr ⟨err, rfl⟩
      | refused => exact absurd hlink hne
      | absent =>
        rw [hlink] at htried
        exact htried.elim
      | broken err =>
        rw [hlink] at htried hno
        exact absurd hno htried
  | timeout opt s =>
    rw [reaches_back hready (.inr rfl)]
    unfold Established Timely
    constructor
    · intro h hsome hopt
      cases hlink : d.link with
      | broken err => exact ⟨err, rfl⟩
      | _ => exact (h ⟨hsome, hopt, by rw [hlink]; rfl⟩).elim
    · rintro h ⟨hsome, hopt, hno⟩
      have htried := tried_of_call hready (.inr rfl) hsome
      obtain ⟨err, hlink⟩ := h hsome hopt
      rw [hlink] at htried hno
      exact htried hno

end Established

/-- A request whose host is being looked up. -/
structure Client.Resolving (c : Client) (pc : ProxyConfig) : Prop where
  config : c.cltPc = some pc
  fd : c.cltFd = -1
  asr : c.cltEvasr = true
  event : c.cltEvconnLive = false

theorem Client.Resolving.ready {c : Client} {pc : ProxyConfig} (hc : c.Resolving pc) {f : Fcgi}
    {i : UInt16} (hfind : f.find i.toUInt32 = some c) (l : Link) (place : List Addrinfo) :
    Dial.Ready i ⟨f, l, place⟩ := by
  intro c' hc'
  cases hfind.symm.trans (Dial.clt_eq_some.mp hc').2
  refine ⟨?_, fun _ => ⟨hc.fd, hc.event⟩, fun h => ?_⟩
  · rw [hc.config]
    rfl
  · rw [hc.event] at h
    cases h

/-- **The request is queued on a connection only**, in a run of events for a request whose host is
being looked up, exactly when all these events are timely. -/
theorem request_established_iff (env : Env) (i : UInt16) (f : Fcgi) (c : Client) (pc : ProxyConfig)
    (hfind : f.find i.toUInt32 = some c) (hc : c.Resolving pc) (es : List DialEvent) :
    Steps (dialStep env i) (fun d e => Reaches i d e → Established d e) ⟨f, .absent, []⟩ es
      ↔ Steps (dialStep env i) (Timely i) ⟨f, .absent, []⟩ es :=
  Steps.congr (fun _ _ h => dialStep_ready h) (fun _ e h => established_iff h e)
    (hc.ready hfind _ _) es

/-- A request that waits for the resolver. -/
def exampleResolving : Client :=
  { exampleAwaiting with cltFd := -1, cltBev := none, cltEvasr := true }

theorem exampleResolving_resolving : exampleResolving.Resolving
    ⟨lit "h", lit "/s.css", lit "::1", lit "h", lit "1965", true, false, false, false⟩ :=
  ⟨rfl, rfl, rfl, rfl⟩

def exampleDialing : Fcgi := { Fcgi.new [] [] with fcgClients := [exampleResolving] }

/-- A connection that is made before the event is reported. -/
theorem made_connection_established :
    Steps (dialStep exampleEnv 1) (fun d e => Reaches 1 d e → Established d e)
      ⟨exampleDialing, .absent, []⟩
      [.resolved [⟨⟨[]⟩, some 5, .later 0⟩] .fine, .completed, .writable true .fine] := by
  refine (request_established_iff _ 1 exampleDialing exampleResolving _ rfl
    exampleResolving_resolving _).mpr ⟨trivial, trivial, ?_, trivial⟩
  intro _ _ h
  cases h

/-- A connection that is in progress after five seconds, and one that was refused at once: the
request is queued all the same. -/
theorem unconnected_request_queued :
    ¬ Steps (dialStep exampleEnv 1) (fun d e => Reaches 1 d e → Established d e)
        ⟨exampleDialing, .absent, []⟩
        [.resolved [⟨⟨[]⟩, some 5, .later 0⟩] .fine, .timeout true .fine] ∧
      ¬ Steps (dialStep exampleEnv 1) (fun d e => Reaches 1 d e → Established d e)
        ⟨exampleDialing, .absent, []⟩
        [.resolved [⟨⟨[]⟩, some 5, .refused⟩] .fine, .writable true .fine] := by
  constructor
  · intro h
    exact h.2.1 ⟨_, _, rfl, rfl⟩
  · intro h
    have hup := h.2.1 ⟨_, _, rfl, rfl⟩
    rcases hup with hup | ⟨err, hup⟩ <;> cases hup

/-! ## From address to address -/

/-- The script of a call back, for a client that waits for one. -/
def backScript (l : Link) (c : Client) : Script :=
  if c.cltEvconnLive then connectScript (l.net true .fine) c else idle c

/-- The script of a whole attempt to connect. -/
def dialScript (ts : List Target) (c : Client) : Script :=
  (connectScript (dialNet ts .fine)
    { c with cltEvasr := false, cltP := ts.map Target.addr }).andThen
    (backScript (linkOf ts).completed)

/-- All that can happen to the addresses: the resolver answers, the connection that was started
comes to its end, and that is reported. -/
def dialEvents (ts : List Target) : List DialEvent :=
  [.resolved ts .fine, .completed, .writable true .fine]

/-- `proxy_connect` takes the address for connected: it is, or was refused at once. -/
def Target.trusted (t : Target) : Bool := t.accepts || t.result == .refused

/-- The client when its request is queued on a descriptor. -/
def Client.requested (c : Client) (pc : ProxyConfig) (fd : Nat) : Client :=
  { c with
    cltFd := fd
    cltEvasr := false
    cltP := []
    cltEvconnLive := false
    cltBev := some ⟨[], geminiRequest pc c⟩ }

/-- The client while it waits for a connection to `t`. -/
def Client.waits (c : Client) (t : Target) (rest : List Target) : Client :=
  { c with
    cltFd := (t.socket.getD 0 : Nat)
    cltEvasr := false
    cltP := (t :: rest).map Target.addr
    cltEvconnLive := true }

section Attempt

variable {env : Env} {i : UInt16} {f : Fcgi} {c : Client} {pc : ProxyConfig} {ts rest : List Target}
  {t : Target}

theorem connectScript_err (hpc : c.cltPc = some pc)
    (h : (connectAgain net c.cltFd net.sockets c.cltP).1 = .err) :
    connectScript net c = failScript c 501 "Can't connect" := by
  unfold connectScript
  dsimp only
  rw [h, hpc]

theorem connectScript_done (hpc : c.cltPc = some pc)
    (h : connectAgain net c.cltFd net.sockets c.cltP = (.done, fd, ps)) (hbev : net.bevNew = true)
    (htls : net.tls = true) (hqueued : net.queued = true) :
    connectScript net c = idle { c with
      cltFd := fd
      cltP := []
      cltEvconnLive := false
      cltBev := some ⟨[], geminiRequest pc c⟩ } := by
  unfold connectScript
  simp [h, hpc, hbev, htls, hqueued]

theorem connectScript_wait (h : connectAgain net c.cltFd net.sockets c.cltP = (.wait, fd, ps)) :
    connectScript net c = idle { c with cltFd := fd, cltP := ps, cltEvconnLive := true } := by
  unfold connectScript
  dsimp only
  rw [h]

theorem connectAgain_dial (hc : c.Resolving pc) (hfirst : firstSocket ts = some (t, rest)) :
    connectAgain (dialNet ts .fine) c.cltFd (ts.map Target.socket) (ts.map Target.addr)
      = (if linkOf ts = .up then Attempt.done else Attempt.wait,
        ((t.socket.getD 0 : Nat) : Int), (t :: rest).map Target.addr) := by
  rw [hc.fd, connectAgain_targets, hfirst]
  simp [dialNet]

/-- The first call, when `connect` returns 0. -/
theorem connectScript_up (hc : c.Resolving pc) (hfirst : firstSocket ts = some (t, rest))
    (hup : linkOf ts = .up) :
    connectScript (dialNet ts .fine) { c with cltEvasr := false, cltP := ts.map Target.addr }
      = idle (c.requested pc (t.socket.getD 0)) := by
  have hagain := connectAgain_dial hc hfirst
  rw [if_pos hup] at hagain
  exact connectScript_done (c := { c with cltEvasr := false, cltP := ts.map Target.addr })
    hc.config hagain rfl rfl rfl

/-- The first call, when it does not. -/
theorem connectScript_waits (hc : c.Resolving pc) (hfirst : firstSocket ts = some (t, rest))
    (hup : linkOf ts ≠ .up) :
    connectScript (dialNet ts .fine) { c with cltEvasr := false, cltP := ts.map Target.addr }
      = idle (c.waits t rest) := by
  have hagain := connectAgain_dial hc hfirst
  rw [if_neg hup] at hagain
  exact connectScript_wait (c := { c with cltEvasr := false, cltP := ts.map Target.addr }) hagain

/-- The second call. -/
theorem connectScript_back (hc : c.Resolving pc) (l : Link) :
    connectScript (l.net true .fine) (c.waits t rest)
      = if l.soError = 0 then idle (c.requested pc (t.socket.getD 0))
        else failScript c 501 "Can't connect" := by
  have hfd : (c.waits t rest).cltFd ≠ -1 := by
    show ((t.socket.getD 0 : Nat) : Int) ≠ -1
    omega
  have hback := connectAgain_back (l.net true .fine) hfd []
    (show (c.waits t rest).cltP ≠ [] from List.cons_ne_nil _ _)
  by_cases hzero : l.soError = 0
  · rw [if_pos (show (l.net true .fine).soError = some 0 from congrArg some hzero)] at hback
    rw [if_pos hzero]
    exact connectScript_done hc.config hback rfl rfl rfl
  · rw [if_neg fun h : (l.net true .fine).soError = some 0 => hzero (Option.some.inj h)] at hback
    rw [if_neg hzero]
    exact connectScript_err hc.config (congrArg Prod.fst hback)

theorem dialScript_up (hc : c.Resolving pc) (hfirst : firstSocket ts = some (t, rest))
    (hup : linkOf ts = .up) : dialScript ts c = idle (c.requested pc (t.socket.getD 0)) := by
  rw [dialScript, connectScript_up hc hfirst hup]
  rfl

theorem dialScript_back (hc : c.Resolving pc) (hfirst : firstSocket ts = some (t, rest))
    (hup : linkOf ts ≠ .up) :
    dialScript ts c =
      if (linkOf ts).completed.soError = 0 then idle (c.requested pc (t.socket.getD 0))
      else failScript c 501 "Can't connect" := by
  rw [dialScript, connectScript_waits hc hfirst hup, ← connectScript_back hc]
  rfl

/-- **The first socket decides.** -/
theorem dialScript_some (hc : c.Resolving pc) (hfirst : firstSocket ts = some (t, rest)) :
    dialScript ts c =
      if t.trusted then idle (c.requested pc (t.socket.getD 0))
      else failScript c 501 "Can't connect" := by
  obtain ⟨pre, fd, -, -, hsocket⟩ := firstSocket_eq_some hfirst
  have hlink := linkOf_some hfirst
  cases hresult : t.result with
  | now =>
    rw [hresult] at hlink
    rw [dialScript_up hc hfirst hlink,
      if_pos (by simp [Target.trusted, Target.accepts, hresult, hsocket])]
  | refused =>
    rw [hresult] at hlink
    rw [dialScript_back hc hfirst (by rw [hlink]; exact nofun), hlink]
    simp [ConnectResult.link, Link.completed, Link.soError, Target.trusted, hresult]
  | later err =>
    rw [hresult] at hlink
    rw [dialScript_back hc hfirst (by rw [hlink]; exact nofun), hlink]
    by_cases herr : err = 0 <;>
      simp [herr, ConnectResult.link, Link.completed, Link.soError, Target.trusted, Target.accepts,
        hresult, hsocket]

theorem call_resolved (hopen : f.closed = false) (hfind : f.find i.toUInt32 = some c)
    (hc : c.Resolving pc) :
    (DialEvent.resolved ts .fine).call i ⟨f, .absent, []⟩
      = some ({ c with cltEvasr := false, cltP := ts.map Target.addr }, dialNet ts .fine) := by
  have hclt : Dial.clt i ⟨f, .absent, []⟩ = some c := Dial.clt_eq_some.mpr ⟨hopen, hfind⟩
  simp [DialEvent.call, hclt, hc.asr]

/-- Nothing said is heard as nothing. -/
theorem heard_idle {tp : Template} (hfind : f.find i.toUInt32 = some { c with cltTp := tp }) :
    Heard f i { c with cltTp := tp } (idle c) f :=
  @Heard.goes f i { c with cltTp := tp } _ f c [] tp rfl rfl rfl rfl hfind
    (fun _ _ => rfl) (by simp [stdoutOf]) rfl (List.suffix_refl _)

/-- **The whole attempt is heard as its script.** -/
theorem heard_dial (hopen : f.closed = false) (hfind : f.find i.toUInt32 = some c)
    (hc : c.Resolving pc) :
    Heard f i c (dialScript ts c) (dialRun env i ⟨f, .absent, []⟩ (dialEvents ts)).fcgi := by
  have hready := hc.ready hfind .absent []
  have hcall := @call_resolved i f c pc ts hopen hfind hc
  obtain ⟨c₀, hc₀, hfirst⟩ := @dialStep_heard env i _ _ _ _ hready hcall
  cases hfind.symm.trans (Dial.clt_eq_some.mp hc₀).2
  have hready₁ := @dialStep_ready env i _ (.resolved ts .fine) hready
  have hlink : (dialStep env i ⟨f, .absent, []⟩ (.resolved ts .fine)).link = linkOf ts := by
    simp only [dialStep, hcall]
  unfold dialRun dialEvents
  rw [run_cons, run_cons, run_cons, run_nil]
  generalize dialStep env i ⟨f, .absent, []⟩ (.resolved ts .fine) = d₁ at hfirst hready₁ hlink ⊢
  have hcompleted : dialStep env i d₁ .completed = ⟨d₁.fcgi, (linkOf ts).completed, d₁.place⟩ := by
    rw [← hlink]
    rfl
  rw [hcompleted]
  -- nobody to be called back: nothing happens any more
  have hquiet (hnone : (DialEvent.writable true .fine).call i
      ⟨d₁.fcgi, (linkOf ts).completed, d₁.place⟩ = none) :
      (dialStep env i ⟨d₁.fcgi, (linkOf ts).completed, d₁.place⟩ (.writable true .fine)).fcgi
        = d₁.fcgi := by
    rcases @dialStep_of_call_none env i _ _ hnone with h | h <;> rw [h]
  refine hfirst.andThen (fun hgone => hquiet ?_) fun c' tp hnext hfind' hclosed => ?_
  · have hclt : Dial.clt i ⟨d₁.fcgi, (linkOf ts).completed, d₁.place⟩ = none := by
      show (if d₁.fcgi.closed then none else d₁.fcgi.find i.toUInt32) = none
      rcases hgone with h | h <;> simp [h]
    simp [DialEvent.call, hclt]
  · have hopen₁ : d₁.fcgi.closed = false := hclosed.trans hopen
    have hclt (l : Link) : Dial.clt i ⟨d₁.fcgi, l, d₁.place⟩ = some { c' with cltTp := tp } :=
      Dial.clt_eq_some.mpr ⟨hopen₁, hfind'⟩
    unfold backScript
    split
    · rename_i hlive
      have hback : (DialEvent.writable true .fine).call i
          ⟨d₁.fcgi, (linkOf ts).completed, d₁.place⟩
          = some ({ c' with cltTp := tp }, (linkOf ts).completed.net true .fine) := by
        simp [DialEvent.call, hclt, hlive]
      simp only [dialStep, hback, step, hopen₁, handle]
      exact heard_callback hfind' (hready₁ _ (hclt _)).config (proxyConnect_follows _)
    · rename_i hdead
      rw [hquiet (by simp [DialEvent.call, hclt, hdead])]
      exact heard_idle hfind'

/-- A call that says nothing leaves the connection alone, but for its client. -/
theorem proxyConnect_idle {c c' : Client} (h : connectScript net c = idle c') (f : Fcgi) :
    proxyConnect net ⟨f, c⟩ = (some (), ⟨f, c'⟩) := by
  revert h
  unfold connectScript
  simp only [proxyConnect, Prog.get_bind]
  generalize connectAgain net c.cltFd net.sockets c.cltP = r
  obtain ⟨a, fd, ps⟩ := r
  cases c with
  | mk _ _ _ _ _ _ _ _ _ _ pc =>
    cases a <;> cases pc <;> dsimp only
    case wait.none | wait.some =>
      intro h
      cases h
      rfl
    case done.some pc =>
      split <;> intro h <;> cases h
      rename_i hfine
      simp only [Bool.or_eq_true, not_or, Bool.not_eq_true] at hfine
      simp only [hfine.1.1, hfine.1.2, hfine.2]
      rfl
    all_goals exact fun h => nomatch h

theorem callback_connect (hfind : f.find i.toUInt32 = some c) (hc : c.started = true)
    (h : connectScript net c = idle c') :
    callback i Client.started (proxyConnect net) f = f.store c' := by
  rw [callback, hfind]
  dsimp only
  rw [if_pos hc, withClient_run hfind, proxyConnect_idle h]

theorem callback_resolved (hfind : f.find i.toUInt32 = some c) (hc : c.started = true)
    (h : connectScript net { c with cltEvasr := false, cltP := ps } = idle c') :
    callback i Client.started (proxyResolved (some ps) net) f = f.store c' := by
  rw [callback, hfind]
  dsimp only
  have hcall : proxyResolved (some ps) net ⟨f, c⟩
      = proxyConnect net ⟨f, { c with cltEvasr := false, cltP := ps }⟩ := rfl
  rw [if_pos hc, withClient_run hfind, hcall, proxyConnect_idle h]

theorem find_store_same {d : Client} (hfind : f.find i.toUInt32 = some c)
    (hid : d.cltId = c.cltId) : (f.store d).find i.toUInt32 = some d := by
  rw [Fcgi.find_store, if_pos (hid.trans (f.cltId_of_find hfind)), hfind]
  rfl

theorem dialStep_writable {d : Dial} {c c' : Client} (hclt : d.clt i = some c)
    (hlive : c.cltEvconnLive = true) (hc : c.started = true)
    (h : connectScript (d.link.net true .fine) c = idle c') :
    (dialStep env i d (.writable true .fine)).fcgi = d.fcgi.store c' := by
  obtain ⟨hopen, hfind⟩ := Dial.clt_eq_some.mp hclt
  have hcall : (DialEvent.writable true .fine).call i d = some (c, d.link.net true .fine) := by
    simp [DialEvent.call, hclt, hlive]
  simp only [dialStep, hcall, step, hopen, handle]
  exact callback_connect hfind hc h

theorem dialStep_writable_dead {d : Dial} {c : Client} (hclt : d.clt i = some c)
    (hlive : c.cltEvconnLive = false) :
    (dialStep env i d (.writable true .fine)).fcgi = d.fcgi := by
  have hnone : (DialEvent.writable true .fine).call i d = none := by
    simp [DialEvent.call, hclt, hlive]
  rcases @dialStep_of_call_none env i _ _ hnone with h | h <;> rw [h]

/-- The error of a connection that was trusted. -/
theorem soError_of_trusted (hfirst : firstSocket ts = some (t, rest))
    (htrusted : t.trusted = true) : (linkOf ts).completed.soError = 0 := by
  rw [linkOf_some hfirst]
  cases hresult : t.result with
  | now => rfl
  | refused => rfl
  | later err =>
    have herr : err = 0 := by
      simp [Target.trusted, Target.accepts, hresult] at htrusted
      exact htrusted.2
    rw [herr]
    rfl

/-- **The request is queued on the first socket**, when that was trusted. -/
theorem dialRun_trusted (hopen : f.closed = false) (hfind : f.find i.toUInt32 = some c)
    (hc : c.Resolving pc) (hfirst : firstSocket ts = some (t, rest)) (htrusted : t.trusted = true) :
    (dialRun env i ⟨f, .absent, []⟩ (dialEvents ts)).fcgi.find i.toUInt32
      = some (c.requested pc (t.socket.getD 0)) := by
  have hstarted : c.started = true := by
    rw [Client.started, hc.config]
    rfl
  have hresolved {c' : Client} (h : connectScript (dialNet ts .fine)
      { c with cltEvasr := false, cltP := ts.map Target.addr } = idle c') :
      dialStep env i ⟨f, .absent, []⟩ (.resolved ts .fine)
        = ⟨f.store c', linkOf ts,
          (dialStep env i ⟨f, .absent, []⟩ (.resolved ts .fine)).place⟩ := by
    simp only [dialStep, call_resolved hopen hfind hc, step, hopen, handle]
    rw [← callback_resolved hfind hstarted h]
    rfl
  unfold dialRun dialEvents
  rw [run_cons, run_cons, run_cons, run_nil]
  by_cases hup : linkOf ts = .up
  · have hstored := find_store_same (d := c.requested pc (t.socket.getD 0)) hfind rfl
    rw [hresolved (connectScript_up hc hfirst hup), dialStep_writable_dead
      (Dial.clt_eq_some.mpr ⟨hopen, hstored⟩) rfl]
    exact hstored
  · have hstored := find_store_same (d := c.waits t rest) hfind rfl
    have hback : connectScript ((linkOf ts).completed.net true .fine) (c.waits t rest)
        = idle (c.requested pc (t.socket.getD 0)) := by
      rw [connectScript_back hc, if_pos (soError_of_trusted hfirst htrusted)]
    rw [hresolved (connectScript_waits hc hfirst hup),
      dialStep_writable (c := c.waits t rest) (Dial.clt_eq_some.mpr ⟨hopen, hstored⟩) rfl
        hstarted hback]
    exact find_store_same hstored rfl

/-- Where the loop ended. -/
theorem dialRun_place (hopen : f.closed = false) (hfind : f.find i.toUInt32 = some c)
    (hc : c.Resolving pc) :
    (dialRun env i ⟨f, .absent, []⟩ (dialEvents ts)).place
      = match firstSocket ts with
        | none => []
        | some (t, rest) => (t :: rest).map Target.addr := by
  have hcall := @call_resolved i f c pc ts hopen hfind hc
  have hkept (d : Dial) (e : DialEvent) (he : e = .completed ∨ e = .writable true .fine) :
      (dialStep env i d e).place = d.place := by
    rcases he with rfl | rfl
    · rfl
    · unfold dialStep
      split <;> simp_all
  unfold dialRun dialEvents
  rw [run_cons, run_cons, run_cons, run_nil, hkept _ _ (.inr rfl), hkept _ _ (.inl rfl)]
  simp only [dialStep, hcall]
  dsimp only [dialNet]
  rw [hc.fd, connectAgain_targets]
  split <;> rfl

end Attempt

/-- The request for the client `c` is queued on the socket of `t`, which stands in front of `post`
in the list of addresses. -/
def SentTo (i : UInt16) (pc : ProxyConfig) (c : Client) (t : Target) (post : List Target)
    (d : Dial) : Prop :=
  ∃ c' fd, d.fcgi.find i.toUInt32 = some c' ∧ c'.cltBev = some ⟨[], geminiRequest pc c⟩ ∧
    t.socket = some fd ∧ c'.cltFd = (fd : Nat) ∧ d.place = (t :: post).map Target.addr

/-- The page about a connection that could not be made is what the web server gets, as far as it
takes it. -/
def CantConnect (f : Fcgi) (i : UInt16) (c : Client) (d : Dial) : Prop :=
  Heard f i c (failScript c 501 "Can't connect") d.fcgi

/-- The attempt goes from address to address: it is given up when all have been tried and failed,
and the request goes to the first one that takes the connection. -/
structure Failover (f : Fcgi) (i : UInt16) (c : Client) (pc : ProxyConfig) (ts : List Target)
    (d : Dial) : Prop where
  given_up : CantConnect f i c d → d.place.tail = [] ∧ ∀ t ∈ ts, t.accepts = false
  sent : ∀ pre t post, ts = pre ++ t :: post → (∀ u ∈ pre, u.accepts = false) →
    t.accepts = true → SentTo i pc c t post d

/-- There is no need for another address than the first one with a socket: it takes the connection,
or it fails later and is the last one, or it is refused at once and the others fail as well. -/
def FirstDecides (ts : List Target) : Prop :=
  ∀ t rest, firstSocket ts = some (t, rest) →
    match t.result with
    | .now => True
    | .later err => err = 0 ∨ rest = []
    | .refused => ∀ u ∈ rest, u.accepts = false

section Failover

variable {i : UInt16} {f : Fcgi} {c : Client} {pc : ProxyConfig} {ts rest : List Target}
  {t : Target} {d : Dial}

theorem accepts_of_socket_none {u : Target} (h : u.socket = none) : u.accepts = false := by
  rw [Target.accepts, h]
  rfl

/-- The first one of a list is unique. -/
theorem first_unique {pre pre' post post' : List Target} {t t' : Target}
    (h : pre ++ t :: post = pre' ++ t' :: post') (hpre : ∀ u ∈ pre, u.accepts = false)
    (hpre' : ∀ u ∈ pre', u.accepts = false) (ht : t.accepts = true) (ht' : t'.accepts = true) :
    t = t' ∧ post = post' := by
  have hdrop := congrArg (List.dropWhile fun u : Target => !u.accepts) h
  rw [List.dropWhile_append_of_pos (by simpa using hpre),
    List.dropWhile_append_of_pos (by simpa using hpre'),
      List.dropWhile_cons_of_neg (by simpa using ht),
    List.dropWhile_cons_of_neg (by simpa using ht')] at hdrop
  exact List.cons.inj hdrop

/-- The first socket was taken for connected. -/
theorem failover_of_trusted (hfirst : firstSocket ts = some (t, rest))
    (hfind : d.fcgi.find i.toUInt32 = some (c.requested pc (t.socket.getD 0)))
    (hplace : d.place = (t :: rest).map Target.addr) :
    Failover f i c pc ts d ↔ (t.accepts = true ∨ ∀ u ∈ rest, u.accepts = false) := by
  obtain ⟨pre, fd, rfl, hpre, hsocket⟩ := firstSocket_eq_some hfirst
  have hfails : ∀ u ∈ pre, u.accepts = false := fun u hu => accepts_of_socket_none (hpre u hu)
  constructor
  · intro h
    by_contra hnot
    obtain ⟨hrefused, hother⟩ := not_or.mp hnot
    -- the first of the others that takes the connection
    have hex : (rest.find? Target.accepts).isSome = true := by
      simpa using hother
    obtain ⟨u, hu⟩ := Option.isSome_iff_exists.mp hex
    obtain ⟨haccepts, mid, post, rfl, hmid⟩ := List.find?_eq_some_iff_append.mp hu
    have hbefore : ∀ v ∈ pre ++ t :: mid, v.accepts = false := by
      simp only [List.mem_append, List.mem_cons]
      rintro v (hv | rfl | hv)
      · exact hfails v hv
      · simpa using hrefused
      · simpa using hmid v hv
    obtain ⟨c', fd', -, -, -, -, hat⟩ := h.sent (pre ++ t :: mid) u post (by simp) hbefore haccepts
    have hlength := congrArg List.length (hplace.symm.trans hat)
    simp at hlength
    omega
  · intro h
    refine ⟨fun hgiven => ?_, fun pre' t' post heq hpre' ht' => ?_⟩
    · obtain ⟨c', tp', hnext, -⟩ := hgiven.find_eq hfind
      cases hnext
    · have ht : t.accepts = true := by
        rcases h with h | hrest
        · exact h
        by_contra hrefused
        have hmem : t' ∈ pre ++ t :: rest := by simp [heq]
        simp only [List.mem_append, List.mem_cons] at hmem
        rcases hmem with hmem | rfl | hmem
        · exact nomatch (hfails t' hmem).symm.trans ht'
        · exact hrefused ht'
        · exact nomatch (hrest t' hmem).symm.trans ht'
      obtain ⟨rfl, rfl⟩ := first_unique heq hfails hpre' ht ht'
      refine ⟨_, fd, hfind, rfl, hsocket, ?_, hplace⟩
      rw [hsocket]
      rfl

/-- The first socket was not connected, and the request was given up. -/
theorem failover_of_not_trusted (hfirst : firstSocket ts = some (t, rest))
    (htrusted : t.trusted = false) (hgiven : CantConnect f i c d)
    (hplace : d.place = (t :: rest).map Target.addr) : Failover f i c pc ts d ↔ rest = [] := by
  obtain ⟨pre, fd, rfl, hpre, hsocket⟩ := firstSocket_eq_some hfirst
  constructor
  · intro h
    have htail := (h.given_up hgiven).1
    rw [hplace, List.map_cons, List.tail_cons] at htail
    exact List.map_eq_nil_iff.mp htail
  · rintro rfl
    have hnone : ∀ u ∈ pre ++ [t], u.accepts = false := by
      simp only [List.mem_append, List.mem_singleton]
      rintro u (hu | rfl)
      · exact accepts_of_socket_none (hpre u hu)
      · simp only [Target.trusted, Bool.or_eq_false_iff] at htrusted
        exact htrusted.1
    refine ⟨fun _ => ⟨by rw [hplace]; rfl, hnone⟩, fun pre' t' post heq _ ht' => ?_⟩
    have hmem : t' ∈ pre ++ [t] := by simp [heq]
    exact nomatch (hnone t' hmem).symm.trans ht'

/-- **The first socket decides**, for the whole attempt. -/
theorem failover_decided (env : Env) (hopen : f.closed = false)
    (hfind : f.find i.toUInt32 = some c) (hc : c.Resolving pc)
    (hfirst : firstSocket ts = some (t, rest)) :
    Failover f i c pc ts (dialRun env i ⟨f, .absent, []⟩ (dialEvents ts)) ↔
      if t.trusted then t.accepts = true ∨ ∀ u ∈ rest, u.accepts = false else rest = [] := by
  have hplace := @dialRun_place env i f c pc ts hopen hfind hc
  rw [hfirst] at hplace
  split
  · rename_i htrusted
    exact failover_of_trusted hfirst (dialRun_trusted hopen hfind hc hfirst htrusted) hplace
  · rename_i htrusted
    have hheard := @heard_dial env i f c pc ts hopen hfind hc
    rw [dialScript_some hc hfirst, if_neg htrusted] at hheard
    exact failover_of_not_trusted hfirst (by simpa using htrusted) hheard hplace

theorem firstDecides_some (hfirst : firstSocket ts = some (t, rest)) :
    FirstDecides ts ↔
      if t.trusted then t.accepts = true ∨ ∀ u ∈ rest, u.accepts = false else rest = [] := by
  obtain ⟨pre, fd, -, -, hsocket⟩ := firstSocket_eq_some hfirst
  have hone : FirstDecides ts ↔ match t.result with
      | .now => True
      | .later err => err = 0 ∨ rest = []
      | .refused => ∀ u ∈ rest, u.accepts = false := by
    constructor
    · exact fun h => h t rest hfirst
    · intro h t' rest' hfirst'
      cases hfirst.symm.trans hfirst'
      exact h
  rw [hone]
  cases hresult : t.result with
  | now => simp [Target.trusted, Target.accepts, hresult, hsocket]
  | refused => simp [Target.trusted, Target.accepts, hresult, hsocket]
  | later err =>
    by_cases herr : err = 0 <;> simp [Target.trusted, Target.accepts, hresult, hsocket, herr]

end Failover

/-- **The request goes to the first address that takes the connection**, and is only given up when
all have been tried, exactly when the first address with a socket is the right one. -/
theorem failover_iff (env : Env) (i : UInt16) (f : Fcgi) (c : Client) (pc : ProxyConfig)
    (ts : List Target) (hopen : f.closed = false) (hfind : f.find i.toUInt32 = some c)
    (hc : c.Resolving pc) :
    Failover f i c pc ts (dialRun env i ⟨f, .absent, []⟩ (dialEvents ts)) ↔ FirstDecides ts := by
  cases hfirst : firstSocket ts with
  | some p => rw [failover_decided env hopen hfind hc hfirst, firstDecides_some hfirst]
  | none =>
    have hnone : ∀ t ∈ ts, t.accepts = false :=
      fun t ht => accepts_of_socket_none (firstSocket_eq_none.mp hfirst t ht)
    have hplace := @dialRun_place env i f c pc ts hopen hfind hc
    rw [hfirst] at hplace
    refine iff_of_true ⟨fun _ => ⟨by rw [hplace]; rfl, hnone⟩, fun pre t post heq _ ht => ?_⟩ ?_
    · have hmem : t ∈ ts := by simp [heq]
      exact nomatch (hnone t hmem).symm.trans ht
    · intro t rest h
      cases hfirst.symm.trans h

/-- An address without a socket, and one that takes the connection. -/
theorem second_address_serves :
    let ts : List Target := [⟨⟨lit "a"⟩, none, .refused⟩, ⟨⟨lit "b"⟩, some 5, .later 0⟩]
    Failover exampleDialing 1 exampleResolving
      ⟨lit "h", lit "/s.css", lit "::1", lit "h", lit "1965", true, false, false, false⟩ ts
      (dialRun exampleEnv 1 ⟨exampleDialing, .absent, []⟩ (dialEvents ts)) := by
  intro ts
  refine (failover_iff exampleEnv 1 exampleDialing exampleResolving _ ts rfl rfl
    exampleResolving_resolving).mpr ?_
  intro t rest h
  cases h
  exact .inl rfl

/-- The first address fails later: the second one, which would take the connection, is never tried.
The first one refuses at once: the request is queued on its socket. -/
theorem second_address_lost :
    let pc : ProxyConfig :=
      ⟨lit "h", lit "/s.css", lit "::1", lit "h", lit "1965", true, false, false, false⟩
    let late : List Target := [⟨⟨lit "a"⟩, some 5, .later 61⟩, ⟨⟨lit "b"⟩, some 6, .now⟩]
    let soon : List Target := [⟨⟨lit "a"⟩, some 5, .refused⟩, ⟨⟨lit "b"⟩, some 6, .now⟩]
    ¬ Failover exampleDialing 1 exampleResolving pc late
        (dialRun exampleEnv 1 ⟨exampleDialing, .absent, []⟩ (dialEvents late)) ∧
      ¬ Failover exampleDialing 1 exampleResolving pc soon
        (dialRun exampleEnv 1 ⟨exampleDialing, .absent, []⟩ (dialEvents soon)) := by
  intro pc late soon
  constructor
  · rw [failover_decided exampleEnv rfl rfl exampleResolving_resolving
      (show firstSocket late = _ from rfl)]
    decide
  · rw [failover_decided exampleEnv rfl rfl exampleResolving_resolving
      (show firstSocket soon = _ from rfl)]
    decide

end Galileo
