import Galileo.Proof.Dispatch

/-!
# The program refines the abstract connection

`Fcgi.abs` forgets everything about a connection but its requests, its flags and its log. The
theorem of this module, `step_refines`, says that every event is a run of abstract acts, and
*which* acts an event can cause: only a `FCGI_BEGIN_REQUEST` record admits or refuses, only a
`FCGI_PARAMS` record teaches a method, and a request is started by an empty `FCGI_PARAMS` or
`FCGI_STDIN` record, depending on its method.

Each function of the dispatcher has its own lemma, and the callbacks of `proxy.c` share one,
because they are all of one kind (`Serves`).
-/

set_option autoImplicit false

namespace Galileo

open Lib Lib.FastCgi Lib.Run

variable {i : UInt16} {f : Fcgi} {c : Client} {e : Event} {env : Env} {r : Req} {a : Act}

/-! ## The abstraction -/

/-- A client as the connection sees it. -/
def Client.req (c : Client) : Req := ⟨c.serial, c.cltMethod, c.started⟩

def Fcgi.abs (f : Fcgi) : Conn where
  req i := (f.find i.toUInt32).map Client.req
  keep := f.fcgKeepConn
  done := f.fcgDone
  closed := f.closed
  log := f.trace
  out := f.output
  next := f.nextSerial

theorem Client.Same.req {c d : Client} (h : c.Same d) : d.req = c.req := by
  simp [Client.req, Client.started, h.serial, h.method, h.pc]

/-- The connection with another request under `i`. -/
def Conn.set (c : Conn) (i : UInt16) (r : Option Req) : Conn :=
  { c with req := Function.update c.req i r }

theorem abs_said (f : Fcgi) (id : UInt32) (ds : List Bytes) (ws : List Bool)
    (as : List AsrAnswer) : (f.said id ds ws as).abs = f.abs.put (stdoutOf id ds) := rfl

theorem abs_store (hc : c.cltId = i.toUInt32) (hfind : (f.find i.toUInt32).isSome) :
    (f.store c).abs = f.abs.set i (some c.req) := by
  refine Conn.ext (funext fun j => ?_) rfl rfl rfl rfl rfl rfl
  obtain ⟨d, hd⟩ := Option.isSome_iff_exists.mp hfind
  simp only [Fcgi.abs, Conn.set, f.find_store, hc]
  by_cases hj : j = i
  · subst hj
    simp [hd]
  · have hne : ¬ i.toUInt32 = j.toUInt32 := fun h => hj (toUInt32_inj.mp h).symm
    simp [hne, hj]

theorem abs_cons (hc : c.cltId = i.toUInt32) (hfind : f.find i.toUInt32 = none) :
    ({ f with fcgClients := c :: f.fcgClients } : Fcgi).abs = f.abs.set i (some c.req) := by
  refine Conn.ext (funext fun j => ?_) rfl rfl rfl rfl rfl rfl
  simp only [Fcgi.abs, Conn.set, Fcgi.find_cons, hc]
  by_cases hj : j = i
  · subst hj
    simp
  · have hne : ¬ j.toUInt32 = i.toUInt32 := fun h => hj (toUInt32_inj.mp h)
    simp [hne, hj]

theorem abs_finish (hc : c.cltId = i.toUInt32) (body : Bytes) (ws : List Bool) :
    ({ f.finish c body with writes := ws } : Fcgi).abs
      = { f.abs.put [.queued endRequestType i body, .freed i c.serial] with
          req := Function.update f.abs.req i none
          done := f.abs.done || !f.abs.keep } := by
  have hid : c.cltId.toUInt16 = i := by rw [hc, toUInt16_toUInt32]
  refine Conn.ext (funext fun j => ?_) rfl rfl rfl ?_ ?_ rfl
  · show ((f.finish c body).find j.toUInt32).map Client.req = _
    rw [f.find_finish, hc]
    by_cases hj : j = i
    · subst hj
      simp
    · have hne : ¬ j.toUInt32 = i.toUInt32 := fun h => hj (toUInt32_inj.mp h)
      simp [hne, hj, Fcgi.abs]
  · simp [Fcgi.abs, Fcgi.finish, hid]
  · simp [Fcgi.abs, Fcgi.finish, hid, Obs.wire]

/-! ## Callbacks -/

/-- The acts of a callback: output, and at most one end. -/
def Act.plain : Act → Prop
  | .say _ _ | .finish _ _ | .tear _ => True
  | _ => False

/-- An act that is enabled and belongs to a callback. -/
def Conn.Serving (c : Conn) (a : Act) : Prop := c.Enabled a ∧ a.plain

theorem run_say (i : UInt16) (ds : List Bytes) (c : Conn) :
    Run.run Conn.apply c (ds.map (.say i)) = c.put (ds.map (.queued stdout i)) := by
  induction ds generalizing c with
  | nil => simp [Conn.put]
  | cons d ds ih => rw [List.map_cons, run_cons, ih, Conn.apply, Conn.put_put]; rfl

theorem steps_say {ds : List Bytes} (hds : ∀ d ∈ ds, Block d) {c : Conn}
    (hopen : c.closed = false) (hreq : (c.req i).isSome) :
    Steps Conn.apply Conn.Serving c (ds.map (.say i)) := by
  induction ds generalizing c with
  | nil => trivial
  | cons d ds ih =>
    exact ⟨⟨⟨hopen, hreq, hds d (by simp)⟩, trivial⟩,
      ih (fun e he => hds e (by simp [he])) hopen hreq⟩

/-- What `Says` is in terms of acts. -/
theorem says_does {f g : Fcgi} (h : Says f i.toUInt32 g) (hopen : f.closed = false) :
    ∃ as, Steps Conn.apply Conn.Serving (f.abs.set i (some r)) as ∧
      Run.run Conn.apply (f.abs.set i (some r)) as = g.abs.set i (some r) := by
  obtain ⟨ds, ws, as, hds, rfl⟩ := h
  refine ⟨ds.map (.say i), steps_say hds hopen (by simp [Conn.set]), ?_⟩
  rw [run_say, abs_said, stdoutOf, toUInt16_toUInt32]
  rfl

theorem ends_does {f g : Fcgi} (hc : c.cltId = i.toUInt32) (hser : r.serial = c.serial)
    (h : Says f i.toUInt32 g) (body : Bytes) (ws : List Bool) (hopen : f.closed = false) :
    ∃ as, Steps Conn.apply Conn.Serving (f.abs.set i (some r)) as ∧
      Run.run Conn.apply (f.abs.set i (some r)) as
        = ({ g.finish c body with writes := ws } : Fcgi).abs := by
  obtain ⟨as, hsteps, hrun⟩ := says_does h hopen (r := r)
  have hgopen : g.closed = false := by
    obtain ⟨ds, ws, as, -, rfl⟩ := h
    exact hopen
  refine ⟨as ++ [.finish i body], Steps.append.mpr ⟨hsteps, ?_⟩, ?_⟩
  · rw [hrun]
    exact ⟨⟨⟨hgopen, by simp [Conn.set]⟩, trivial⟩, trivial⟩
  · rw [run_append, hrun, abs_finish hc]
    simp [Conn.apply, Conn.set, hser, Conn.put]

theorem breaks_does {f g : Fcgi} (h : Torn f i.toUInt32 g) (hopen : f.closed = false) :
    ∃ as, Steps Conn.apply Conn.Serving (f.abs.set i (some r)) as ∧
      Run.run Conn.apply (f.abs.set i (some r)) as = g.abs := by
  obtain ⟨ds, ws, as, out, hds, hout, rfl⟩ := h
  obtain ⟨bs, hsteps, hrun⟩ := says_does ⟨ds, ws, as, hds, rfl⟩ hopen (r := r) (f := f)
  refine ⟨bs ++ [.tear out], Steps.append.mpr ⟨hsteps, ?_⟩, ?_⟩
  · rw [hrun]
    exact ⟨⟨⟨hopen, hout⟩, trivial⟩, trivial⟩
  · rw [run_append, hrun]
    rfl

/-- **A callback is a run of acts**, ending in what the tree holds afterwards. -/
theorem served_does {y : Ctx} (hc : c.cltId = i.toUInt32) (hopen : f.closed = false)
    (hfind : (f.find i.toUInt32).isSome) (h : Served f c y) :
    ∃ as, Steps Conn.apply Conn.Serving (f.abs.set i (some c.req)) as ∧
      Run.run Conn.apply (f.abs.set i (some c.req)) as = (y.fcgi.store y.clt).abs := by
  rcases h.store_cases hc with ⟨g, hsaid, hsame, hy⟩ | ⟨g, as, ps, ws, hsaid, hy⟩ | htorn
  · have hgfind : (g.find i.toUInt32).isSome := by
      obtain ⟨ds, ws, as, -, rfl⟩ := hsaid
      exact hfind
    rw [hy, abs_store (hsame.id.trans hc) hgfind, hsame.req]
    exact says_does hsaid hopen
  · rw [hy]
    exact ends_does hc rfl hsaid _ ws hopen
  · exact breaks_does htorn hopen

/-- Setting what is there. -/
theorem abs_set_self (h : f.find i.toUInt32 = some c) : f.abs.set i (some c.req) = f.abs := by
  have hreq : f.abs.req i = some c.req := by simp [Fcgi.abs, h]
  rw [Conn.set, ← hreq, Function.update_eq_self]

/-- Storing a client the connection sees no difference in. -/
theorem abs_store_same {c d : Client} (h : f.find i.toUInt32 = some c) (hsame : c.Same d)
    (toread : Int) (input : Bytes) :
    (Fcgi.store { f with fcgToread := toread, input := input } d).abs = f.abs := by
  refine (abs_store (f := { f with fcgToread := toread, input := input })
    (hsame.id.trans (f.cltId_of_find h)) (Option.isSome_iff_exists.mpr ⟨c, h⟩)).trans ?_
  rw [hsame.req]
  exact abs_set_self h

theorem withClient_does {m : CltM Unit} (hm : Serves m) (hopen : f.closed = false)
    (hfind : f.find i.toUInt32 = some c) :
    ∃ as, Steps Conn.apply Conn.Serving f.abs as ∧
      Run.run Conn.apply f.abs as = (withClient i.toUInt32 m f).2.abs := by
  obtain ⟨as, hsteps, hrun⟩ := served_does (f.cltId_of_find hfind) hopen (by simp [hfind])
    (hm.runs ⟨f, c⟩).served
  rw [abs_set_self hfind] at hsteps hrun
  exact ⟨as, hsteps, by rw [withClient_run hfind]; exact hrun⟩

/-- Starting a request is the act `start` and then a callback; `d` is the client the connection
has under `i`, perhaps with other fields changed already. -/
theorem start_does (env : Env) {c d : Client} (hopen : f.closed = false)
    (hfind : f.find i.toUInt32 = some c) (hsame : c.Same d) :
    ∃ as, Steps Conn.apply Conn.Serving (f.abs.apply (.start i)) as ∧
      Run.run Conn.apply (f.abs.apply (.start i)) as
        = ((proxyStartRequest env ⟨f, d⟩).2.fcgi.store
          (proxyStartRequest env ⟨f, d⟩).2.clt).abs := by
  have hd : d.cltId = i.toUInt32 := hsame.id.trans (f.cltId_of_find hfind)
  have hreq : f.abs.req i = some d.req := by simp [Fcgi.abs, hfind, hsame.req]
  have happly : f.abs.apply (.start i)
      = (f.observe (.started d.serial)).abs.set i (some { d.req with started := true }) := by
    simp only [Conn.apply, hreq]
    refine Conn.ext rfl rfl rfl rfl rfl ?_ rfl
    simp [Conn.set, Fcgi.abs, Fcgi.observe, Obs.wire]
  rw [happly]
  have hopen' : (f.observe (.started d.serial)).closed = false := hopen
  cases proxyStartRequest_runs env f d with
  | stays pc _ h =>
    have hfind' : (f.observe (.started d.serial)).find i.toUInt32 = some c := hfind
    exact served_does (c := { d with cltPc := some pc }) hd hopen' (by simp [hfind']) (.stays h)
  | ends _ h =>
    obtain ⟨g, as, ps, ws, hsaid, hy⟩ := h.store hd
    rw [hy]
    exact ends_does hd rfl hsaid _ ws hopen'
  | breaks _ h => exact breaks_does (h.store hd) hopen'

/-- What an event can cause, and in which state. -/
def Caused (f : Fcgi) (e : Event) (c : Conn) (a : Act) : Prop :=
  c.Enabled a ∧
    match a with
    | .refuse i _ => f.refuses e ∧ i = f.fcgRecId ∧ c.req = f.abs.req
    | .accept i keep =>
        f.admits e ∧ f.fcgKeepConn = true ∧ i = f.fcgRecId ∧ keep = f.keepFlag ∧
          c.req = f.abs.req
    | .learn i _ => f.learns e ∧ i = f.fcgRecId
    | .start i => (∃ clt, f.starts e clt) ∧ i = f.fcgRecId ∧ c.req = f.abs.req
    | .close => ∃ n, e = .drained n
    | _ => True

theorem Conn.Serving.caused {c : Conn} (h : c.Serving a) : Caused f e c a := by
  refine ⟨h.1, ?_⟩
  cases a with
  | say | finish | tear | dispatch => trivial
  | _ => exact absurd h.2 id

/-- From `c`, acts an event can cause lead to `g`. -/
def Does (f : Fcgi) (e : Event) (c : Conn) (g : Fcgi) : Prop :=
  ∃ as, Steps Conn.apply (Caused f e) c as ∧ Run.run Conn.apply c as = g.abs

theorem Does.nothing {f g : Fcgi} {c : Conn} (h : c = g.abs) : Does f e c g :=
  ⟨[], trivial, h⟩

theorem Does.one {f g : Fcgi} {c : Conn} (ha : Caused f e c a) (h : c.apply a = g.abs) :
    Does f e c g :=
  ⟨[a], ⟨ha, trivial⟩, h⟩

theorem Does.cons {f g : Fcgi} {c : Conn} (ha : Caused f e c a) (h : Does f e (c.apply a) g) :
    Does f e c g := by
  obtain ⟨as, hsteps, hrun⟩ := h
  exact ⟨a :: as, ⟨ha, hsteps⟩, hrun⟩

theorem Does.serving {f g : Fcgi} {c : Conn} {as : List Act}
    (hsteps : Steps Conn.apply Conn.Serving c as) (hrun : Run.run Conn.apply c as = g.abs) :
    Does f e c g :=
  ⟨as, hsteps.mono fun _ _ h => h.caused, hrun⟩

theorem Does.torn {f g : Fcgi} (hopen : g.closed = false) : Does f e g.abs (fcgiError g) :=
  Does.one (a := .tear g.output) ⟨⟨hopen, List.prefix_refl _⟩, trivial⟩ rfl

section Dispatcher

variable {g : Fcgi}

/-- `g` is `f` but for what was logged and taken from the input. -/
structure Fcgi.Like (f g : Fcgi) : Prop where
  clients : g.fcgClients = f.fcgClients
  toread : g.fcgToread = f.fcgToread
  recId : g.fcgRecId = f.fcgRecId
  input : g.input = f.input
  closed : g.closed = f.closed
  keepConn : g.fcgKeepConn = f.fcgKeepConn

theorem Fcgi.Like.req (h : f.Like g) : g.abs.req = f.abs.req := by
  funext i
  simp only [Fcgi.abs, Fcgi.find, h.clients]

theorem readBegin_does (htakes : f.takes e beginRequest) (hlike : f.Like g) :
    Does f e g.abs (readBegin g).fcgi := by
  have hopen : g.closed = false := hlike.closed.trans htakes.2.1
  have hrole : g.role = f.role := by rw [Fcgi.role, Fcgi.role, hlike.input]
  have hkeep : g.keepFlag = f.keepFlag := by rw [Fcgi.keepFlag, Fcgi.keepFlag, hlike.input]
  have hcases := readBegin_cases g
  generalize readBegin g = r at hcases ⊢
  cases hcases with
  | waits _ _ => exact Does.nothing rfl
  | badSize _ => exact Does.torn hopen
  | refused ws hlen hr =>
    refine Does.one (a := .refuse f.fcgRecId (endReqBody 1 unknownRole))
      ⟨⟨hopen, trivial⟩, ⟨htakes, hlike.toread ▸ hlen, hrole ▸ hr⟩, rfl, hlike.req⟩ ?_
    rw [← hlike.recId]
    refine Conn.ext rfl rfl rfl rfl rfl ?_ rfl
    simp [Conn.apply, Fcgi.abs, Flow.fcgi, nextRecord]
  | refusedTorn ws out hout => exact Does.one (a := .tear out) ⟨⟨hopen, hout⟩, trivial⟩ rfl
  | notKept _ => exact Does.torn (g := { g with input := g.input.drop 8 }) hopen
  | again c hlen hr hk hfind =>
    refine Does.one (a := .accept f.fcgRecId f.keepFlag)
      ⟨⟨hopen, hk⟩, ⟨htakes, hlike.toread ▸ hlen, hrole ▸ hr⟩, hlike.keepConn ▸ hk, rfl, rfl,
        hlike.req⟩ ?_
    have hreq : g.abs.req g.fcgRecId = some c.req := by simp [Fcgi.abs, hfind]
    rw [← hlike.recId, ← hkeep]
    simp only [Conn.apply, hreq]
    rfl
  | accepted hlen hr hk hfind =>
    refine Does.one (a := .accept f.fcgRecId f.keepFlag)
      ⟨⟨hopen, hk⟩, ⟨htakes, hlike.toread ▸ hlen, hrole ▸ hr⟩, hlike.keepConn ▸ hk, rfl, rfl,
        hlike.req⟩ ?_
    have hreq : g.abs.req g.fcgRecId = none := by simp [Fcgi.abs, hfind]
    have hins := abs_cons (c := Client.new g.fcgRecId.toUInt32 g.nextSerial) (i := g.fcgRecId)
      rfl hfind
    rw [← hlike.recId, ← hkeep]
    simp only [Conn.apply, hreq]
    refine Conn.ext ?_ rfl rfl rfl rfl ?_ rfl
    · exact (congrArg Conn.req hins).symm
    · simp [Fcgi.abs, Flow.fcgi, nextRecord, Obs.wire]

/-- A callback in the dispatcher, and what follows it. -/
theorem afterCall_abs (r : Option Unit × Fcgi) : (afterCall r).fcgi.abs = r.2.abs := by
  rcases r with ⟨_ | u, g⟩ <;> rfl

theorem Fcgi.Like.find (h : f.Like g) (j : UInt32) : g.find j = f.find j := by
  simp only [Fcgi.find, h.clients]

theorem start_caused (hlike : f.Like g) (h : f.starts e c) :
    Caused f e g.abs (.start f.fcgRecId) := by
  obtain ⟨hlen, hfind, htakes⟩ := h
  have hopen : g.closed = false := by
    rcases htakes with ⟨ht, -⟩ | ⟨ht, -⟩ <;> exact hlike.closed.trans ht.2.1
  refine ⟨⟨hopen, c.req, ?_, ?_⟩, ⟨c, hlen, hfind, htakes⟩, rfl, hlike.req⟩
  · simp [Fcgi.abs, hlike.find, hfind]
  · rcases htakes with ⟨-, hm⟩ | ⟨-, hm⟩ <;> simp [Client.req, hm]

/-- The start of a request, from either of its triggers. -/
theorem starts_does (env : Env) (hlike : f.Like g) {c d : Client} (h : f.starts e c)
    (hsame : c.Same d) :
    Does f e g.abs
      ((proxyStartRequest env ⟨g, d⟩).2.fcgi.store (proxyStartRequest env ⟨g, d⟩).2.clt) := by
  have hcaused := start_caused hlike h
  obtain ⟨as, hsteps, hrun⟩ := start_does env hcaused.1.1 ((hlike.find _).trans h.2.1) hsame
  exact Does.cons hcaused (Does.serving hsteps hrun)

/-- `case FCGI_PARAMS` at the end of the parameters of a `GET` request. -/
theorem readParams_start (env : Env) (stale : Bytes) (hfind : g.find g.fcgRecId.toUInt32 = some c)
    (hlen : g.fcgToread = 0) (hget : c.cltMethod = .get) :
    (readParams env stale g).fcgi.abs
      = ((proxyStartRequest env ⟨g, c⟩).2.fcgi.store (proxyStartRequest env ⟨g, c⟩).2.clt).abs := by
  rw [readParams, hfind]
  dsimp only
  rw [if_pos hlen, if_pos hget, afterCall_abs, withClient_run hfind]

/-- `case FCGI_STDIN` at the end of the form of a `POST` request. -/
theorem readStdin_start (env : Env) (hfind : g.find g.fcgRecId.toUInt32 = some c)
    (hlen : g.fcgToread = 0) (hpost : c.cltMethod = .post) :
    (readStdin env g).fcgi.abs
      = ((proxyStartRequest env ⟨g, { c with cltBodydone := true }⟩).2.fcgi.store
          (proxyStartRequest env ⟨g, { c with cltBodydone := true }⟩).2.clt).abs := by
  rw [readStdin, hfind]
  dsimp only
  rw [if_neg (by simp [hpost]), afterCall_abs, withClient_run hfind,
    fcgiParseForm_empty env c hlen]

/-- Parameters are stored for the client. -/
theorem learnt_does (hlearns : f.learns e) (hlike : f.Like g) {c d : Client}
    (hfind : g.find g.fcgRecId.toUInt32 = some c) (hd : c.Learnt d) (toread : Int)
    (input : Bytes) :
    Does f e g.abs (Fcgi.store { g with fcgToread := toread, input := input } d) := by
  have hopen : g.closed = false := hlike.closed.trans hlearns.1.2.1
  have hid : d.cltId = g.fcgRecId.toUInt32 := hd.id.trans (g.cltId_of_find hfind)
  have hstore : (Fcgi.store { g with fcgToread := toread, input := input } d).abs
      = g.abs.set g.fcgRecId (some d.req) :=
    abs_store (f := { g with fcgToread := toread, input := input }) hid
      (Option.isSome_iff_exists.mpr ⟨c, hfind⟩)
  have hserial : d.req = { c.req with method := d.cltMethod } := by
    simp [Client.req, Client.started, hd.serial, hd.pc]
  rcases hd.method with hm | hm
  · have hreq : d.req = c.req := by
      rw [hserial, hm]
      rfl
    refine Does.nothing ?_
    rw [hstore, hreq, abs_set_self hfind]
  · refine Does.one (a := .learn f.fcgRecId d.cltMethod) ⟨⟨hopen, hm⟩, hlearns, rfl⟩ ?_
    have hreq : g.abs.req g.fcgRecId = some c.req := by simp [Fcgi.abs, hfind]
    rw [hstore, ← hlike.recId, hserial]
    simp only [Conn.apply, Conn.set, hreq, Option.map_some]

theorem readParams_does (env : Env) (stale : Bytes) (htakes : f.takes e params)
    (hlike : f.Like g) : Does f e g.abs (readParams env stale g).fcgi := by
  have hopen : g.closed = false := hlike.closed.trans htakes.2.1
  cases hfind : g.find g.fcgRecId.toUInt32 with
  | none =>
    rw [readParams, hfind]
    exact Does.nothing rfl
  | some c =>
    by_cases hlen : g.fcgToread = 0
    · by_cases hget : c.cltMethod = .get
      · have hst : f.starts e c := by
          refine ⟨hlike.toread.symm.trans hlen, ?_, .inl ⟨htakes, hget⟩⟩
          rw [← hlike.find, ← hlike.recId]
          exact hfind
        rw [Does, readParams_start env stale hfind hlen hget]
        exact starts_does env hlike hst (.refl c)
      · rw [readParams, hfind]
        dsimp only
        rw [if_pos hlen, if_neg hget]
        exact Does.nothing rfl
    · obtain ⟨r, -, hlearnt, hread⟩ := readParams_content env stale hfind hlen
      have hlearns : f.learns e := ⟨htakes, by rw [← hlike.toread]; exact hlen⟩
      rw [hread]
      split
      · exact learnt_does hlearns hlike hfind hlearnt _ _
      · exact Does.torn hopen

theorem readStdin_does (env : Env) (htakes : f.takes e stdin) (hlike : f.Like g) :
    Does f e g.abs (readStdin env g).fcgi := by
  cases hfind : g.find g.fcgRecId.toUInt32 with
  | none =>
    rw [readStdin, hfind]
    exact Does.nothing rfl
  | some c =>
    by_cases hpost : c.cltMethod = .post
    · by_cases hlen : g.fcgToread = 0
      · have hst : f.starts e c := by
          refine ⟨hlike.toread.symm.trans hlen, ?_, .inr ⟨htakes, hpost⟩⟩
          rw [← hlike.find, ← hlike.recId]
          exact hfind
        rw [Does, readStdin_start env hfind hlen hpost]
        exact starts_does env hlike hst ⟨rfl, rfl, rfl, rfl⟩
      · -- another piece of the form
        refine Does.nothing ?_
        rw [readStdin, hfind]
        dsimp only
        rw [if_neg (by simp [hpost]), afterCall_abs, withClient_run hfind,
          fcgiParseForm_chunk env c hlen]
        exact (abs_store_same hfind (formChunk_same _ c) _ _).symm
    · rw [readStdin, hfind]
      dsimp only
      rw [if_pos hpost]
      exact Does.nothing rfl

theorem readAbort_does (htakes : f.takes e abortRequest) (hlike : f.Like g) :
    Does f e g.abs (readAbort g).fcgi := by
  unfold readAbort
  cases hfind : g.find g.fcgRecId.toUInt32 with
  | none => exact Does.nothing rfl
  | some c =>
    have hopen : g.closed = false := hlike.closed.trans htakes.2.1
    obtain ⟨as, hsteps, hrun⟩ := withClient_does (endRequest_finishes 1 requestComplete).serves
      hopen hfind
    exact Does.serving hsteps (hrun.trans (afterCall_abs _).symm)

theorem observe_like (f : Fcgi) (o : Obs) : f.Like (f.observe o) :=
  ⟨rfl, rfl, rfl, rfl, rfl, rfl⟩

theorem abs_record (f : Fcgi) : (f.observe f.record).abs = f.abs.put [f.record] := by
  refine Conn.ext rfl rfl rfl rfl rfl ?_ rfl
  simp [Fcgi.abs, Fcgi.observe, Obs.wire, Fcgi.record]

theorem readBody_does (env : Env) (stale : Bytes) (htakes : f.takes e f.fcgType) :
    Does f e f.abs (readBody env stale f).fcgi := by
  have hlike := observe_like f f.record
  refine Does.cons (a := .dispatch f.fcgType f.fcgRecId (f.input.take (sizeT f.fcgToread)))
    ⟨⟨htakes.2.1, trivial⟩, trivial⟩ ?_
  show Does f e (f.abs.put [f.record]) _
  rw [← abs_record]
  rw [readBody_eq]
  split
  · rename_i ht
    exact readBegin_does (ht ▸ htakes) hlike
  split
  · rename_i ht
    exact readParams_does env stale (ht ▸ htakes) hlike
  split
  · rename_i ht
    exact readStdin_does env (ht ▸ htakes) hlike
  split
  · rename_i ht
    exact readAbort_does (ht ▸ htakes) hlike
  · exact Does.nothing rfl

/-- The start of a request as an event. -/
theorem starts_step (env : Env) (h : f.starts e c) :
    ∃ as, Run.run Conn.apply ((f.abs.put [f.record]).apply (.start f.fcgRecId)) as
      = (step env f e).abs := by
  obtain ⟨hlen, hfind, htakes⟩ := h
  have hopen : (f.observe f.record).closed = false := by
    rcases htakes with ⟨ht, -⟩ | ⟨ht, -⟩ <;> exact ht.2.1
  have hfind' : (f.observe f.record).find f.fcgRecId.toUInt32 = some c := hfind
  have hread : ∃ stale, e = .read stale := by
    have he : e.isRead = true := by rcases htakes with ⟨ht, -⟩ | ⟨ht, -⟩ <;> exact ht.1
    cases e <;> simp_all [Event.isRead]
  obtain ⟨stale, rfl⟩ := hread
  rw [← abs_record]
  rcases htakes with ⟨ht, hm⟩ | ⟨ht, hm⟩ <;> rw [step_of_takes env ht]
  · have htype : f.fcgType = params := ht.2.2.2.1
    rw [readBody_eq, if_neg (by rw [htype]; decide), if_pos htype,
      readParams_start env stale hfind' hlen hm]
    obtain ⟨as, -, hrun⟩ := start_does env hopen hfind' (.refl c)
    exact ⟨as, hrun⟩
  · have htype : f.fcgType = stdin := ht.2.2.2.1
    rw [readBody_eq, if_neg (by rw [htype]; decide), if_neg (by rw [htype]; decide), if_pos htype,
      readStdin_start env hfind' hlen hm]
    obtain ⟨as, -, hrun⟩ := start_does env hopen hfind' (d := { c with cltBodydone := true })
      ⟨rfl, rfl, rfl, rfl⟩
    exact ⟨as, hrun⟩

theorem readHeader_does (hopen : f.closed = false) : Does f e f.abs (readHeader f).fcgi := by
  unfold readHeader
  split
  · split
    · exact Does.torn hopen
    · exact Does.nothing rfl
  · exact Does.nothing rfl

theorem readStep_does (env : Env) (stale : Bytes) (hopen : f.closed = false) :
    Does f (.read stale) f.abs (readStep env stale f).fcgi := by
  unfold readStep
  split
  · exact Does.nothing rfl
  · rename_i hlen
    have hlen : sizeT f.fcgToread ≤ f.input.length := by simpa [hopen] using hlen
    cases hw : f.fcgWant with
    | header => exact readHeader_does hopen
    | body => exact readBody_does env stale ⟨rfl, hopen, hw, rfl, hlen⟩

end Dispatcher

/-! ## Every event -/

theorem callback_does {m : CltM Unit} (hm : Serves m) (hopen : f.closed = false) (i : UInt16)
    (waiting : Client → Bool) :
    Does f e f.abs (callback i waiting m f) := by
  unfold callback
  cases hfind : f.find i.toUInt32 with
  | none => exact Does.nothing rfl
  | some c =>
    dsimp only
    split
    · obtain ⟨as, hsteps, hrun⟩ := withClient_does hm hopen hfind
      exact Does.serving hsteps hrun
    · exact Does.nothing rfl

/-- **Refinement.** Every event is a run of acts it can cause. -/
theorem step_refines (env : Env) (f : Fcgi) (e : Event) : Does f e f.abs (step env f e) := by
  unfold step
  split
  · exact Does.nothing rfl
  · rename_i hopen
    have hopen : f.closed = false := by simpa using hopen
    cases e with
    | arrive bytes =>
      refine Does.nothing ?_
      rw [handle, Fcgi.arrive, if_neg (by simp [hopen])]
      rfl
    | read stale => exact readStep_does env stale hopen
    | resolved i res net => exact callback_does (proxyResolved_serves res net) hopen i _
    | connect i net => exact callback_does (proxyConnect_serves net) hopen i _
    | upstream i oob bytes => exact callback_does (upstreamRead_serves oob bytes) hopen i _
    | upstreamError i err => exact callback_does (proxyError_finishes err).serves hopen i _
    | drained n =>
      simp only [handle, fcgiWrite]
      split
      · rename_i hdone
        have hdone : f.fcgDone = true := by
          simp only [Bool.and_eq_true] at hdone
          exact hdone.1
        exact Does.one (a := .close) ⟨⟨hopen, hdone⟩, n, rfl⟩ rfl
      · exact Does.nothing rfl
    | error => exact Does.torn hopen

/-- The refinement of whole runs, under a condition on every step. -/
theorem run_refines {C : Fcgi → Event → Prop} {G : Conn → Act → Prop}
    (hG : ∀ f e c a, C f e → Caused f e c a → G c a) {es : List Event}
    (hc : Steps (step env) C f es) :
    ∃ as, Steps Conn.apply G f.abs as ∧ Run.run Conn.apply f.abs as = (run env f es).abs :=
  (refines (I := fun _ => True) (fun f e _ hC => ⟨trivial, by
    obtain ⟨as, hsteps, hrun⟩ := step_refines env f e
    exact ⟨as, hsteps.mono fun c a h => hG f e c a hC h, hrun⟩⟩) trivial hc).2

theorem abs_new (writes : List Bool) (asr : List AsrAnswer) :
    (Fcgi.new writes asr).abs = Conn.opened := rfl

/-- **Invariants of the abstract connection are invariants of the program**, as long as the acts
its steps cause keep them. -/
theorem run_invariant {C : Fcgi → Event → Prop} {I : Conn → Prop}
    (hstep : ∀ f e c a, C f e → Caused f e c a → I c → I (c.apply a)) {es : List Event}
    (hf : I f.abs) (hc : Steps (step env) C f es) : I (run env f es).abs := by
  obtain ⟨as, hsteps, hrun⟩ := run_refines (G := fun c a => I c → I (c.apply a)) hstep hc
  rw [← hrun]
  exact invariant (fun c a hI ha => ha hI) hf hsteps

theorem wf_run (h : f.abs.Wf) (es : List Event) : (run env f es).abs.Wf :=
  run_invariant (C := fun _ _ => True) (fun _ _ _ _ _ ha hc => hc.apply ha.1) h
    (Steps.of_forall (fun _ _ => trivial) _ es)

/-- Every state of a connection is well-formed. -/
theorem wf_of_run (env : Env) (writes : List Bool) (asr : List AsrAnswer) (es : List Event) :
    (run env (Fcgi.new writes asr) es).abs.Wf :=
  wf_run (f := Fcgi.new writes asr) Conn.wf_opened es

/-- A connection that was torn down or closed has no clients. -/
theorem gone_of_run (env : Env) (writes : List Bool) (asr : List AsrAnswer) (es : List Event) :
    (run env (Fcgi.new writes asr) es).abs.Gone :=
  run_invariant (C := fun _ _ => True) (fun _ _ _ _ _ ha _ => Conn.gone_apply ha.1)
    (fun h => by simp [abs_new, Conn.opened] at h) (Steps.of_forall (fun _ _ => trivial) _ es)

/-- What is in the trace stays there. -/
theorem trace_prefix_run (env : Env) (f : Fcgi) (es : List Event) :
    f.trace <+: (run env f es).trace :=
  run_invariant (C := fun _ _ => True) (I := fun c => f.trace <+: c.log)
    (fun _ _ c a _ _ hc => hc.trans (Conn.log_prefix_apply c a)) (List.prefix_refl _)
    (Steps.of_forall (fun _ _ => trivial) _ es)

end Galileo
