import Galileo.Proof.Fates

/-!
# From `FCGI_BEGIN_REQUEST` to `FCGI_END_REQUEST`

What becomes of a request over a whole run of a connection: that it is ended once, that the
connection is not closed under it, that it is started once, that it is started at all. Each of
these is an invariant of the abstract connection that one act alone can break, so each theorem has
the same shape: a condition on single steps keeps that act out, and the refinement of runs does
the rest. The run that shows why the condition is there stands next to it.

* `FCGI_BEGIN_REQUEST` for a role the program does not play is answered with `FCGI_END_REQUEST`
  **before** the id is looked up.
* `fcg_keep_conn` and `fcg_done` belong to the connection and not to the request.
* Nothing remembers that `proxy_start_request` was called.
* `proxy_start_request` is called from two places, one for each method, and none for neither.
-/

set_option autoImplicit false

namespace Galileo

open Lib Lib.FastCgi Lib.Run

variable {f : Fcgi} {e : Event} {es : List Event} {c : Client} {env : Env} {a : Act}

/-! ## Records for the runs below -/

/-- A record arrives and `fcgi_read` takes its header and its content. -/
def Event.record (type : UInt8) (id : UInt8) (content : Bytes) : List Event :=
  [.arrive ([1, type, 0, id, byte1 content.length, byte0 content.length, 0, 0] ++ content),
    .read [], .read []]

/-- `FCGI_BEGIN_REQUEST` with this role and these flags. -/
def Event.begin (id role flags : UInt8) : List Event :=
  Event.record beginRequest id [0, role, flags, 0, 0, 0, 0, 0]

/-- A name-value pair of `FCGI_PARAMS`, both shorter than 128 bytes. -/
def paramPair (name value : String) : Bytes :=
  [UInt8.ofNat (lit name).length, UInt8.ofNat (lit value).length] ++ lit name ++ lit value

/-- A configuration with one proxy, for the host `h`. -/
def exampleEnv : Env where
  scProxies := [⟨lit "h", lit "/s.css", lit "::1", lit "h", lit "1965", true, false, false, false⟩]
  hostNameMax := 255
  pathMax := 1024

/-! ## One end for each request -/

/-- A request is refused although one is open under its id. -/
def Fcgi.refusesActive (f : Fcgi) (e : Event) : Prop :=
  f.refuses e ∧ (f.find f.fcgRecId.toUInt32).isSome

instance (f : Fcgi) (e : Event) : Decidable (f.refusesActive e) :=
  inferInstanceAs (Decidable (_ ∧ _))

theorem civil_of_caused (h : ¬ f.refusesActive e) {c : Conn} (ha : Caused f e c a) : c.Civil a := by
  cases a with
  | refuse i body =>
    obtain ⟨href, rfl, hreq⟩ := ha.2
    show c.req f.fcgRecId = none
    have hnone : f.find f.fcgRecId.toUInt32 = none := by
      by_contra hsome
      exact h ⟨href, Option.isSome_iff_ne_none.mpr hsome⟩
    simp [hreq, Fcgi.abs, hnone]
  | _ => trivial

/-- **One end for each request.** When no `FCGI_BEGIN_REQUEST` asks for another role under an id
that is in use: from the acceptance of a request on, the first `FCGI_END_REQUEST` with its id is
the one it is removed with; a client is removed right behind an `FCGI_END_REQUEST`; and behind one
there is no output for the id without a new request. What the web server gets is what the trace
says. -/
theorem one_end_per_request (env : Env) (writes : List Bool) (asr : List AsrAnswer)
    (es : List Event)
    (hes : Steps (step env) (fun f e => ¬ f.refusesActive e) (Fcgi.new writes asr) es) :
    let f := run env (Fcgi.new writes asr) es
    (∀ i s l₁ m body l₂,
      f.trace = l₁ ++ .accepted i s :: (m ++ .queued endRequestType i body :: l₂) →
      (∀ t, .freed i t ∉ m) → ∃ l₃, l₂ = .freed i s :: l₃) ∧
    (∀ i s l₁ l₂, f.trace = l₁ ++ .freed i s :: l₂ →
      ∃ l body, l₁ = l ++ [.queued endRequestType i body]) ∧
    (∀ i l₁ body m data l₂,
      f.trace = l₁ ++ .queued endRequestType i body :: (m ++ .queued stdout i data :: l₂) →
      ∃ s, .accepted i s ∈ m) ∧
    f.trace.flatMap Obs.wire <+: f.output ∧
    (f.closed = false → f.output = f.trace.flatMap Obs.wire) := by
  intro f
  obtain ⟨hwf, hend⟩ : f.abs.Wf ∧ Everywhere Conn.EndsOnce f.trace :=
    run_invariant (I := fun c => c.Wf ∧ Everywhere Conn.EndsOnce c.log)
      (fun _ _ _ _ hf ha hc => ⟨hc.1.apply ha.1,
        Conn.endsOnce_apply hc.1 ha.1 (civil_of_caused hf ha) hc.2⟩)
      ⟨Conn.wf_opened, Everywhere.nil⟩ hes
  have hord : Everywhere Conn.Orderly f.trace := hwf.orderly
  refine ⟨?_, ?_, ?_, hwf.sent_le, hwf.sent⟩
  · intro i s l₁ m body l₂ hlog hm
    exact Conn.end_of_accepted hord hend hlog hm
  · intro i s l₁ l₂ hlog
    exact (hord l₁ (.freed i s) l₂ hlog).2
  · intro i l₁ body m data l₂ hlog
    exact Conn.accepted_between hord hend hlog

/-- A request that is aborted, and one for the authorizer under the id that is free again. -/
theorem one_end_aborted :
    let es := Event.begin 1 1 1 ++ Event.record abortRequest 1 [] ++ Event.begin 1 2 1
    let f := run exampleEnv (Fcgi.new [] []) es
    Steps (step exampleEnv) (fun f e => ¬ f.refusesActive e) (Fcgi.new [] []) es ∧
      .freed 1 0 ∈ f.trace ∧ f.closed = false ∧ f.output = f.trace.flatMap Obs.wire := by
  intro es f
  have hes : Steps (step exampleEnv) (fun f e => ¬ f.refusesActive e) (Fcgi.new [] []) es := by
    decide
  have hopen : f.closed = false := by decide
  exact ⟨hes, by decide, hopen,
    (one_end_per_request exampleEnv [] [] es hes).2.2.2.2 hopen⟩

/-- A request, then one for the authorizer under the id that is in use: the web server is told
that the request is over, and it is not. -/
theorem refused_while_active :
    let es := Event.begin 1 1 1 ++ Event.begin 1 2 1
    let f := run exampleEnv (Fcgi.new [] []) es
    f.trace = [.dispatched beginRequest 1 [0, 1, 1, 0, 0, 0, 0, 0], .accepted 1 0,
      .dispatched beginRequest 1 [0, 2, 1, 0, 0, 0, 0, 0],
      .queued endRequestType 1 (endReqBody 1 unknownRole)] ∧
    f.ids = [1] ∧ f.closed = false := by
  decide

/-! ## Closing when done -/

/-- A request is accepted that does not keep the connection, while others are open on it. -/
def Fcgi.crowds (f : Fcgi) (e : Event) : Prop :=
  f.admits e ∧ f.fcgKeepConn = true ∧ f.keepFlag = false ∧
    ∃ c ∈ f.fcgClients, c.cltId ≠ f.fcgRecId.toUInt32

instance (f : Fcgi) (e : Event) : Decidable (f.crowds e) := inferInstanceAs (Decidable (_ ∧ _))

theorem alone_of_caused (h : ¬ f.crowds e) {c : Conn} (ha : Caused f e c a) : c.Alone a := by
  cases a with
  | accept i keep =>
    obtain ⟨hadm, hk, rfl, hkeep, hreq⟩ := ha.2
    cases keep with
    | true => trivial
    | false =>
      intro j hj
      obtain ⟨d, hd⟩ : ∃ d, f.find j.toUInt32 = some d := by
        rw [hreq] at hj
        exact Option.isSome_iff_exists.mp (by simpa [Fcgi.abs] using hj)
      have hmem : d ∈ f.fcgClients := List.mem_of_find?_eq_some hd
      have hid : d.cltId = f.fcgRecId.toUInt32 := by
        by_contra hne
        exact h ⟨hadm, hk, hkeep.symm, d, hmem, hne⟩
      exact toUInt32_inj.mp ((f.cltId_of_find hd).symm.trans hid)
  | _ => trivial

/-- `fcgi_write` closes a connection only when it is done. -/
theorem fcgDone_of_drained {n : Nat} (hopen : f.closed = false)
    (hclosed : (step env f (.drained n)).closed = true) : f.fcgDone = true := by
  rw [step, if_neg (by simp [hopen]), handle, fcgiWrite] at hclosed
  split at hclosed
  · rename_i hdone
    simp only [Bool.and_eq_true] at hdone
    exact hdone.1
  · exact absurd hclosed (by simp [hopen])

/-- A connection with no request under any id has no clients. -/
theorem Fcgi.Keyed.clients_eq_nil (h : f.Keyed) (hnone : ∀ i, f.abs.req i = none) :
    f.fcgClients = [] := by
  refine List.eq_nil_iff_forall_not_mem.mpr fun c hc => ?_
  have hlt : c.cltId.toNat < 65536 := h.lt _ (List.mem_map_of_mem hc)
  have hid : c.cltId.toUInt16.toUInt32 = c.cltId := by
    rw [← UInt32.toNat_inj]
    simpa using hlt
  have hreq := hnone c.cltId.toUInt16
  simp [Fcgi.abs, hid, h.find_of_mem hc] at hreq

/-- **Finishing a request drops no other.** When a request that does not keep the connection is
only accepted with no other open, `fcgi_write` closes a connection only when it has no clients
left, and every request that was accepted has had its `FCGI_END_REQUEST`. -/
theorem closed_only_when_idle (env : Env) (writes : List Bool) (asr : List AsrAnswer)
    (es : List Event) (n : Nat)
    (hes : Steps (step env) (fun f e => ¬ f.crowds e) (Fcgi.new writes asr) es)
    (hopen : (run env (Fcgi.new writes asr) es).closed = false)
    (hclosed : (step env (run env (Fcgi.new writes asr) es) (.drained n)).closed = true) :
    let f := run env (Fcgi.new writes asr) es
    f.fcgClients = [] ∧
      ∀ i s, .accepted i s ∈ f.trace →
        ∃ l₁ body l₂, f.trace = l₁ ++ .queued endRequestType i body :: .freed i s :: l₂ := by
  intro f
  have hdone : f.fcgDone = true := fcgDone_of_drained hopen hclosed
  have hdrain : f.abs.Draining :=
    run_invariant (fun _ _ _ _ hf ha hc => hc.apply ha.1 (alone_of_caused hf ha))
      Conn.draining_opened hes
  have hwf : f.abs.Wf := wf_of_run env writes asr es
  have hkeyed : f.Keyed := keyed_run env writes asr es
  have hnone : ∀ i, f.abs.req i = none := (hdrain.done hdone).2
  refine ⟨hkeyed.clients_eq_nil hnone, fun i s hacc => ?_⟩
  · refine Conn.freed_of_live_ne hwf.orderly hacc ?_
    rw [show Conn.live i f.trace = _ from hwf.live hopen i, hnone i]
    simp

/-- One request that does not keep the connection, aborted; then the output drains. -/
theorem closed_after_abort :
    let es := Event.begin 1 1 0 ++ Event.record abortRequest 1 []
    let f := run exampleEnv (Fcgi.new [] []) es
    (step exampleEnv f (.drained 16)).closed = true ∧ f.fcgClients = [] := by
  intro es f
  have hclosed : (step exampleEnv f (.drained 16)).closed = true := by decide
  exact ⟨hclosed, (closed_only_when_idle exampleEnv [] [] es 16 (by decide)
    (by decide) hclosed).1⟩

/-- A request that keeps the connection and one that does not: when the first is over, the
connection is closed under the second. -/
theorem closed_while_active :
    let es := Event.begin 1 1 1 ++ Event.begin 2 1 0 ++ Event.record abortRequest 1 []
    let f := run exampleEnv (Fcgi.new [] []) es
    f.closed = false ∧ f.ids = [2] ∧ .accepted 2 1 ∈ f.trace ∧
      (step exampleEnv f (.drained 16)).closed = true ∧
      ∀ s, .freed 2 s ∉ (step exampleEnv f (.drained 16)).trace := by
  refine ⟨by decide, by decide, by decide, by decide, ?_⟩
  intro s hs
  have htrace : (step exampleEnv (run exampleEnv (Fcgi.new [] [])
      (Event.begin 1 1 1 ++ Event.begin 2 1 0 ++ Event.record abortRequest 1 []))
        (.drained 16)).trace
      = [.dispatched beginRequest 1 [0, 1, 1, 0, 0, 0, 0, 0], .accepted 1 0,
        .dispatched beginRequest 2 [0, 1, 0, 0, 0, 0, 0, 0], .accepted 2 1,
        .dispatched abortRequest 1 [], .queued endRequestType 1 (endReqBody 1 requestComplete),
        .freed 1 0] := by decide
  rw [htrace] at hs
  simp at hs

/-! ## Starting once -/

/-- The start of a request that was started. -/
def Fcgi.restarts (f : Fcgi) (e : Event) : Prop :=
  ∃ c ∈ f.fcgClients, f.starts e c ∧ c.started = true

instance (f : Fcgi) (e : Event) : Decidable (f.restarts e) :=
  inferInstanceAs (Decidable (∃ c ∈ _, _))

theorem once_of_caused (h : ¬ f.restarts e) {c : Conn} (ha : Caused f e c a) : c.Once a := by
  cases a with
  | start i =>
    obtain ⟨⟨clt, hst⟩, rfl, hreq⟩ := ha.2
    intro r hr
    have hfind : f.find f.fcgRecId.toUInt32 = some clt := hst.2.1
    obtain rfl : clt.req = r := by simpa [hreq, Fcgi.abs, hfind] using hr
    by_contra hs
    exact h ⟨clt, List.mem_of_find?_eq_some hfind, hst, by simpa [Client.req] using hs⟩
  | _ => trivial

/-- A second start is in the trace for good. -/
theorem count_started_of_restarts (env : Env) (hwf : f.abs.Wf) (h : f.restarts e)
    (es : List Event) :
    ∃ s, 2 ≤ (run env (step env f e) es).trace.count (.started s) := by
  obtain ⟨c, -, hst, hs⟩ := h
  have hfind : f.find f.fcgRecId.toUInt32 = some c := hst.2.1
  obtain ⟨as, has⟩ := starts_step env hst
  have hopen : f.closed = false := by rcases hst.2.2 with ⟨ht, -⟩ | ⟨ht, -⟩ <;> exact ht.2.1
  have hwf' : (f.abs.put [f.record]).Wf :=
    hwf.put hopen (fun _ _ => rfl) (fun _ => Obs.noConfusion) trivial
  have hreq : (f.abs.put [f.record]).req f.fcgRecId = some c.req := by simp [Fcgi.abs, hfind]
  have htwo := Conn.count_started_restart hwf' hreq hs
  have hgrow := Conn.log_prefix_run as ((f.abs.put [f.record]).apply (.start f.fcgRecId))
  rw [has] at hgrow
  exact ⟨c.serial, htwo.trans ((hgrow.trans (trace_prefix_run env _ es)).sublist.count_le _)⟩

/-- The client has no query of the resolver and no connection. -/
structure Client.Unused (c : Client) : Prop where
  query : c.cltEvasr = false
  addrs : c.cltP = []
  fd : c.cltFd = -1
  bev : c.cltBev = none

/-- Who was not started has neither. -/
def Client.Tidy (c : Client) : Prop := c.started = false → c.Unused

theorem paramStore_tidy {pname : Bytes} {vlen : Nat} {put : Bytes → Client → Client}
    (h : paramStore env pname vlen = some put) (v : Bytes) (hc : c.Tidy) :
    (put v c).Tidy := by
  unfold paramStore at h
  split_ifs at h <;> cases h <;>
    exact fun hs => ⟨(hc hs).query, (hc hs).addrs, (hc hs).fd, (hc hs).bev⟩

theorem formChunk_tidy (tmp : Bytes) (hc : c.Tidy) : (formChunk tmp c).Tidy := by
  have hsame (body : Option Bytes) (len : Nat) (done : Bool) :
      ({ c with cltBody := body, cltBodylen := len, cltBodydone := done } : Client).Tidy :=
    fun hs => ⟨(hc hs).query, (hc hs).addrs, (hc hs).fd, (hc hs).bev⟩
  unfold formChunk
  split
  · exact hc
  split
  · exact hsame _ _ _
  split
  · exact hsame _ _ _
  split
  · exact hc
  split
  · exact hc
  · exact hsame _ _ _

theorem Fate.tidy {fed : Client → Bytes → Prop} {started : Bool} {c d : Client}
    (h : Fate env fed started c d) (hc : c.Tidy) : d.Tidy := by
  have hpc := h.request.2
  -- a callback is for a client that was started, and stays so
  have hwaiting (hfalse : started = false) (hwait : c.started = true) : d.Tidy := fun hs => by
    rw [hfalse, if_neg Bool.false_ne_true] at hpc
    rw [Client.started, hpc] at hs
    exact absurd hwait (by rw [Client.started, hs]; exact Bool.false_ne_true)
  cases h with
  | same => exact hc
  | params s =>
    exact fcgiParseParams_stored (R := fun c d : Client => c.Tidy → d.Tidy) env (fun _ => id)
      (fun _ _ _ h h' => h' ∘ h) (fun _ _ _ v _ h => paramStore_tidy h v) s hc
  | form => exact formChunk_tidy _ hc
  | start hd hnext =>
    obtain ⟨-, -, -, hsome⟩ := startScript_goes hnext
    exact fun hs => Bool.noConfusion (hsome.symm.trans hs)
  | resolved hwait => exact hwaiting rfl hwait
  | connect hwait => exact hwaiting rfl hwait
  | upstream hwait => exact hwaiting rfl hwait

/-- **A start finds neither**, unless the client was started before: in every run. -/
theorem starts_unused (env : Env) (writes : List Bool) (asr : List AsrAnswer)
    (hes : Steps (step env) (fun f e => ¬ f.restarts e) (Fcgi.new writes asr) es) :
    Steps (step env) (fun f e => ∀ c, f.starts e c → c.Unused) (Fcgi.new writes asr) es := by
  refine Steps.of_invariant (I := fun f => f.Keyed ∧ f.abs.Wf ∧ ∀ c ∈ f.fcgClients, c.Tidy)
    (fun f e hf _ => ?_) (fun f e hf he c hst => ?_) ?_ hes
  · obtain ⟨hkeyed, hwf, htidy⟩ := hf
    refine ⟨(step_grows env f e).keyed hkeyed, @wf_run f env hwf [e], fun d hd => ?_⟩
    obtain ⟨os, -, hall⟩ := step_fates env (hkeyed.distinct hwf) e
    rcases hall d hd with ⟨i, n, rfl⟩ | ⟨c, hc, hfate⟩
    · exact fun _ => ⟨rfl, rfl, rfl, rfl⟩
    · exact hfate.tidy (htidy c hc)
  · have hc := List.mem_of_find?_eq_some hst.2.1
    refine hf.2.2 c hc ?_
    by_contra hs
    exact he ⟨c, hc, hst, Bool.not_eq_false _ ▸ hs⟩
  · exact ⟨⟨by simp [Fcgi.ids, Fcgi.new], by simp [Fcgi.ids, Fcgi.new]⟩, Conn.wf_opened,
      fun c hc => by cases hc⟩

/-- **A request is started once** exactly in the runs in which no record starts a client that was
started: no second empty `FCGI_PARAMS` for a `GET` request, no second empty `FCGI_STDIN` for a
`POST` request, and not one of each when the method has changed in between. And then no client that
is started has a query of the resolver or a connection. -/
theorem started_once_iff (env : Env) (writes : List Bool) (asr : List AsrAnswer)
    (es : List Event) :
    ((∀ s, (run env (Fcgi.new writes asr) es).trace.count (.started s) ≤ 1) ↔
      Steps (step env) (fun f e => ¬ f.restarts e) (Fcgi.new writes asr) es) ∧
    ((∀ s, (run env (Fcgi.new writes asr) es).trace.count (.started s) ≤ 1) →
      Steps (step env) (fun f e => ∀ c, f.starts e c → c.Unused) (Fcgi.new writes asr) es) := by
  have hsteps (hcount : ∀ s, (run env (Fcgi.new writes asr) es).trace.count (.started s) ≤ 1) :
      Steps (step env) (fun f e => ¬ f.restarts e) (Fcgi.new writes asr) es := by
    by_contra hsteps
    obtain ⟨es₁, e, es₂, rfl, he⟩ := exists_of_not_steps hsteps
    obtain ⟨s, hs⟩ := count_started_of_restarts env (wf_of_run env writes asr es₁)
      (not_not.mp he) es₂
    have := hcount s
    rw [run, run_append, run_cons] at this
    exact absurd (hs.trans this) (by decide)
  refine ⟨⟨hsteps, fun hes s => ?_⟩, fun hcount => starts_unused env writes asr (hsteps hcount)⟩
  have := run_invariant (f := Fcgi.new writes asr)
    (I := fun c => c.Wf ∧ c.log.count (.started s) ≤ 1)
    (fun _ _ _ _ hf ha hc => ⟨hc.1.apply ha.1,
      Conn.count_started_apply hc.1 (once_of_caused hf ha) hc.2⟩)
    ⟨Conn.wf_opened, by simp [abs_new, Conn.opened]⟩ hes
  exact this.2

/-- The parameters of a `GET` request for the page `/` of the host `h`. -/
def getParams : Bytes :=
  paramPair "SERVER_NAME" "h" ++ paramPair "PATH_INFO" "/" ++ paramPair "SCRIPT_NAME" "/"
    ++ paramPair "REQUEST_METHOD" "GET"

/-- The end of the parameters, twice: the resolver is asked twice for one client. -/
theorem started_twice :
    let es := Event.begin 1 1 1 ++ Event.record params 1 getParams ++ Event.record params 1 []
      ++ Event.record params 1 []
    let f := run exampleEnv (Fcgi.new [] [.running, .running]) es
    f.trace.count (.started 0) = 2 ∧ f.ids = [1] ∧ f.closed = false ∧ f.asr = [] := by
  decide

/-! ## Starting at all -/

/-- The start of a request is in the trace. -/
theorem started_mem_of_starts (env : Env) (h : f.starts e c) :
    .started c.serial ∈ (step env f e).trace := by
  have hfind : f.find f.fcgRecId.toUInt32 = some c := h.2.1
  obtain ⟨as, has⟩ := starts_step env h
  have hgrow := Conn.log_prefix_run as ((f.abs.put [f.record]).apply (.start f.fcgRecId))
  rw [has] at hgrow
  refine hgrow.subset ?_
  have hreq : (f.abs.put [f.record]).req f.fcgRecId = some c.req := by simp [Fcgi.abs, hfind]
  simp [Conn.apply, hreq, Client.req]

/-- Nothing else puts a start into the trace. -/
theorem not_started_run (env : Env) {s : Nat} (hf : .started s ∉ f.trace)
    (hes : Steps (step env) (fun f e => ∀ c, f.starts e c → c.serial ≠ s) f es) :
    .started s ∉ (run env f es).trace := by
  refine run_invariant (I := fun c => .started s ∉ c.log) (fun f e c a hno ha hc hmem => ?_) hf hes
  rcases Conn.started_mem_apply hmem with hold | ⟨i, r, rfl, hr, hs⟩
  · exact hc hold
  · obtain ⟨⟨clt, hst⟩, rfl, hreq⟩ := ha.2
    have hfind : f.find f.fcgRecId.toUInt32 = some clt := hst.2.1
    obtain rfl : clt.req = r := by simpa [hreq, Fcgi.abs, hfind] using hr
    exact hno clt hst hs

/-- The client of such a request when its parameters have come. -/
def exampleClient (method : Method) : Client :=
  { Client.new 1 0 with
    cltServerName := some (lit "h")
    cltScriptName := some (lit "/")
    cltPathInfo := some (lit "/")
    cltMethod := method }

/-- Events that do not come from the web server. -/
def Event.ours : Event → Bool
  | .arrive _ => false
  | .error => false
  | _ => true

/-- The next move is the web server's: the input is empty and no client was started. -/
structure Fcgi.Idle (f : Fcgi) : Prop where
  input : f.input = []
  toread : f.fcgToread = 8
  clients : ∀ c ∈ f.fcgClients, c.started = false
  done : f.fcgDone = false

instance (f : Fcgi) : Decidable f.Idle :=
  decidable_of_iff (f.input = [] ∧ f.fcgToread = 8 ∧ (∀ c ∈ f.fcgClients, c.started = false) ∧
    f.fcgDone = false)
    ⟨fun ⟨h₁, h₂, h₃, h₄⟩ => ⟨h₁, h₂, h₃, h₄⟩, fun h => ⟨h.input, h.toread, h.clients, h.done⟩⟩

theorem callback_idle (h : f.Idle) (i : UInt16) {waiting : Client → Bool}
    (hw : ∀ c : Client, waiting c = true → c.started = true) (m : CltM Unit) :
    callback i waiting m f = f := by
  rw [callback]
  cases hfind : f.find i.toUInt32 with
  | none => rfl
  | some c =>
    have hc := h.clients c (List.mem_of_find?_eq_some hfind)
    exact if_neg fun hwc => absurd (hw c hwc) (by simp [hc])

/-- Nothing moves on such a connection but the bytes that are being sent. -/
theorem step_idle (env : Env) (h : f.Idle) (he : e.ours = true) :
    ∃ n, step env f e = { f with sent := n } := by
  have hcon : ∀ c : Client, c.connected = true → c.started = true := fun c hc => by
    rw [Client.connected, Bool.and_eq_true] at hc
    exact hc.1
  rw [step]
  split
  · exact ⟨f.sent, rfl⟩
  · refine ⟨(handle env f e).sent, ?_⟩
    cases e with
    | arrive bytes => cases he
    | error => cases he
    | read stale =>
      have : readStep env stale f = .ret f := by
        rw [readStep, if_pos (by simp [h.input, h.toread, sizeT])]
      simp [handle, this, Flow.fcgi]
    | resolved i res net => simp only [handle, callback_idle h i (fun _ hc => hc)]
    | connect i net => simp only [handle, callback_idle h i (fun _ hc => hc)]
    | upstream i oob bytes => simp only [handle, callback_idle h i hcon]
    | upstreamError i err => simp only [handle, callback_idle h i hcon]
    | drained n => simp [handle, fcgiWrite, h.done]

theorem run_idle (env : Env) (h : f.Idle) (hes : ∀ e ∈ es, e.ours = true) :
    ∃ n, run env f es = { f with sent := n } := by
  induction es generalizing f with
  | nil => exact ⟨f.sent, rfl⟩
  | cons e es ih =>
    obtain ⟨n, hn⟩ := step_idle env h (hes e (by simp))
    obtain ⟨n', hn'⟩ := ih (f := { f with sent := n }) ⟨h.input, h.toread, h.clients, h.done⟩
      fun e' he' => hes e' (by simp [he'])
    refine ⟨n', ?_⟩
    rw [run, run_cons, hn]
    exact hn'

end Galileo
