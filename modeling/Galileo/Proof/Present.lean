import Galileo.Proof.Pointers
import Galileo.Proof.Requests

/-!
# Parameters that are there when they are used

`SERVER_NAME`, `PATH_INFO` and `SCRIPT_NAME` are stored when they arrive and used much later, by the
redirection of a form and by every link of a page. `proxy_start_request` refuses a request without
the first two. Nothing asks for the third.

A parameter that was stored is never forgotten, and `clt_pc` is set for those requests only that
`proxy_start_request` did not refuse. So a request that waits for its server has the first two
parameters (`Fcgi.Equipped`), and the third one as well when nobody starts a request without it.
-/

set_option autoImplicit false

namespace Galileo

open Lib Lib.FastCgi Lib.Run

variable {c d : Client} {env : Env}

/-- The parameters an answer is made with. -/
structure Client.Provided (c : Client) : Prop where
  script : c.cltScriptName.isSome = true
  server : c.cltServerName.isSome = true
  path : c.cltPathInfo.isSome = true

/-- `proxy_start_request` does not refuse the request. -/
def Client.Served (env : Env) (c : Client) : Prop :=
  c.cltPathInfo.isSome = true ∧ (proxyMatch env c.cltServerName).isSome = true

instance (env : Env) (c : Client) : Decidable (c.Served env) := inferInstanceAs (Decidable (_ ∧ _))

/-- No event starts a request that will be served but has no `SCRIPT_NAME`. -/
def Fcgi.Introduces (env : Env) (f : Fcgi) (e : Event) : Prop :=
  ∀ c ∈ f.fcgClients, f.starts e c → c.Served env → c.cltScriptName.isSome = true

instance (env : Env) (f : Fcgi) (e : Event) : Decidable (f.Introduces env e) :=
  inferInstanceAs (Decidable (∀ c ∈ _, _))

/-- Whatever an event makes of its parameters, they are there: when `proxy_start_request` builds the
redirection of a form, and whenever the Gemini server sends something, which is when `proxy_resurl`
is called. No null pointer is printed in the first place, or followed in the second. -/
structure UsesProvided (env : Env) (f : Fcgi) (e : Event) : Prop where
  redirect : ∀ c, f.starts e c → c.Served env → c.cltBody.isSome = true → c.Provided
  redirect_target : ∀ c body, f.starts e c → c.Served env → c.cltBody = some body →
    ∃ script path, c.cltScriptName = some script ∧ c.cltPathInfo = some path ∧
      c.formTarget = some (script ++ path.tail ++ lit "?" ++ body)
  rewriting : ∀ i oob bytes c, e = .upstream i oob bytes → f.find i.toUInt32 = some c →
    c.connected = true → c.Provided
  rewriting_safe : ∀ i oob bytes c, e = .upstream i oob bytes → f.find i.toUInt32 = some c →
    c.connected = true → (upstreamScript oob bytes c).next ≠ .crashed

/-! ## Nothing is forgotten -/

/-- What was stored for `c` is stored for `d`. -/
structure Client.Grown (c d : Client) : Prop where
  script : c.cltScriptName.isSome = true → d.cltScriptName.isSome = true
  server : c.cltServerName.isSome = true → d.cltServerName.isSome = true
  path : c.cltPathInfo.isSome = true → d.cltPathInfo.isSome = true

theorem Client.Grown.refl (c : Client) : c.Grown c := ⟨id, id, id⟩

theorem Client.Grown.trans {c d e : Client} (h : c.Grown d) (h' : d.Grown e) : c.Grown e :=
  ⟨h'.script ∘ h.script, h'.server ∘ h.server, h'.path ∘ h.path⟩

theorem Client.Kept.grown (h : c.Kept d) : c.Grown d :=
  ⟨fun hc => h.script ▸ hc, fun hc => h.server ▸ hc, fun hc => h.path ▸ hc⟩

theorem Client.Provided.grown (hc : c.Provided) (h : c.Grown d) : d.Provided :=
  ⟨h.script hc.script, h.server hc.server, h.path hc.path⟩

theorem paramStore_grown {pname : Bytes} {vlen : Nat} {put : Bytes → Client → Client}
    (h : paramStore env pname vlen = some put) (v : Bytes) (c : Client) : c.Grown (put v c) := by
  unfold paramStore at h
  split_ifs at h <;> cases h
  · exact ⟨id, fun _ => rfl, id⟩
  · exact ⟨fun _ => rfl, id, id⟩
  · exact ⟨id, id, fun _ => rfl⟩
  · exact ⟨id, id, id⟩
  · exact ⟨id, id, id⟩

theorem formChunk_grown (tmp : Bytes) (c : Client) : c.Grown (formChunk tmp c) := by
  unfold formChunk
  split
  · exact .refl _
  split
  · exact ⟨id, id, id⟩
  split
  · exact ⟨id, id, id⟩
  split
  · exact .refl _
  split
  · exact .refl _
  · exact ⟨id, id, id⟩

theorem Fate.grown {fed : Client → Bytes → Prop} {started : Bool} (h : Fate env fed started c d) :
    c.Grown d := by
  have hof {n : Next} {c' : Client} {tp : Template} (hnext : n = .goes c') (h : n.Of c) :
      c.Grown { c' with cltTp := tp } := by
    rw [hnext] at h
    exact Client.Grown.trans (d := c') h.grown ⟨id, id, id⟩
  cases h with
  | same => exact .refl _
  | params s =>
    exact fcgiParseParams_stored env .refl (fun _ _ _ => .trans)
      (fun _ _ _ v c h => paramStore_grown h v c) s
  | form => exact formChunk_grown _ c
  | start hd hnext =>
    obtain ⟨hkept, -⟩ := startScript_goes hnext
    have hgrown := hkept.grown
    rcases hd with rfl | rfl <;> exact ⟨hgrown.script, hgrown.server, hgrown.path⟩
  | resolved _ hnext => exact hof hnext (resolvedScript_of _ _)
  | connect _ hnext => exact hof hnext (connectScript_of _)
  | upstream _ hnext => exact hof hnext (upstreamScript_of _ _)

/-- A request that is there after it was started was not refused. -/
theorem Fate.served {fed : Client → Bytes → Prop} (h : Fate env fed true c d) : c.Served env := by
  cases h with
  | start hd hnext =>
    obtain ⟨-, hpc, hpath, hsome⟩ := startScript_goes hnext
    rw [hpc] at hsome
    rcases hd with rfl | rfl <;> exact ⟨hpath, hsome⟩

/-! ## Who is started -/

/-- A start that was not in the log is the one of the record that is taken. -/
theorem starts_of_started (env : Env) {f : Fcgi} {e : Event} {s : Nat}
    (h : .started s ∈ (step env f e).trace) :
    .started s ∈ f.trace ∨ ∃ c, f.starts e c ∧ c.serial = s := by
  obtain ⟨as, hsteps, hrun⟩ := step_refines env f e
  have hlog : .started s ∈ (Run.run Conn.apply f.abs as).log := by
    rw [hrun]
    exact h
  revert hlog
  refine invariant (I := fun c : Conn =>
    .started s ∈ c.log → .started s ∈ f.trace ∨ ∃ c, f.starts e c ∧ c.serial = s)
    (fun c a hc ha => ?_) .inl hsteps
  intro hmem
  cases a with
  | start i =>
    obtain ⟨⟨clt, hst⟩, rfl, hreq⟩ := ha.2
    have hfind : f.find f.fcgRecId.toUInt32 = some clt := hst.2.1
    have hr : c.req f.fcgRecId = some clt.req := by simp [hreq, Fcgi.abs, hfind]
    simp only [Conn.apply, hr, Conn.put, List.mem_append, List.mem_singleton] at hmem
    rcases hmem with hmem | hmem
    · exact hc hmem
    · cases hmem
      exact .inr ⟨clt, hst, rfl⟩
  | accept i keep =>
    refine hc ?_
    rw [Conn.apply] at hmem
    split at hmem <;> simpa [Conn.put] using hmem
  | finish i body =>
    refine hc ?_
    rw [Conn.apply] at hmem
    split at hmem <;> simpa [Conn.put] using hmem
  | _ => exact hc (by simpa [Conn.apply, Conn.put] using hmem)

/-! ## Every state -/

/-- Every request that was not refused has its parameters. -/
structure Fcgi.Equipped (f : Fcgi) : Prop where
  keyed : f.Keyed
  wf : f.abs.Wf
  provided : ∀ c ∈ f.fcgClients, c.started = true → c.Provided

theorem equipped_new (writes : List Bool) (asr : List AsrAnswer) :
    (Fcgi.new writes asr).Equipped where
  keyed := ⟨by simp [Fcgi.ids, Fcgi.new], by simp [Fcgi.ids, Fcgi.new]⟩
  wf := Conn.wf_opened
  provided := fun c hc => by cases hc

theorem server_of_match {name : Option Bytes} (h : (proxyMatch env name).isSome = true) :
    name.isSome = true := by
  cases name with
  | none => cases h
  | some name => rfl

section Equipped

variable {f : Fcgi} {e : Event}

/-- The `SCRIPT_NAME` of a request that is started, now or once more. -/
theorem Fcgi.Equipped.script (hf : f.Equipped) (he : f.Introduces env e) {c : Client}
    (hc : c ∈ f.fcgClients) (hserved : c.Served env)
    (hstarted : .started c.serial ∈ (step env f e).trace) : c.cltScriptName.isSome = true := by
  rcases starts_of_started env hstarted with hlog | ⟨d, hd, hserial⟩
  · obtain ⟨i, -, hreq⟩ := hf.keyed.req_of_mem hc
    have hagain : c.started = true := (hf.wf.marked i c.req hreq).mp hlog
    exact (hf.provided c hc hagain).script
  · have hdmem : d ∈ f.fcgClients := List.mem_of_find?_eq_some hd.2.1
    cases hf.keyed.eq_of_serial hf.wf hdmem hc hserial
    exact he c hc hd hserved

/-- **One event keeps the parameters.** -/
theorem Fcgi.Equipped.step (hf : f.Equipped) (he : f.Introduces env e) :
    (step env f e).Equipped where
  keyed := (step_grows env f e).keyed hf.keyed
  wf := @wf_run f env hf.wf [e]
  provided := by
    intro d hd hstarted
    obtain ⟨os, htrace, hall⟩ := step_fates env (hf.keyed.distinct hf.wf) e
    rcases hall d hd with ⟨i, n, rfl⟩ | ⟨c, hc, hfate⟩
    · cases hstarted
    by_cases hstart : .started c.serial ∈ os
    · -- `proxy_start_request` was called, and did not refuse
      have hgrown := hfate.grown
      rw [decide_eq_true hstart] at hfate
      have hserved := hfate.served
      have hscript := hf.script he hc hserved (by rw [htrace]; exact List.mem_append_right _ hstart)
      exact Client.Provided.grown ⟨hscript, server_of_match hserved.2, hserved.1⟩ hgrown
    · have hpc := hfate.request.2
      rw [decide_eq_false hstart, if_neg Bool.false_ne_true] at hpc
      have hbefore : c.started = true := by
        rw [Client.started, ← hpc]
        exact hstarted
      exact (hf.provided c hc hbefore).grown hfate.grown

theorem Client.Provided.formTarget {c : Client} (h : c.Provided) {body : Bytes}
    (hbody : c.cltBody = some body) : ∃ script path, c.cltScriptName = some script ∧
      c.cltPathInfo = some path ∧ c.formTarget = some (script ++ path.tail ++ lit "?" ++ body) := by
  obtain ⟨script, hscript⟩ := Option.isSome_iff_exists.mp h.script
  obtain ⟨path, hpath⟩ := Option.isSome_iff_exists.mp h.path
  refine ⟨script, path, hscript, hpath, ?_⟩
  rw [Client.formTarget, hpath, hbody, hscript]
  rfl

/-- **Every use finds its parameters.** -/
theorem Fcgi.Equipped.uses (hf : f.Equipped) (he : f.Introduces env e) : UsesProvided env f e := by
  have hintro (c : Client) (hc : f.starts e c) (hserved : c.Served env) : c.Provided :=
    ⟨he c (List.mem_of_find?_eq_some hc.2.1) hc hserved, server_of_match hserved.2, hserved.1⟩
  have hready (i : UInt16) (c : Client) (hfind : f.find i.toUInt32 = some c)
      (hc : c.connected = true) : c.started = true ∧ c.Provided := by
    have hstarted : c.started = true := by
      rw [Client.connected, Bool.and_eq_true] at hc
      exact hc.1
    exact ⟨hstarted, hf.provided c (List.mem_of_find?_eq_some hfind) hstarted⟩
  refine ⟨fun c hc hserved _ => hintro c hc hserved,
    fun c body hc hserved => (hintro c hc hserved).formTarget,
    fun i oob bytes c _ hfind hc => ?_, fun i oob bytes c _ hfind hc hcrash => ?_⟩
  · exact (hready i c hfind hc).2
  · obtain ⟨hstarted, hprovided⟩ := hready i c hfind hc
    have hof := upstreamScript_of (c := c) oob bytes
    rw [hcrash] at hof
    rcases hof with hnone | hnone
    · rw [Client.started, hnone] at hstarted
      cases hstarted
    · have hscript := hprovided.script
      rw [hnone] at hscript
      cases hscript

end Equipped

/-- **The parameters are there when they are used**, in every run in which no request that will be
served is started without `SCRIPT_NAME`. -/
theorem uses_provided (env : Env) (writes : List Bool) (asr : List AsrAnswer) (es : List Event)
    (hes : Steps (step env) (Fcgi.Introduces env) (Fcgi.new writes asr) es) :
    Steps (step env) (UsesProvided env) (Fcgi.new writes asr) es :=
  Steps.of_invariant (fun _ _ hf he => hf.step he) (fun _ _ hf he => hf.uses he)
    (equipped_new writes asr) hes

/-- A request with all parameters gets a page with a link. -/
theorem link_provided :
    let es := exampleSent ++ [.upstream 1 (fun _ => []) (lit "20 text/gemini\r\n=> /x\n")]
    Steps (step exampleEnv) (UsesProvided exampleEnv) (Fcgi.new [] []) es := by
  intro es
  exact uses_provided exampleEnv [] [] es (by decide)

/-- The parameters of a request without `SCRIPT_NAME`. -/
def namelessParams (method : String) : Bytes :=
  paramPair "SERVER_NAME" "h" ++ paramPair "PATH_INFO" "/" ++ paramPair "REQUEST_METHOD" method

/-- Nothing asks for `SCRIPT_NAME`: a link of a page is rewritten without it, and a form is
redirected to `(null)?x`. -/
theorem script_name_missing :
    let page := Event.begin 1 1 1 ++ Event.record params 1 (namelessParams "GET")
      ++ Event.record params 1 [] ++ [.resolved 1 (some [⟨[]⟩]) exampleNet]
    let link := Event.upstream 1 (fun _ => []) (lit "20 text/gemini\r\n=> /x\n")
    let form := Event.begin 1 1 1 ++ Event.record params 1 (namelessParams "POST")
      ++ Event.record stdin 1 (lit "q=x") ++ [.arrive [1, stdin, 0, 1, 0, 0, 0, 0], .read []]
    let last := Event.read []
    ¬ Steps (step exampleEnv) (UsesProvided exampleEnv) (Fcgi.new [] []) (page ++ [link]) ∧
      ¬ Steps (step exampleEnv) (UsesProvided exampleEnv) (Fcgi.new [] []) (form ++ [last]) ∧
      (answer 1 (run exampleEnv (Fcgi.new [] []) (form ++ [last])).trace).text
        = headText [⟨lit "Status", lit "302"⟩, cspField, ⟨lit "Location", lit "(null)?x"⟩] := by
  intro page link form last
  refine ⟨?_, ?_, by decide +kernel⟩
  · intro h
    obtain ⟨-, hlast, -⟩ := Steps.append.mp h
    exact hlast.rewriting_safe 1 _ _ { exampleAwaiting with cltScriptName := none } rfl
      (by decide) (by decide) (by rfl)
  · intro h
    obtain ⟨-, hlast, -⟩ := Steps.append.mp h
    let c := { exampleClient .post with
      cltScriptName := none
      cltBody := some (lit "x")
      cltBodylen := 1 }
    exact absurd (hlast.redirect c (by decide) (by decide) rfl).script Bool.false_ne_true

end Galileo
