import Galileo.Proof.Answer
import Galileo.Proof.Isolation

/-!
# What becomes of a client

`Galileo.Proof.Refine` looks at a connection from outside, where a client is a request with a method
and a flag. This module follows the client's *record*: after an event, every client of the
connection is new, or was there before and came out of one of the functions that write clients
(`Fate`). `step_fates` says so for all events at once, together with the one thing in the log that
tells these functions apart: whether `proxy_start_request` was called for the client.

An invariant of the clients' fields is then a statement about `Fate` and nothing else.
-/

set_option autoImplicit false

namespace Galileo

open Lib Lib.FastCgi

variable {c : Client} {i : UInt32} {os : List Obs}

/-- The fields `d` a client that had the fields `c` can have after an event; the flag says whether
its request was started by it, and `fed` which piece of its form it can have got. -/
inductive Fate (env : Env) (fed : Client → Bytes → Prop) : Bool → Client → Client → Prop
  | same (c : Client) : Fate env fed false c c
  | params (s : ParamSt) : Fate env fed false s.clt (fcgiParseParams env s).2.clt
  | form {tmp : Bytes} {c : Client} (h : fed c tmp) : Fate env fed false c (formChunk tmp c)
  | start {asr : List AsrAnswer} {c d c' : Client} {tp : Template}
      (hd : d = c ∨ d = { c with cltBodydone := true })
      (hnext : (startScript env asr d).next = .goes c') :
      Fate env fed true c { c' with cltTp := tp }
  | resolved {res : Option (List Addrinfo)} {net : NetEnv} {c c' : Client} {tp : Template}
      (hwait : c.started = true)
      (hnext : (resolvedScript res net c).next = .goes c') :
      Fate env fed false c { c' with cltTp := tp }
  | connect {net : NetEnv} {c c' : Client} {tp : Template} (hwait : c.started = true)
      (hnext : (connectScript net c).next = .goes c') : Fate env fed false c { c' with cltTp := tp }
  | upstream {oob : Bytes → Bytes} {bytes : Bytes} {c c' : Client} {tp : Template}
      (hwait : c.started = true)
      (hnext : (upstreamScript oob bytes c).next = .goes c') :
      Fate env fed false c { c' with cltTp := tp }

/-- Every client of `g` is new or has come from one of `f`. -/
def Fates (env : Env) (fed : Client → Bytes → Prop) (f g : Fcgi) : Prop :=
  ∃ os, g.trace = f.trace ++ os ∧ ∀ d ∈ g.fcgClients, (∃ i n, d = Client.new i n) ∨
    ∃ c ∈ f.fcgClients, Fate env fed (decide (.started c.serial ∈ os)) c d

/-! ## The fields that stay

The callbacks write the fields that say how far a request has come. Those that say what was asked
for stay, and a null pointer is only followed when one of two of them is missing. -/

structure Client.Kept (c d : Client) : Prop where
  serial : d.serial = c.serial
  pc : d.cltPc = c.cltPc
  server : d.cltServerName = c.cltServerName
  script : d.cltScriptName = c.cltScriptName
  path : d.cltPathInfo = c.cltPathInfo
  body : d.cltBody = c.cltBody

/-- What a callback for `c` can lead to. -/
def Next.Of (c : Client) : Next → Prop
  | .goes d => c.Kept d
  | .ends _ _ => True
  | .crashed => c.cltPc = none ∨ c.cltScriptName = none

/-- Other fields may have changed before. -/
theorem Next.Of.congr {d : Client} {n : Next} (hcd : c.Kept d) (h : n.Of d) : n.Of c := by
  cases n with
  | goes e =>
    exact ⟨h.serial.trans hcd.serial, h.pc.trans hcd.pc, h.server.trans hcd.server,
      h.script.trans hcd.script, h.path.trans hcd.path, h.body.trans hcd.body⟩
  | ends status proto => trivial
  | crashed => exact h.imp (hcd.pc ▸ ·) (hcd.script ▸ ·)

theorem upstreamScript_of (oob : Bytes → Bytes) (bytes : Bytes) :
    (upstreamScript oob bytes c).next.Of c := by
  have h := upstreamScript_reads (c := c) oob bytes
  generalize (upstreamScript oob bytes c).next = n at h
  cases n with
  | goes d =>
    obtain ⟨bev, tr, done, rfl, -⟩ := h
    exact ⟨rfl, rfl, rfl, rfl, rfl, rfl⟩
  | ends status proto => trivial
  | crashed => exact h

theorem connectScript_of (net : NetEnv) : (connectScript net c).next.Of c := by
  unfold connectScript
  dsimp only
  split
  · exact ⟨rfl, rfl, rfl, rfl, rfl, rfl⟩
  · rename_i hpc _
    exact .inl hpc
  · trivial
  · split
    · trivial
    · exact ⟨rfl, rfl, rfl, rfl, rfl, rfl⟩

theorem resolvedScript_of (res : Option (List Addrinfo)) (net : NetEnv) :
    (resolvedScript res net c).next.Of c := by
  unfold resolvedScript
  cases res with
  | none =>
    cases hpc : c.cltPc with
    | none => exact .inl hpc
    | some pc => trivial
  | some addrs =>
    exact .congr (d := { c with cltEvasr := false, cltP := addrs }) ⟨rfl, rfl, rfl, rfl, rfl, rfl⟩
      (connectScript_of net)

/-- A request that is started stays only when it has a path and a proxy. -/
theorem startScript_goes {env : Env} {asr : List AsrAnswer} {c' : Client}
    (h : (startScript env asr c).next = .goes c') :
    c.Kept { c' with cltPc := c.cltPc } ∧ c'.cltPc = proxyMatch env c.cltServerName ∧
      c.cltPathInfo.isSome ∧ c'.cltPc.isSome := by
  unfold startScript at h
  split at h
  · cases h
  rename_i path hpath
  dsimp only at h
  split at h
  · cases h
  rename_i pc hpc
  split at h
  · cases h
  split at h
  · cases h
  unfold resolverScript at h
  split at h <;> cases h <;>
    exact ⟨⟨rfl, rfl, rfl, rfl, rfl, rfl⟩, rfl, by rw [hpath]; rfl, by rw [hpc]; rfl⟩

/-- A client is the same request after the event, and `clt_pc` is only set when it is started. -/
theorem Fate.request {env : Env} {fed : Client → Bytes → Prop} {started : Bool} {d : Client}
    (h : Fate env fed started c d) :
    d.serial = c.serial ∧
      d.cltPc = if started then proxyMatch env c.cltServerName else c.cltPc := by
  have hof {n : Next} {c' : Client} {tp : Template} (hnext : n = .goes c') (h : n.Of c) :
      ({ c' with cltTp := tp } : Client).serial = c.serial ∧
        ({ c' with cltTp := tp } : Client).cltPc = c.cltPc := by
    rw [hnext] at h
    exact ⟨h.serial, h.pc⟩
  cases h with
  | same => exact ⟨rfl, rfl⟩
  | params s =>
    have hs := fcgiParseParams_learnt env s
    exact ⟨hs.serial, hs.pc⟩
  | @form tmp =>
    have hs := formChunk_same tmp c
    exact ⟨hs.serial, hs.pc⟩
  | start hd hnext =>
    obtain ⟨hkept, hpc, -⟩ := startScript_goes hnext
    rcases hd with rfl | rfl <;> exact ⟨hkept.serial, hpc⟩
  | resolved _ hnext => exact hof hnext (resolvedScript_of _ _)
  | connect _ hnext => exact hof hnext (connectScript_of _)
  | upstream _ hnext => exact hof hnext (upstreamScript_of _ _)

/-! ## Calls -/

/-- Log entries of which none is a start. -/
def NoStart (os : List Obs) : Prop := ∀ s, Obs.started s ∉ os

theorem noStart_nil : NoStart [] := fun _ h => by cases h

theorem noStart_stdoutOf (id : UInt32) (ds : List Bytes) : NoStart (stdoutOf id ds) := by
  intro s h
  obtain ⟨d, -, hd⟩ := List.mem_map.mp h
  cases hd

/-- What a call that has played a script leaves of the tree: the others, and its own client if the
script goes on. -/
theorem Plays.clients {s : Script} {f : Fcgi} {r : Option Unit × Ctx} (h : Plays s ⟨f, c⟩ r) :
    ∃ os, (r.2.fcgi.store r.2.clt).trace = f.trace ++ os ∧ NoStart os ∧
      ∀ d ∈ (r.2.fcgi.store r.2.clt).fcgClients, (d ∈ f.fcgClients ∧ d.cltId ≠ c.cltId) ∨
        ∃ c' tp, s.next = .goes c' ∧ d = { c' with cltTp := tp } := by
  cases h with
  | @goes c' ds ws as tp hnext hid hserial hds hws htext hcap =>
    refine ⟨stdoutOf c.cltId ds, rfl, noStart_stdoutOf _ _, fun d hd => ?_⟩
    obtain ⟨e, he, rfl⟩ := List.mem_map.mp hd
    dsimp only at hid ⊢
    split
    · exact .inr ⟨c', tp, hnext, rfl⟩
    · rename_i hne
      rw [hid, fcgiClientCmp_beq] at hne
      exact .inl ⟨he, fun h => hne (by simp [h])⟩
  | @ends status proto ds ws as d hnext hds hws htext hid =>
    have hgone : ((f.said c.cltId ds ws as).finish c (endReqBody status proto)).find d.cltId
        = none := by
      rw [Fcgi.find_finish, if_pos hid]
    dsimp only
    rw [Fcgi.store_of_find_none hgone]
    refine ⟨stdoutOf c.cltId ds
      ++ [.queued endRequestType c.cltId.toUInt16 (endReqBody status proto),
      .freed c.cltId.toUInt16 c.serial], ?_, fun s hs => ?_, fun e he => ?_⟩
    · simp only [Fcgi.finish, Fcgi.said, List.append_assoc]
    · rcases List.mem_append.mp hs with hs | hs
      · exact noStart_stdoutOf _ _ s hs
      · simp at hs
    · obtain ⟨he, hne⟩ := List.mem_filter.mp he
      rw [bne, fcgiClientCmp_beq] at hne
      exact .inl ⟨he, fun h => by simp [h] at hne⟩
  | @crashed ds ws as d hnext hds hws htext =>
    exact ⟨stdoutOf c.cltId ds, rfl, noStart_stdoutOf _ _, fun e he => by cases he⟩
  | @torn ds ws as out d hfail hds hws htext hout =>
    exact ⟨stdoutOf c.cltId ds, rfl, noStart_stdoutOf _ _, fun e he => by cases he⟩

section Fates

variable {env : Env} {fed : Client → Bytes → Prop} {f g : Fcgi}

theorem mem_of_find (h : f.find i = some c) : c ∈ f.fcgClients :=
  List.mem_of_find?_eq_some h

/-- Nobody was started, and everybody has come from somebody. -/
theorem Fates.quiet (htrace : g.trace = f.trace ++ os) (hos : NoStart os)
    (h : ∀ d ∈ g.fcgClients,
      (∃ i n, d = Client.new i n) ∨ ∃ c ∈ f.fcgClients, Fate env fed false c d) :
    Fates env fed f g := by
  refine ⟨os, htrace, fun d hd => (h d hd).imp_right ?_⟩
  rintro ⟨c, hc, hfate⟩
  exact ⟨c, hc, by rwa [decide_eq_false (hos c.serial)]⟩

/-- The clients are as they were. -/
theorem Fates.same (htrace : g.trace = f.trace ++ os) (hos : NoStart os)
    (hclients : g.fcgClients = f.fcgClients) : Fates env fed f g :=
  .quiet htrace hos fun d hd => .inr ⟨d, hclients ▸ hd, .same d⟩

/-- There are no clients. -/
theorem Fates.gone (htrace : g.trace = f.trace ++ os) (hclients : g.fcgClients = []) :
    Fates env fed f g :=
  ⟨os, htrace, fun d hd => by rw [hclients] at hd; cases hd⟩

/-- Nothing that is logged happens. -/
theorem Fates.still (htrace : g.trace = f.trace) (hclients : g.fcgClients = f.fcgClients) :
    Fates env fed f g :=
  @Fates.same [] env fed f g (by rw [htrace, List.append_nil]) noStart_nil hclients

theorem Fates.torn (htrace : g.trace = f.trace) (hclients : g.fcgClients = []) :
    Fates env fed f g :=
  @Fates.gone [] env fed f g (by rw [htrace, List.append_nil]) hclients

/-- Something else was logged first. -/
theorem Fates.of_observe {o : Obs} (ho : ∀ s, o ≠ .started s) (h : Fates env fed (f.observe o) g) :
    Fates env fed f g := by
  obtain ⟨os, htrace, hall⟩ := h
  refine ⟨o :: os, by simpa [Fcgi.observe] using htrace, fun d hd => (hall d hd).imp_right ?_⟩
  rintro ⟨c, hc, hfate⟩
  have hmem : (.started c.serial ∈ o :: os) ↔ .started c.serial ∈ os := by
    simp [List.mem_cons, (ho c.serial).symm]
  exact ⟨c, hc, by rwa [decide_eq_decide.mpr hmem]⟩

theorem Fates.next (h : Fates env fed f g) : Fates env fed f (nextRecord g) := h

theorem fates_afterCall {r : Option Unit × Fcgi} (h : Fates env fed f r.2) :
    Fates env fed f (afterCall r).fcgi := by
  rcases r with ⟨_ | u, g⟩
  · exact h
  · exact h.next

/-- Fields of one client are stored. -/
theorem fates_store {c d : Client} (hfind : f.find i = some c) (hd : Fate env fed false c d)
    (toread : Int) (input : Bytes) :
    Fates env fed f (Fcgi.store { f with fcgToread := toread, input := input } d) := by
  refine @Fates.quiet [] env fed f _ (by simp [Fcgi.store]) noStart_nil fun e he => .inr ?_
  obtain ⟨e', he', rfl⟩ := List.mem_map.mp he
  split
  · exact ⟨c, mem_of_find hfind, hd⟩
  · exact ⟨e', he', .same e'⟩

/-- A callback. -/
theorem fates_call {m : CltM Unit} {k : Client → Script} (hfind : f.find i = some c)
    (hm : Follows m c (k c))
    (hk : ∀ c' tp, (k c).next = .goes c' → Fate env fed false c { c' with cltTp := tp }) :
    Fates env fed f (withClient i m f).2 := by
  obtain ⟨os, htrace, hos, hmem⟩ := (hm.plays f).clients
  rw [withClient_run hfind]
  refine .quiet htrace hos fun d hd => .inr ?_
  rcases hmem d hd with ⟨hd, -⟩ | ⟨c', tp, hnext, rfl⟩
  · exact ⟨d, hd, .same d⟩
  · exact ⟨c, mem_of_find hfind, hk c' tp hnext⟩

/-- No two clients are the same request. -/
def Fcgi.Distinct (f : Fcgi) : Prop :=
  ∀ c ∈ f.fcgClients, ∀ d ∈ f.fcgClients, c.serial = d.serial → c.cltId = d.cltId

theorem Fcgi.Keyed.req_of_mem (h : f.Keyed) (hc : c ∈ f.fcgClients) :
    ∃ i : UInt16, c.cltId = i.toUInt32 ∧ f.abs.req i = some c.req := by
  have hlt := h.lt c.cltId (List.mem_map_of_mem hc)
  have hid : c.cltId = c.cltId.toUInt16.toUInt32 := by
    apply UInt32.toNat_inj.mp
    simp [Nat.mod_eq_of_lt hlt]
  refine ⟨c.cltId.toUInt16, hid, ?_⟩
  rw [Fcgi.abs]
  dsimp only
  rw [← hid, h.find_of_mem hc]
  rfl

theorem Fcgi.Keyed.distinct (h : f.Keyed) (hwf : f.abs.Wf) : f.Distinct := by
  intro c hc d hd hserial
  obtain ⟨i, hi, hci⟩ := h.req_of_mem hc
  obtain ⟨j, hj, hdj⟩ := h.req_of_mem hd
  rw [hi, hj, hwf.serials i j c.req d.req hci hdj hserial]

theorem Fcgi.Keyed.eq_of_serial (h : f.Keyed) (hwf : f.abs.Wf) {c d : Client}
    (hc : c ∈ f.fcgClients) (hd : d ∈ f.fcgClients) (hserial : c.serial = d.serial) : c = d := by
  have hid := h.distinct hwf c hc d hd hserial
  have hfind := h.find_of_mem hc
  rw [hid, h.find_of_mem hd] at hfind
  exact (Option.some.inj hfind).symm

/-- The start of a request. -/
theorem fates_start {c d : Client} (hf : f.Distinct) (hfind : f.find i = some c)
    (hd : d = c ∨ d = { c with cltBodydone := true }) {r : Option Unit × Ctx}
    (hr : r = proxyStartRequest env ⟨f, d⟩) : Fates env fed f (r.2.fcgi.store r.2.clt) := by
  have hc := mem_of_find hfind
  have hplays := proxyStartRequest_plays env ⟨f, d⟩
  rw [← hr] at hplays
  obtain ⟨os, htrace, hos, hmem⟩ := hplays.clients
  have hsame : d.serial = c.serial ∧ d.cltId = c.cltId := by
    rcases hd with rfl | rfl <;> exact ⟨rfl, rfl⟩
  have hin (s : Nat) : .started s ∈ Obs.started c.serial :: os ↔ s = c.serial := by
    simp [hos s]
  refine ⟨.started c.serial :: os, ?_, fun e he => .inr ?_⟩
  · rw [htrace]
    simp [Fcgi.observe, hsame.1]
  · rcases hmem e he with ⟨he, hid⟩ | ⟨c', tp, hnext, rfl⟩
    · have hne : e.serial ≠ c.serial := fun h => hid ((hf e he c hc h).trans hsame.2.symm)
      exact ⟨e, he, by rw [decide_eq_false (mt (hin _).mp hne)]; exact .same e⟩
    · exact ⟨c, hc, by rw [decide_eq_true ((hin _).mpr rfl)]; exact .start hd hnext⟩

/-! ## The dispatcher -/

theorem readBegin_fates : Fates env fed g (readBegin g).fcgi := by
  have hcases := readBegin_cases g
  generalize readBegin g = r at hcases ⊢
  cases hcases with
  | waits _ _ => exact .still (by simp [Flow.fcgi]) rfl
  | badSize _ => exact .torn (by simp [Flow.fcgi, fcgiError]) rfl
  | refused ws _ _ => exact .same rfl (fun s h => by simp at h) rfl
  | refusedTorn ws out _ => exact .torn (by simp [Flow.fcgi, fcgiError]) rfl
  | notKept _ => exact .torn (by simp [Flow.fcgi, fcgiError]) rfl
  | again c _ _ _ _ => exact .still (by simp [Flow.fcgi, nextRecord]) rfl
  | accepted _ _ _ _ =>
    refine .quiet rfl (fun s h => by simp at h) fun d hd => ?_
    rcases List.mem_cons.mp hd with rfl | hd
    · exact .inl ⟨_, _, rfl⟩
    · exact .inr ⟨d, hd, .same d⟩

/-- The content of a record is left in the dust. -/
theorem skipContent_fates : Fates env fed g (nextRecord (skipContent g)) :=
  .still (by simp [nextRecord, skipContent]) rfl

theorem readParams_fates (stale : Bytes) (hg : g.Distinct) :
    Fates env fed g (readParams env stale g).fcgi := by
  cases hfind : g.find g.fcgRecId.toUInt32 with
  | none =>
    rw [readParams, hfind]
    exact skipContent_fates
  | some c =>
    by_cases hlen : g.fcgToread = 0
    · rw [readParams, hfind]
      dsimp only
      rw [if_pos hlen]
      split
      · refine fates_afterCall ?_
        rw [withClient_run hfind]
        exact fates_start hg hfind (.inl rfl) rfl
      · exact .still (by simp [Flow.fcgi, nextRecord]) rfl
    · obtain ⟨r, hr, -, hread⟩ := readParams_content env stale hfind hlen
      rw [hread]
      split
      · subst hr
        exact (fates_store hfind (.params ⟨g.fcgToread, g.input ++ stale, c⟩) _ _).next
      · exact .torn (by simp [Flow.fcgi, fcgiError]) rfl

theorem readStdin_fates (hg : g.Distinct)
    (hfed : ∀ c, g.find g.fcgRecId.toUInt32 = some c → g.fcgToread ≠ 0 → c.cltMethod = .post →
      fed c g.formText) : Fates env fed g (readStdin env g).fcgi := by
  cases hfind : g.find g.fcgRecId.toUInt32 with
  | none =>
    rw [readStdin, hfind]
    exact skipContent_fates
  | some c =>
    rw [readStdin, hfind]
    dsimp only
    split
    · exact skipContent_fates
    · rename_i hpost
      refine fates_afterCall ?_
      rw [withClient_run hfind]
      by_cases hlen : g.fcgToread = 0
      · rw [fcgiParseForm_empty env c hlen]
        exact fates_start hg hfind (.inr rfl) rfl
      · rw [fcgiParseForm_chunk env c hlen]
        exact fates_store hfind (.form (hfed c hfind hlen (not_not.mp hpost))) _ _

theorem readAbort_fates : Fates env fed g (readAbort g).fcgi := by
  cases hfind : g.find g.fcgRecId.toUInt32 with
  | none =>
    rw [readAbort, hfind]
    exact skipContent_fates
  | some c =>
    rw [readAbort, hfind]
    refine fates_afterCall (fates_call (k := fun _ => ⟨[], .ends 1 requestComplete⟩) hfind
      (follows_end 1 requestComplete) fun c' tp h => ?_)
    cases h

theorem readBody_fates (stale : Bytes) (hf : f.Distinct)
    (hfed : f.fcgType = stdin → ∀ c, f.find f.fcgRecId.toUInt32 = some c → f.fcgToread ≠ 0 →
      c.cltMethod = .post → fed c f.formText) :
    Fates env fed f (readBody env stale f).fcgi := by
  have hrec : ∀ s, f.record ≠ .started s := fun _ => Obs.noConfusion
  have hg : (f.observe f.record).Distinct := hf
  rw [readBody_eq]
  refine .of_observe hrec ?_
  split
  · exact readBegin_fates
  split
  · exact readParams_fates stale hg
  split
  · rename_i htype
    exact readStdin_fates hg (hfed htype)
  split
  · exact readAbort_fates
  · exact skipContent_fates

theorem readHeader_fates : Fates env fed f (readHeader f).fcgi := by
  unfold readHeader
  split
  · split
    · exact .torn (by simp [Flow.fcgi, fcgiError]) rfl
    · exact .still (by simp [Flow.fcgi]) rfl
  · exact .still (by simp [Flow.fcgi]) rfl

/-! ## Every event -/

theorem callback_fates {m : CltM Unit} {k : Client → Script} (i : UInt16)
    (waiting : Client → Bool) (hm : ∀ c, Follows m c (k c))
    (hk : ∀ c c' tp, waiting c = true → (k c).next = .goes c' →
      Fate env fed false c { c' with cltTp := tp }) :
    Fates env fed f (callback i waiting m f) := by
  have hidle : Fates env fed f f := .still (by simp) rfl
  rw [callback]
  cases hfind : f.find i.toUInt32 with
  | none => exact hidle
  | some c =>
    dsimp only
    split
    · rename_i hwait
      exact fates_call hfind (hm c) fun c' tp => hk c c' tp hwait
    · exact hidle

/-- **What becomes of the clients**, whatever happens. -/
theorem step_fates (env : Env) {f : Fcgi} (hf : f.Distinct) (e : Event) :
    Fates env (fun c tmp => f.feeds e c ∧ tmp = f.formText) f (step env f e) := by
  have hidle : Fates env (fun c tmp => f.feeds e c ∧ tmp = f.formText) f f := .still (by simp) rfl
  unfold step
  split
  · exact hidle
  rename_i hopen
  cases e with
  | arrive bytes =>
    rw [handle, Fcgi.arrive]
    split
    · exact hidle
    · exact .still (by simp) rfl
  | read stale =>
    rw [handle, readStep]
    split
    · exact hidle
    · rename_i hlen
      cases hwant : f.fcgWant with
      | header => exact readHeader_fates
      | body =>
        have hopen : f.closed = false := by simpa using hopen
        have hlen : sizeT f.fcgToread ≤ f.input.length := by simpa [hopen] using hlen
        exact readBody_fates stale hf fun htype c hfind hread hpost =>
          ⟨⟨hread, hfind, ⟨rfl, hopen, hwant, htype, hlen⟩, hpost⟩, rfl⟩
  | resolved i res net =>
    exact callback_fates i _ (fun _ => proxyResolved_follows res net) fun _ _ _ => .resolved
  | connect i net =>
    exact callback_fates i _ (fun _ => proxyConnect_follows net) fun _ _ _ => .connect
  | upstream i oob bytes =>
    exact callback_fates i _ (fun _ => upstreamRead_follows oob bytes) fun _ _ _ hwait =>
      .upstream (Bool.and_eq_true_iff.mp hwait).1
  | upstreamError i err =>
    refine callback_fates i _ (fun _ => proxyError_follows err) fun c c' _ _ h => ?_
    -- the script of `proxy_error` always ends the request
    rw [errorScript] at h
    split_ifs at h
  | drained n =>
    rw [handle, fcgiWrite]
    split
    · exact .torn (by simp [fcgiError]) rfl
    · exact .still (by simp) rfl
  | error => exact .torn (by simp [handle, fcgiError]) rfl

end Fates

end Galileo
