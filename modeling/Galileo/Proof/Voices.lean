import Galileo.Proof.Dispatch
import Galileo.Proof.Reply

/-!
# What an event makes requests say

`Galileo.Proof.Refine` says what an event does to the *lives* of the requests of a connection. This
module says it for their *voices*: the few fields a request's output depends on, and the text it has
been told. An event is quiet, or accepts a request, or makes one request play one script
(`step_turn`), and which script that can be is a `Cue`.
-/

set_option autoImplicit false

namespace Galileo

open Lib Lib.FastCgi

/-- The fields of a client that say where its answer stands. -/
structure Client.SameVoice (c d : Client) : Prop where
  headers : d.cltHeadersdone = c.cltHeadersdone
  translate : d.cltTranslate = c.cltTranslate
  tp : d.cltTp = c.cltTp

theorem Client.SameVoice.refl (c : Client) : c.SameVoice c := ⟨rfl, rfl, rfl⟩

theorem Client.SameVoice.trans {c d e : Client} (h : c.SameVoice d) (h' : d.SameVoice e) :
    c.SameVoice e :=
  ⟨h'.headers.trans h.headers, h'.translate.trans h.translate, h'.tp.trans h.tp⟩

/-- Parameters do not touch them. -/
theorem fcgiParseParams_sameVoice (env : Env) (s : ParamSt) :
    s.clt.SameVoice (fcgiParseParams env s).2.clt := by
  refine fcgiParseParams_stored env .refl (fun _ _ _ => .trans) (fun pname vlen put v c h => ?_) s
  unfold paramStore at h
  split_ifs at h
  all_goals
    cases h
    exact ⟨rfl, rfl, rfl⟩

/-- The form does not touch them. -/
theorem formChunk_sameVoice (tmp : Bytes) (c : Client) : c.SameVoice (formChunk tmp c) := by
  unfold formChunk
  split
  · exact .refl _
  split
  · exact ⟨rfl, rfl, rfl⟩
  split
  · exact ⟨rfl, rfl, rfl⟩
  split
  · exact .refl _
  split
  · exact .refl _
  · exact ⟨rfl, rfl, rfl⟩

/-- What adds nothing to any text and begins no answer. -/
def Obs.Silent : Obs → Prop
  | .dispatched _ _ _ | .started _ => True
  | .queued type _ _ => type ≠ stdout
  | .accepted _ _ | .freed _ _ => False

theorem answer_silent (i : UInt16) (log : List Obs) {os : List Obs} (h : ∀ o ∈ os, o.Silent) :
    (answer i (log ++ os)).text = (answer i log).text := by
  rw [answer_append]
  generalize answer i log = a
  induction os generalizing a with
  | nil => rfl
  | cons o os ih =>
    rw [List.foldl_cons, ih fun o ho => h o (by simp [ho])]
    have ho := h o (by simp)
    cases o with
    | queued type j d =>
      have htype : type ≠ stdout := ho
      simp only [Answer.step, if_neg htype]
      split_ifs <;> rfl
    | dispatched type j d => rfl
    | started s => rfl
    | accepted j s => exact ho.elim
    | freed j s => exact ho.elim

/-- The page a form asks for. -/
def Client.formTarget (c : Client) : Option Bytes :=
  match c.cltPathInfo, c.cltBody with
  | some path, some body =>
      some (c.cltScriptName.getD nullString ++ path.tail ++ lit "?" ++ body)
  | _, _ => none

/-- The scripts an event can call for. -/
inductive Cue (env : Env) (f : Fcgi) (e : Event) (i : UInt16) (c : Client) : Script → Prop
  | start {d : Client} {asr : List AsrAnswer} (hstart : f.starts e d) (hvoice : d.SameVoice c)
      (htarget : c.formTarget = d.formTarget) : Cue env f e i c (startScript env asr c)
  | abort : Cue env f e i c ⟨[], .ends 1 requestComplete⟩
  | resolved {res : Option (List Addrinfo)} {net : NetEnv} :
      Cue env f e i c (resolvedScript res net c)
  | connect {net : NetEnv} : Cue env f e i c (connectScript net c)
  | upstream {oob : Bytes → Bytes} {bytes : Bytes} (he : e = .upstream i oob bytes)
      (hfind : f.find i.toUInt32 = some c) : Cue env f e i c (upstreamScript oob bytes c)
  | error {err : Nat} : Cue env f e i c (errorScript err c)

/-- What an event does to the voices of a connection. -/
inductive Turn (env : Env) (f : Fcgi) (e : Event) (g : Fcgi) : Prop
  | quiet {os : List Obs} (htrace : g.trace = f.trace ++ os) (hos : ∀ o ∈ os, o.Silent)
      (hfind : ∀ i : UInt16, ∀ d, g.find i.toUInt32 = some d →
        ∃ c, f.find i.toUInt32 = some c ∧ c.SameVoice d)
  | accepts {os : List Obs} {i : UInt16} {serial : Nat}
      (htrace : g.trace = f.trace ++ os ++ [.accepted i serial]) (hos : ∀ o ∈ os, o.Silent)
      (hnew : g.find i.toUInt32 = some (Client.new i.toUInt32 serial))
      (hothers : ∀ j, j ≠ i → g.find j.toUInt32 = f.find j.toUInt32)
  | calls {h : Fcgi} {os : List Obs} {i : UInt16} {c d : Client} {s : Script}
      (hfind : f.find i.toUInt32 = some c) (hvoice : c.SameVoice d)
      (htrace : h.trace = f.trace ++ os) (hos : ∀ o ∈ os, o.Silent)
      (hothers : ∀ j : UInt16, h.find j.toUInt32 = f.find j.toUInt32) (hcue : Cue env f e i d s)
      (hheard : Heard h i d s g)

section Turns

variable {env : Env} {f g h : Fcgi} {e : Event}

theorem Turn.same (hfind : ∀ j : UInt32, g.find j = f.find j) (htrace : g.trace = f.trace) :
    Turn env f e g :=
  @Turn.quiet env f e g [] (by simp [htrace]) (by simp) fun i d hd =>
    ⟨d, (hfind _).symm.trans hd, .refl d⟩

/-- The connection is gone. -/
theorem Turn.gone {os : List Obs} (hclients : g.fcgClients = []) (htrace : g.trace = f.trace ++ os)
    (hos : ∀ o ∈ os, o.Silent) : Turn env f e g :=
  .quiet htrace hos fun i d hd => by
    rw [Fcgi.find, hclients] at hd
    cases hd

/-- Only these fields of the connection matter. -/
theorem Heard.of_like {i : UInt16} {c : Client} {s : Script} {g' : Fcgi} (hg : Heard f i c s g)
    (hclients : g'.fcgClients = g.fcgClients) (htrace : g'.trace = g.trace)
    (hclosed : g'.closed = g.closed) (hwrites : g'.writes = g.writes) : Heard f i c s g' := by
  have hfind (j : UInt32) : g'.find j = g.find j := by simp only [Fcgi.find, hclients]
  cases hg with
  | goes hnext hserial htext hcap hf hothers ht hc hws =>
    exact .goes hnext hserial htext hcap ((hfind _).trans hf)
      (fun j hj => (hfind _).trans (hothers j hj)) (htrace.trans ht) (hclosed.trans hc)
      (hwrites ▸ hws)
  | ends hnext htext hf hothers ht hc =>
    exact .ends hnext htext ((hfind _).trans hf) (fun j hj => (hfind _).trans (hothers j hj))
      (htrace.trans ht) (hclosed.trans hc)
  | crashed hnext htext ht hc hn =>
    exact .crashed hnext htext (htrace.trans ht) (hclosed.trans hc) (hclients.trans hn)
  | torn hfail htext ht hc hn =>
    exact .torn hfail htext (htrace.trans ht) (hclosed.trans hc) (hclients.trans hn)

theorem heard_afterCall {i : UInt16} {c : Client} {s : Script} {r : Option Unit × Fcgi}
    (hr : Heard f i c s r.2) : Heard f i c s (afterCall r).fcgi := by
  obtain ⟨_ | u, g⟩ := r
  · exact hr
  · exact hr.of_like rfl rfl rfl rfl

/-- Fields of one client are stored that have no part in its voice. -/
theorem find_store_sameVoice {id : UInt32} {c d : Client} (hfind : f.find id = some c)
    (hid : d.cltId = c.cltId) (hvoice : c.SameVoice d) (i : UInt16) (d' : Client)
    (hd' : (f.store d).find i.toUInt32 = some d') :
    ∃ c', f.find i.toUInt32 = some c' ∧ c'.SameVoice d' := by
  rw [Fcgi.find_store] at hd'
  split at hd'
  · rename_i hi
    have hid' : id = i.toUInt32 := by rw [← f.cltId_of_find hfind, ← hid, hi]
    rw [← hid', hfind] at hd'
    cases hd'
    exact ⟨c, hid' ▸ hfind, hvoice⟩
  · exact ⟨d', hd', .refl d'⟩

/-- The record that is taken is logged first. -/
theorem silent_record (f : Fcgi) : ∀ o ∈ [f.record], o.Silent := by
  intro o ho
  rw [List.mem_singleton.mp ho]
  trivial

/-- What the start of a request leaves of the connection, from either of its triggers. -/
theorem start_heard {c d : Client} (hfind : f.find f.fcgRecId.toUInt32 = some c)
    (hid : d.cltId = c.cltId) {r : Option Unit × Ctx}
    (hr : r = proxyStartRequest env ⟨f.observe f.record, d⟩)
    (hg : g = (afterCall (r.1, r.2.fcgi.store r.2.clt)).fcgi) :
    Heard ((f.observe f.record).observe (.started d.serial)) f.fcgRecId d
      (startScript env f.asr d) g := by
  have hplays := proxyStartRequest_plays env ⟨f.observe f.record, d⟩
  rw [← hr] at hplays
  have hheard := hplays.heard (hid.trans (f.cltId_of_find hfind)) (by
    show (f.find f.fcgRecId.toUInt32).isSome = true
    rw [hfind]
    rfl)
  exact hg ▸ heard_afterCall hheard

theorem turn_start {c d : Client} (hstart : f.starts e c) (hid : d.cltId = c.cltId)
    (hvoice : c.SameVoice d) (htarget : d.formTarget = c.formTarget)
    {r : Option Unit × Ctx} (hr : r = proxyStartRequest env ⟨f.observe f.record, d⟩)
    (hg : g = (afterCall (r.1, r.2.fcgi.store r.2.clt)).fcgi) : Turn env f e g := by
  have hfind := hstart.2.1
  refine .calls (h := (f.observe f.record).observe (.started d.serial)) hfind hvoice
    (List.append_assoc f.trace [f.record] [.started d.serial]) ?_ (fun _ => rfl)
    (.start hstart hvoice htarget) (start_heard hfind hid hr hg)
  intro o ho
  simp only [List.cons_append, List.nil_append, List.mem_cons, List.not_mem_nil, or_false] at ho
  rcases ho with rfl | rfl <;> trivial

theorem readBegin_turn : Turn env f e (readBegin (f.observe f.record)).fcgi := by
  have hcases := readBegin_cases (f.observe f.record)
  generalize readBegin (f.observe f.record) = r at hcases ⊢
  have hrec := silent_record f
  have hsame {g : Fcgi} (hclients : g.fcgClients = f.fcgClients) (i : UInt16) (d : Client)
      (hd : g.find i.toUInt32 = some d) :
      ∃ c, f.find i.toUInt32 = some c ∧ c.SameVoice d := by
    refine ⟨d, ?_, .refl d⟩
    rw [← hd, Fcgi.find, Fcgi.find, hclients]
  cases hcases with
  | waits _ _ => exact .quiet rfl hrec (hsame rfl)
  | badSize _ => exact .gone rfl rfl hrec
  | refused ws hlen hrole =>
    refine @Turn.quiet env f e _
      [f.record, .queued endRequestType f.fcgRecId (endReqBody 1 unknownRole)] ?_ ?_ (hsame rfl)
    · simp [Flow.fcgi, nextRecord, Fcgi.observe]
    · intro o ho
      simp only [List.mem_cons, List.not_mem_nil, or_false] at ho
      rcases ho with rfl | rfl
      · trivial
      · exact (by decide : endRequestType ≠ stdout)
  | refusedTorn ws out hout => exact .gone rfl rfl hrec
  | notKept _ => exact .gone rfl rfl hrec
  | again c hlen hrole hkeep hfind => exact .quiet rfl hrec (hsame rfl)
  | accepted hlen hrole hkeep hfind =>
    have hcons (j : UInt32) := Fcgi.find_cons f (Client.new f.fcgRecId.toUInt32 f.nextSerial) j
    refine @Turn.accepts env f e _ [f.record] f.fcgRecId f.nextSerial rfl hrec ?_ fun j hj => ?_
    · exact (hcons _).trans (if_pos rfl)
    · exact (hcons _).trans (if_neg fun h => hj (toUInt32_inj.mp h))

theorem readParams_turn (stale : Bytes) (htakes : f.takes e params) :
    Turn env f e (readParams env stale (f.observe f.record)).fcgi := by
  have hrec := silent_record f
  cases hfind : (f.observe f.record).find (f.observe f.record).fcgRecId.toUInt32 with
  | none =>
    rw [readParams, hfind]
    exact .quiet rfl hrec fun i d hd => ⟨d, hd, .refl d⟩
  | some c =>
    by_cases hlen : (f.observe f.record).fcgToread = 0
    · by_cases hget : c.cltMethod = .get
      · refine turn_start (c := c) (d := c) ⟨hlen, hfind, .inl ⟨htakes, hget⟩⟩ rfl
          (.refl c) rfl rfl ?_
        rw [readParams, hfind]
        dsimp only
        rw [if_pos hlen, if_pos hget, withClient_run hfind]
      · rw [readParams, hfind]
        dsimp only
        rw [if_pos hlen, if_neg hget]
        exact .quiet rfl hrec fun i d hd => ⟨d, hd, .refl d⟩
    · obtain ⟨r, hr, hlearnt, hread⟩ := readParams_content env stale hfind hlen
      have hvoice : c.SameVoice r.2.clt := by
        rw [hr]
        exact fcgiParseParams_sameVoice env ⟨_, _, c⟩
      rw [hread]
      split
      · exact .quiet rfl hrec (find_store_sameVoice hfind hlearnt.id hvoice)
      · exact .gone rfl rfl hrec

theorem readStdin_turn (htakes : f.takes e stdin) :
    Turn env f e (readStdin env (f.observe f.record)).fcgi := by
  have hrec := silent_record f
  cases hfind : (f.observe f.record).find (f.observe f.record).fcgRecId.toUInt32 with
  | none =>
    rw [readStdin, hfind]
    exact .quiet rfl hrec fun i d hd => ⟨d, hd, .refl d⟩
  | some c =>
    by_cases hpost : c.cltMethod = .post
    · by_cases hlen : (f.observe f.record).fcgToread = 0
      · refine turn_start (c := c) (d := { c with cltBodydone := true })
          ⟨hlen, hfind, .inr ⟨htakes, hpost⟩⟩ rfl ⟨rfl, rfl, rfl⟩ rfl rfl ?_
        rw [readStdin, hfind]
        dsimp only
        rw [if_neg (by simp [hpost]), withClient_run hfind, fcgiParseForm_empty env c hlen]
      · rw [readStdin, hfind]
        dsimp only
        rw [if_neg (by simp [hpost]), withClient_run hfind, fcgiParseForm_chunk env c hlen]
        exact .quiet rfl hrec (find_store_sameVoice hfind (formChunk_same _ c).id
          (formChunk_sameVoice _ c))
    · rw [readStdin, hfind]
      dsimp only
      rw [if_pos hpost]
      exact .quiet rfl hrec fun i d hd => ⟨d, hd, .refl d⟩

theorem readAbort_turn : Turn env f e (readAbort (f.observe f.record)).fcgi := by
  have hrec := silent_record f
  cases hfind : (f.observe f.record).find (f.observe f.record).fcgRecId.toUInt32 with
  | none =>
    rw [readAbort, hfind]
    exact .quiet rfl hrec fun i d hd => ⟨d, hd, .refl d⟩
  | some c =>
    rw [readAbort, hfind]
    dsimp only
    rw [withClient_run hfind]
    have hplays : Plays ⟨[], .ends 1 requestComplete⟩ ⟨f.observe f.record, c⟩
        (fcgiEndRequest 1 ⟨f.observe f.record, c⟩) := (follows_end 1 requestComplete).plays _
    have hheard := hplays.heard (Fcgi.cltId_of_find hfind) (by rw [hfind]; rfl)
    exact .calls (h := f.observe f.record) hfind (.refl c) rfl hrec (fun _ => rfl) .abort
      (heard_afterCall (r := (_, _)) hheard)

theorem readBody_turn (stale : Bytes) (htakes : f.takes e f.fcgType) :
    Turn env f e (readBody env stale f).fcgi := by
  rw [readBody_eq]
  split
  · exact readBegin_turn
  split
  · rename_i ht
    exact readParams_turn stale (ht ▸ htakes)
  split
  · rename_i ht
    exact readStdin_turn (ht ▸ htakes)
  split
  · exact readAbort_turn
  · exact .quiet rfl (silent_record f) fun i d hd => ⟨d, hd, .refl d⟩

theorem readStep_turn (stale : Bytes) (hopen : f.closed = false) :
    Turn env f (.read stale) (readStep env stale f).fcgi := by
  unfold readStep
  split
  · exact .same (fun _ => rfl) rfl
  · rename_i hlen
    have hlen : sizeT f.fcgToread ≤ f.input.length := by simpa [hopen] using hlen
    cases hw : f.fcgWant with
    | header =>
      dsimp only
      unfold readHeader
      split
      · split
        · exact @Turn.gone env f _ _ [] rfl (by simp [Flow.fcgi, fcgiError]) (by simp)
        · exact .same (fun _ => rfl) rfl
      · exact .same (fun _ => rfl) rfl
    | body => exact readBody_turn stale ⟨rfl, hopen, hw, rfl, hlen⟩

theorem callback_turn {m : CltM Unit} {k : Client → Script} (i : UInt16) (waiting : Client → Bool)
    (hm : ∀ c, Follows m c (k c))
    (hcue : ∀ c, f.find i.toUInt32 = some c → Cue env f e i c (k c)) :
    Turn env f e (callback i waiting m f) := by
  rw [callback]
  cases hfind : f.find i.toUInt32 with
  | none => exact .same (fun _ => rfl) rfl
  | some c =>
    dsimp only
    split
    · rw [withClient_run hfind]
      exact @Turn.calls env f e _ f [] i c c _ hfind (.refl c) (by simp) (by simp) (fun _ => rfl)
        (hcue c hfind) (((hm c).plays f).heard (f.cltId_of_find hfind) (by rw [hfind]; rfl))
    · exact .same (fun _ => rfl) rfl

/-- **Every event is a turn.** -/
theorem step_turn (env : Env) (f : Fcgi) (e : Event) : Turn env f e (step env f e) := by
  unfold step
  split
  · exact .same (fun _ => rfl) rfl
  · rename_i hopen
    have hopen : f.closed = false := by simpa using hopen
    cases e with
    | arrive bytes =>
      rw [handle, Fcgi.arrive, if_neg (by simp [hopen])]
      exact .same (fun _ => rfl) rfl
    | read stale => exact readStep_turn stale hopen
    | resolved i res net =>
      exact callback_turn i _ (fun _ => proxyResolved_follows res net) fun _ _ => .resolved
    | connect i net =>
      exact callback_turn i _ (fun _ => proxyConnect_follows net) fun _ _ => .connect
    | upstream i oob bytes =>
      exact callback_turn i _ (fun _ => upstreamRead_follows oob bytes) fun _ h => .upstream rfl h
    | upstreamError i err =>
      exact callback_turn i _ (fun _ => proxyError_follows err) fun _ _ => .error
    | drained n =>
      simp only [handle, fcgiWrite]
      split
      · exact @Turn.gone env f _ _ [] rfl (by simp [fcgiError]) (by simp)
      · exact .same (fun _ => rfl) rfl
    | error => exact @Turn.gone env f _ _ [] rfl (by simp [handle, fcgiError]) (by simp)

end Turns

end Galileo
