import Galileo.Model.System
import Galileo.Proof.Answer
import Galileo.Proof.Clients

/-!
# The answer to a request

What the web server gets for one request is a projection of the log of the connection: the contents
of its `FCGI_STDOUT` records and of its `FCGI_END_REQUEST`, since it was accepted (`answer`).
Scripts say what is handed over; here they meet the log. `Heard` is what a call that has played a
script leaves of the connection, and `run_played` is the **run lemma** for everything the Gemini
server can send to one request: bytes, in any number of pieces, and the end of file.
-/

set_option autoImplicit false

namespace Galileo

open Lib Lib.FastCgi

/-! ## Answers -/

@[ext] structure Answer where
  text : Bytes
  ends : List Bytes
deriving DecidableEq

/-- What a request has been told when nothing was said. -/
def Answer.none : Answer := ⟨[], []⟩

def Answer.step (i : UInt16) (a : Answer) : Obs → Answer
  | .accepted j _ => if j = i then .none else a
  | .queued type j d =>
      if j = i then
        if type = stdout then { a with text := a.text ++ d }
        else if type = endRequestType then { a with ends := a.ends ++ [d] }
        else a
      else a
  | _ => a

/-- What was said under the id `i` since a request was last accepted under it. -/
def answer (i : UInt16) (log : List Obs) : Answer := log.foldl (Answer.step i) .none

theorem answer_append (i : UInt16) (log new : List Obs) :
    answer i (log ++ new) = new.foldl (Answer.step i) (answer i log) := List.foldl_append

theorem answer_stdoutOf (i : UInt16) (log : List Obs) (ds : List Bytes) :
    answer i (log ++ stdoutOf i.toUInt32 ds)
      = { answer i log with text := (answer i log).text ++ ds.flatten } := by
  rw [answer_append]
  generalize answer i log = a
  induction ds generalizing a with
  | nil => simp [stdoutOf]
  | cons d ds ih =>
    have hd : a.step i (.queued stdout i.toUInt32.toUInt16 d) = { a with text := a.text ++ d } := by
      simp [Answer.step]
    rw [stdoutOf, List.map_cons, List.foldl_cons, hd]
    exact (ih _).trans (by simp)

theorem answer_finish (i : UInt16) (log : List Obs) (body : Bytes) (serial : Nat) :
    answer i (log ++ [.queued endRequestType i body, .freed i serial])
      = { answer i log with ends := (answer i log).ends ++ [body] } := by
  rw [answer_append]
  simp [Answer.step, endRequestType, stdout]

/-- What is said under another id is not part of the answer. -/
theorem answer_of_ne {i j : UInt16} (h : j ≠ i) (log : List Obs) {new : List Obs}
    (hnew : ∀ o ∈ new, (∃ type d, o = .queued type j d) ∨ ∃ s, o = .freed j s) :
    answer i (log ++ new) = answer i log := by
  rw [answer_append]
  induction new with
  | nil => rfl
  | cons o new ih =>
    have ho : (answer i log).step i o = answer i log := by
      rcases hnew o (by simp) with ⟨type, d, rfl⟩ | ⟨s, rfl⟩
      · simp [Answer.step, h]
      · rfl
    rw [List.foldl_cons, ho]
    exact ih fun o ho => hnew o (by simp [ho])

/-! ## Scripts on the connection -/

/-- What is left of the connection when a call for the client `c` under `i` has played `s`. -/
inductive Heard (f : Fcgi) (i : UInt16) (c : Client) (s : Script) (g : Fcgi) : Prop
  | goes {c' : Client} {ds : List Bytes} {tp : Template} (hnext : s.next = .goes c')
      (hserial : c'.serial = c.serial)
      (htext : (ds.flatten, tp.tpBuf) = putAll c.cltTp.tpCap c.cltTp.tpBuf s.ops)
      (hcap : tp.tpCap = c.cltTp.tpCap)
      (hfind : g.find i.toUInt32 = some { c' with cltTp := tp })
      (hothers : ∀ j, j ≠ i → g.find j.toUInt32 = f.find j.toUInt32)
      (htrace : g.trace = f.trace ++ stdoutOf i.toUInt32 ds) (hclosed : g.closed = f.closed)
      (hws : g.writes <:+ f.writes)
  | ends {status proto : UInt8} {ds : List Bytes} (hnext : s.next = .ends status proto)
      (htext : ds.flatten = s.words c.cltTp.tpCap c.cltTp.tpBuf)
      (hfind : g.find i.toUInt32 = none)
      (hothers : ∀ j, j ≠ i → g.find j.toUInt32 = f.find j.toUInt32)
      (htrace : g.trace = f.trace ++ stdoutOf i.toUInt32 ds
        ++ [.queued endRequestType i (endReqBody status proto), .freed i c.serial])
      (hclosed : g.closed = f.closed)
  | crashed {ds : List Bytes} (hnext : s.next = .crashed)
      (htext : ds.flatten = s.words c.cltTp.tpCap c.cltTp.tpBuf)
      (htrace : g.trace = f.trace ++ stdoutOf i.toUInt32 ds) (hclosed : g.closed = true)
      (hnone : g.fcgClients = [])
  | torn {ds : List Bytes} (hfail : false ∈ f.writes)
      (htext : ds.flatten <+: s.words c.cltTp.tpCap c.cltTp.tpBuf)
      (htrace : g.trace = f.trace ++ stdoutOf i.toUInt32 ds) (hclosed : g.closed = true)
      (hnone : g.fcgClients = [])

section Hearing

variable {f : Fcgi} {i : UInt16} {c : Client} {s : Script}

theorem Plays.heard {r : Option Unit × Ctx} (hid : c.cltId = i.toUInt32)
    (hfind : (f.find i.toUInt32).isSome = true) (h : Plays s ⟨f, c⟩ r) :
    Heard f i c s (r.2.fcgi.store r.2.clt) := by
  have hne {j : UInt16} (hj : j ≠ i) : ¬ i.toUInt32 = j.toUInt32 :=
    fun h => hj (toUInt32_inj.mp h).symm
  cases h with
  | @goes c' ds ws as tp hnext hid' hserial hds hws htext hcap =>
    dsimp only at hid' hserial htext hcap hws ⊢
    have hc' : ({ c' with cltTp := tp } : Client).cltId = i.toUInt32 := hid'.trans hid
    have hsaid (j : UInt32) : (f.said c.cltId ds ws as).find j = f.find j := rfl
    refine .goes hnext hserial htext hcap ?_ (fun j hj => ?_) ?_ rfl hws
    · obtain ⟨d, hd⟩ := Option.isSome_iff_exists.mp hfind
      rw [Fcgi.find_store, if_pos hc', hsaid, hd]
      rfl
    · rw [Fcgi.find_store, hc', if_neg (hne hj), hsaid]
    · rw [← hid]
      rfl
  | @ends status proto ds ws as d hnext hds hws htext hid' =>
    dsimp only at hid' htext ⊢
    have hgone : ((f.said c.cltId ds ws as).finish c (endReqBody status proto)).find d.cltId
        = none := by
      rw [Fcgi.find_finish, if_pos hid']
    rw [Fcgi.store_of_find_none hgone]
    refine .ends hnext htext ?_ (fun j hj => ?_) ?_ rfl
    · rw [Fcgi.find_finish, if_pos hid.symm]
    · rw [Fcgi.find_finish, hid, if_neg fun h => hne hj h.symm]
      rfl
    · simp only [Fcgi.finish, Fcgi.said, hid, toUInt16_toUInt32]
  | crashed hnext hds hws htext =>
    refine .crashed hnext htext ?_ rfl rfl
    rw [← hid]
    rfl
  | torn hfail hds hws htext hout =>
    refine .torn hfail htext ?_ rfl rfl
    rw [← hid]
    rfl

/-- A callback for a client that waits for it. -/
theorem heard_callback {m : CltM Unit} {waiting : Client → Bool} {d : Client} {tp : Template}
    (hfind : f.find i.toUInt32 = some { d with cltTp := tp })
    (hwaiting : waiting { d with cltTp := tp } = true) (h : Follows m d s) :
    Heard f i { d with cltTp := tp } s (callback i waiting m f) := by
  rw [callback, hfind]
  dsimp only
  rw [if_pos hwaiting, withClient_run hfind]
  exact (h ⟨f, { d with cltTp := tp }⟩ rfl).heard (f.cltId_of_find hfind) (by rw [hfind]; rfl)

end Hearing

/-! ## All the Gemini server sends -/

/-- First `s`, then what `k` says for the client `s` leaves, if it leaves one. -/
def Script.andThen (s : Script) (k : Client → Script) : Script :=
  match s.next with
  | .goes c => (k c).after s.ops
  | _ => s

/-- Bytes that arrive from the Gemini server, and the memory behind the lines cut out of them. -/
abbrev Arrival := (Bytes → Bytes) × Bytes

/-- The script of the arrivals. -/
def playedOn : List Arrival → Client → Script
  | [], c => idle c
  | a :: as, c => (upstreamScript a.1 a.2 c).andThen (playedOn as)

/-- The script of the arrivals and of the end of file behind them. -/
def played (as : List Arrival) (c : Client) : Script :=
  (playedOn as c).andThen (errorScript evbufferEof)

/-- The bytes of the arrivals. -/
def arrived (as : List Arrival) : Bytes := as.flatMap (·.2)

def upstreamEvents (i : UInt16) (as : List Arrival) : List Event :=
  as.map fun a => .upstream i a.1 a.2

/-- What a script adds to the answer. -/
def Script.ends (s : Script) : List Bytes :=
  match s.next with
  | .ends status proto => [endReqBody status proto]
  | _ => []

/-- Whoever is left after the script is still connected. -/
def Next.Connected : Next → Prop
  | .goes c => c.connected = true
  | _ => True

section Played

variable {c : Client}

/-- **Bytes of the Gemini server do not disconnect it.** -/
theorem upstreamScript_connected (oob : Bytes → Bytes) (bytes : Bytes)
    (hc : c.connected = true) : (upstreamScript oob bytes c).next.Connected := by
  have h := upstreamScript_reads (c := c) oob bytes
  generalize (upstreamScript oob bytes c).next = n at h
  cases n with
  | goes d =>
    obtain ⟨bev, tr, done, rfl, hbev⟩ := h
    simp only [Client.connected, Bool.and_eq_true] at hc
    simpa [Next.Connected, Client.connected, Client.started, hbev hc.2] using hc.1
  | ends status proto => trivial
  | crashed => trivial

theorem playedOn_connected (as : List Arrival) (hc : c.connected = true) :
    (playedOn as c).next.Connected := by
  induction as generalizing c with
  | nil => exact hc
  | cons a as ih =>
    have hfirst := upstreamScript_connected a.1 a.2 hc
    rw [playedOn, Script.andThen]
    cases hnext : (upstreamScript a.1 a.2 c).next with
    | goes c' =>
      rw [hnext] at hfirst
      exact ih hfirst
    | ends status proto =>
      dsimp only
      rw [hnext]
      trivial
    | crashed =>
      dsimp only
      rw [hnext]
      trivial

end Played

/-! ## Runs -/

section Runs

variable {env : Env} {f g h : Fcgi} {i : UInt16} {c : Client} {s : Script} {k : Client → Script}

theorem Script.words_andThen {c' : Client} (hnext : s.next = .goes c') (cap : Nat)
    (pending : Bytes) :
    (s.andThen k).words cap pending
      = (putAll cap pending s.ops).1 ++ (k c').words cap (putAll cap pending s.ops).2 := by
  rw [andThen, hnext]
  exact words_after _ _ _ _

theorem Script.andThen_goes {c' : Client} (hnext : s.next = .goes c') :
    s.andThen k = (k c').after s.ops := by
  rw [andThen, hnext]

theorem Script.andThen_ends {status proto : UInt8} (hnext : s.next = .ends status proto) :
    s.andThen k = s := by
  rw [andThen, hnext]

theorem Script.andThen_crashed (hnext : s.next = .crashed) : s.andThen k = s := by
  rw [andThen, hnext]

/-- **Scripts one after another.** A connection that is gone, or has no such request any more,
hears nothing. -/
theorem Heard.andThen (hs : Heard f i c s g)
    (hgone : g.closed = true ∨ g.find i.toUInt32 = none → h = g)
    (hk : ∀ c' tp, s.next = .goes c' → g.find i.toUInt32 = some { c' with cltTp := tp } →
      g.closed = f.closed → Heard g i { c' with cltTp := tp } (k c') h) :
    Heard f i c (s.andThen k) h := by
  cases hs with
  | @goes c' ds tp hnext hserial htext hcap hfind hothers htrace hclosed hws =>
    obtain ⟨hflat, hbuf⟩ := Prod.mk.inj htext
    have hwords : (s.andThen k).words c.cltTp.tpCap c.cltTp.tpBuf
        = ds.flatten ++ (k c').words tp.tpCap tp.tpBuf := by
      rw [Script.words_andThen hnext, ← hflat, ← hbuf, hcap]
    have happ (ds' : List Bytes) : g.trace ++ stdoutOf i.toUInt32 ds'
        = f.trace ++ stdoutOf i.toUInt32 (ds ++ ds') := by
      rw [htrace, List.append_assoc, stdoutOf, stdoutOf, stdoutOf, List.map_append]
    cases hk c' tp hnext hfind hclosed with
    | @goes c'' ds' tp' hnext' hserial' htext' hcap' hfind' hothers' htrace' hclosed' hws' =>
      dsimp only at hserial' htext' hcap'
      obtain ⟨hflat', hbuf'⟩ := Prod.mk.inj htext'
      refine @Heard.goes f i c _ h c'' (ds ++ ds') tp' ?_ (hserial'.trans hserial) ?_
        (hcap'.trans hcap) hfind'
        (fun j hj => (hothers' j hj).trans (hothers j hj)) (htrace'.trans (happ ds'))
        (hclosed'.trans hclosed) (hws'.trans hws)
      · rw [Script.andThen_goes hnext]
        exact hnext'
      · rw [Script.andThen_goes hnext, Script.after, putAll_append, ← hflat, ← hbuf, ← hcap,
          ← hflat', ← hbuf', List.flatten_append]
    | @ends status proto ds' hnext' htext' hfind' hothers' htrace' hclosed' =>
      dsimp only at htext' htrace'
      rw [happ] at htrace'
      refine @Heard.ends f i c _ h status proto (ds ++ ds') ?_ ?_ hfind'
        (fun j hj => (hothers' j hj).trans (hothers j hj)) ?_ (hclosed'.trans hclosed)
      · rw [Script.andThen_goes hnext]
        exact hnext'
      · rw [hwords, List.flatten_append, htext']
      · rw [htrace', hserial]
    | @crashed ds' hnext' htext' htrace' hclosed' hnone =>
      dsimp only at htext'
      refine @Heard.crashed f i c _ h (ds ++ ds') ?_ ?_ (htrace'.trans (happ ds')) hclosed'
        hnone
      · rw [Script.andThen_goes hnext]
        exact hnext'
      · rw [hwords, List.flatten_append, htext']
    | @torn ds' hfail htext' htrace' hclosed' hnone =>
      dsimp only at htext'
      refine @Heard.torn f i c _ h (ds ++ ds') (hws.subset hfail) ?_ (htrace'.trans (happ ds'))
        hclosed' hnone
      rw [hwords, List.flatten_append]
      exact (List.prefix_append_right_inj _).mpr htext'
  | @ends status proto ds hnext htext hfind hothers htrace hclosed =>
    rw [hgone (.inr hfind), Script.andThen_ends hnext]
    exact .ends hnext htext hfind hothers htrace hclosed
  | crashed hnext htext htrace hclosed hnone =>
    rw [hgone (.inl hclosed), Script.andThen_crashed hnext]
    exact .crashed hnext htext htrace hclosed hnone
  | @torn ds hfail htext htrace hclosed hnone =>
    rw [hgone (.inl hclosed)]
    refine .torn hfail (htext.trans ?_) htrace hclosed hnone
    cases hnext : s.next with
    | goes c' =>
      rw [Script.words_andThen hnext, Script.words, hnext]
      exact List.prefix_append _ _
    | ends status proto =>
      simp [Script.andThen_ends hnext]
    | crashed =>
      simp [Script.andThen_crashed hnext]

/-- An event for one request does nothing to a connection that is gone or has no such request. -/
theorem step_of_gone (env : Env) {e : Event}
    (he : (∃ oob bytes, e = .upstream i oob bytes) ∨ ∃ err, e = .upstreamError i err)
    (hgone : f.closed = true ∨ f.find i.toUInt32 = none) : step env f e = f := by
  rw [step]
  split
  · rfl
  · rename_i hopen
    have hfind := hgone.resolve_left hopen
    rcases he with ⟨oob, bytes, rfl⟩ | ⟨err, rfl⟩ <;> simp [handle, callback, hfind]

theorem run_of_gone (env : Env) (as : List Arrival)
    (hgone : f.closed = true ∨ f.find i.toUInt32 = none) :
    run env f (upstreamEvents i as) = f := by
  induction as with
  | nil => rfl
  | cons a as ih =>
    rw [run, upstreamEvents, List.map_cons, Run.run_cons,
      step_of_gone env (.inl ⟨a.1, a.2, rfl⟩) hgone]
    exact ih

/-- **What the Gemini server sends, heard at the web server's end.** -/
theorem heard_arrivals (env : Env) (as : List Arrival) {tp : Template} (hopen : f.closed = false)
    (hfind : f.find i.toUInt32 = some { c with cltTp := tp }) (hc : c.connected = true) :
    Heard f i { c with cltTp := tp } (playedOn as c) (run env f (upstreamEvents i as)) := by
  induction as generalizing f c tp with
  | nil =>
    exact @Heard.goes f i { c with cltTp := tp } _ f c [] tp rfl rfl rfl rfl hfind
      (fun _ _ => rfl) (by simp [stdoutOf]) rfl (List.suffix_refl _)
  | cons a as ih =>
    have hfirst : Heard f i { c with cltTp := tp } (upstreamScript a.1 a.2 c)
        (step env f (.upstream i a.1 a.2)) := by
      rw [step, hopen]
      exact heard_callback hfind hc (upstreamRead_follows a.1 a.2)
    refine hfirst.andThen (run_of_gone env as) fun c' tp' hnext hfind' hclosed => ?_
    have hconn := upstreamScript_connected a.1 a.2 hc
    rw [hnext] at hconn
    exact ih (hclosed.trans hopen) hfind' hconn

/-- The end of file behind them. -/
theorem heard_played (env : Env) (as : List Arrival) {tp : Template} (hopen : f.closed = false)
    (hfind : f.find i.toUInt32 = some { c with cltTp := tp }) (hc : c.connected = true) :
    Heard f i { c with cltTp := tp } (played as c)
      (run env f (upstreamEvents i as ++ [.upstreamError i evbufferEof])) := by
  have hrun : run env f (upstreamEvents i as ++ [.upstreamError i evbufferEof])
      = step env (run env f (upstreamEvents i as)) (.upstreamError i evbufferEof) :=
    Run.run_append _ _ _ _
  rw [hrun]
  refine (heard_arrivals env as hopen hfind hc).andThen
    (step_of_gone env (.inr ⟨evbufferEof, rfl⟩)) fun c' tp' hnext hfind' hclosed => ?_
  have hconn := playedOn_connected as hc
  rw [hnext] at hconn
  rw [step, hclosed.trans hopen]
  exact heard_callback hfind' hconn (proxyError_follows evbufferEof)

/-- **The answer is the script's**, when no write fails. -/
theorem Heard.answer_eq (hs : Heard f i c s g) (hwrites : false ∉ f.writes) :
    answer i g.trace = ⟨(answer i f.trace).text ++ s.words c.cltTp.tpCap c.cltTp.tpBuf,
      (answer i f.trace).ends ++ s.ends⟩ := by
  cases hs with
  | goes hnext hserial htext hcap hfind hothers htrace =>
    rw [htrace, answer_stdoutOf, Script.words, Script.ends, hnext, ← htext]
    simp
  | ends hnext htext hfind hothers htrace =>
    rw [htrace, answer_finish, answer_stdoutOf, Script.ends, hnext, ← htext]
  | crashed hnext htext htrace =>
    rw [htrace, answer_stdoutOf, Script.ends, hnext, ← htext]
    simp
  | torn hfail => exact absurd hfail hwrites

end Runs

end Galileo
