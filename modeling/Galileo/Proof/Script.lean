import Galileo.Proof.Client

/-!
# What a call says

The outcomes of `Galileo.Proof.Client` leave out the words. Here they are put back in: a call for a
request follows a **script** — operations on the output, in order, and how the request goes on — and
the script is all that a call does. Scripts are composed as the code is, so each callback gets one
by reading it once; whatever is to be said about answers is then said about scripts.

Writes may fail. Then the connection is gone, and what had been handed over by then is *a prefix of
the script's words* (`Plays.torn`), never something else.
-/

set_option autoImplicit false

namespace Galileo

open Lib Lib.FastCgi

/-! ## Scripts -/

/-- An operation on the output of a request. -/
inductive Put where
  | write (ps : List Piece)
  | flush
  | direct (data : Bytes)

/-- What an operation hands over and what is pending behind it, with `pending` before it in a
template of `cap` bytes. -/
def Put.effect (cap : Nat) (pending : Bytes) : Put → Bytes × Bytes
  | .write ps => spill cap pending (pageText ps)
  | .flush => (pending, [])
  | .direct data => (data, pending)

def putAll (cap : Nat) : Bytes → List Put → Bytes × Bytes
  | pending, [] => ([], pending)
  | pending, o :: os =>
      ((o.effect cap pending).1 ++ (putAll cap (o.effect cap pending).2 os).1,
        (putAll cap (o.effect cap pending).2 os).2)

theorem putAll_append (cap : Nat) (pending : Bytes) (os os' : List Put) :
    putAll cap pending (os ++ os')
      = ((putAll cap pending os).1 ++ (putAll cap (putAll cap pending os).2 os').1,
          (putAll cap (putAll cap pending os).2 os').2) := by
  induction os generalizing pending with
  | nil => simp [putAll]
  | cons o os ih => simp [putAll, ih]

/-- How the request goes on: with these fields (the template apart), to its end, or the process
followed a null pointer. -/
inductive Next where
  | goes (c : Client)
  | ends (status protoStatus : UInt8)
  | crashed

structure Script where
  ops : List Put
  next : Next

/-- The words of a script: what is handed over when it is played to its end. -/
def Script.words (s : Script) (cap : Nat) (pending : Bytes) : Bytes :=
  match s.next with
  | .ends _ _ => (putAll cap pending s.ops).1 ++ (putAll cap pending s.ops).2
  | _ => (putAll cap pending s.ops).1

/-- Of the client only the id and the serial show in its end. -/
theorem Fcgi.finish_congr (f : Fcgi) {c d : Client} (hid : c.cltId = d.cltId)
    (hserial : c.serial = d.serial) (body : Bytes) : f.finish c body = f.finish d body := by
  simp only [Fcgi.finish, hid, hserial]

/-- First `ops`, then `s`. -/
def Script.after (ops : List Put) (s : Script) : Script := ⟨ops ++ s.ops, s.next⟩

theorem Script.words_after (ops : List Put) (s : Script) (cap : Nat) (pending : Bytes) :
    (s.after ops).words cap pending
      = (putAll cap pending ops).1 ++ s.words cap (putAll cap pending ops).2 := by
  obtain ⟨os, next⟩ := s
  cases next <;> simp [Script.words, Script.after, putAll_append]

/-- The call that was made on `x` and came back with the given result has played `s`. -/
inductive Plays (s : Script) (x : Ctx) : Option Unit × Ctx → Prop
  | goes {c : Client} {ds : List Bytes} {ws : List Bool} {as : List AsrAnswer} {tp : Template}
      (hnext : s.next = .goes c) (hid : c.cltId = x.clt.cltId) (hserial : c.serial = x.clt.serial)
      (hds : ∀ d ∈ ds, Block d) (hws : ws <:+ x.fcgi.writes)
      (htext : (ds.flatten, tp.tpBuf) = putAll x.clt.cltTp.tpCap x.clt.cltTp.tpBuf s.ops)
      (hcap : tp.tpCap = x.clt.cltTp.tpCap) :
      Plays s x (some (), ⟨x.fcgi.said x.clt.cltId ds ws as, { c with cltTp := tp }⟩)
  | ends {status proto : UInt8} {ds : List Bytes} {ws : List Bool} {as : List AsrAnswer}
      {d : Client} (hnext : s.next = .ends status proto) (hds : ∀ d ∈ ds, Block d)
      (hws : ws <:+ x.fcgi.writes)
      (htext : ds.flatten = s.words x.clt.cltTp.tpCap x.clt.cltTp.tpBuf)
      (hid : d.cltId = x.clt.cltId) :
      Plays s x (some (),
        ⟨(x.fcgi.said x.clt.cltId ds ws as).finish x.clt (endReqBody status proto), d⟩)
  | crashed {ds : List Bytes} {ws : List Bool} {as : List AsrAnswer} {d : Client}
      (hnext : s.next = .crashed) (hds : ∀ d ∈ ds, Block d) (hws : ws <:+ x.fcgi.writes)
      (htext : ds.flatten = s.words x.clt.cltTp.tpCap x.clt.cltTp.tpBuf) :
      Plays s x (none, ⟨fcgiError (x.fcgi.said x.clt.cltId ds ws as), d⟩)
  | torn {ds : List Bytes} {ws : List Bool} {as : List AsrAnswer} {out : Bytes} {d : Client}
      (hfail : false ∈ x.fcgi.writes) (hds : ∀ d ∈ ds, Block d) (hws : ws <:+ x.fcgi.writes)
      (htext : ds.flatten <+: s.words x.clt.cltTp.tpCap x.clt.cltTp.tpBuf)
      (hout : (x.fcgi.said x.clt.cltId ds ws as).output <+: out) :
      Plays s x (none, ⟨{ fcgiError (x.fcgi.said x.clt.cltId ds ws as) with output := out }, d⟩)

/-- `m` plays `s` for every client that has the fields of `c`, whatever is pending. -/
def Follows (m : CltM Unit) (c : Client) (s : Script) : Prop :=
  ∀ x : Ctx, x.clt = { c with cltTp := x.clt.cltTp } → Plays s x (m x)

section Rules

variable {m : CltM Unit} {k : Unit → CltM Unit} {g : Ctx → CltM Unit} {c c' : Client}
  {ops : List Put} {s : Script}

/-- **One part after another.** -/
theorem Plays.bind {x : Ctx} (h : Plays ⟨ops, .goes c'⟩ x (m x)) (hk : Follows (k ()) c' s) :
    Plays (s.after ops) x ((m >>= k) x) := by
  generalize hr : m x = r at h
  cases h with
  | @goes c ds ws as tp hnext hid hserial hds hws htext hcap =>
    cases hnext
    obtain ⟨hflat, hbuf⟩ := Prod.mk.inj htext
    have hrest := hk ⟨x.fcgi.said x.clt.cltId ds ws as, { c' with cltTp := tp }⟩ rfl
    rw [Prog.bind_some hr]
    generalize k () ⟨x.fcgi.said x.clt.cltId ds ws as, { c' with cltTp := tp }⟩ = r' at hrest
    have hwords : (s.after ops).words x.clt.cltTp.tpCap x.clt.cltTp.tpBuf
        = ds.flatten ++ s.words tp.tpCap tp.tpBuf := by
      rw [Script.words_after, ← hflat, ← hbuf, hcap]
    cases hrest with
    | @goes c'' ds' ws' as' tp' hnext' hid' hserial' hds' hws' htext' hcap' =>
      dsimp only at hid' hserial' hws' htext' hcap' ⊢
      obtain ⟨hflat', hbuf'⟩ := Prod.mk.inj htext'
      rw [hid, x.fcgi.said_said]
      refine .goes hnext' (hid'.trans hid) (hserial'.trans hserial) (forall_block_append hds hds')
        (hws'.trans hws) ?_ (hcap'.trans hcap)
      rw [Script.after, putAll_append, ← hflat, ← hbuf, ← hcap, ← hflat', ← hbuf',
        List.flatten_append]
    | @ends status proto ds' ws' as' d hnext' hds' hws' htext' hid' =>
      dsimp only at hid' hws' htext' ⊢
      rw [Fcgi.finish_congr _ (c := { c' with cltTp := tp }) (d := x.clt) hid hserial, hid,
        x.fcgi.said_said]
      refine .ends hnext' (forall_block_append hds hds') (hws'.trans hws) ?_ (hid'.trans hid)
      rw [hwords, List.flatten_append, htext']
    | @crashed ds' ws' as' d hnext' hds' hws' htext' =>
      dsimp only at hws' htext' ⊢
      rw [hid, x.fcgi.said_said]
      refine .crashed hnext' (forall_block_append hds hds') (hws'.trans hws) ?_
      rw [hwords, List.flatten_append, htext']
    | @torn ds' ws' as' out d hfail hds' hws' htext' hout =>
      dsimp only at hfail hws' htext' hout ⊢
      rw [hid, x.fcgi.said_said] at hout ⊢
      refine .torn (hws.subset hfail) (forall_block_append hds hds') (hws'.trans hws) ?_ hout
      rw [hwords, List.flatten_append]
      exact (List.prefix_append_right_inj _).mpr htext'
  | ends hnext => cases hnext
  | crashed hnext => cases hnext
  | torn hfail hds hws htext hout =>
    rw [Prog.bind_none hr]
    refine .torn hfail hds hws (htext.trans ?_) hout
    rw [Script.words_after]
    exact List.prefix_append _ _

theorem Follows.bind (h : Follows m c ⟨ops, .goes c'⟩) (hk : Follows (k ()) c' s) :
    Follows (m >>= k) c (s.after ops) := fun x hx => (h x hx).bind hk

theorem Follows.get (h : ∀ x : Ctx, x.clt = { c with cltTp := x.clt.cltTp } → Follows (g x) c s) :
    Follows (Prog.get >>= g) c s := fun x hx => h x hx x hx

theorem Plays.idle {x : Ctx} (hx : x.clt = { c with cltTp := x.clt.cltTp })
    (hid : c'.cltId = c.cltId) (hserial : c'.serial = c.serial) :
    Plays ⟨[], .goes c'⟩ x (some (), ⟨x.fcgi, { c' with cltTp := x.clt.cltTp }⟩) := by
  have hids : c'.cltId = x.clt.cltId ∧ c'.serial = x.clt.serial := by
    rw [hx]
    exact ⟨hid, hserial⟩
  have h := @Plays.goes ⟨[], .goes c'⟩ x c' [] x.fcgi.writes x.fcgi.asr x.clt.cltTp rfl hids.1
    hids.2 (by simp) (List.suffix_refl _) rfl rfl
  rwa [x.fcgi.said_nil] at h

theorem Follows.pure : Follows (pure ()) c ⟨[], .goes c⟩ := fun x hx => by
  have h := Plays.idle hx rfl rfl
  rwa [← hx] at h

/-- Fields are set. -/
theorem Follows.setClt {u : Client → Client} (hid : (u c).cltId = c.cltId)
    (hserial : (u c).serial = c.serial)
    (htp : ∀ tp, u { c with cltTp := tp } = { u c with cltTp := tp }) :
    Follows (Galileo.setClt u) c ⟨[], .goes (u c)⟩ := fun x hx => by
  have h := Plays.idle hx hid hserial
  rw [← htp, ← hx] at h
  exact h

/-- Fields are set, and then. -/
theorem Follows.set {u : Client → Client} (hid : (u c).cltId = c.cltId)
    (hserial : (u c).serial = c.serial)
    (htp : ∀ tp, u { c with cltTp := tp } = { u c with cltTp := tp })
    (hk : Follows (k ()) (u c) s) : Follows (Galileo.setClt u >>= k) c s :=
  (Follows.setClt hid hserial htp).bind hk

/-- An operation on the template and the connection. -/
theorem plays_put {x : Ctx} (hx : x.clt = { c with cltTp := x.clt.cltTp }) (o : Put)
    {r : Option Unit × Template × Fcgi}
    (hhanded : Handed x.fcgi x.clt.cltId (o.effect x.clt.cltTp.tpCap x.clt.cltTp.tpBuf).1
      (r.1, r.2.2))
    (hdone : r.1 = some () → r.2.1.tpBuf = (o.effect x.clt.cltTp.tpCap x.clt.cltTp.tpBuf).2 ∧
      r.2.1.tpCap = x.clt.cltTp.tpCap) :
    Plays ⟨[o], .goes c⟩ x (r.1, ⟨r.2.2, { x.clt with cltTp := r.2.1 }⟩) := by
  have hwords : (putAll x.clt.cltTp.tpCap x.clt.cltTp.tpBuf [o])
      = o.effect x.clt.cltTp.tpCap x.clt.cltTp.tpBuf := by simp [putAll]
  have hids : c.cltId = x.clt.cltId ∧ c.serial = x.clt.serial := by
    rw [hx]
    exact ⟨rfl, rfl⟩
  obtain ⟨res, tp, f⟩ := r
  dsimp only at hhanded hdone ⊢
  cases hhanded with
  | @all ds ws hds htext hws =>
    obtain ⟨hbuf, hcap⟩ := hdone rfl
    rw [show ({ x.clt with cltTp := tp } : Client) = { c with cltTp := tp } by rw [hx]]
    refine .goes rfl hids.1 hids.2 hds hws ?_ hcap
    rw [hwords, htext, hbuf]
  | torn hfail hds htext hws hout =>
    refine .torn hfail hds hws ?_ hout
    rw [Script.words, hwords]
    exact htext

theorem follows_emit (ps : List Piece) : Follows (emit ps) c ⟨[.write ps], .goes c⟩ := by
  intro x hx
  obtain ⟨hhanded, hdone⟩ := tpWrite_hands (hands_handed x.clt.cltId)
    (fun d f => cltWrite_handed f x.clt.cltId d) (pageText ps) x.clt.cltTp x.fcgi
  rw [← render_eq_tpWrite] at hhanded hdone
  exact plays_put hx (.write ps) hhanded hdone

theorem follows_flush : Follows cltFlush c ⟨[.flush], .goes c⟩ := by
  intro x hx
  obtain ⟨hhanded, hdone⟩ := templateFlush_hands (hands_handed x.clt.cltId)
    (fun d f => cltWrite_handed f x.clt.cltId d) x.clt.cltTp x.fcgi
  exact plays_put hx .flush hhanded hdone

/-- The request is ended. -/
theorem follows_end (status proto : UInt8) :
    Follows (endRequest status proto) c ⟨[], .ends status proto⟩ := by
  intro x hx
  obtain ⟨hhanded, hdone⟩ := templateFlush_hands (hands_handed x.clt.cltId)
    (fun d f => cltWrite_handed f x.clt.cltId d) x.clt.cltTp x.fcgi
  have hwords : (Script.mk [] (.ends status proto)).words x.clt.cltTp.tpCap x.clt.cltTp.tpBuf
      = x.clt.cltTp.tpBuf := rfl
  have hflush : cltFlush x
      = ((templateFlush (cltWrite x.clt.cltId) (x.clt.cltTp, x.fcgi)).1,
        ⟨(templateFlush (cltWrite x.clt.cltId) (x.clt.cltTp, x.fcgi)).2.2,
          { x.clt with
            cltTp := (templateFlush (cltWrite x.clt.cltId) (x.clt.cltTp, x.fcgi)).2.1 }⟩) := rfl
  generalize templateFlush (cltWrite x.clt.cltId) (x.clt.cltTp, x.fcgi) = r at hhanded hdone hflush
  obtain ⟨res, tp, f⟩ := r
  dsimp only at hhanded hdone hflush
  cases hhanded with
  | @all ds ws hds htext hws =>
    rw [endRequest, Prog.bind_some hflush, Prog.get_bind]
    dsimp only
    rcases fcgiSendEndReq_cases x.clt.cltId.toNat status proto
      (x.fcgi.said x.clt.cltId ds ws x.fcgi.asr) with
      ⟨ws', hws', h⟩ | ⟨ws', out, hws', hfail, hout, h⟩
    · rw [h]
      have hend := @Plays.ends ⟨[], .ends status proto⟩ x status proto ds ws' x.fcgi.asr
        { x.clt with cltTp := tp } rfl hds (hws'.trans hws) (htext.trans hwords.symm) rfl
      cases hk : x.fcgi.fcgKeepConn <;>
        simpa [Fcgi.finish, Fcgi.remove, Fcgi.observe, Fcgi.said, hk] using hend
    · rw [h]
      have htorn := @Plays.torn ⟨[], .ends status proto⟩ x ds ws' x.fcgi.asr out
        { x.clt with cltTp := tp } (hws.subset hfail) hds (hws'.trans hws)
        (by simp [htext, hwords]) hout
      simpa [Fcgi.said, fcgiError] using htorn
  | torn hfail hds htext hws hout =>
    rw [endRequest, Prog.bind_none hflush]
    exact .torn hfail hds hws (by rwa [hwords]) hout

theorem follows_crash : Follows crash c ⟨[], .crashed⟩ := by
  intro x hx
  have h := @Plays.crashed ⟨[], .crashed⟩ x [] x.fcgi.writes x.fcgi.asr x.clt rfl (by simp)
    (List.suffix_refl _) rfl
  rwa [x.fcgi.said_nil] at h

/-- Text that is written past the template. -/
theorem follows_write {id : UInt32} (hid : c.cltId = id) (data : Bytes) :
    Follows (onFcgi (cltWrite id data)) c ⟨[.direct data], .goes c⟩ := by
  intro x hx
  obtain rfl : x.clt.cltId = id := by rw [hx]; exact hid
  exact plays_put hx (.direct data) (r := ((cltWrite x.clt.cltId data x.fcgi).1, (x.clt.cltTp,
    (cltWrite x.clt.cltId data x.fcgi).2))) (cltWrite_handed x.fcgi x.clt.cltId data)
    fun _ => ⟨rfl, rfl⟩

/-- What has arrived is passed on. -/
theorem follows_direct {bev : Bufferevent} (hbev : c.cltBev = some bev) :
    Follows cltWriteBufferevent c
      ⟨[.direct bev.input], .goes { c with cltBev := some { bev with input := [] } }⟩ := by
  refine .get fun x hx => ?_
  rw [show x.clt.cltBev = some bev by rw [hx]; exact hbev]
  exact (follows_write (by rw [hx]) bev.input).bind (s := ⟨[], _⟩)
    (Follows.setClt rfl rfl fun _ => rfl)

end Rules

end Galileo
