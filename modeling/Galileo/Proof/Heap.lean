import Galileo.Model.Heap
import Galileo.Proof.Codes
import Galileo.Proof.Present

/-!
# What is gone is not used

The functions of `Galileo.Model.Heap` against those of the model: from a state in which the
connection and the client are there, they do the same and use nothing that is gone (`Agrees`). A
function that returns with everything still there (`Tracks`) may be followed by others; one that may
have ended the request is only ever the last.

There is one exception. `clt_write_bufferevent` drains the buffer it has written from, whether or
not the write has failed, and a failed write has freed that buffer. So it agrees only when no write
fails.
-/

set_option autoImplicit false

namespace Galileo

open Lib Lib.FastCgi Lib.Run Lib.Watched

variable {α : Type} {g : Fcgi → Fcgi} {w : HeapM Unit} {f : Fcgi} {β : Type}

/-- The connection and the client are there. -/
def Alive (x : Ctx) : Prop := x.fcgi.closed = false ∧ (x.fcgi.find x.clt.cltId).isSome = true

variable {x y : Ctx}

section Alive

variable {m : CltM Unit}

theorem Alive.conn (h : Alive x) : Heap.connAlive x = true := by
  rw [Heap.connAlive, h.1]
  rfl

theorem Alive.clt (h : Alive x) : Heap.cltAlive x = true := by
  rw [Heap.cltAlive, h.conn, h.2]
  rfl

theorem Stays.alive (hx : Alive x) (h : Stays x y) : Alive y := by
  obtain ⟨⟨ds, ws, as, -, hy⟩, hsame⟩ := h
  rw [Alive, hy, hsame.id]
  exact hx

/-- A function that only writes leaves everything in place. -/
theorem Writes.tracks (hm : Writes m) (h : Agrees Alive w m) : Tracks Alive w m := by
  refine ⟨h, fun x u hx hu => ?_⟩
  have hrun := hm x x (.refl x)
  rcases hr : m x with ⟨_ | v, y⟩ <;> rw [hr] at hrun hu
  · cases hu
  · exact hrun.alive hx

theorem useClt_agrees (m : CltM α) : Agrees Alive (Heap.useClt m) m :=
  .use (fun _ hx => hx.clt) m

theorem useConn_agrees (m : Prog Fcgi α) : Agrees Alive (Heap.useConn m) (onFcgi m) :=
  .use (fun _ hx => hx.conn) _

/-- A field of the client is set, which is not its id. -/
theorem set_tracks {u : Client → Client} (h : ∀ c : Client, (u c).cltId = c.cltId) :
    Tracks Alive (Heap.useClt (setClt u)) (setClt u) := by
  refine ⟨useClt_agrees _, fun x v hx _ => ⟨hx.1, ?_⟩⟩
  show (x.fcgi.find (u x.clt).cltId).isSome = true
  rw [h]
  exact hx.2

theorem get_agrees {wg : Ctx → HeapM β} {g : Ctx → CltM β} (h : ∀ x, Agrees Alive (wg x) (g x)) :
    Agrees Alive (Heap.useClt Prog.get >>= wg) (Prog.get >>= g) :=
  .get (fun _ hx => hx.clt) h

theorem get_tracks {wg : Ctx → HeapM β} {g : Ctx → CltM β} (h : ∀ x, Tracks Alive (wg x) (g x)) :
    Tracks Alive (Heap.useClt Prog.get >>= wg) (Prog.get >>= g) :=
  Tracks.bind ⟨useClt_agrees Prog.get, fun _ _ hx _ => hx⟩ h

end Alive

/-! ## The output path -/

/-- Code on the connection that takes the id of the client. -/
def forClt {α : Type} (m : UInt32 → Prog Fcgi α) : CltM α :=
  Prog.get >>= fun x => onFcgi (m x.clt.cltId)

/-- Code on the template and the connection. -/
def forTp {α : Type} (m : UInt32 → TpM Fcgi α) : CltM α :=
  Prog.get >>= fun x => onTp (m x.clt.cltId)

theorem forClt_run (m : UInt32 → Prog Fcgi α) (x : Ctx) :
    forClt m x = ((m x.clt.cltId x.fcgi).1, ⟨(m x.clt.cltId x.fcgi).2, x.clt⟩) := rfl

theorem forTp_run (m : UInt32 → TpM Fcgi α) (x : Ctx) :
    forTp m x = ((m x.clt.cltId (x.clt.cltTp, x.fcgi)).1,
      ⟨(m x.clt.cltId (x.clt.cltTp, x.fcgi)).2.2,
        { x.clt with cltTp := (m x.clt.cltId (x.clt.cltTp, x.fcgi)).2.1 }⟩) := rfl

theorem forClt_bind {α β : Type} (m : UInt32 → Prog Fcgi α) (k : UInt32 → α → Prog Fcgi β) :
    forClt (fun id => m id >>= k id) = forClt m >>= fun a => forClt fun id => k id a := by
  funext x
  rw [forClt_run, Prog.bind_run, Prog.bind_run, forClt_run]
  rcases m x.clt.cltId x.fcgi with ⟨_ | a, f⟩ <;> rfl

theorem forTp_bind {α β : Type} (m : UInt32 → TpM Fcgi α) (k : UInt32 → α → TpM Fcgi β) :
    forTp (fun id => m id >>= k id) = forTp m >>= fun a => forTp fun id => k id a := by
  funext x
  rw [forTp_run, Prog.bind_run, Prog.bind_run, forTp_run]
  rcases m x.clt.cltId (x.clt.cltTp, x.fcgi) with ⟨_ | a, t⟩ <;> rfl

theorem forTp_get (k : UInt32 → Template × Fcgi → TpM Fcgi β) :
    forTp (fun id => Prog.get >>= k id)
      = Prog.get >>= fun x => forTp fun id => k id (x.clt.cltTp, x.fcgi) := rfl

theorem dowrite_eq (id : UInt32) (data : Bytes) :
    dowrite id data = orFail
        (do buffereventWrite [1, stdout, byte1 id.toNat, byte0 id.toNat, byte1 data.length,
              byte0 data.length, 0, 0]
            buffereventWrite data)
        (Prog.modify fcgiError)
      >>= fun _ => Prog.modify fun f => f.observe (.queued stdout id.toUInt16 data) := by
  funext f
  rw [Prog.bind_run, orFail, dowrite]
  rcases (do buffereventWrite _; buffereventWrite data : Prog Fcgi Unit) f with ⟨_ | u, g⟩ <;> rfl

theorem onFcgi_bind {α β : Type} (m : Prog Fcgi α) (k : α → Prog Fcgi β) :
    onFcgi (m >>= k) = onFcgi m >>= fun a => onFcgi (k a) := by
  funext x
  simp only [onFcgi, Prog.zoom, Prog.bind_run]
  rcases m x.fcgi with ⟨_ | a, f⟩ <;> rfl

theorem onFcgi_orFail (m c : Prog Fcgi Unit) :
    onFcgi (orFail m c) = orFail (onFcgi m) (onFcgi c) := by
  funext x
  simp only [onFcgi, Prog.zoom, orFail]
  rcases m x.fcgi with ⟨_ | a, f⟩ <;> rfl

/-- `bufferevent_write` frees nothing. -/
theorem write_tracks (data : Bytes) :
    Tracks Alive (Heap.useConn (buffereventWrite data)) (onFcgi (buffereventWrite data)) := by
  refine ⟨useConn_agrees _, fun x u hx hu => ?_⟩
  rcases buffereventWrite_cases data x.fcgi with ⟨ws, -, h⟩ | ⟨ws, -, -, h⟩ <;>
    simp only [onFcgi, Prog.zoom, h] at hu ⊢ <;> exact hx

theorem dowrite_tracks (data : Bytes) :
    Tracks Alive (Heap.dowrite data) (forClt fun id => dowrite id data) := by
  refine ⟨get_agrees fun y => ?_, fun x u hx hu => ?_⟩
  · -- the two writes may fail, but they leave the connection for `fcgi_error`
    dsimp only
    rw [dowrite_eq, onFcgi_bind, onFcgi_orFail, onFcgi_bind]
    refine Agrees.seq (B := fun _ => True) ?_ (fun _ _ _ _ => trivial) fun _ => Agrees.free _
    refine Agrees.orFail (B := fun x => x.fcgi.closed = false) ?_ (fun x hx _ => ?_) ?_
    · exact (write_tracks _).agrees.seq (write_tracks _).keeps fun _ =>
        (Agrees.bind ⟨useClt_agrees (pure ()), fun _ _ hx _ => hx⟩ fun _ => useConn_agrees _ :)
    · rw [← onFcgi_bind]
      simp only [onFcgi, Prog.zoom]
      rcases buffereventWrite_two _ data x.fcgi with ⟨ws, -, h⟩ | ⟨ws, out, -, -, -, h⟩ <;>
        rw [h] <;> exact hx.1
    · exact .use (fun x hx => by rw [Heap.connAlive, hx]; rfl) _
  · rw [forClt_run] at hu ⊢
    rcases buffereventWrite_two [1, stdout, byte1 x.clt.cltId.toNat, byte0 x.clt.cltId.toNat,
      byte1 data.length, byte0 data.length, 0, 0] data x.fcgi with
      ⟨ws, -, h⟩ | ⟨ws, out, -, -, -, h⟩ <;>
      simp only [dowrite, h] at hu ⊢
    · exact hx
    · cases hu

theorem cltWrite_tracks (data : Bytes) :
    Tracks Alive (Heap.cltWrite data) (forClt fun id => cltWrite id data) := by
  suffices h : ∀ (n : Nat) (data : Bytes),
      Tracks Alive (Heap.cltWriteLoop n data) (forClt fun id => cltWriteLoop id n data) from h _ _
  intro n
  induction n with
  | zero => exact fun _ => .pure ()
  | succ n ih =>
    intro data
    simp only [Heap.cltWriteLoop, cltWriteLoop]
    split
    · exact .pure ()
    · rw [forClt_bind]
      exact (dowrite_tracks _).bind fun _ => ih _

theorem cltFlush_eq :
    cltFlush = Prog.get >>= fun x => if x.clt.cltTp.tpBuf.isEmpty then pure ()
      else forClt (fun id => cltWrite id x.clt.cltTp.tpBuf) >>= fun _ =>
        setClt fun c => { c with cltTp := c.cltTp.clear } := by
  funext x
  rw [cltFlush, Prog.get_bind, Prog.get_bind, onTp, Prog.zoom, templateFlush]
  split
  · rfl
  · rw [Prog.bind_run, forClt_run]
    rcases cltWrite x.clt.cltId x.clt.cltTp.tpBuf x.fcgi with ⟨_ | u, f⟩ <;> rfl

theorem templateFlush_tracks : Tracks Alive Heap.templateFlush cltFlush := by
  refine cltFlush_writes.tracks ?_
  rw [cltFlush_eq]
  refine get_agrees fun x => ?_
  split
  · exact .pure ()
  · exact Agrees.bind (cltWrite_tracks _) fun _ => useClt_agrees _

theorem tpWrite_tracks (str : Bytes) :
    Tracks Alive (Heap.tpWrite str) (forTp fun id => tpWrite (cltWrite id) str) := by
  suffices h : ∀ (n : Nat) (str : Bytes), Tracks Alive (Heap.tpWriteLoop n str)
      (forTp fun id => tpWriteLoop (cltWrite id) n str) from h _ _
  intro n
  induction n with
  | zero => exact fun _ => .pure ()
  | succ n ih =>
    intro str
    simp only [Heap.tpWriteLoop, tpWriteLoop]
    split
    · exact .pure ()
    · -- with room for a byte at least, as much as fits is copied, then the rest is written
      have hcopy : Tracks Alive
          (do let x ← Heap.useClt Prog.get
              Heap.useClt (setClt fun c => { c with cltTp := c.cltTp.copy str })
              Heap.tpWriteLoop n (str.drop x.clt.cltTp.avail))
          (forTp fun id => do
            let x ← Prog.get
            Prog.modify fun x => (x.1.copy str, x.2)
            tpWriteLoop (cltWrite id) n (str.drop x.1.avail)) := by
        rw [forTp_get]
        refine get_tracks fun x => ?_
        rw [forTp_bind]
        exact (set_tracks (by exact fun _ => rfl)).bind fun _ => ih _
      rw [forTp_get]
      refine get_tracks fun x => ?_
      dsimp only
      split
      · rw [forTp_bind]
        exact templateFlush_tracks.bind fun _ => hcopy
      · exact hcopy

theorem forTp_each {ι : Type} (b : UInt32 → ι → TpM Fcgi Unit) :
    ∀ l, forTp (fun id => Prog.each (b id) l) = Prog.each (fun i => forTp fun id => b id i) l
  | [] => rfl
  | i :: l => by
    simp only [Prog.each_cons]
    rw [forTp_bind, forTp_each b l]

theorem tpHtmlescape_tracks (str : Bytes) :
    Tracks Alive (Heap.tpHtmlescape str) (forTp fun id => tpHtmlescape (cltWrite id) str) := by
  unfold Heap.tpHtmlescape tpHtmlescape
  rw [forTp_each]
  exact .each (fun b => tpWrite_tracks (htmlescapeByte b)) str

theorem tpUrlescape_tracks (str : Bytes) :
    Tracks Alive (Heap.tpUrlescape str) (forTp fun id => tpUrlescape (cltWrite id) str) := by
  induction str with
  | nil => exact .pure ()
  | cons b str ih =>
    simp only [Heap.tpUrlescape, tpUrlescape]
    split
    · split
      · exact .pure ()
      · rw [forTp_bind]
        exact (tpWrite_tracks _).bind fun _ => ih
    · rw [forTp_bind]
      exact (tpWrite_tracks _).bind fun _ => ih

theorem emit_tracks (ps : List Piece) : Tracks Alive (Heap.emit ps) (emit ps) := by
  show Tracks Alive (Prog.each Heap.emitPiece ps) (forTp fun id => render (cltWrite id) ps)
  unfold render
  rw [forTp_each]
  refine .each (fun p => ?_) ps
  show Tracks Alive _ (pure () >>= fun _ => forTp fun id => p.emit (cltWrite id))
  refine Tracks.bind ⟨useClt_agrees (pure ()), fun _ _ hx _ => hx⟩ fun _ => ?_
  cases p with
  | raw s => exact tpWrite_tracks s
  | html s => exact tpHtmlescape_tracks s
  | url s => exact tpUrlescape_tracks s

/-! ## The end of a request -/

theorem endRequest_eq (status proto : UInt8) :
    endRequest status proto = cltFlush >>= fun _ => Prog.get >>= fun x =>
      orFail (onFcgi (fcgiSendEndReq x.clt.cltId.toNat status proto))
          (onFcgi (Prog.modify fcgiError)) >>= fun _ =>
        onFcgi (Prog.modify fun f =>
          (f.remove x.clt.cltId).observe (.freed x.clt.cltId.toUInt16 x.clt.serial)) >>= fun _ =>
        onFcgi (Prog.modify fun f => if f.fcgKeepConn then f else { f with fcgDone := true }) := by
  unfold endRequest
  congr 1
  funext _ x
  rw [Prog.get_bind, Prog.get_bind, Prog.bind_run, orFail, onFcgi, Prog.zoom]
  rcases fcgiSendEndReq x.clt.cltId.toNat status proto x.fcgi with ⟨_ | u, f⟩ <;> rfl

/-- The last record is queued for a client that is there; then the client is gone, but not its
connection. -/
theorem endRequest_agrees (status proto : UInt8) :
    Agrees Alive (Heap.endRequest status proto) (endRequest status proto) := by
  have hconn {α : Type} (m : Prog Fcgi α) :
      Agrees (fun x => x.fcgi.closed = false) (Heap.useConn m) (onFcgi m) :=
    .use (fun x hx => by rw [Heap.connAlive, hx]; rfl) _
  rw [endRequest_eq]
  refine Agrees.bind templateFlush_tracks fun _ => get_agrees fun x => ?_
  refine Agrees.seq (B := Alive) ?_ ?_ fun _ => Agrees.seq (B := fun x => x.fcgi.closed = false)
    (useClt_agrees _) (fun y _ hy _ => hy.1) fun _ => hconn _
  · refine Agrees.orFail (useConn_agrees _) (fun y hy _ => ?_) (hconn _)
    simp only [onFcgi, Prog.zoom]
    rcases fcgiSendEndReq_cases x.clt.cltId.toNat status proto y.fcgi with
      ⟨ws, -, h⟩ | ⟨ws, out, -, -, -, h⟩ <;> rw [h] <;> exact hy.1
  · intro y u hy hu
    simp only [orFail, onFcgi, Prog.zoom] at hu ⊢
    rcases fcgiSendEndReq_cases x.clt.cltId.toNat status proto y.fcgi with
      ⟨ws, -, h⟩ | ⟨ws, out, -, -, -, h⟩ <;> rw [h] at hu ⊢
    · exact hy
    · cases hu

theorem failWith_agrees (status : Nat) (reason : String) :
    Agrees Alive (Heap.failWith status reason) (failWith status reason) :=
  Agrees.bind (emit_tracks _) fun _ => get_agrees fun _ =>
    Agrees.bind (emit_tracks _) fun _ => endRequest_agrees _ _

theorem upstreamFailure_agrees (code : Nat) (reason : Bytes) :
    Agrees Alive (Heap.upstreamFailure code reason) (upstreamFailure code reason) :=
  Agrees.bind (emit_tracks _) fun _ => get_agrees fun _ =>
    Agrees.bind (emit_tracks _) fun _ => endRequest_agrees _ _

/-! ## Before the answer -/

theorem startResolver_agrees : Agrees Alive Heap.startResolver startResolver := by
  have hasr (rest : List AsrAnswer) :
      Tracks Alive (free (onFcgi (Prog.modify fun f => { f with asr := rest })))
        (onFcgi (Prog.modify fun f => { f with asr := rest })) :=
    ⟨.free _, fun _ _ hx _ => hx⟩
  refine get_agrees fun x => ?_
  rcases x.fcgi.asr with _ | ⟨_ | _ | _, rest⟩
  · exact useClt_agrees _
  · exact Agrees.bind (hasr rest) fun _ => useClt_agrees _
  · exact Agrees.bind (hasr rest) fun _ => endRequest_agrees _ _
  · exact Agrees.bind (hasr rest) fun _ => Agrees.bind (set_tracks (by exact fun _ => rfl)) fun _ =>
      endRequest_agrees _ _

theorem proxyStartRequest_agrees (env : Env) :
    Agrees Alive (Heap.proxyStartRequest env) (proxyStartRequest env) := by
  refine Agrees.bind ⟨.free _, fun _ _ hx _ => hx⟩ fun _ => get_agrees fun x => ?_
  rcases x.clt.cltPathInfo with _ | path
  · exact failWith_agrees _ _
  refine Agrees.bind (set_tracks (by exact fun _ => rfl)) fun _ => ?_
  rcases proxyMatch env x.clt.cltServerName with _ | pc
  · exact failWith_agrees _ _
  dsimp only
  split
  · exact failWith_agrees _ _
  rcases x.clt.cltBody with _ | body
  · exact startResolver_agrees
  · exact Agrees.bind (emit_tracks _) fun _ => endRequest_agrees _ _

theorem proxyConnect_agrees (net : NetEnv) :
    Agrees Alive (Heap.proxyConnect net) (proxyConnect net) := by
  refine get_agrees fun x => Agrees.bind (set_tracks (by exact fun _ => rfl)) fun _ => ?_
  rcases (connectAgain net x.clt.cltFd net.sockets x.clt.cltP).1 with _ | _ | _ <;>
    rcases x.clt.cltPc with _ | pc
  · exact .free _
  · exact failWith_agrees _ _
  · exact .free _
  · refine Agrees.bind (set_tracks (by exact fun _ => rfl)) fun _ => ?_
    split
    · exact failWith_agrees _ _
    refine Agrees.bind (set_tracks (by exact fun _ => rfl)) fun _ => ?_
    split
    · exact failWith_agrees _ _
    split
    · exact failWith_agrees _ _
    · exact useClt_agrees _
  · exact useClt_agrees _
  · exact useClt_agrees _

theorem proxyResolved_agrees (res : Option (List Addrinfo)) (net : NetEnv) :
    Agrees Alive (Heap.proxyResolved res net) (proxyResolved res net) := by
  refine Agrees.bind (set_tracks (by exact fun _ => rfl)) fun _ => get_agrees fun x => ?_
  rcases res with _ | addrs
  · rcases x.clt.cltPc with _ | pc
    · exact .free _
    · exact failWith_agrees _ _
  · exact Agrees.bind (set_tracks (by exact fun _ => rfl)) fun _ => proxyConnect_agrees net

/-! ## The answer -/

theorem proxyError_agrees (err : Nat) : Agrees Alive (Heap.proxyError err) (proxyError err) := by
  rw [proxyError, Heap.proxyError]
  generalize (if err &&& evbufferEof = 0 then (1 : UInt8) else 0) = status
  have hend := endRequest_agrees status requestComplete
  refine get_agrees fun x => ?_
  dsimp only
  split
  · exact Agrees.bind (emit_tracks _) fun _ => Agrees.bind (emit_tracks _) fun _ => hend
  split
  · exact Agrees.bind (set_tracks (by exact fun _ => rfl)) fun _ =>
      Agrees.bind (emit_tracks _) fun _ => hend
  · exact hend

theorem translateLoop_agrees (oob : Bytes → Bytes) (n : Nat) :
    Agrees Alive (Heap.translateLoop oob n) (translateLoop oob n) := by
  induction n with
  | zero => exact .pure ()
  | succ n ih =>
    refine get_agrees fun x => ?_
    rcases x.clt.cltBev with _ | bev
    · exact .pure ()
    dsimp only
    rcases readlnCrlf bev.input with _ | ⟨line, rest⟩
    · exact .pure ()
    refine Agrees.bind (set_tracks (by exact fun _ => rfl)) fun _ => ?_
    rcases gemtextTranslateLine x.clt (cstrPast (oob bev.input) line).1
      (cstrPast (oob bev.input) line).2 with _ | ⟨ps, tr⟩
    · exact .free _
    · exact Agrees.bind (set_tracks (by exact fun _ => rfl)) fun _ =>
        Agrees.bind (emit_tracks _) fun _ => ih

/-! ## A body that is passed on

Here it matters whether a write fails. -/

/-- The client's page is translated, or no write fails. -/
def Sure (x : Ctx) : Prop := x.clt.cltTranslate.any = true ∨ false ∉ x.fcgi.writes

theorem Plays.sure {ops : List Put} {c : Client} {r : Option Unit × Ctx}
    (h : Plays ⟨ops, .goes c⟩ x r) (hc : c.cltTranslate = x.clt.cltTranslate) (hx : Sure x)
    (u : Unit) (hr : r.1 = some u) : Sure r.2 := by
  cases h with
  | goes hnext _ _ _ hws =>
    cases hnext
    exact hx.imp (hc ▸ ·) fun hall hmem => hall (hws.subset hmem)
  | ends hnext => cases hnext
  | crashed hnext => cases hnext
  | torn => cases hr

theorem emit_sure (ps : List Piece) :
    Tracks (fun x => Alive x ∧ Sure x) (Heap.emit ps) (emit ps) :=
  (emit_tracks ps).and fun x u hx hu => (follows_emit ps x rfl).sure rfl hx u hu

theorem templateFlush_sure :
    Tracks (fun x => Alive x ∧ Sure x) Heap.templateFlush cltFlush :=
  templateFlush_tracks.and fun x u hx hu => (follows_flush x rfl).sure rfl hx u hu

theorem cltWriteBufferevent_agrees :
    Agrees (fun x => Alive x ∧ false ∉ x.fcgi.writes) Heap.cltWriteBufferevent
      cltWriteBufferevent := by
  refine Agrees.get_at (fun _ hx => hx.1.clt) fun x hx => ?_
  rcases x.clt.cltBev with _ | bev
  · exact .pure ()
  have hwritten := cltWrite_handed x.fcgi x.clt.cltId bev.input
  refine Agrees.seq (B := Alive) (.orFail_of_isSome ?_ ?_) ?_ fun _ => useClt_agrees _
  · rintro _ rfl
    exact (cltWrite_tracks bev.input).agrees _ hx.1
  · -- with no failing write all of the body is written
    rintro _ rfl
    simp only [onFcgi, Prog.zoom]
    generalize cltWrite _ bev.input _ = r at hwritten
    cases hwritten with
    | all => rfl
    | torn hfail => exact absurd hfail hx.2
  · rintro _ u rfl hu
    exact (cltWrite_tracks bev.input).keeps _ u hx.1 hu

theorem proxyReadBody_agrees (oob : Bytes → Bytes) :
    Agrees (fun x => Alive x ∧ Sure x) (Heap.proxyReadBody oob) (proxyReadBody oob) := by
  refine Agrees.get_at (fun _ hx => hx.1.clt) fun x hx => ?_
  split
  · refine Agrees.mono (get_agrees fun y => ?_) (by rintro _ rfl; exact hx.1)
    rcases y.clt.cltBev with _ | bev
    · exact .pure ()
    · exact translateLoop_agrees oob _
  · rename_i hplain
    refine cltWriteBufferevent_agrees.mono ?_
    rintro _ rfl
    exact ⟨hx.1, hx.2.resolve_left hplain⟩

theorem parseMime_any (tr : Translate) (mime : Bytes) :
    (parseMime tr mime).1.any = ((lit "text/gemini").isPrefixOf mime || tr.any) := by
  rw [parseMime]
  cases (lit "text/gemini").isPrefixOf mime <;> rfl

/-- Whether a page with this type is translated is what `parse_mime` leaves in the client. -/
theorem proxyReadSuccess_agrees (oob : Bytes → Bytes) (mime : Bytes) :
    Agrees (fun x => Alive x ∧ ((lit "text/gemini").isPrefixOf mime = true ∨ Sure x))
      (Heap.proxyReadSuccess oob mime) (proxyReadSuccess oob mime) := by
  refine Agrees.get_at (fun _ hx => hx.1.clt) fun x hx => ?_
  refine Agrees.seq (B := fun x => Alive x ∧ Sure x) ?_ ?_ fun _ => ?_
  · exact Agrees.mono (useClt_agrees _) (by rintro _ rfl; exact hx.1)
  · rintro _ u rfl -
    refine ⟨hx.1, ?_⟩
    show (parseMime _ mime).1.any = true ∨ _
    rw [parseMime_any, Bool.or_eq_true, or_assoc]
    exact hx.2
  generalize parseMime x.clt.cltTranslate mime = r
  rcases r.2 with _ | lang
  · exact (failWith_agrees _ _).mono fun _ hy => hy.1
  refine Agrees.bind (emit_sure _) fun _ => Agrees.bind ?_ fun _ => ?_
  · exact (set_tracks (by exact fun _ => rfl)).and fun _ _ hy _ => hy
  split
  · exact Agrees.bind (emit_sure _) fun _ => proxyReadBody_agrees oob
  · exact Agrees.bind templateFlush_sure fun _ => proxyReadBody_agrees oob

theorem proxyReadStatus_agrees (oob : Bytes → Bytes) (behind : Bytes) (h0 h1 : UInt8)
    (rest : Bytes) :
    Agrees (fun x => Alive x ∧ (h0 = 50 →
        (lit "text/gemini").isPrefixOf ((cstr rest).dropWhile isblank) = true ∨ Sure x))
      (Heap.proxyReadStatus oob behind h0 h1 rest) (proxyReadStatus oob behind h0 h1 rest) := by
  refine Agrees.get_at (fun _ hx => hx.1.clt) fun x hx => ?_
  have hat {w : HeapM Unit} {m : CltM Unit} (h : Agrees Alive w m) : Agrees (fun y => y = x) w m :=
    h.mono (by rintro _ rfl; exact hx.1)
  dsimp only
  split
  · exact hat (Agrees.bind (emit_tracks _) fun _ => Agrees.bind (emit_tracks _) fun _ =>
      endRequest_agrees _ _)
  split
  · rename_i hsuccess
    rw [cstrPast_fst]
    refine (proxyReadSuccess_agrees oob _).mono ?_
    rintro _ rfl
    exact ⟨hx.1, hx.2 (by simpa using hsuccess)⟩
  split
  · rcases proxyResurl x.clt (cstrPast behind rest).1 (cstrPast behind rest).2 1025 with
      _ | _ | buf
    · exact .free _
    · exact hat (upstreamFailure_agrees _ _)
    · exact hat (Agrees.bind (emit_tracks _) fun _ => endRequest_agrees _ _)
  · exact hat (upstreamFailure_agrees _ _)

/-- What has arrived for the client is, or begins, a body that is passed on as it is. -/
def Client.passesOn (c : Client) (input : Bytes) : Bool :=
  !c.cltTranslate.any && (c.cltHeadersdone ||
    match readlnCrlfStrict input with
    | none => false
    | some (hdr, _) =>
        match successMime hdr with
        | none => false
        | some mime => !(lit "text/gemini").isPrefixOf mime)

section PassesOn

variable {c : Client} {input hdr rest mime : Bytes} {p : Prop}

theorem Client.passesOn_body (hdone : c.cltHeadersdone = true) (h : c.passesOn input = true → p) :
    c.cltTranslate.any = true ∨ p := by
  rw [Client.passesOn, hdone, Bool.true_or, Bool.and_true] at h
  cases hany : c.cltTranslate.any with
  | true => exact .inl rfl
  | false => exact .inr (h (by rw [hany]; rfl))

theorem Client.passesOn_head (hline : readlnCrlfStrict input = some (hdr, rest))
    (hmime : successMime hdr = some mime) (h : c.passesOn input = true → p) :
    (lit "text/gemini").isPrefixOf mime = true ∨ c.cltTranslate.any = true ∨ p := by
  simp only [Client.passesOn, hline, hmime] at h
  cases hgem : (lit "text/gemini").isPrefixOf mime with
  | true => exact .inl rfl
  | false =>
    cases hany : c.cltTranslate.any with
    | true => exact .inr (.inl rfl)
    | false =>
      exact .inr (.inr (h (by rw [hany, hgem, Bool.not_false, Bool.or_true, Bool.and_true])))

end PassesOn

theorem proxyRead_agrees (oob : Bytes → Bytes) :
    Agrees (fun x => Alive x ∧ ∀ bev, x.clt.cltBev = some bev →
        x.clt.passesOn bev.input = true → false ∉ x.fcgi.writes)
      (Heap.proxyRead oob) (proxyRead oob) := by
  refine Agrees.get_at (fun _ hx => hx.1.clt) fun x hx => ?_
  have hat {w : HeapM Unit} {m : CltM Unit} (h : Agrees Alive w m) : Agrees (fun y => y = x) w m :=
    h.mono (by rintro _ rfl; exact hx.1)
  cases hbev : x.clt.cltBev with
  | none => exact .pure ()
  | some bev =>
    have hpass := hx.2 bev hbev
    dsimp only
    split
    · rename_i hdone
      refine (proxyReadBody_agrees oob).mono ?_
      rintro _ rfl
      exact ⟨hx.1, Client.passesOn_body hdone hpass⟩
    cases hline : readlnCrlfStrict bev.input with
    | none =>
      dsimp only
      split
      · exact hat (proxyError_agrees _)
      · exact .pure ()
    | some l =>
      obtain ⟨hdr, rest⟩ := l
      have hset := @set_tracks (fun c => { c with cltBev := some { bev with input := rest } })
        fun _ => rfl
      have hbad := hat (Agrees.bind hset fun _ => proxyError_agrees evRead)
      rcases hdr with _ | ⟨h0, _ | ⟨h1, _ | ⟨h2, _ | ⟨h3, more⟩⟩⟩⟩
      · exact hbad
      · exact hbad
      · exact hbad
      · exact hbad
      · by_cases hstatus : (isdigit h0 && isdigit h1 && h2 == 32) = true
        · simp only [hstatus, if_true]
          refine Agrees.seq (hat hset.agrees) ?_ fun _ => proxyReadStatus_agrees oob _ h0 h1 _
          rintro y u rfl -
          refine ⟨hset.keeps _ () hx.1 rfl, fun h50 => ?_⟩
          refine Client.passesOn_head (c := y.clt) hline ?_ hpass
          rw [Bool.and_eq_true, Bool.and_eq_true] at hstatus
          rw [successMime, h50, hstatus.1.2, hstatus.2]
          rfl
        · simp only [if_neg hstatus]
          exact hbad

theorem upstreamRead_agrees (oob : Bytes → Bytes) (bytes : Bytes) :
    Agrees (fun x => Alive x ∧ ∀ bev, x.clt.cltBev = some bev →
        x.clt.passesOn (bev.input ++ bytes) = true → false ∉ x.fcgi.writes)
      (Heap.upstreamRead oob bytes) (upstreamRead oob bytes) := by
  refine Agrees.get_at (fun _ hx => hx.1.clt) fun x hx => ?_
  cases hbev : x.clt.cltBev with
  | none => exact .pure ()
  | some bev =>
    have hset :=
      @set_tracks (fun c => { c with cltBev := some { bev with input := bev.input ++ bytes } })
      fun _ => rfl
    refine Agrees.seq (hset.agrees.mono (by rintro _ rfl; exact hx.1)) ?_ fun _ =>
      proxyRead_agrees oob
    rintro _ u rfl -
    refine ⟨hset.keeps _ () hx.1 rfl, fun b hb hpass => hx.2 bev hbev ?_⟩
    cases hb
    exact hpass

/-! ## Reading from the web server -/

theorem fcgiParseForm_agrees (env : Env) :
    Agrees Alive (Heap.fcgiParseForm env) (fcgiParseForm env) := by
  refine get_agrees fun x => ?_
  split
  · exact Agrees.bind (set_tracks (by exact fun _ => rfl)) fun _ => proxyStartRequest_agrees env
  · exact Agrees.bind ⟨useConn_agrees _, fun _ _ hy _ => hy⟩ fun _ => useClt_agrees _

/-- The turn `r` of the loop of `fcgi_read` is also what `w` does, without using what is gone; and
it goes on only with a connection that is there. -/
def HeapReads (w : ConnM Unit) (f : Fcgi) : Flow → Prop
  | .next g => w ⟨f, false⟩ = (some (), ⟨g, false⟩) ∧ g.closed = false
  | .ret g => w ⟨f, false⟩ = (none, ⟨g, false⟩)

section HeapReads

variable {r : Flow}

theorem reads_free {k : Unit → ConnM Unit} (h : HeapReads (k ()) (g f) r) :
    HeapReads (free (Prog.modify g) >>= k) f r := by
  cases r <;> exact h

variable (hopen : f.closed = false)
include hopen

theorem useFcgi_run (m : Prog Fcgi α) : Heap.useFcgi m ⟨f, false⟩ = ((m f).1, ⟨(m f).2, false⟩) :=
  Agrees.use (A := fun f => f.closed = false) (fun g hg => by rw [hg]; rfl) m f hopen

theorem reads_get {k : Fcgi → ConnM Unit} (h : HeapReads (k f) f r) :
    HeapReads (Heap.useFcgi Prog.get >>= k) f r := by
  have hrun : (Heap.useFcgi Prog.get >>= k) ⟨f, false⟩ = k f ⟨f, false⟩ := by
    rw [Prog.bind_run, useFcgi_run hopen]
    rfl
  cases r <;> simpa only [HeapReads, hrun] using h

theorem reads_modify {k : Unit → ConnM Unit} (h : HeapReads (k ()) (g f) r) :
    HeapReads (Heap.useFcgi (Prog.modify g) >>= k) f r := by
  have hrun : (Heap.useFcgi (Prog.modify g) >>= k) ⟨f, false⟩ = k () ⟨g f, false⟩ := by
    rw [Prog.bind_run, useFcgi_run hopen]
    rfl
  cases r <;> simpa only [HeapReads, hrun] using h

theorem reads_last (hg : (g f).closed = false) :
    HeapReads (Heap.useFcgi (Prog.modify g)) f (.next (g f)) :=
  ⟨useFcgi_run hopen _, hg⟩

theorem reads_next : HeapReads Heap.nextRecord f (.next (nextRecord f)) := reads_last hopen hopen

theorem reads_skip : HeapReads (Heap.skipContent >>= fun _ => Heap.nextRecord) f
    (.next (nextRecord (skipContent f))) :=
  reads_modify hopen (reads_next hopen)

theorem reads_error : HeapReads Heap.error f (.ret (fcgiError f)) := by
  show (Heap.useFcgi _ >>= _) _ = _
  rw [Prog.bind_run, useFcgi_run hopen]
  rfl

/-- A call for a client that says when the connection is gone. -/
theorem reads_call {id : UInt32} {c : Client} {m : CltM Unit} (hfind : f.find id = some c)
    (hm : Agrees Alive w m) (hcode : CodeKept id f (withClient id m f)) :
    HeapReads (Heap.withClient id w >>= fun _ => Heap.nextRecord) f
      (afterCall (withClient id m f)) := by
  have hid := f.cltId_of_find hfind
  have halive : Alive ⟨f, c⟩ := ⟨hopen, by rw [hid, hfind]; rfl⟩
  have hcall : Heap.withClient id w ⟨f, false⟩
      = ((withClient id m f).1, ⟨(withClient id m f).2, false⟩) := by
    simp only [Heap.withClient, hfind, withClient_run hfind, hm _ halive]
  rcases hr : withClient id m f with ⟨_ | u, g⟩ <;> rw [hr] at hcall hcode
  · exact Prog.bind_none hcall
  · have hg : g.closed = false := by
      cases hc : g.closed with
      | false => rfl
      | true => cases hcode.gone.mpr hc
    show _ = _ ∧ _
    rw [Prog.bind_some hcall]
    exact reads_next hg

theorem readHeader_reads : HeapReads Heap.readHeader f (readHeader f) := by
  refine reads_get hopen ?_
  unfold readHeader
  rcases f.input with
    _ | ⟨version, _ | ⟨type, _ | ⟨i1, _ | ⟨i0, _ | ⟨l1, _ | ⟨l0, _ | ⟨padding, _ | ⟨b, rest⟩⟩⟩⟩⟩⟩⟩⟩
  case cons.cons.cons.cons.cons.cons.cons.cons =>
    dsimp only
    split
    · exact reads_error hopen
    · exact reads_last hopen hopen
  all_goals rfl

omit hopen in
theorem Fcgi.insert_closed (f : Fcgi) (c : Client) : (f.insert c).closed = f.closed := by
  unfold Fcgi.insert
  split <;> rfl

theorem readBeginBody_reads (role1 role0 flags : UInt8) :
    HeapReads (Heap.readBeginBody role1 role0 flags) f (readBeginBody role1 role0 flags f) := by
  refine reads_get hopen ?_
  unfold readBeginBody
  split
  · -- the answer to an unknown role
    have hleft : (fcgiSendEndReq f.fcgRecId.toNat 1 unknownRole f).2.closed = false := by
      rcases fcgiSendEndReq_cases f.fcgRecId.toNat 1 unknownRole f with
        ⟨ws, -, h⟩ | ⟨ws, out, -, -, -, h⟩ <;> rw [h] <;> exact hopen
    have hrun := useFcgi_run hopen (fcgiSendEndReq f.fcgRecId.toNat 1 unknownRole)
    rcases hr : fcgiSendEndReq f.fcgRecId.toNat 1 unknownRole f with ⟨_ | u, g⟩ <;>
      rw [hr] at hleft hrun
    · have herror := reads_error hleft
      unfold HeapReads
      rw [Prog.bind_run, orFail, hrun]
      exact congrArg (Prod.mk none) (congrArg Prod.snd herror)
    · unfold HeapReads
      rw [Prog.bind_run, orFail, hrun]
      exact reads_next hleft
  split
  · exact reads_error hopen
  have hopen' : ({ f with fcgKeepConn := flags &&& keepConn != 0 } : Fcgi).closed = false := hopen
  refine reads_modify hopen ?_
  cases f.find f.fcgRecId.toUInt32 with
  | some c => exact reads_next hopen'
  | none =>
    refine reads_modify hopen' (reads_next ?_)
    exact (Fcgi.insert_closed _ _).trans hopen'

theorem readBegin_reads : HeapReads Heap.readBegin f (readBegin f) := by
  refine reads_get hopen ?_
  unfold readBegin
  split
  · exact reads_error hopen
  rcases f.input with
    _ | ⟨role1, _ | ⟨role0, _ | ⟨flags, _ | ⟨r0, _ | ⟨r1, _ | ⟨r2, _ | ⟨r3, _ | ⟨r4, rest⟩⟩⟩⟩⟩⟩⟩⟩
  case cons.cons.cons.cons.cons.cons.cons.cons =>
    refine reads_modify hopen ?_
    exact @readBeginBody_reads { f with input := rest } hopen role1 role0 flags
  all_goals rfl

theorem readParams_reads (env : Env) (stale : Bytes) :
    HeapReads (Heap.readParams env stale) f (readParams env stale f) := by
  refine reads_get hopen ?_
  unfold readParams
  cases hfind : f.find f.fcgRecId.toUInt32 with
  | none => exact reads_skip hopen
  | some clt =>
    dsimp only
    split
    · split
      · refine reads_call hopen hfind (proxyStartRequest_agrees env) ?_
        rw [withClient_run hfind]
        exact proxyStartRequest_codeKept env hopen (f.cltId_of_find hfind)
      · exact reads_next hopen
    · split
      · exact reads_modify hopen (reads_next hopen)
      · exact reads_error hopen

theorem readStdin_reads (env : Env) : HeapReads (Heap.readStdin env) f (readStdin env f) := by
  refine reads_get hopen ?_
  unfold readStdin
  cases hfind : f.find f.fcgRecId.toUInt32 with
  | none => exact reads_skip hopen
  | some clt =>
    dsimp only
    split
    · exact reads_skip hopen
    · exact reads_call hopen hfind (fcgiParseForm_agrees env)
        (fcgiParseForm_codeKept env hopen hfind)

theorem readAbort_reads : HeapReads Heap.readAbort f (readAbort f) := by
  refine reads_get hopen ?_
  unfold readAbort
  cases hfind : f.find f.fcgRecId.toUInt32 with
  | none => exact reads_skip hopen
  | some clt =>
    exact reads_call hopen hfind (endRequest_agrees _ _)
      ((endRequest_finishes _ _).codeKept hopen hfind)

theorem readBody_reads (env : Env) (stale : Bytes) :
    HeapReads (Heap.readBody env stale) f (readBody env stale f) := by
  have hopen' : (f.observe (.dispatched f.fcgType f.fcgRecId
      (f.input.take (sizeT f.fcgToread)))).closed = false := hopen
  refine reads_free (reads_get hopen' ?_)
  unfold readBody
  dsimp only
  split
  · exact readBegin_reads hopen'
  split
  · exact readParams_reads hopen' env stale
  split
  · exact readStdin_reads hopen' env
  split
  · exact readAbort_reads hopen'
  · exact reads_skip hopen'

theorem readStep_reads (env : Env) (stale : Bytes) :
    HeapReads (Heap.readStep env stale) f (readStep env stale f) := by
  have hlook {w : ConnM Unit} {r : Flow} (h : HeapReads w f r) :
      HeapReads (w >>= fun _ => Heap.useFcgi (pure ())) f r := by
    cases r with
    | next g =>
      refine ⟨?_, h.2⟩
      rw [Prog.bind_some h.1, useFcgi_run h.2]
      rfl
    | ret g => exact Prog.bind_none h
  refine reads_get hopen ?_
  unfold readStep
  rw [hopen, Bool.false_or]
  by_cases hwait : f.input.length < sizeT f.fcgToread
  · simp only [hwait, decide_true, if_true]
    rfl
  · simp only [hwait, decide_false, if_false]
    cases f.fcgWant with
    | header => exact hlook (readHeader_reads hopen)
    | body => exact hlook (readBody_reads hopen env stale)

end HeapReads

/-! ## Runs -/

/-- The event brings a body that is passed on. -/
def Fcgi.passesOn (f : Fcgi) : Event → Bool
  | .upstream id _ bytes =>
      match f.find id.toUInt32 with
      | none => false
      | some c =>
          match c.cltBev with
          | none => false
          | some bev => c.passesOn (bev.input ++ bytes)
  | _ => false

/-- While a body is passed on, no write to the web server fails. -/
def Heap.Steady (h : Watched Fcgi) (o : Heap.Occurrence) : Prop :=
  h.state.passesOn o.event = true → false ∉ o.writes

instance (h : Watched Fcgi) (o : Heap.Occurrence) : Decidable (Heap.Steady h o) :=
  inferInstanceAs (Decidable (_ → _))

theorem callback_run (hopen : f.closed = false) {id : UInt16} {waiting : Client → Bool}
    {m : CltM Unit} {A : Ctx → Prop} (hm : Agrees A w m)
    (hA : ∀ c, f.find id.toUInt32 = some c → Alive ⟨f, c⟩ → A ⟨f, c⟩) :
    (Heap.callback id waiting w ⟨f, false⟩).2 = ⟨callback id waiting m f, false⟩ := by
  unfold Heap.callback callback
  cases hfind : f.find id.toUInt32 with
  | none => rfl
  | some c =>
    have halive : Alive ⟨f, c⟩ := ⟨hopen, by rw [f.cltId_of_find hfind, hfind]; rfl⟩
    dsimp only
    split
    · simp only [Heap.withClient, hfind, withClient_run hfind, hm _ (hA c hfind halive)]
    · rfl

theorem fcgiWrite_run (hopen : f.closed = false) :
    (Heap.fcgiWrite ⟨f, false⟩).2 = ⟨fcgiWrite f, false⟩ := by
  unfold Heap.fcgiWrite fcgiWrite
  rw [Prog.bind_run, useFcgi_run hopen]
  dsimp only [Prog.get]
  split
  · exact congrArg Prod.snd (reads_error hopen)
  · rfl

/-- **An event is handled as the model says, and nothing is used that is gone.** -/
theorem handle_run (env : Env) (hopen : f.closed = false) (e : Event)
    (hsteady : f.passesOn e = true → false ∉ f.writes) :
    (Heap.handle env e ⟨f, false⟩).2 = ⟨handle env f e, false⟩ := by
  cases e with
  | arrive bytes => rfl
  | read stale =>
    have hread := readStep_reads hopen env stale
    show (Heap.readStep env stale ⟨f, false⟩).2 = ⟨(readStep env stale f).fcgi, false⟩
    cases hr : readStep env stale f with
    | next g =>
      rw [hr] at hread
      rw [hread.1]
      rfl
    | ret g =>
      rw [hr] at hread
      exact congrArg Prod.snd hread
  | resolved id res net => exact callback_run hopen (proxyResolved_agrees res net) fun _ _ h => h
  | connect id net => exact callback_run hopen (proxyConnect_agrees net) fun _ _ h => h
  | upstream id oob bytes =>
    refine callback_run hopen (upstreamRead_agrees oob bytes) fun c hfind halive => ⟨halive, ?_⟩
    intro bev hbev hpass
    refine hsteady ?_
    simp only [Fcgi.passesOn, hfind]
    rw [hbev]
    exact hpass
  | upstreamError id err => exact callback_run hopen (proxyError_agrees err) fun _ _ h => h
  | drained n =>
    refine fcgiWrite_run (f := { f with sent := min (f.sent + n) f.output.length }) ?_
    exact hopen
  | error => exact congrArg Prod.snd (reads_error hopen)

theorem heapStep_run (env : Env) (hopen : f.closed = false) (o : Heap.Occurrence)
    (hsteady : Heap.Steady ⟨f, false⟩ o) :
    Heap.step env ⟨f, false⟩ o = ⟨step env { f with writes := o.writes } o.event, false⟩ := by
  have hopen' : ({ f with writes := o.writes } : Fcgi).closed = false := hopen
  have hrun := handle_run env hopen' o.event fun hpass => hsteady (by
    unfold Fcgi.passesOn at hpass ⊢
    exact hpass)
  rw [Heap.step, if_neg (by simp [hopen]), step, if_neg (by simp [hopen])]
  exact hrun

/-- **Nothing touches a torn-down connection**, in any run in which no write fails while a body is
passed on. -/
theorem gone_not_used (env : Env) (asr : List AsrAnswer) (os : List Heap.Occurrence)
    (hos : Steps (Heap.step env) Heap.Steady ⟨Fcgi.new [] asr, false⟩ os) :
    (Heap.run env ⟨Fcgi.new [] asr, false⟩ os).wild = false := by
  refine Run.invariant (I := fun h => h.wild = false) ?_ rfl hos
  rintro ⟨f, wild⟩ o hwild hsteady
  obtain rfl : wild = false := hwild
  by_cases hopen : f.closed = false
  · rw [heapStep_run env hopen o hsteady]
  · rw [Heap.step, if_pos (by simpa using hopen)]

/-- The events of `exampleSent`, with no write that fails. -/
def exampleQuiet : List Heap.Occurrence := exampleSent.map fun e => ⟨e, []⟩

/-- The page of a Gemini server is cut short by a write that fails. -/
theorem cut_page_not_used :
    let os := exampleQuiet ++ [⟨.upstream 1 (fun _ => []) (lit "20 text/gemini\r\nhi\n"), []⟩,
      ⟨.upstreamError 1 evbufferEof, [true, false]⟩]
    (Heap.run exampleEnv ⟨Fcgi.new [] [], false⟩ os).state.closed = true ∧
      (Heap.run exampleEnv ⟨Fcgi.new [] [], false⟩ os).wild = false := by
  intro os
  have hos : Steps (Heap.step exampleEnv) Heap.Steady ⟨Fcgi.new [] [], false⟩ os ∧
      (Heap.run exampleEnv ⟨Fcgi.new [] [], false⟩ os).state.closed = true := by
    decide +kernel
  exact ⟨hos.2, gone_not_used exampleEnv [] os hos.1⟩

/-- A text that is passed on is cut short by a write that fails: the connection is freed with the
client and its `bufferevent`, whose input is then drained. -/
theorem drained_when_gone :
    let os := exampleQuiet ++ [⟨.upstream 1 (fun _ => []) (lit "20 text/plain\r\nhi"), []⟩,
      ⟨.upstream 1 (fun _ => []) (lit "x"), [false]⟩]
    (Heap.run exampleEnv ⟨Fcgi.new [] [], false⟩ os).wild = true := by
  decide +kernel

end Galileo
