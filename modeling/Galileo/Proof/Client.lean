import Galileo.Model.Read
import Galileo.Proof.Output

/-!
# What a callback can do to its connection

`proxy_resolved`, `proxy_connect`, `proxy_read`, `proxy_error` and the functions they call are
long, but from the connection's side a call has only three outcomes:

* it **stays**: some output for the request, and the request is still there (`Stays`);
* it **ends**: some output, `FCGI_END_REQUEST`, and the request is off the connection (`Ends`);
* it **breaks**: the connection is gone (`Breaks`). This is the only way a call returns `-1`.

`Writes`, `Finishes` and `Serves` are the three kinds of functions this gives. A function is
placed in its kind by composing what it calls, so that nothing above this module looks at the
code of a callback again.
-/

set_option autoImplicit false

namespace Galileo

open Lib Lib.FastCgi

/-! ## Outcomes -/

/-- The fields of a client that belong to the connection's side of it. -/
structure Client.Same (c d : Client) : Prop where
  id : d.cltId = c.cltId
  serial : d.serial = c.serial
  method : d.cltMethod = c.cltMethod
  pc : d.cltPc = c.cltPc

theorem Client.Same.refl (c : Client) : c.Same c := ⟨rfl, rfl, rfl, rfl⟩

/-- The request of `c` is answered with `body` and taken off the connection. -/
def Fcgi.finish (f : Fcgi) (c : Client) (body : Bytes) : Fcgi :=
  { f with
    fcgClients := f.fcgClients.filter fun d => fcgiClientCmp c.cltId d.cltId != 0
    output := f.output ++ (Obs.queued endRequestType c.cltId.toUInt16 body).wire
    trace := f.trace ++ [.queued endRequestType c.cltId.toUInt16 body,
      .freed c.cltId.toUInt16 c.serial]
    fcgDone := f.fcgDone || !f.fcgKeepConn }

def Stays (x y : Ctx) : Prop := Says x.fcgi x.clt.cltId y.fcgi ∧ x.clt.Same y.clt

def Ends (x y : Ctx) : Prop :=
  ∃ f ws as ps, Says x.fcgi x.clt.cltId f ∧
    y.fcgi = { f.finish x.clt (endReqBody as ps) with writes := ws } ∧ y.clt.cltId = x.clt.cltId

def Breaks (x y : Ctx) : Prop := Torn x.fcgi x.clt.cltId y.fcgi

theorem Stays.refl (x : Ctx) : Stays x x := ⟨.refl _ _, .refl _⟩

/-! ## Three kinds of functions -/

def Writes (m : CltM Unit) : Prop :=
  ∀ x, Prog.Triple (Stays x) m (fun _ => Stays x) (Breaks x)

def Finishes (m : CltM Unit) : Prop :=
  ∀ x, Prog.Triple (Stays x) m (fun _ => Ends x) (Breaks x)

def Serves (m : CltM Unit) : Prop :=
  ∀ x, Prog.Triple (Stays x) m (fun _ y => Stays x y ∨ Ends x y) (Breaks x)

section Rules

variable {m : CltM Unit} {k : Unit → CltM Unit} {g : Ctx → CltM Unit}

theorem Writes.pure : Writes (Pure.pure ()) := fun _ => Prog.Triple.pure fun _ hs => hs

theorem Writes.setClt {u : Client → Client} (h : ∀ c : Client, c.Same (u c)) :
    Writes (Galileo.setClt u) := fun _ =>
  Prog.Triple.modify fun y hs => ⟨hs.1, by
    have := h y.clt
    exact ⟨this.id.trans hs.2.id, this.serial.trans hs.2.serial, this.method.trans hs.2.method,
      this.pc.trans hs.2.pc⟩⟩

theorem Writes.finishes (hm : Writes m) (hk : ∀ u, Finishes (k u)) : Finishes (m >>= k) :=
  fun x => (hm x).bind fun u => hk u x

theorem Finishes.get (h : ∀ x, Finishes (g x)) : Finishes (Prog.get >>= g) := fun x =>
  Prog.Triple.get fun y => (h y x).mono (fun _ hs => hs.1) (fun _ _ hs => hs) fun _ hs => hs

theorem Writes.serves (h : Writes m) : Serves m := fun x =>
  (h x).mono (fun _ hs => hs) (fun _ _ hs => .inl hs) fun _ hs => hs

theorem Finishes.serves (h : Finishes m) : Serves m := fun x =>
  (h x).mono (fun _ hs => hs) (fun _ _ hs => .inr hs) fun _ hs => hs

theorem Writes.andThen (hm : Writes m) (hk : ∀ u, Serves (k u)) : Serves (m >>= k) :=
  fun x => (hm x).bind fun u => hk u x

theorem Serves.get (h : ∀ x, Serves (g x)) : Serves (Prog.get >>= g) := fun x =>
  Prog.Triple.get fun y => (h y x).mono (fun _ hs => hs.1) (fun _ _ hs => hs) fun _ hs => hs

end Rules

/-! ## The output path -/

/-- Code that runs on the template and the connection and only queues output. -/
theorem onTp_writes {m : UInt32 → TpM Fcgi Unit}
    (h : ∀ f id, Prog.Triple (fun t => Says f id t.2) (m id) (fun _ t => Says f id t.2)
      fun t => Torn f id t.2) :
    Writes (Prog.get >>= fun x => onTp (m x.clt.cltId)) := by
  intro x y hy
  have ht := h x.fcgi x.clt.cltId (y.clt.cltTp, y.fcgi) hy.1
  have hid : y.clt.cltId = x.clt.cltId := hy.2.id
  rw [← hid] at ht
  simp only [Prog.get_bind, onTp, Prog.zoom]
  rcases hr : m y.clt.cltId (y.clt.cltTp, y.fcgi) with ⟨_ | u, t⟩ <;> rw [hr, hid] at ht
  · exact ht
  · exact ⟨ht, ⟨hy.2.id, hy.2.serial, hy.2.method, hy.2.pc⟩⟩

theorem emit_writes (ps : List Piece) : Writes (emit ps) :=
  onTp_writes (m := fun id => render (cltWrite id) ps) fun f id => by
    rw [render_eq_tpWrite]
    exact tpWrite_triple _ (fun d _ => cltWrite_triple f id d) _

theorem cltFlush_writes : Writes cltFlush :=
  onTp_writes (m := fun id => templateFlush (cltWrite id)) fun f id =>
    templateFlush_triple _ fun d _ => cltWrite_triple f id d

theorem cltWriteBufferevent_writes : Writes cltWriteBufferevent := by
  intro x
  refine Prog.Triple.get fun y => ?_
  cases y.clt.cltBev with
  | none => exact Prog.Triple.pure fun _ hs => hs.1
  | some bev =>
    have hw : Prog.Triple (fun z => Stays x z ∧ z = y) (onFcgi (cltWrite y.clt.cltId bev.input))
        (fun _ => Stays x) (Breaks x) := by
      rintro z ⟨hz, rfl⟩
      have ht := cltWrite_triple x.fcgi x.clt.cltId bev.input z.fcgi hz.1
      rw [← hz.2.id] at ht
      simp only [onFcgi, Prog.zoom]
      rcases hr : cltWrite z.clt.cltId bev.input z.fcgi with ⟨_ | u, f⟩ <;> rw [hr, hz.2.id] at ht
      · exact ht
      · exact ⟨ht, hz.2⟩
    exact hw.bind fun _ => Writes.setClt (by exact fun _ => ⟨rfl, rfl, rfl, rfl⟩) x

/-- A null pointer was followed. -/
theorem crash_finishes : Finishes crash := by
  intro x y hy
  exact hy.1.torn (torn_fcgiError y.fcgi x.clt.cltId y.fcgi.writes y.fcgi.output
    (List.prefix_refl _))

theorem endRequest_finishes (status proto : UInt8) : Finishes (endRequest status proto) := by
  refine cltFlush_writes.finishes fun _ x => Prog.Triple.get fun y => ?_
  rintro z ⟨hz, rfl⟩
  obtain ⟨hsaid, hsame⟩ := hz
  rcases fcgiSendEndReq_cases z.clt.cltId.toNat status proto z.fcgi with
    ⟨ws, -, h⟩ | ⟨ws, out, -, -, hout, h⟩
  · rw [h]
    refine ⟨z.fcgi, ws, status, proto, hsaid, ?_, hsame.id⟩
    cases hk : z.fcgi.fcgKeepConn <;>
      simp [Fcgi.finish, Fcgi.remove, Fcgi.observe, hk, ← hsame.id, ← hsame.serial]
  · rw [h]
    exact hsaid.torn (torn_fcgiError z.fcgi x.clt.cltId ws out hout)

/-! ## The callbacks -/

theorem failWith_finishes (status : Nat) (reason : String) : Finishes (failWith status reason) :=
  (emit_writes _).finishes fun _ => Finishes.get fun _ =>
    (emit_writes _).finishes fun _ => endRequest_finishes _ _

theorem startResolver_serves : Serves startResolver := by
  have hasr : ∀ rest, Writes (onFcgi (Prog.modify fun f => { f with asr := rest })) := by
    intro rest x y hy
    exact ⟨hy.1.trans ⟨[], y.fcgi.writes, rest, by simp, (y.fcgi.said_nil _ rest).symm⟩, hy.2⟩
  refine Serves.get fun y => ?_
  rcases y.fcgi.asr with _ | ⟨_ | _ | _, rest⟩
  · exact (Writes.setClt (by exact fun _ => ⟨rfl, rfl, rfl, rfl⟩)).serves
  · exact (hasr rest).andThen fun _ =>
      (Writes.setClt (by exact fun _ => ⟨rfl, rfl, rfl, rfl⟩)).serves
  · exact (hasr rest).andThen fun _ => (endRequest_finishes _ _).serves
  · exact (hasr rest).andThen fun _ =>
      (Writes.setClt (by exact fun _ => ⟨rfl, rfl, rfl, rfl⟩)).andThen
      fun _ => (endRequest_finishes _ _).serves

theorem proxyConnect_serves (net : NetEnv) : Serves (proxyConnect net) := by
  refine Serves.get fun y =>
    (Writes.setClt (by exact fun _ => ⟨rfl, rfl, rfl, rfl⟩)).andThen fun _ => ?_
  have hset : ∀ u : Client → Client, (∀ c : Client, c.Same (u c)) → Serves (setClt u) :=
    fun u hu => (Writes.setClt hu).serves
  have hfail := (failWith_finishes 501 "Can't connect").serves
  rcases (connectAgain net y.clt.cltFd net.sockets y.clt.cltP).1 with _ | _ | _ <;>
    rcases y.clt.cltPc with _ | pc
  · exact crash_finishes.serves
  · exact hfail
  · exact crash_finishes.serves
  · refine (Writes.setClt (by exact fun _ => ⟨rfl, rfl, rfl, rfl⟩)).andThen fun _ => ?_
    split
    · exact hfail
    · refine (Writes.setClt (by exact fun _ => ⟨rfl, rfl, rfl, rfl⟩)).andThen fun _ => ?_
      split
      · exact hfail
      · split
        · exact hfail
        · exact hset _ (by exact fun _ => ⟨rfl, rfl, rfl, rfl⟩)
  · exact hset _ (by exact fun _ => ⟨rfl, rfl, rfl, rfl⟩)
  · exact hset _ (by exact fun _ => ⟨rfl, rfl, rfl, rfl⟩)

theorem proxyResolved_serves (res : Option (List Addrinfo)) (net : NetEnv) :
    Serves (proxyResolved res net) := by
  refine (Writes.setClt (by exact fun _ => ⟨rfl, rfl, rfl, rfl⟩)).andThen fun _ =>
    Serves.get fun y => ?_
  rcases res with _ | addrs
  · rcases y.clt.cltPc with _ | pc
    · exact crash_finishes.serves
    · exact (failWith_finishes _ _).serves
  · exact (Writes.setClt (by exact fun _ => ⟨rfl, rfl, rfl, rfl⟩)).andThen fun _ =>
      proxyConnect_serves net

theorem proxyError_finishes (err : Nat) : Finishes (proxyError err) := by
  rw [proxyError]
  generalize (if err &&& evbufferEof = 0 then (1 : UInt8) else 0) = status
  have hend := endRequest_finishes status requestComplete
  refine Finishes.get fun y => ?_
  dsimp only
  split
  · exact (emit_writes _).finishes fun _ => (emit_writes _).finishes fun _ => hend
  · split
    · exact (Writes.setClt (by exact fun _ => ⟨rfl, rfl, rfl, rfl⟩)).finishes fun _ =>
        (emit_writes _).finishes fun _ => hend
    · exact hend

theorem translateLoop_serves (oob : Bytes → Bytes) : ∀ n, Serves (translateLoop oob n)
  | 0 => Writes.pure.serves
  | n + 1 => by
    refine Serves.get fun y => ?_
    rcases y.clt.cltBev with _ | bev
    · exact Writes.pure.serves
    · dsimp only
      rcases readlnCrlf bev.input with _ | ⟨line, rest⟩
      · exact Writes.pure.serves
      · refine (Writes.setClt (by exact fun _ => ⟨rfl, rfl, rfl, rfl⟩)).andThen fun _ => ?_
        rcases gemtextTranslateLine y.clt (cstrPast (oob bev.input) line).1
          (cstrPast (oob bev.input) line).2 with _ | ⟨ps, tr⟩
        · exact crash_finishes.serves
        · exact (Writes.setClt (by exact fun _ => ⟨rfl, rfl, rfl, rfl⟩)).andThen fun _ =>
            (emit_writes _).andThen fun _ => translateLoop_serves oob n

theorem proxyReadBody_serves (oob : Bytes → Bytes) : Serves (proxyReadBody oob) := by
  refine Serves.get fun y => ?_
  split
  · refine Serves.get fun z => ?_
    rcases z.clt.cltBev with _ | bev
    · exact Writes.pure.serves
    · exact translateLoop_serves oob _
  · exact cltWriteBufferevent_writes.serves

theorem proxyReadSuccess_serves (oob : Bytes → Bytes) (mime : Bytes) :
    Serves (proxyReadSuccess oob mime) := by
  refine Serves.get fun y =>
    (Writes.setClt (by exact fun _ => ⟨rfl, rfl, rfl, rfl⟩)).andThen fun _ => ?_
  rcases (parseMime y.clt.cltTranslate mime).2 with _ | lang
  · exact (failWith_finishes _ _).serves
  · refine (emit_writes _).andThen fun _ =>
      (Writes.setClt (by exact fun _ => ⟨rfl, rfl, rfl, rfl⟩)).andThen fun _ => ?_
    split
    · exact (emit_writes _).andThen fun _ => proxyReadBody_serves oob
    · exact cltFlush_writes.andThen fun _ => proxyReadBody_serves oob

theorem upstreamFailure_finishes (code : Nat) (reason : Bytes) :
    Finishes (upstreamFailure code reason) :=
  (emit_writes _).finishes fun _ => Finishes.get fun _ =>
    (emit_writes _).finishes fun _ => endRequest_finishes _ _

theorem proxyReadStatus_serves (oob : Bytes → Bytes) (behind : Bytes) (h0 h1 : UInt8)
    (rest : Bytes) : Serves (proxyReadStatus oob behind h0 h1 rest) := by
  refine Serves.get fun y => ?_
  dsimp only
  split
  · exact (emit_writes _).andThen fun _ => (emit_writes _).andThen fun _ =>
      (endRequest_finishes _ _).serves
  split
  · exact proxyReadSuccess_serves oob _
  split
  · rcases proxyResurl y.clt (cstrPast behind rest).1 (cstrPast behind rest).2 1025 with
      _ | _ | buf
    · exact crash_finishes.serves
    · exact (upstreamFailure_finishes _ _).serves
    · exact (emit_writes _).andThen fun _ => (endRequest_finishes _ _).serves
  · exact (upstreamFailure_finishes _ _).serves

theorem proxyRead_serves (oob : Bytes → Bytes) : Serves (proxyRead oob) := by
  refine Serves.get fun y => ?_
  rcases y.clt.cltBev with _ | bev
  · exact Writes.pure.serves
  · dsimp only
    split
    · exact proxyReadBody_serves oob
    · rcases readlnCrlfStrict bev.input with _ | ⟨hdr, rest⟩
      · dsimp only
        split
        · exact (proxyError_finishes _).serves
        · exact Writes.pure.serves
      · refine (Writes.setClt (by exact fun _ => ⟨rfl, rfl, rfl, rfl⟩)).andThen fun _ => ?_
        split
        · split
          · exact proxyReadStatus_serves oob _ _ _ _
          · exact (proxyError_finishes _).serves
        · exact (proxyError_finishes _).serves

theorem upstreamRead_serves (oob : Bytes → Bytes) (bytes : Bytes) :
    Serves (upstreamRead oob bytes) := by
  refine Serves.get fun y => ?_
  rcases y.clt.cltBev with _ | bev
  · exact Writes.pure.serves
  · exact (Writes.setClt (by exact fun _ => ⟨rfl, rfl, rfl, rfl⟩)).andThen fun _ =>
      proxyRead_serves oob

end Galileo
