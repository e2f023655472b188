import Galileo.Lib.Feed
import Galileo.Proof.Framing

/-!
# Where the stream is cut

The web server's bytes arrive in pieces, and `fcgi_read` is called after each. Whether the pieces
matter comes down to one turn of its loop: does it do the same when more bytes are already there?

The callbacks the loop calls do not look at the input at all (`Commutes`). The branches of the
dispatcher take a record's content, for which `fcgi_read` has waited, and then the **padding**, for
which it has not; and `fcgi_parse_params` reads behind the record after a pair it counts wrongly.
A turn that does neither is *calm*, and over calm turns the arrivals do not matter
(`arrivals_independent`): two connections that got the same bytes are in the same state, trace
and all.
-/

set_option autoImplicit false

namespace Galileo

open Lib Lib.FastCgi Lib.Feed Relation

/-! ## Callbacks do not look at the input -/

section Blind

variable (t : Bytes)

/-- More bytes arrive while code runs for a client. -/
def Ctx.arrive (x : Ctx) : Ctx := { x with fcgi := x.fcgi.arrive t }

theorem arrive_of_open {f : Fcgi} (h : f.closed = false) :
    f.arrive t = { f with input := f.input ++ t } := by
  rw [Fcgi.arrive, if_neg (by simp [h])]

theorem arrive_of_closed {f : Fcgi} (h : f.closed = true) : f.arrive t = f := by
  rw [Fcgi.arrive, if_pos h]

theorem fcgiError_arrive (f : Fcgi) : fcgiError (f.arrive t) = (fcgiError f).arrive t := by
  rw [arrive_of_closed t (f := fcgiError f) rfl, Fcgi.arrive]
  split <;> rfl

theorem asr_arrive (f : Fcgi) : (f.arrive t).asr = f.asr := by
  cases h : f.closed <;> simp [Fcgi.arrive, h]

theorem find_arrive (f : Fcgi) (j : UInt32) : (f.arrive t).find j = f.find j := by
  cases h : f.closed <;> simp [Fcgi.arrive, Fcgi.find, h]

theorem observe_arrive (f : Fcgi) (o : Obs) :
    (f.arrive t).observe o = (f.observe o).arrive t := by
  cases h : f.closed <;> simp [Fcgi.arrive, Fcgi.observe, h]

theorem store_arrive (f : Fcgi) (c : Client) : (f.arrive t).store c = (f.store c).arrive t := by
  cases h : f.closed <;> simp [Fcgi.arrive, Fcgi.store, h]

theorem buffereventWrite_commutes (data : Bytes) :
    Prog.Commutes (Fcgi.arrive · t) (buffereventWrite data) := by
  intro f
  rcases f with ⟨clients, toread, want, padding, type, recId, keep, done, input, output, sent,
    _ | _, _ | ⟨_ | _, ws⟩, asr, trace, next⟩ <;> rfl

theorem dowrite_commutes (id : UInt32) (data : Bytes) :
    Prog.Commutes (Fcgi.arrive · t) (dowrite id data) := by
  intro f
  have h := ((buffereventWrite_commutes t [1, stdout, byte1 id.toNat, byte0 id.toNat,
    byte1 data.length, byte0 data.length, 0, 0]).bind
      fun _ => buffereventWrite_commutes t data) f
  simp only [dowrite, h]
  generalize ((buffereventWrite _ >>= fun _ => buffereventWrite data : Prog Fcgi Unit) f) = r
  obtain ⟨_ | _, g⟩ := r
  · exact congrArg (Prod.mk _) (fcgiError_arrive t g)
  · exact congrArg (Prod.mk _) (observe_arrive t g _)

theorem cltWrite_commutes (id : UInt32) (data : Bytes) :
    Prog.Commutes (Fcgi.arrive · t) (cltWrite id data) := by
  suffices h : ∀ n data, Prog.Commutes (Fcgi.arrive · t) (cltWriteLoop id n data) from h _ _
  intro n
  induction n with
  | zero => exact fun _ => .pure ()
  | succ n ih =>
    intro data
    rw [cltWriteLoop]
    split
    · exact .pure ()
    · exact (dowrite_commutes t id _).bind fun _ => ih _

theorem templateFlush_commutes (id : UInt32) :
    Prog.Commutes (fun x : Template × Fcgi => (x.1, x.2.arrive t))
      (templateFlush (cltWrite id)) := by
  intro x
  simp only [templateFlush]
  split
  · rfl
  · rw [cltWrite_commutes t id x.1.tpBuf x.2]
    generalize cltWrite id x.1.tpBuf x.2 = r
    obtain ⟨_ | _, g⟩ := r <;> rfl

theorem tpWrite_commutes (id : UInt32) (str : Bytes) :
    Prog.Commutes (fun x : Template × Fcgi => (x.1, x.2.arrive t)) (tpWrite (cltWrite id) str) := by
  rw [tpWrite_eq_each]
  refine Prog.Commutes.each (fun b => ?_) str
  refine Prog.Commutes.get (fun _ => rfl) fun x => ?_
  have hcopy : Prog.Commutes (fun x : Template × Fcgi => (x.1, x.2.arrive t))
      (Prog.modify fun x => (x.1.copy [b], x.2)) := .modify fun _ => rfl
  split
  · exact (templateFlush_commutes t id).bind fun _ => hcopy
  · exact hcopy

theorem onTp_commutes {m : TpM Fcgi Unit}
    (h : Prog.Commutes (fun x : Template × Fcgi => (x.1, x.2.arrive t)) m) :
    Prog.Commutes (Ctx.arrive t) (onTp m) :=
  .zoom (fun _ => rfl) (fun _ _ => rfl) h

theorem onFcgi_commutes {m : Prog Fcgi Unit} (h : Prog.Commutes (Fcgi.arrive · t) m) :
    Prog.Commutes (Ctx.arrive t) (onFcgi m) :=
  .zoom (fun _ => rfl) (fun _ _ => rfl) h

theorem setClt_commutes (g : Client → Client) : Prog.Commutes (Ctx.arrive t) (setClt g) :=
  .modify fun _ => rfl

theorem emit_commutes (ps : List Piece) : Prog.Commutes (Ctx.arrive t) (emit ps) := by
  refine .get (fun _ => rfl) fun x => onTp_commutes t ?_
  rw [render_eq_tpWrite]
  exact tpWrite_commutes t _ _

theorem cltFlush_commutes : Prog.Commutes (Ctx.arrive t) cltFlush :=
  .get (fun _ => rfl) fun _ => onTp_commutes t (templateFlush_commutes t _)

theorem fcgiSendEndReq_commutes (id : Nat) (as ps : UInt8) :
    Prog.Commutes (Fcgi.arrive · t) (fcgiSendEndReq id as ps) :=
  (buffereventWrite_commutes t _).bind fun _ => (buffereventWrite_commutes t _).bind fun _ =>
    .modify fun f => observe_arrive t f _

theorem endRequest_commutes (status proto : UInt8) :
    Prog.Commutes (Ctx.arrive t) (endRequest status proto) := by
  refine (cltFlush_commutes t).bind fun _ x => ?_
  simp only [Prog.get_bind, Ctx.arrive]
  rw [fcgiSendEndReq_commutes t _ status proto x.fcgi]
  generalize fcgiSendEndReq x.clt.cltId.toNat status proto x.fcgi = r
  obtain ⟨_ | _, g⟩ := r
  · simp only [Prog.modify_bind, Prog.fail_run, fcgiError_arrive]
  · simp only [Prog.modify_run, Fcgi.observe, Fcgi.remove]
    rcases g with ⟨clients, toread, want, padding, type, recId, _ | _, done, input, output, sent,
      _ | _, ws, asr, trace, next⟩ <;> rfl

theorem fcgiEndRequest_commutes (status : UInt8) :
    Prog.Commutes (Ctx.arrive t) (fcgiEndRequest status) := endRequest_commutes t _ _

theorem failWith_commutes (status : Nat) (reason : String) :
    Prog.Commutes (Ctx.arrive t) (failWith status reason) :=
  (emit_commutes t _).bind fun _ => .get (fun _ => rfl) fun _ =>
    (emit_commutes t _).bind fun _ => fcgiEndRequest_commutes t 1

theorem startResolver_commutes : Prog.Commutes (Ctx.arrive t) startResolver := by
  have hasr : ∀ rest, Prog.Commutes (Ctx.arrive t)
      (onFcgi (Prog.modify fun f => { f with asr := rest })) := fun rest =>
    onFcgi_commutes t (.modify fun f => by cases h : f.closed <;> simp [Fcgi.arrive, h])
  refine .get (fun x => ?_) fun x => ?_
  · simp only [Ctx.arrive, asr_arrive]
  · rcases x.fcgi.asr with _ | ⟨_ | _ | _, rest⟩
    · exact setClt_commutes t _
    · exact (hasr rest).bind fun _ => setClt_commutes t _
    · exact (hasr rest).bind fun _ => endRequest_commutes t _ _
    · exact (hasr rest).bind fun _ => (setClt_commutes t _).bind fun _ => endRequest_commutes t _ _

/-- `proxy_start_request` does not look at the input. -/
theorem proxyStartRequest_commutes (env : Env) :
    Prog.Commutes (Ctx.arrive t) (proxyStartRequest env) := by
  refine Prog.Commutes.bind (.modify fun x => ?_) fun _ => .get (fun _ => rfl) fun x => ?_
  · simp only [Ctx.arrive, observe_arrive]
  · rcases x.clt.cltPathInfo with _ | path
    · exact failWith_commutes t _ _
    · refine (setClt_commutes t _).bind fun _ => ?_
      rcases proxyMatch env x.clt.cltServerName with _ | pc
      · exact failWith_commutes t _ _
      · dsimp only
        split
        · exact failWith_commutes t _ _
        · rcases x.clt.cltBody with _ | body
          · exact startResolver_commutes t
          · exact (emit_commutes t _).bind fun _ => fcgiEndRequest_commutes t 1

theorem withClient_arrive {m : CltM Unit} (hm : Prog.Commutes (Ctx.arrive t) m) (id : UInt32)
    (f : Fcgi) :
    withClient id m (f.arrive t) = ((withClient id m f).1, (withClient id m f).2.arrive t) := by
  simp only [withClient, find_arrive]
  cases f.find id with
  | none => rfl
  | some c =>
    dsimp only
    rw [show (⟨f.arrive t, c⟩ : Ctx) = Ctx.arrive t ⟨f, c⟩ from rfl, hm ⟨f, c⟩]
    dsimp only [Ctx.arrive]
    rw [store_arrive]

end Blind

/-! ## Calm turns -/

/-- Parameters for this client are counted right. -/
def Fcgi.CalmFor (env : Env) (stale : Bytes) (f : Fcgi) : Option Client → Prop
  | none => True
  | some c =>
      f.fcgType = params → (ParamSt.mk f.fcgToread (f.input ++ stale) c).overruns env = false

/-- The turn takes nothing that has not arrived, and parameters are counted right. -/
def Fcgi.Calm (env : Env) (stale : Bytes) (f : Fcgi) : Prop :=
  f.fcgWant = .body → sizeT f.fcgToread + f.fcgPadding ≤ f.input.length ∧
    f.CalmFor env stale (f.find f.fcgRecId.toUInt32)

instance (env : Env) (stale : Bytes) (f : Fcgi) :
    (clt : Option Client) → Decidable (f.CalmFor env stale clt)
  | none => inferInstanceAs (Decidable True)
  | some _ => inferInstanceAs (Decidable (_ → _))

instance (env : Env) (stale : Bytes) (f : Fcgi) : Decidable (f.Calm env stale) :=
  inferInstanceAs (Decidable (_ → _))

section Branches

variable {env : Env} {stale stale' t : Bytes} {f : Fcgi} {n : Nat}

theorem nextRecord_arrive (h : f.closed = true ∨ f.fcgPadding ≤ f.input.length) :
    nextRecord (f.arrive t) = (nextRecord f).arrive t := by
  cases hc : f.closed with
  | true => simp [Fcgi.arrive, nextRecord, hc]
  | false =>
    have hpad := h.resolve_left (by simp [hc])
    simp [Fcgi.arrive, nextRecord, hc, evbufferDrain, List.drop_append_of_le_length hpad]

theorem afterCall_arrive {r : Option Unit × Fcgi} (h : Kept f r)
    (hpad : f.fcgPadding ≤ f.input.length) :
    (afterCall (r.1, r.2.arrive t)).fcgi = (afterCall r).fcgi.arrive t := by
  obtain ⟨_ | _, g⟩ := r
  · rfl
  · rcases h with ⟨h, -⟩ | ⟨-, -, hin, hp⟩
    · cases h
    · exact nextRecord_arrive (.inr (by rw [hin, hp]; exact hpad))

/-- The start of a request, and what follows it. -/
theorem start_arrive (env : Env) (f : Fcgi) (c : Client)
    (hpad : f.fcgPadding ≤ f.input.length) :
    (afterCall ((proxyStartRequest env ⟨f.arrive t, c⟩).1,
        (proxyStartRequest env ⟨f.arrive t, c⟩).2.fcgi.store
          (proxyStartRequest env ⟨f.arrive t, c⟩).2.clt)).fcgi
      = (afterCall ((proxyStartRequest env ⟨f, c⟩).1,
          (proxyStartRequest env ⟨f, c⟩).2.fcgi.store
            (proxyStartRequest env ⟨f, c⟩).2.clt)).fcgi.arrive t := by
  rw [show (⟨f.arrive t, c⟩ : Ctx) = Ctx.arrive t ⟨f, c⟩ from rfl,
    proxyStartRequest_commutes t env ⟨f, c⟩]
  dsimp only [Ctx.arrive]
  rw [store_arrive]
  exact afterCall_arrive (start_kept env f c) hpad

theorem evbufferRemove_append {k : Nat} {src : Bytes} (h : k ≤ src.length) (t : Bytes) :
    evbufferRemove k (src ++ t) = ((evbufferRemove k src).1, (evbufferRemove k src).2 ++ t) := by
  simp only [evbufferRemove, List.append_assoc, List.take_append_of_le_length h,
    List.drop_append_of_le_length h]

theorem insert_of_find_none {c : Client} (h : f.find c.cltId = none) :
    f.insert c = { f with fcgClients := c :: f.fcgClients } := by
  rw [Fcgi.insert, if_neg (by simp [h])]

theorem readBeginBody_arrive (hopen : f.closed = false) (hpad : f.fcgPadding ≤ f.input.length)
    (role1 role0 flags : UInt8) :
    (readBeginBody role1 role0 flags (f.arrive t)).fcgi
      = (readBeginBody role1 role0 flags f).fcgi.arrive t := by
  by_cases hrole : cat role0 role1 ≠ responder
  · rw [readBeginBody, readBeginBody, if_pos hrole, if_pos hrole,
      show (f.arrive t).fcgRecId = f.fcgRecId by simp [Fcgi.arrive, hopen],
      fcgiSendEndReq_commutes t _ 1 unknownRole f]
    rcases fcgiSendEndReq_cases f.fcgRecId.toNat 1 unknownRole f with
      ⟨ws, -, h⟩ | ⟨ws, out, -, -, -, h⟩ <;> rw [h]
    · exact nextRecord_arrive (.inr hpad)
    · exact fcgiError_arrive t _
  · have hdrop : (f.input ++ t).drop f.fcgPadding = f.input.drop f.fcgPadding ++ t :=
      List.drop_append_of_le_length hpad
    rw [arrive_of_open t hopen, readBeginBody, readBeginBody, if_neg hrole, if_neg hrole]
    split
    · rfl
    · dsimp only
      cases hfind : f.find f.fcgRecId.toUInt32 with
      | some c =>
        rw [show Fcgi.find { f with input := f.input ++ t } f.fcgRecId.toUInt32 = some c from hfind]
        simp [Flow.fcgi, nextRecord, evbufferDrain, Fcgi.arrive, hopen, hdrop]
      | none =>
        rw [show Fcgi.find { f with input := f.input ++ t } f.fcgRecId.toUInt32 = none from hfind]
        dsimp only
        rw [insert_of_find_none (by exact hfind), insert_of_find_none (by exact hfind)]
        simp [Flow.fcgi, nextRecord, evbufferDrain, Fcgi.arrive, Fcgi.observe, hopen, hdrop]

variable (hopen : f.closed = false) (hn : f.fcgToread = n)
  (hlen : n + f.fcgPadding ≤ f.input.length)

include hopen hn hlen

theorem readBegin_arrive : (readBegin (f.arrive t)).fcgi = (readBegin f).fcgi.arrive t := by
  have htoread : (f.arrive t).fcgToread = f.fcgToread := by simp [Fcgi.arrive, hopen]
  by_cases h8 : f.fcgToread = 8
  · obtain ⟨b0, b1, b2, b3, b4, b5, b6, b7, rest, hin⟩ :=
      exists_eight (show 8 ≤ f.input.length by omega)
    have hpad : f.fcgPadding ≤ rest.length := by
      rw [hin] at hlen
      simp only [List.length_cons] at hlen
      omega
    have hrest := readBeginBody_arrive (t := t) (f := { f with input := rest }) hopen hpad b0 b1 b2
    have hin' : (f.arrive t).input
        = b0 :: b1 :: b2 :: b3 :: b4 :: b5 :: b6 :: b7 :: (rest ++ t) := by
      simp [Fcgi.arrive, hopen, hin]
    rw [readBegin, readBegin, htoread, if_neg (not_not.mpr h8), hin', hin]
    simp only [if_neg (not_not.mpr h8)]
    rw [← hrest]
    simp [Fcgi.arrive, hopen]
  · rw [readBegin, readBegin, htoread, if_pos h8, if_pos h8]
    exact fcgiError_arrive t f

variable (hmax : n ≤ 65535)

include hmax

theorem skip_arrive : nextRecord (skipContent (f.arrive t))
    = (nextRecord (skipContent f)).arrive t := by
  have hsize : sizeT f.fcgToread = n := by rw [hn, sizeT_natCast (by omega)]
  have hskip : skipContent (f.arrive t) = (skipContent f).arrive t := by
    simp [Fcgi.arrive, skipContent, hopen, evbufferDrain, hsize,
      List.drop_append_of_le_length (show n ≤ f.input.length by omega)]
  rw [hskip]
  refine nextRecord_arrive (.inr ?_)
  show f.fcgPadding ≤ (f.input.drop (sizeT f.fcgToread)).length
  rw [hsize, List.length_drop]
  omega

theorem readAbort_arrive : (readAbort (f.arrive t)).fcgi = (readAbort f).fcgi.arrive t := by
  have hid : (f.arrive t).fcgRecId = f.fcgRecId := by simp [Fcgi.arrive, hopen]
  simp only [readAbort, find_arrive, hid]
  cases hfind : f.find f.fcgRecId.toUInt32 with
  | none => exact skip_arrive hopen hn hlen hmax
  | some c =>
    dsimp only
    rw [withClient_arrive t (fcgiEndRequest_commutes t 1)]
    exact afterCall_arrive ((endRequest_finishes 1 requestComplete).serves.kept hfind) (by omega)

theorem readStdin_arrive (env : Env) :
    (readStdin env (f.arrive t)).fcgi = (readStdin env f).fcgi.arrive t := by
  have hid : (f.arrive t).fcgRecId = f.fcgRecId := by simp [Fcgi.arrive, hopen]
  have htoread : (f.arrive t).fcgToread = f.fcgToread := by simp [Fcgi.arrive, hopen]
  simp only [readStdin, find_arrive, hid]
  cases hfind : f.find f.fcgRecId.toUInt32 with
  | none => exact skip_arrive hopen hn hlen hmax
  | some c =>
    dsimp only
    split
    · exact skip_arrive hopen hn hlen hmax
    · have hfind' : (f.arrive t).find f.fcgRecId.toUInt32 = some c := by rw [find_arrive, hfind]
      rw [withClient_run hfind, withClient_run hfind']
      by_cases h0 : f.fcgToread = 0
      · rw [fcgiParseForm_empty env c h0, fcgiParseForm_empty env c (htoread.trans h0)]
        exact start_arrive env f _ (by omega)
      · have hsize : sizeT f.fcgToread = n := by rw [hn, sizeT_natCast (by omega)]
        have hin : (f.arrive t).input = f.input ++ t := by simp [Fcgi.arrive, hopen]
        rw [fcgiParseForm_chunk env c h0, fcgiParseForm_chunk env c (by rw [htoread]; exact h0),
          htoread, hsize, hin, evbufferRemove_append (by omega)]
        simp only [afterCall, Flow.fcgi, arrive_of_open t hopen]
        rw [← nextRecord_arrive]
        · simp [Fcgi.arrive, Fcgi.store, hopen]
        · refine .inr ?_
          show f.fcgPadding ≤ (f.input.drop (min 2047 n)).length
          rw [List.length_drop]
          omega

theorem readParams_arrive
    (hcalm : f.fcgType = params ∧ f.CalmFor env stale (f.find f.fcgRecId.toUInt32))
    (hcalm' : (f.arrive t).CalmFor env stale' (f.find f.fcgRecId.toUInt32)) :
    (readParams env stale' (f.arrive t)).fcgi = (readParams env stale f).fcgi.arrive t := by
  have hid : (f.arrive t).fcgRecId = f.fcgRecId := by simp [Fcgi.arrive, hopen]
  have htoread : (f.arrive t).fcgToread = f.fcgToread := by simp [Fcgi.arrive, hopen]
  have htype : (f.arrive t).fcgType = f.fcgType := by simp [Fcgi.arrive, hopen]
  have hin : (f.arrive t).input = f.input ++ t := by simp [Fcgi.arrive, hopen]
  cases hfind : f.find f.fcgRecId.toUInt32 with
  | none =>
    simp only [readParams, find_arrive, hid, hfind]
    exact skip_arrive hopen hn hlen hmax
  | some c =>
    have hfind' : (f.arrive t).find (f.arrive t).fcgRecId.toUInt32 = some c := by
      rw [find_arrive, hid, hfind]
    rw [hfind] at hcalm hcalm'
    have hc := hcalm.2 hcalm.1
    have hc' := hcalm' (htype.trans hcalm.1)
    by_cases h0 : f.fcgToread = 0
    · rw [readParams, hfind', readParams, hfind]
      simp only [htoread, if_pos h0, hid]
      split
      · rw [withClient_arrive t (proxyStartRequest_commutes t env), withClient_run hfind]
        exact afterCall_arrive (start_kept env f c) (by omega)
      · exact nextRecord_arrive (.inr (by omega))
    · obtain ⟨r, hr, -, hread⟩ := readParams_content env stale hfind h0
      obtain ⟨r', hr', -, hread'⟩ :=
        readParams_content env stale' hfind' (by rw [htoread]; exact h0)
      rw [hn] at hr hc
      rw [htoread, hin, hn] at hr' hc'
      have hle : n ≤ f.input.length := by omega
      have htake : (f.input ++ t).take n = f.input.take n := List.take_append_of_le_length hle
      have hdrop : (f.input ++ t).drop n = f.input.drop n ++ t := List.drop_append_of_le_length hle
      have hparse := parse_content hmax hle hc
      have hparse' := parse_content hmax (by rw [List.length_append]; omega) hc'
      rw [htake, hdrop] at hparse'
      rw [hread, hread']
      rw [← hr] at hparse
      rw [← hr'] at hparse'
      generalize fcgiParseParams env ⟨n, f.input.take n, c⟩ = r₀ at hparse hparse'
      rcases hparse with ⟨hf, hf₀⟩ | ⟨d, hd, hd₀⟩ <;>
        rcases hparse' with ⟨hf', hf₀'⟩ | ⟨d', hd', hd₀'⟩
      · simp only [hf, hf', Bool.false_eq_true, if_false]
        exact fcgiError_arrive t f
      · exact absurd (hf₀.symm.trans (congrArg Prod.fst hd₀')) (by simp)
      · exact absurd (hf₀'.symm.trans (congrArg Prod.fst hd₀)) (by simp)
      · have hdd : d' = d := by simpa [hd₀] using hd₀'.symm
        have hused : (f.input ++ stale).length - (f.input.drop n ++ stale).length = n := by
          simp only [List.length_append, List.length_drop]
          omega
        have hused' : (f.input ++ t ++ stale').length - (f.input.drop n ++ t ++ stale').length
            = n := by
          simp only [List.length_append, List.length_drop]
          omega
        rw [hd, hd', hdd, hin]
        simp only [if_true, Flow.fcgi, hused, hused', hdrop]
        rw [← nextRecord_arrive]
        · simp [Fcgi.arrive, Fcgi.store, hopen]
        · refine .inr ?_
          show f.fcgPadding ≤ (f.input.drop n).length
          rw [List.length_drop]
          omega

/-- **A record that is taken calmly is taken in the same way when more has arrived.** -/
theorem readBody_arrive (hcalm : f.CalmFor env stale (f.find f.fcgRecId.toUInt32))
    (hcalm' : (f.arrive t).CalmFor env stale' (f.find f.fcgRecId.toUInt32)) :
    (readBody env stale' (f.arrive t)).fcgi = (readBody env stale f).fcgi.arrive t := by
  have hsize : sizeT f.fcgToread = n := by rw [hn, sizeT_natCast (by omega)]
  have htype : (f.arrive t).fcgType = f.fcgType := by simp [Fcgi.arrive, hopen]
  have hrecord : (f.arrive t).record = f.record := by
    simp [Fcgi.record, Fcgi.arrive, hopen, hsize,
      List.take_append_of_le_length (show n ≤ f.input.length by omega)]
  rw [readBody_eq, readBody_eq, hrecord, observe_arrive, htype]
  split_ifs with hbegin hparams hstdin habort
  · exact readBegin_arrive (f := f.observe f.record) hopen hn hlen
  · refine readParams_arrive (f := f.observe f.record) hopen hn hlen hmax ⟨hparams, hcalm⟩ ?_
    rw [← observe_arrive]
    exact hcalm'
  · exact readStdin_arrive (f := f.observe f.record) hopen hn hlen hmax env
  · exact readAbort_arrive (f := f.observe f.record) hopen hn hlen hmax
  · exact skip_arrive (f := f.observe f.record) hopen hn hlen hmax

end Branches

/-! ## One turn -/

/-- What the loop waits for has arrived. -/
def Fcgi.Ready (f : Fcgi) : Prop := f.closed = false ∧ sizeT f.fcgToread ≤ f.input.length

instance (f : Fcgi) : Decidable f.Ready := inferInstanceAs (Decidable (_ ∧ _))

/-- What the loop waits for is a header, or the content of a record whose header it has read. A
connection that is gone has no input. -/
structure Fcgi.Sound (f : Fcgi) : Prop where
  gone : f.closed = true → f.input = []
  waits : f.closed = false → f.fcgWant = .header ∧ f.fcgToread = 8 ∨
    f.fcgWant = .body ∧ ∃ n : Nat, n ≤ 65535 ∧ f.fcgToread = n

/-- Every turn makes this smaller: a header takes bytes, and after a content comes a header. -/
def Fcgi.left (f : Fcgi) : Nat := 2 * f.input.length + if f.fcgWant = .body then 1 else 0

/-- How a turn that takes place ends: before the next record, or with the connection. -/
def Flow.Proceeds (r : Flow) : Prop :=
  (∃ g, r = .next (nextRecord g)) ∨ ∃ g, r = .ret g ∧ g.closed = true

section Turns

variable {env : Env} {stale stale' t : Bytes} {f : Fcgi}

theorem afterCall_proceeds {r : Option Unit × Fcgi} (h : Kept f r) : (afterCall r).Proceeds := by
  obtain ⟨_ | _, g⟩ := r
  · rcases h with ⟨-, hclosed, -⟩ | ⟨h, -⟩
    · exact .inr ⟨g, rfl, hclosed⟩
    · cases h
  · exact .inl ⟨g, rfl⟩

theorem readBegin_proceeds {n : Nat} (hn : f.fcgToread = n) (hlen : n ≤ f.input.length) :
    (readBegin f).Proceeds := by
  have hcases := readBegin_cases f
  generalize readBegin f = r at hcases ⊢
  cases hcases with
  | waits h8 h => omega
  | badSize => exact .inr ⟨_, rfl, rfl⟩
  | refused => exact .inl ⟨_, rfl⟩
  | refusedTorn => exact .inr ⟨_, rfl, rfl⟩
  | notKept => exact .inr ⟨_, rfl, rfl⟩
  | again => exact .inl ⟨_, rfl⟩
  | accepted => exact .inl ⟨_, rfl⟩

theorem readParams_proceeds (env : Env) (stale : Bytes) (f : Fcgi) :
    (readParams env stale f).Proceeds := by
  cases hfind : f.find f.fcgRecId.toUInt32 with
  | none =>
    rw [readParams, hfind]
    exact .inl ⟨_, rfl⟩
  | some c =>
    by_cases h0 : f.fcgToread = 0
    · rw [readParams, hfind]
      simp only [if_pos h0]
      split
      · rw [withClient_run hfind]
        exact afterCall_proceeds (start_kept env f c)
      · exact .inl ⟨_, rfl⟩
    · obtain ⟨r, -, -, hread⟩ := readParams_content env stale hfind h0
      rw [hread]
      split
      · exact .inl ⟨_, rfl⟩
      · exact .inr ⟨_, rfl, rfl⟩

theorem readStdin_proceeds (env : Env) (f : Fcgi) : (readStdin env f).Proceeds := by
  rw [readStdin]
  cases hfind : f.find f.fcgRecId.toUInt32 with
  | none => exact .inl ⟨_, rfl⟩
  | some c =>
    dsimp only
    split
    · exact .inl ⟨_, rfl⟩
    · rw [withClient_run hfind]
      by_cases h0 : f.fcgToread = 0
      · rw [fcgiParseForm_empty env c h0]
        exact afterCall_proceeds (start_kept env f _)
      · rw [fcgiParseForm_chunk env c h0]
        exact .inl ⟨_, rfl⟩

theorem readAbort_proceeds (f : Fcgi) : (readAbort f).Proceeds := by
  rw [readAbort]
  cases hfind : f.find f.fcgRecId.toUInt32 with
  | none => exact .inl ⟨_, rfl⟩
  | some c =>
    exact afterCall_proceeds ((endRequest_finishes 1 requestComplete).serves.kept hfind)

theorem readBody_proceeds (env : Env) (stale : Bytes) {n : Nat} (hn : f.fcgToread = n)
    (hlen : n ≤ f.input.length) : (readBody env stale f).Proceeds := by
  rw [readBody_eq]
  split_ifs
  · exact readBegin_proceeds (f := f.observe f.record) hn hlen
  · exact readParams_proceeds env stale _
  · exact readStdin_proceeds env _
  · exact readAbort_proceeds _
  · exact .inl ⟨_, rfl⟩

theorem readStep_of_ready (hready : f.Ready) :
    readStep env stale f = match f.fcgWant with
      | .header => readHeader f
      | .body => readBody env stale f := by
  obtain ⟨hopen, hlen⟩ := hready
  have hgo : ¬ (f.closed || decide (f.input.length < sizeT f.fcgToread)) = true := by
    simpa [hopen] using hlen
  cases hwant : f.fcgWant <;> simp only [readStep, if_neg hgo, hwant]

theorem readStep_of_not_ready (h : ¬ f.Ready) : readStep env stale f = .ret f := by
  rw [readStep, if_pos]
  by_contra hgo
  simp only [Bool.or_eq_true, decide_eq_true_eq, not_or, Bool.not_eq_true, not_lt] at hgo
  exact h hgo

/-- **A turn gets on**: the connection is torn down, or the loop is nearer to its end. -/
theorem readStep_progress (env : Env) (stale : Bytes) (hs : f.Sound) (hready : f.Ready) :
    (∃ g, readStep env stale f = .ret g ∧ g.closed = true ∧ g.input = []) ∨
      ∃ g, readStep env stale f = .next g ∧ g.Sound ∧ g.left < f.left := by
  rw [readStep_of_ready hready]
  obtain ⟨hopen, hlen⟩ := hready
  rcases hs.waits hopen with ⟨hwant, h8⟩ | ⟨hwant, n, hmax, hn⟩
  · obtain ⟨b0, b1, b2, b3, b4, b5, b6, b7, rest, hin⟩ :=
      exists_eight (l := f.input) (by rw [h8] at hlen; exact hlen)
    have hcat := Nat.le_of_lt_succ (cat_lt b5 b4)
    simp only [hwant, readHeader, hin]
    split
    · exact .inl ⟨_, rfl, rfl, rfl⟩
    · refine .inr ⟨_, rfl, ⟨fun h => ?_, fun _ => .inr ⟨rfl, _, hcat, rfl⟩⟩, ?_⟩
      · exact absurd (hopen.symm.trans h) (by simp)
      · simp only [Fcgi.left, hin, hwant, List.length_cons]
        split <;> simp <;> omega
  · rw [hn, sizeT_natCast (by omega)] at hlen
    have htakes := @readBody_takes env stale f n hn hmax hlen
    simp only [hwant]
    rcases readBody_proceeds env stale hn hlen with ⟨g, hg⟩ | ⟨g, hg, hclosed⟩ <;>
      rw [hg] at htakes ⊢
    · have hinput : (nextRecord g).input.length ≤ f.input.length := by
        rcases htakes with ⟨-, h⟩ | ⟨-, used, h, -⟩ <;> rw [Flow.fcgi] at h <;> rw [h]
        · exact Nat.zero_le _
        · rw [List.length_drop]
          omega
      refine .inr ⟨_, rfl, ⟨fun h => ?_, fun _ => .inl ⟨rfl, rfl⟩⟩, ?_⟩
      · rcases htakes with ⟨-, hnil⟩ | ⟨hsame, -⟩
        · exact hnil
        · exact absurd (h.symm.trans (hsame.trans hopen)) (by simp)
      · rw [Fcgi.left, Fcgi.left, hwant, if_pos rfl, if_neg (by simp [nextRecord])]
        omega
    · rcases htakes with ⟨-, hnil⟩ | ⟨hsame, -⟩
      · exact .inl ⟨g, rfl, hclosed, hnil⟩
      · exact absurd (hclosed.symm.trans (hsame.trans hopen)) (by simp)

/-- **A calm turn is the same when more has arrived.** -/
theorem readStep_arrive (hs : f.Sound) (hready : f.Ready) (hcalm : f.Calm env stale)
    (hcalm' : (f.arrive t).Calm env stale') :
    (readStep env stale' (f.arrive t)).fcgi = (readStep env stale f).fcgi.arrive t := by
  obtain ⟨hopen, hlen⟩ := hready
  have hready' : (f.arrive t).Ready := by
    rw [arrive_of_open t hopen]
    exact ⟨hopen, by rw [List.length_append]; exact Nat.le_add_right_of_le hlen⟩
  have hwant' : (f.arrive t).fcgWant = f.fcgWant := by simp [Fcgi.arrive, hopen]
  rw [readStep_of_ready ⟨hopen, hlen⟩, readStep_of_ready hready', hwant']
  rcases hs.waits hopen with ⟨hwant, h8⟩ | ⟨hwant, n, hmax, hn⟩
  · obtain ⟨b0, b1, b2, b3, b4, b5, b6, b7, rest, hin⟩ :=
      exists_eight (l := f.input) (by rw [h8] at hlen; exact hlen)
    have hin' :
        (f.arrive t).input = b0 :: b1 :: b2 :: b3 :: b4 :: b5 :: b6 :: b7 :: (rest ++ t) := by
      simp [Fcgi.arrive, hopen, hin]
    simp only [hwant, readHeader, hin, hin']
    split
    · exact fcgiError_arrive t f
    · simp [Flow.fcgi, Fcgi.arrive, hopen]
  · have hid : (f.arrive t).fcgRecId = f.fcgRecId := by simp [Fcgi.arrive, hopen]
    obtain ⟨hpad, hc⟩ := hcalm hwant
    have hc' := (hcalm' (hwant'.trans hwant)).2
    rw [find_arrive, hid] at hc'
    rw [hn, sizeT_natCast (by omega)] at hpad
    simp only [hwant]
    exact readBody_arrive hopen hn hpad hmax hc hc'

end Turns

/-! ## Arrivals -/

/-- The connection apart from its input, and its input. -/
def Fcgi.parts (f : Fcgi) : Fcgi × Bytes := ({ f with input := [] }, f.input)

/-- What is left to read after a turn. When the connection is gone that is of no interest any
more, and all of it still counts as to be read. -/
def Fcgi.after (g : Fcgi) (input : Bytes) : Fcgi × Bytes :=
  ({ g with input := [] }, if g.closed then input else g.input)

/-- A calm turn of the loop; and of what arrives on a connection that is gone, every byte is
dropped. -/
inductive Reads (env : Env) : Fcgi × Bytes → Fcgi × Bytes → Prop
  | turn {f : Fcgi} {input stale : Bytes} (hs : Fcgi.Sound { f with input := input })
      (hready : Fcgi.Ready { f with input := input })
      (hcalm : Fcgi.Calm env stale { f with input := input }) :
      Reads env (f, input) ((readStep env stale { f with input := input }).fcgi.after input)
  | swallow {f : Fcgi} {b : UInt8} {input : Bytes} (hclosed : f.closed = true) :
      Reads env (f, b :: input) (f, input)

section Arrivals

variable {env : Env} {f g : Fcgi}

theorem parts_injective : Function.Injective Fcgi.parts := by
  rintro ⟨⟩ ⟨⟩ h
  simp only [Fcgi.parts, Prod.mk.injEq, Fcgi.mk.injEq] at h
  simp only [Fcgi.mk.injEq]
  tauto

/-- **Turns do not depend on what stands behind what they take.** -/
theorem reads_natural (env : Env) : Natural (Reads env) := by
  intro s x t p q hp hq
  generalize hx' : x ++ t = x' at hq
  cases hp with
  | @turn _ _ stale hs hready hcalm =>
    have hopen : s.closed = false := hready.1
    cases hq with
    | @turn _ _ stale' _ _ hcalm' =>
      subst hx'
      have harrive : Fcgi.arrive { s with input := x } t = { s with input := x ++ t } := by
        rw [arrive_of_open t (by exact hopen)]
      rw [← harrive] at hcalm' ⊢
      rw [readStep_arrive hs hready hcalm hcalm']
      generalize (readStep env stale { s with input := x }).fcgi = g
      cases h : g.closed <;> simp [Fcgi.after, Fcgi.arrive, h]
    | swallow hclosed => exact absurd (hopen.symm.trans hclosed) (by simp)
  | @swallow _ b input hclosed =>
    cases hq with
    | turn _ hready => exact absurd (hready.1.symm.trans hclosed) (by simp)
    | swallow =>
      obtain ⟨rfl, rfl⟩ := List.cons.inj hx'
      rfl

/-- A connection that is gone drops all that arrives. -/
theorem swallow_all (env : Env) (hclosed : f.closed = true) (input : Bytes) :
    ReflTransGen (Reads env) (f, input) (f, []) := by
  induction input with
  | nil => exact .refl
  | cons b input ih => exact .head (.swallow hclosed) ih

/-- The turn that takes place, on the parts. -/
theorem step_reads {stale : Bytes} (hs : f.Sound) (hready : f.Ready) (hcalm : f.Calm env stale)
    (hgone : (readStep env stale f).fcgi.closed = true → (readStep env stale f).fcgi.input = []) :
    ReflTransGen (Reads env) f.parts (readStep env stale f).fcgi.parts := by
  have hturn : Reads env f.parts ((readStep env stale f).fcgi.after f.input) :=
    Reads.turn (f := { f with input := [] }) hs hready hcalm
  refine .head hturn ?_
  generalize (readStep env stale f).fcgi = g at hgone
  cases h : g.closed with
  | false => simpa [Fcgi.after, Fcgi.parts, h] using ReflTransGen.refl
  | true =>
    have hswallow := swallow_all env (f := { g with input := [] }) h f.input
    simpa [Fcgi.after, Fcgi.parts, h, hgone h] using hswallow

/-- A turn that takes place is calm. -/
def Fcgi.CalmTurn (env : Env) (f : Fcgi) : Event → Prop
  | .read stale => f.Ready → f.Calm env stale
  | _ => True

instance (env : Env) (f : Fcgi) : (e : Event) → Decidable (f.CalmTurn env e)
  | .read _ => inferInstanceAs (Decidable (_ → _))
  | .arrive _ | .resolved _ _ _ | .connect _ _ | .upstream _ _ _ | .upstreamError _ _ | .drained _
  | .error => inferInstanceAs (Decidable True)

/-- `fcgi_read` is called when `p.1` has arrived, and every turn it takes is calm. -/
def Fcgi.CalmCall (env : Env) (f : Fcgi) (p : Bytes × Bytes) : Prop :=
  Run.Steps (step env) (Fcgi.CalmTurn env) (f.arrive p.1)
    (List.replicate (2 * (f.arrive p.1).input.length + 2) (.read p.2))

instance (env : Env) (f : Fcgi) (p : Bytes × Bytes) : Decidable (f.CalmCall env p) :=
  inferInstanceAs (Decidable (Run.Steps _ _ _ _))

/-- Bytes arrive, and `fcgi_read` is called; `p.2` is what its variables hold before they are
written. -/
def arrival (env : Env) (f : Fcgi) (p : Bytes × Bytes) : Fcgi := fcgiRead env p.2 (f.arrive p.1)

/-- Bytes arrive in pieces, and `fcgi_read` is called after each. -/
def arrivals (env : Env) (f : Fcgi) (ps : List (Bytes × Bytes)) : Fcgi :=
  Run.run (arrival env) f ps

theorem step_read (env : Env) (stale : Bytes) (f : Fcgi) :
    step env f (.read stale) = (readStep env stale f).fcgi := by
  rw [step]
  split
  · rw [readStep_of_not_ready fun h => by simp_all [Fcgi.Ready]]
    rfl
  · rfl

/-- **The loop comes to its end**, and its turns lead there. -/
theorem readLoop_reads (stale : Bytes) (k : Nat) (hs : f.Sound) (hk : f.left < k)
    (hcalm : Run.Steps (step env) (Fcgi.CalmTurn env) f (List.replicate k (.read stale))) :
    (readLoop env stale k f).Sound ∧ ¬ (readLoop env stale k f).Ready ∧
      ReflTransGen (Reads env) f.parts (readLoop env stale k f).parts := by
  induction k generalizing f with
  | zero => omega
  | succ k ih =>
    by_cases hready : f.Ready
    · obtain ⟨hturn, hrest⟩ := hcalm
      rw [step_read] at hrest
      have hreads := step_reads hs hready (hturn hready)
      rcases readStep_progress env stale hs hready with
        ⟨g, hg, hclosed, hnil⟩ | ⟨g, hg, hsound, hleft⟩ <;>
        rw [hg] at hreads hrest <;> rw [readLoop, hg]
      · have hgone : g.closed = true → g.input = [] := fun _ => hnil
        refine ⟨⟨hgone, fun h => ?_⟩, fun h => ?_, hreads hgone⟩
        · exact absurd (h.symm.trans hclosed) (by simp)
        · exact absurd (h.1.symm.trans hclosed) (by simp)
      · obtain ⟨h₁, h₂, h₃⟩ := ih hsound (by omega) hrest
        exact ⟨h₁, h₂, (hreads hsound.gone).trans h₃⟩
    · rw [readLoop, readStep_of_not_ready hready]
      exact ⟨hs, hready, .refl⟩

theorem Fcgi.Sound.arrive (hs : f.Sound) (t : Bytes) : (f.arrive t).Sound := by
  cases h : f.closed with
  | true =>
    rw [arrive_of_closed t h]
    exact hs
  | false =>
    rw [arrive_of_open t h]
    exact ⟨fun hc => absurd (h.symm.trans hc) (by simp), hs.waits⟩

/-- One call of `fcgi_read`. -/
theorem arrival_reads (hs : f.Sound) {p : Bytes × Bytes} (hcalm : f.CalmCall env p) :
    (arrival env f p).Sound ∧ ¬ (arrival env f p).Ready ∧
      ReflTransGen (Reads env) (f.parts.1, f.parts.2 ++ p.1) (arrival env f p).parts := by
  have hleft : (f.arrive p.1).left < 2 * (f.arrive p.1).input.length + 2 := by
    rw [Fcgi.left]
    split <;> omega
  obtain ⟨h₁, h₂, h₃⟩ := readLoop_reads p.2 _ (hs.arrive p.1) hleft hcalm
  refine ⟨h₁, h₂, .trans ?_ h₃⟩
  cases h : f.closed with
  | false => simpa [Fcgi.parts, Fcgi.arrive, h] using ReflTransGen.refl
  | true =>
    have hswallow := swallow_all env (f := { f with input := [] }) h p.1
    simpa [Fcgi.parts, Fcgi.arrive, h, hs.gone h] using hswallow

/-- Calls of `fcgi_read` feed the reader. -/
theorem arrivals_fed {ps : List (Bytes × Bytes)} (hs : f.Sound) (hidle : ¬ f.Ready)
    (hcalm : Run.Steps (arrival env) (Fcgi.CalmCall env) f ps) :
    (arrivals env f ps).Sound ∧ ¬ (arrivals env f ps).Ready ∧
      Fed (Reads env) f.parts (ps.map Prod.fst) (arrivals env f ps).parts := by
  induction ps generalizing f with
  | nil => exact ⟨hs, hidle, .done _⟩
  | cons p ps ih =>
    obtain ⟨hcall, hrest⟩ := hcalm
    obtain ⟨hs', hidle', hreads⟩ := arrival_reads hs hcall
    obtain ⟨h₁, h₂, h₃⟩ := ih hs' hidle' hrest
    exact ⟨h₁, h₂, .chunk hreads h₃⟩

/-- When `fcgi_read` has returned, no turn is possible. -/
theorem stuck_of_not_ready (hs : f.Sound) (hidle : ¬ f.Ready) : Stuck (Reads env) f.parts := by
  rintro ⟨g, y'⟩ ⟨x, y, r, hx, hy, h⟩
  simp only [Fcgi.parts] at hx h
  generalize hg : (g, y) = q at h
  cases h with
  | turn _ hready =>
    refine hidle ⟨hready.1, hready.2.trans ?_⟩
    rw [hx, List.length_append]
    exact Nat.le_add_right _ _
  | @swallow _ b input hclosed =>
    rw [hs.gone hclosed] at hx
    cases hx

theorem new_sound (writes : List Bool) (asr : List AsrAnswer) :
    (Fcgi.new writes asr).Sound ∧ ¬ (Fcgi.new writes asr).Ready :=
  ⟨⟨fun _ => rfl, fun _ => .inl ⟨rfl, rfl⟩⟩, fun h => absurd (show 8 ≤ 0 from h.2) (by decide)⟩

/-- **Where the stream is cut does not matter**, as long as every record's padding has arrived when
its content is taken, and parameters are counted right: two connections that got the same bytes
have taken the same records and have the same clients, and both or none of them are torn down. -/
theorem arrivals_independent (env : Env) (writes : List Bool) (asr : List AsrAnswer)
    (ps qs : List (Bytes × Bytes))
    (hsame : (ps.map Prod.fst).flatten = (qs.map Prod.fst).flatten)
    (hps : Run.Steps (arrival env) (Fcgi.CalmCall env) (Fcgi.new writes asr) ps)
    (hqs : Run.Steps (arrival env) (Fcgi.CalmCall env) (Fcgi.new writes asr) qs) :
    arrivals env (Fcgi.new writes asr) ps = arrivals env (Fcgi.new writes asr) qs := by
  obtain ⟨hs, hidle⟩ := new_sound writes asr
  obtain ⟨hs₁, hidle₁, hfed₁⟩ := arrivals_fed hs hidle hps
  obtain ⟨hs₂, hidle₂, hfed₂⟩ := arrivals_fed hs hidle hqs
  exact parts_injective (hfed₁.unique (reads_natural env) hsame hfed₂
    (stuck_of_not_ready hs₁ hidle₁) (stuck_of_not_ready hs₂ hidle₂))

/-- A request with padding, as a whole and cut in the middle of a header and of a content. -/
theorem cut_in_the_middle :
    let stream : Bytes := [1, 1, 0, 1, 0, 8, 2, 0, 0, 1, 1, 0, 0, 0, 0, 0, 0, 0]
      ++ [1, 4, 0, 1, 0, 19, 0, 0] ++ paramPair "REQUEST_METHOD" "GET"
    let whole := arrivals exampleEnv (Fcgi.new [] []) [(stream, [])]
    let cut := arrivals exampleEnv (Fcgi.new [] [])
      [(stream.take 3, []), ((stream.drop 3).take 30, [7]), (stream.drop 33, [])]
    whole.fcgClients.map (·.cltMethod) = [.get] ∧ whole = cut := by
  intro stream whole cut
  exact ⟨by decide,
    arrivals_independent exampleEnv [] [] _ _ (by decide +kernel) (by decide +kernel)
      (by decide)⟩

/-- When the padding of a record arrives after its content, it is read as the next header. -/
theorem padding_arrives_late :
    let stream : Bytes := [1, 1, 0, 1, 0, 8, 8, 0, 0, 1, 1, 0, 0, 0, 0, 0] ++ List.replicate 8 0
    let ps : List (Bytes × Bytes) := [(stream, [])]
    let qs : List (Bytes × Bytes) := [(stream.take 16, []), (stream.drop 16, [])]
    let whole := arrivals exampleEnv (Fcgi.new [] []) ps
    let cut := arrivals exampleEnv (Fcgi.new [] []) qs
    (ps.map Prod.fst).flatten = (qs.map Prod.fst).flatten ∧
      whole.closed = false ∧ whole.fcgClients.map (·.cltId) = [1] ∧
      cut.closed = true ∧ cut.fcgClients = [] := by
  decide

end Arrivals

end Galileo
