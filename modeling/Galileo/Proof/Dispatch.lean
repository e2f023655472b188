import Galileo.Model.System
import Galileo.Proof.Clients
import Galileo.Proof.Params

/-!
# The dispatcher, case by case

What a turn of the loop of `fcgi_read` looks at, and one lemma for each of its branches that says
everything the branch can do. The proofs about all events, about framing and about arrivals start
from these and do not look into the branches again.
-/

set_option autoImplicit false

namespace Galileo

open Lib Lib.FastCgi

/-! ## What a turn of `fcgi_read` takes -/

/-- The event is a turn of the loop that takes the whole of a record of this type. -/
def Fcgi.takes (f : Fcgi) (e : Event) (type : UInt8) : Prop :=
  e.isRead = true ∧ f.closed = false ∧ f.fcgWant = .body ∧ f.fcgType = type ∧
    sizeT f.fcgToread ≤ f.input.length

instance (f : Fcgi) (e : Event) (type : UInt8) : Decidable (f.takes e type) :=
  inferInstanceAs (Decidable (_ ∧ _))

/-- The role a `FCGI_BEGIN_REQUEST` record asks for. -/
def Fcgi.role (f : Fcgi) : Nat := cat (f.input.getD 1 0) (f.input.getD 0 0)

/-- Its `FCGI_KEEP_CONN` flag. -/
def Fcgi.keepFlag (f : Fcgi) : Bool := f.input.getD 2 0 &&& keepConn != 0

/-- A `FCGI_BEGIN_REQUEST` record for a responder is taken. -/
def Fcgi.admits (f : Fcgi) (e : Event) : Prop :=
  f.takes e beginRequest ∧ f.fcgToread = 8 ∧ f.role = responder

/-- A `FCGI_BEGIN_REQUEST` record for another role is taken. -/
def Fcgi.refuses (f : Fcgi) (e : Event) : Prop :=
  f.takes e beginRequest ∧ f.fcgToread = 8 ∧ f.role ≠ responder

/-- A `FCGI_PARAMS` record with a content is taken. -/
def Fcgi.learns (f : Fcgi) (e : Event) : Prop := f.takes e params ∧ f.fcgToread ≠ 0

instance (f : Fcgi) (e : Event) : Decidable (f.admits e) := inferInstanceAs (Decidable (_ ∧ _))
instance (f : Fcgi) (e : Event) : Decidable (f.refuses e) := inferInstanceAs (Decidable (_ ∧ _))
instance (f : Fcgi) (e : Event) : Decidable (f.learns e) := inferInstanceAs (Decidable (_ ∧ _))

/-- The record that starts the request of `c` is taken: an empty `FCGI_PARAMS` for `GET`, an empty
`FCGI_STDIN` for `POST`. -/
def Fcgi.starts (f : Fcgi) (e : Event) (c : Client) : Prop :=
  f.fcgToread = 0 ∧ f.find f.fcgRecId.toUInt32 = some c ∧
    (f.takes e params ∧ c.cltMethod = .get ∨ f.takes e stdin ∧ c.cltMethod = .post)

instance (f : Fcgi) (e : Event) (c : Client) : Decidable (f.starts e c) :=
  inferInstanceAs (Decidable (_ ∧ _))

/-- A piece of the form of `c` is taken: a `FCGI_STDIN` record that is not empty, for `POST`. -/
def Fcgi.feeds (f : Fcgi) (e : Event) (c : Client) : Prop :=
  f.fcgToread ≠ 0 ∧ f.find f.fcgRecId.toUInt32 = some c ∧ f.takes e stdin ∧ c.cltMethod = .post

instance (f : Fcgi) (e : Event) (c : Client) : Decidable (f.feeds e c) :=
  inferInstanceAs (Decidable (_ ∧ _))

/-- The C string `fcgi_parse_form` makes of such a record. -/
def Fcgi.formText (f : Fcgi) : Bytes :=
  cstr (evbufferRemove (min 2047 (sizeT f.fcgToread)) f.input).1

/-- The record that is about to be taken, as the log shows it. -/
def Fcgi.record (f : Fcgi) : Obs :=
  .dispatched f.fcgType f.fcgRecId (f.input.take (sizeT f.fcgToread))

theorem readBody_eq (env : Env) (stale : Bytes) (f : Fcgi) :
    readBody env stale f =
      if f.fcgType = beginRequest then readBegin (f.observe f.record)
      else if f.fcgType = params then readParams env stale (f.observe f.record)
      else if f.fcgType = stdin then readStdin env (f.observe f.record)
      else if f.fcgType = abortRequest then readAbort (f.observe f.record)
      else .next (nextRecord (skipContent (f.observe f.record))) := rfl

/-- A turn that takes a record is `readBody`. -/
theorem step_of_takes (env : Env) {f : Fcgi} {stale : Bytes} {type : UInt8}
    (h : f.takes (.read stale) type) : step env f (.read stale) = (readBody env stale f).fcgi := by
  obtain ⟨-, hopen, hw, -, hlen⟩ := h
  rw [step, if_neg (by simp [hopen]), handle, readStep, if_neg (by simp [hopen, hlen]), hw]

/-! ## `FCGI_BEGIN_REQUEST` -/

/-- The ways out of `case FCGI_BEGIN_REQUEST`. -/
inductive BeginCase (f : Fcgi) : Flow → Prop
  /-- There are not enough bytes, which `fcgi_read` has made sure of. -/
  | waits (hlen : f.fcgToread = 8) (h : f.input.length < 8) : BeginCase f (.ret f)
  | badSize (h : f.fcgToread ≠ 8) : BeginCase f (.ret (fcgiError f))
  | refused (ws : List Bool) (hlen : f.fcgToread = 8) (hrole : f.role ≠ responder) :
      BeginCase f (.next (nextRecord { f with
        input := f.input.drop 8
        writes := ws
        output := f.output
          ++ (Obs.queued endRequestType f.fcgRecId (endReqBody 1 unknownRole)).wire
        trace := f.trace ++ [.queued endRequestType f.fcgRecId (endReqBody 1 unknownRole)] }))
  | refusedTorn (ws : List Bool) (out : Bytes) (hout : f.output <+: out) :
      BeginCase f (.ret (fcgiError { f with
        input := f.input.drop 8
        writes := ws
        output := out }))
  | notKept (hkeep : f.fcgKeepConn = false) :
      BeginCase f (.ret (fcgiError { f with input := f.input.drop 8 }))
  | again (c : Client) (hlen : f.fcgToread = 8) (hrole : f.role = responder)
      (hkeep : f.fcgKeepConn = true) (hfind : f.find f.fcgRecId.toUInt32 = some c) :
      BeginCase f (.next (nextRecord { f with
        input := f.input.drop 8
        fcgKeepConn := f.keepFlag }))
  | accepted (hlen : f.fcgToread = 8) (hrole : f.role = responder)
      (hkeep : f.fcgKeepConn = true) (hfind : f.find f.fcgRecId.toUInt32 = none) :
      BeginCase f (.next (nextRecord { f with
        input := f.input.drop 8
        fcgKeepConn := f.keepFlag
        fcgClients := Client.new f.fcgRecId.toUInt32 f.nextSerial :: f.fcgClients
        nextSerial := f.nextSerial + 1
        trace := f.trace ++ [.accepted f.fcgRecId f.nextSerial] }))

/-- The first three bytes of a record's content, and what is behind the eighth. -/
theorem input_cons {f : Fcgi} {b0 b1 b2 b3 b4 b5 b6 b7 : UInt8} {rest : Bytes}
    (h : f.input = b0 :: b1 :: b2 :: b3 :: b4 :: b5 :: b6 :: b7 :: rest) :
    f.role = cat b1 b0 ∧ f.keepFlag = (b2 &&& keepConn != 0) ∧ f.input.drop 8 = rest := by
  simp [Fcgi.role, Fcgi.keepFlag, h]

theorem readBegin_cases (f : Fcgi) : BeginCase f (readBegin f) := by
  unfold readBegin
  split
  · rename_i hlen
    exact .badSize hlen
  · rename_i hlen
    have hlen : f.fcgToread = 8 := by simpa using hlen
    split
    · rename_i hin
      obtain ⟨hrole, hkeep, hrest⟩ := input_cons hin
      rw [readBeginBody, ← hrole, ← hkeep, ← hrest]
      dsimp only
      split
      · rename_i hr
        rcases fcgiSendEndReq_cases f.fcgRecId.toNat 1 unknownRole
            { f with input := f.input.drop 8 } with
            ⟨ws, -, h⟩ | ⟨ws, out, -, -, hout, h⟩ <;> rw [h]
        · rw [UInt16.ofNat_toNat]
          exact .refused ws hlen hr
        · exact .refusedTorn ws out hout
      · rename_i hr
        have hr : f.role = responder := by simpa using hr
        split
        · rename_i hk
          exact .notKept (by simpa using hk)
        · rename_i hk
          have hk : f.fcgKeepConn = true := by simpa using hk
          have hfind : ({ f with input := f.input.drop 8 } : Fcgi).find f.fcgRecId.toUInt32
              = f.find f.fcgRecId.toUInt32 := rfl
          rw [hfind]
          cases hf : f.find f.fcgRecId.toUInt32 with
          | some c => exact .again c hlen hr hk hf
          | none =>
            have hins : ∀ c : Client, c.cltId = f.fcgRecId.toUInt32 →
                ({ f with input := f.input.drop 8, fcgKeepConn := f.keepFlag } : Fcgi).insert c
                  = { f with
                      input := f.input.drop 8
                      fcgKeepConn := f.keepFlag
                      fcgClients := c :: f.fcgClients } := by
              intro c hc
              rw [Fcgi.insert, if_neg]
              rw [hc]
              exact fun h : (f.find f.fcgRecId.toUInt32).isSome = true =>
                absurd h (by simp [hf])
            rw [hins _ rfl]
            exact .accepted hlen hr hk hf
    · rename_i hin
      refine .waits hlen ?_
      by_contra hge
      obtain ⟨b0, b1, b2, b3, b4, b5, b6, b7, rest, hi⟩ := exists_eight (Nat.not_lt.mp hge)
      exact hin _ _ _ _ _ _ _ _ _ hi

/-! ## `FCGI_PARAMS` -/

section Content

variable {g : Fcgi}

/-- `case FCGI_PARAMS` for a record with a content: the parser succeeds or the connection is torn
down. -/
theorem readParams_content (env : Env) (stale : Bytes) {c : Client}
    (hfind : g.find g.fcgRecId.toUInt32 = some c) (hlen : ¬ g.fcgToread = 0) :
    ∃ r : Bool × ParamSt, r = fcgiParseParams env ⟨g.fcgToread, g.input ++ stale, c⟩ ∧
      c.Learnt r.2.clt ∧ readParams env stale g =
      if r.1 then
        .next (nextRecord (Fcgi.store { g with
          fcgToread := r.2.toread
          input := g.input.drop ((g.input ++ stale).length - r.2.src.length) } r.2.clt))
      else .ret (fcgiError g) := by
  refine ⟨fcgiParseParams env ⟨g.fcgToread, g.input ++ stale, c⟩, rfl,
    fcgiParseParams_learnt env ⟨g.fcgToread, g.input ++ stale, c⟩, ?_⟩
  rw [readParams, hfind]
  dsimp only
  rw [if_neg hlen]

/-! ## `FCGI_STDIN` -/

/-- `fcgi_parse_form` at the end of the form. -/
theorem fcgiParseForm_empty (env : Env) (c : Client) (hlen : g.fcgToread = 0) :
    fcgiParseForm env ⟨g, c⟩ = proxyStartRequest env ⟨g, { c with cltBodydone := true }⟩ := by
  simp only [fcgiParseForm, Prog.get_bind, hlen, if_true]
  rfl

/-- `fcgi_parse_form` on a piece of the form. -/
theorem fcgiParseForm_chunk (env : Env) (c : Client) (hlen : ¬ g.fcgToread = 0) :
    fcgiParseForm env ⟨g, c⟩
      = (some (), ⟨{ g with
          fcgToread := g.fcgToread - (min 2047 (sizeT g.fcgToread) : Nat)
          input := (evbufferRemove (min 2047 (sizeT g.fcgToread)) g.input).2 },
        formChunk (cstr (evbufferRemove (min 2047 (sizeT g.fcgToread)) g.input).1) c⟩) := by
  simp only [fcgiParseForm, Prog.get_bind, hlen, if_false]
  rfl

theorem formChunk_same (tmp : Bytes) (c : Client) : c.Same (formChunk tmp c) := by
  unfold formChunk
  split
  · exact .refl _
  split
  · exact ⟨rfl, rfl, rfl, rfl⟩
  split
  · exact ⟨rfl, rfl, rfl, rfl⟩
  split
  · exact .refl _
  split
  · exact .refl _
  · exact ⟨rfl, rfl, rfl, rfl⟩

end Content

end Galileo
