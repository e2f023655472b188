import Galileo.Proof.Clients
import Galileo.Proof.Script
import Mathlib.Data.List.Basic

/-!
# What the web server reads back

The requests on a connection share its output. Whatever they write and in whatever order — through
their templates, directly, to their ends — a FastCGI parser gets complete records back, and the
records of each id carry what the request under it wrote, as if it had been alone
(`output_demultiplexes`).

What a request *wrote* is `ledger`: a template holds back up to `cltBufSize` bytes (`spill`), a
flush lets go of them, a direct write overtakes them. It knows of no records and no other request.

All writes are assumed to succeed, that is, `writes` is empty.
-/

set_option autoImplicit false

namespace Galileo

open Lib Lib.FastCgi

variable {ds : List Bytes} {rs : List Record} {i : UInt16}

/-! ## What a request can do to the output -/

inductive Say where
  /-- Statements of a template. -/
  | write (ps : List Piece)
  | flush
  /-- `clt_write`, past the template. -/
  | direct (data : Bytes)
  /-- `end_request`. -/
  | finish (status protoStatus : UInt8)

def Say.run : Say → CltM Unit
  | .write ps => emit ps
  | .flush => cltFlush
  | .direct data => do
      let x ← Prog.get
      onFcgi (cltWrite x.clt.cltId data)
  | .finish status protoStatus => endRequest status protoStatus

/-- Code runs for the client with this id; there may be none. -/
def perform (f : Fcgi) (o : UInt16 × Say) : Fcgi := (withClient o.1.toUInt32 o.2.run f).2

/-! ## What a request writes -/

/-- What is let go, what is still held back (`none` when the request is over), and the contents of
the `FCGI_END_REQUEST` records. -/
structure Effect where
  told : Bytes
  pending : Option Bytes
  ended : List Bytes

def Say.effect (pending : Bytes) : Say → Effect
  | .write ps =>
      ⟨(spill cltBufSize pending (pageText ps)).1, some (spill cltBufSize pending (pageText ps)).2,
        []⟩
  | .flush => ⟨pending, some [], []⟩
  | .direct data => ⟨data, some pending, []⟩
  | .finish status protoStatus => ⟨pending, none, [endReqBody status protoStatus]⟩

/-- Only a request that is over has an end. -/
theorem Say.pending_of_ended (op : Say) {p : Bytes} (h : (op.effect p).ended ≠ []) :
    (op.effect p).pending = none := by
  cases op with
  | finish status proto => rfl
  | _ => exact absurd rfl h

/-- What the operations of one request put on the wire. -/
def ledger : Option Bytes → List Say → Bytes × List Bytes
  | none, _ => ([], [])
  | some _, [] => ([], [])
  | some pending, op :: ops =>
      let e := op.effect pending
      (e.told ++ (ledger e.pending ops).1, e.ended ++ (ledger e.pending ops).2)

/-- The operations for one id. -/
def opsFor (i : UInt16) (ops : List (UInt16 × Say)) : List Say :=
  ops.filterMap fun o => if o.1 = i then some o.2 else none

@[simp] theorem ledger_none (ops : List Say) : ledger none ops = ([], []) := by cases ops <;> rfl

@[simp] theorem ledger_nil (p : Option Bytes) : ledger p [] = ([], []) := by cases p <;> rfl

theorem opsFor_cons_self (i : UInt16) (op : Say) (ops : List (UInt16 × Say)) :
    opsFor i ((i, op) :: ops) = op :: opsFor i ops := by simp [opsFor]

theorem opsFor_cons_of_ne {i j : UInt16} (h : j ≠ i) (op : Say) (ops : List (UInt16 × Say)) :
    opsFor i ((j, op) :: ops) = opsFor i ops := by simp [opsFor, h]

/-! ## What the records of an id carry -/

def stdoutFor (i : UInt16) (rs : List Record) : Bytes :=
  (rs.filter fun r => r.type = stdout ∧ r.id = i).flatMap (·.content)

def endsFor (i : UInt16) (rs : List Record) : List Bytes :=
  (rs.filter fun r => r.type = endRequestType ∧ r.id = i).map (·.content)

@[simp] theorem stdoutFor_append (i : UInt16) (rs rs' : List Record) :
    stdoutFor i (rs ++ rs') = stdoutFor i rs ++ stdoutFor i rs' := by simp [stdoutFor]

@[simp] theorem endsFor_append (i : UInt16) (rs rs' : List Record) :
    endsFor i (rs ++ rs') = endsFor i rs ++ endsFor i rs' := by simp [endsFor]

theorem stdoutFor_of_ne (h : ∀ r ∈ rs, r.id ≠ i) : stdoutFor i rs = [] := by
  rw [stdoutFor, List.filter_eq_nil_iff.mpr fun r hr => by simp [h r hr]]
  rfl

theorem endsFor_of_ne (h : ∀ r ∈ rs, r.id ≠ i) : endsFor i rs = [] := by
  rw [endsFor, List.filter_eq_nil_iff.mpr fun r hr => by simp [h r hr]]
  rfl

/-- Output of a request: `FCGI_STDOUT` with something in it, or `FCGI_END_REQUEST`. -/
def Proper (r : Record) : Prop := r.type = stdout ∧ r.content ≠ [] ∨ r.type = endRequestType

/-- Of two records in this order, the second is no output for a request the first has ended. -/
def InOrder (r q : Record) : Prop := r.type = endRequestType → q.type = stdout → q.id ≠ r.id

/-- A queued observation is a record. -/
theorem wire_eq_encode (type : UInt8) (id : UInt16) {d : Bytes} (h : d.length ≤ 65535) :
    (Obs.queued type id d).wire = (Record.mk type id d [] h (by decide)).encode := by
  simp [Obs.wire, Record.encode, Record.header]

/-- Blocks that were queued for an id are records. -/
theorem exists_records_stdoutOf (id : UInt32) (h : ∀ d ∈ ds, Block d) :
    ∃ rs : List Record, (stdoutOf id ds).flatMap Obs.wire = rs.flatMap Record.encode ∧
      (∀ r ∈ rs, r.type = stdout ∧ r.id = id.toUInt16 ∧ r.content ≠ []) ∧
      rs.flatMap (·.content) = ds.flatten := by
  induction ds with
  | nil => exact ⟨[], by simp [stdoutOf], by simp, rfl⟩
  | cons d ds ih =>
    obtain ⟨rs, henc, hrs, hcont⟩ := ih fun e he => h e (by simp [he])
    obtain ⟨hne, hle⟩ : d ≠ [] ∧ d.length ≤ 65535 := h d (by simp)
    refine ⟨⟨stdout, id.toUInt16, d, [], hle, by decide⟩ :: rs, ?_, ?_, ?_⟩
    · rw [List.flatMap_cons, ← wire_eq_encode, ← henc]
      rfl
    · rintro r (_ | ⟨_, hr⟩)
      · exact ⟨rfl, rfl, hne⟩
      · exact hrs r hr
    · rw [List.flatMap_cons, hcont]
      rfl

/-! ## One operation -/

/-- Nothing fails, and the templates are as `fcgi_read` made them. -/
structure Fcgi.Quiet (f : Fcgi) : Prop where
  writes : f.writes = []
  caps : ∀ j c, f.find j = some c → c.cltTp.tpCap = cltBufSize

/-- What the template of the request under `i` holds back. -/
def Fcgi.pending (f : Fcgi) (i : UInt16) : Option Bytes :=
  (f.find i.toUInt32).map (·.cltTp.tpBuf)

/-- `rs` is what code for the request under `i` has put on the wire, to this effect. -/
structure Tells (i : UInt16) (f : Fcgi) (e : Effect) (rs : List Record) (g : Fcgi) : Prop where
  quiet : g.Quiet
  output : g.output = f.output ++ rs.flatMap Record.encode
  frame : ∀ j, j ≠ i → g.pending j = f.pending j
  pending : g.pending i = e.pending
  ids : ∀ r ∈ rs, r.id = i
  proper : ∀ r ∈ rs, Proper r
  order : rs.Pairwise InOrder
  told : stdoutFor i rs = e.told
  ended : endsFor i rs = e.ended

section Operations

variable {f : Fcgi} {c : Client}

theorem stdoutFor_of_stdout (h : ∀ r ∈ rs, r.type = stdout ∧ r.id = i ∧ r.content ≠ []) :
    stdoutFor i rs = rs.flatMap (·.content) := by
  rw [stdoutFor, List.filter_eq_self.mpr fun r hr => by simp [(h r hr).1, (h r hr).2.1]]

theorem endsFor_of_stdout (h : ∀ r ∈ rs, r.type = stdout ∧ r.id = i ∧ r.content ≠ []) :
    endsFor i rs = [] := by
  have hne : stdout ≠ endRequestType := by decide
  rw [endsFor, List.filter_eq_nil_iff.mpr fun r hr => by simp [(h r hr).1, hne]]
  rfl

theorem pairwise_inOrder_of_stdout (h : ∀ r ∈ rs, r.type = stdout ∧ r.id = i ∧ r.content ≠ []) :
    rs.Pairwise InOrder :=
  List.pairwise_of_forall_mem_list fun r hr q _ ht =>
    absurd ((h r hr).1.symm.trans ht) (by decide)

/-- The blocks queued for a client are records with its id. -/
theorem exists_records_said (hfind : f.find i.toUInt32 = some c) (hds : ∀ d ∈ ds, Block d)
    (as : List AsrAnswer) :
    ∃ rs : List Record,
      (f.said c.cltId ds [] as).output = f.output ++ rs.flatMap Record.encode ∧
      (∀ r ∈ rs, r.type = stdout ∧ r.id = i ∧ r.content ≠ []) ∧
      rs.flatMap (·.content) = ds.flatten := by
  obtain ⟨rs, henc, hrs, hcont⟩ := exists_records_stdoutOf c.cltId hds
  rw [f.cltId_of_find hfind, toUInt16_toUInt32] at hrs
  exact ⟨rs, congrArg (f.output ++ ·) henc, hrs, hcont⟩

/-- The request goes on. -/
theorem tells_of_said (hf : f.Quiet) (hfind : f.find i.toUInt32 = some c)
    (hds : ∀ d ∈ ds, Block d) (as : List AsrAnswer) {tp : Template}
    (hcap : tp.tpCap = c.cltTp.tpCap) :
    ∃ rs, Tells i f ⟨ds.flatten, some tp.tpBuf, []⟩ rs
      ((f.said c.cltId ds [] as).store { c with cltTp := tp }) := by
  have hid : c.cltId = i.toUInt32 := f.cltId_of_find hfind
  have hfind' : ∀ j, ((f.said c.cltId ds [] as).store { c with cltTp := tp }).find j
      = if i.toUInt32 = j then some { c with cltTp := tp } else f.find j := by
    intro j
    rw [Fcgi.find_store, ← hid]
    show (if c.cltId = j then (f.find j).map _ else f.find j) = _
    split
    · rename_i hj
      rw [← hj, hid, hfind]
      rfl
    · rfl
  obtain ⟨rs, hout, hrs, hcont⟩ := exists_records_said hfind hds as
  refine ⟨rs, ?_, hout, ?_, ?_, fun r hr => (hrs r hr).2.1, ?_, pairwise_inOrder_of_stdout hrs,
    (stdoutFor_of_stdout hrs).trans hcont, endsFor_of_stdout hrs⟩
  · refine ⟨rfl, fun j d hd => ?_⟩
    rw [hfind'] at hd
    split at hd
    · cases hd
      exact hcap.trans (hf.caps _ _ hfind)
    · exact hf.caps j d hd
  · intro j hj
    rw [Fcgi.pending, hfind', if_neg (fun h => hj (toUInt32_inj.mp h.symm))]
    rfl
  · rw [Fcgi.pending, hfind', if_pos rfl]
    rfl
  · exact fun r hr => .inl ⟨(hrs r hr).1, (hrs r hr).2.2⟩

/-- The request is over. -/
theorem tells_of_finish (hf : f.Quiet) (hfind : f.find i.toUInt32 = some c)
    (hds : ∀ d ∈ ds, Block d) (as : List AsrAnswer) {d : Client} (hd : d.cltId = c.cltId)
    (status proto : UInt8) :
    ∃ rs, Tells i f ⟨ds.flatten, none, [endReqBody status proto]⟩ rs
      (((f.said c.cltId ds [] as).finish c (endReqBody status proto)).store d) := by
  have hid : c.cltId = i.toUInt32 := f.cltId_of_find hfind
  have hfind' : ∀ j, (((f.said c.cltId ds [] as).finish c (endReqBody status proto)).store
      d).find j = if j = i.toUInt32 then none else f.find j := by
    intro j
    rw [Fcgi.find_store, Fcgi.find_finish, hd, hid]
    show (if i.toUInt32 = j then _ else if j = i.toUInt32 then none else f.find j) = _
    split
    · rename_i hj
      simp [hj]
    · rfl
  obtain ⟨rs, hout, hrs, hcont⟩ := exists_records_said hfind hds as
  have hend : (Obs.queued endRequestType c.cltId.toUInt16 (endReqBody status proto)).wire
      = (Record.mk endRequestType i (endReqBody status proto) [] (by simp [endReqBody])
          (by decide)).encode := by
    rw [hid, toUInt16_toUInt32, wire_eq_encode]
  refine ⟨rs ++ [⟨endRequestType, i, endReqBody status proto, [], by simp [endReqBody],
    by decide⟩], ?_, ?_, ?_, ?_, ?_, ?_, ?_, ?_, ?_⟩
  · refine ⟨rfl, fun j e he => ?_⟩
    rw [hfind'] at he
    split at he
    · cases he
    · exact hf.caps j e he
  · rw [List.flatMap_append, ← List.append_assoc, ← hout]
    simp only [List.flatMap_cons, List.flatMap_nil, List.append_nil, ← hend]
    rfl
  · intro j hj
    rw [Fcgi.pending, hfind', if_neg (fun h => hj (toUInt32_inj.mp h))]
    rfl
  · rw [Fcgi.pending, hfind', if_pos rfl]
    rfl
  · intro r hr
    rcases List.mem_append.mp hr with hr | hr
    · exact (hrs r hr).2.1
    · rw [List.mem_singleton.mp hr]
  · intro r hr
    rcases List.mem_append.mp hr with hr | hr
    · exact .inl ⟨(hrs r hr).1, (hrs r hr).2.2⟩
    · exact .inr (by rw [List.mem_singleton.mp hr])
  · refine List.pairwise_append.mpr
      ⟨pairwise_inOrder_of_stdout hrs, List.pairwise_singleton _ _, fun r hr q _ ht => ?_⟩
    exact absurd ((hrs r hr).1.symm.trans ht) (by decide)
  · have hne : endRequestType ≠ stdout := by decide
    rw [stdoutFor_append, stdoutFor_of_stdout hrs, hcont]
    simp [stdoutFor, hne]
  · rw [endsFor_append, endsFor_of_stdout hrs]
    simp [endsFor]

/-- What an operation says. -/
def Say.script (c : Client) : Say → Script
  | .write ps => ⟨[.write ps], .goes c⟩
  | .flush => ⟨[.flush], .goes c⟩
  | .direct data => ⟨[.direct data], .goes c⟩
  | .finish status proto => ⟨[], .ends status proto⟩

theorem Say.follows (op : Say) : Follows op.run c (op.script c) := by
  cases op with
  | write ps => exact follows_emit ps
  | flush => exact follows_flush
  | direct data => exact .get fun x hx => follows_write (by rw [hx]) data
  | finish status proto => exact follows_end status proto

/-- **One operation**, of whatever kind. -/
theorem perform_tells (hf : f.Quiet) (hfind : f.find i.toUInt32 = some c) (op : Say) :
    ∃ rs, Tells i f (op.effect c.cltTp.tpBuf) rs (perform f (i, op)) := by
  have hcap : c.cltTp.tpCap = cltBufSize := hf.caps _ _ hfind
  have hplays := op.follows ⟨f, c⟩ (c := c) rfl
  rw [perform, withClient_run hfind]
  generalize op.run ⟨f, c⟩ = r at hplays
  cases hplays with
  | @goes c' ds ws as tp hnext _ _ hds hws htext htp =>
    obtain rfl : ws = [] := List.suffix_nil.mp (hf.writes ▸ hws)
    obtain ⟨rs, htells⟩ := tells_of_said hf hfind hds as htp
    have heffect : op.effect c.cltTp.tpBuf = ⟨ds.flatten, some tp.tpBuf, []⟩ ∧ c' = c := by
      obtain ⟨hflat, hbuf⟩ := Prod.mk.inj htext
      rw [hflat, hbuf, hcap]
      cases op <;> cases hnext <;> simp [Say.script, Say.effect, putAll, Put.effect]
    rw [heffect.1, heffect.2]
    exact ⟨rs, htells⟩
  | @ends status proto ds ws as d hnext hds hws htext hid =>
    obtain rfl : ws = [] := List.suffix_nil.mp (hf.writes ▸ hws)
    cases op <;> cases hnext
    obtain ⟨rs, htells⟩ := tells_of_finish hf hfind hds as hid status proto
    rw [htext] at htells
    exact ⟨rs, htells⟩
  | crashed hnext => cases op <;> cases hnext
  | torn hfail => simp [hf.writes] at hfail

end Operations

/-! ## Any number of operations -/

/-- What is true of the records of a whole run. -/
structure Demuxed (f : Fcgi) (ops : List (UInt16 × Say)) (rs : List Record) : Prop where
  output : (ops.foldl perform f).output = f.output ++ rs.flatMap Record.encode
  proper : ∀ r ∈ rs, Proper r
  order : rs.Pairwise InOrder
  silent : ∀ i, f.pending i = none → ∀ r ∈ rs, r.id ≠ i
  told : ∀ i, (stdoutFor i rs, endsFor i rs) = ledger (f.pending i) (opsFor i ops)

theorem Tells.silent {f g : Fcgi} {e : Effect} (h : Tells i f e rs g) {j : UInt16} (hj : j ≠ i) :
    ∀ r ∈ rs, r.id ≠ j := fun r hr hrj =>
  hj (hrj.symm.trans (h.ids r hr))

/-- An operation in front. -/
theorem Demuxed.cons {op : Say} {f : Fcgi} {ops : List (UInt16 × Say)} {rs rs' : List Record}
    {p : Bytes} (hp : f.pending i = some p) (h : Tells i f (op.effect p) rs (perform f (i, op)))
    (h' : Demuxed (perform f (i, op)) ops rs') : Demuxed f ((i, op) :: ops) (rs ++ rs') where
  output := by
    rw [List.foldl_cons, h'.output, h.output, List.flatMap_append, List.append_assoc]
  proper r hr := by
    rcases List.mem_append.mp hr with hr | hr
    exacts [h.proper r hr, h'.proper r hr]
  order := by
    refine List.pairwise_append.mpr ⟨h.order, h'.order, fun r hr q hq ht _ => ?_⟩
    -- an end among the records of this operation: the request is over
    have hend : (op.effect p).pending = none := op.pending_of_ended (h.ended ▸ fun hnil => by
      have hmem : r.content ∈ endsFor i rs :=
        List.mem_map_of_mem (List.mem_filter.mpr ⟨hr, by simp [ht, h.ids r hr]⟩)
      simp [hnil] at hmem)
    rw [h.ids r hr]
    exact h'.silent i (h.pending.trans hend) q hq
  silent j hj r hr := by
    have hji : j ≠ i := by
      rintro rfl
      simp [hp] at hj
    rcases List.mem_append.mp hr with hr | hr
    · exact h.silent hji r hr
    · exact h'.silent j ((h.frame j hji).trans hj) r hr
  told j := by
    have htold := h'.told j
    rw [stdoutFor_append, endsFor_append]
    by_cases hji : j = i
    · subst hji
      rw [opsFor_cons_self, hp, ledger, h.told, h.ended]
      rw [h.pending] at htold
      rw [← htold]
    · rw [opsFor_cons_of_ne (Ne.symm hji), stdoutFor_of_ne (h.silent hji),
        endsFor_of_ne (h.silent hji), ← h.frame j hji]
      exact htold

theorem exists_demuxed (ops : List (UInt16 × Say)) {f : Fcgi} (hf : f.Quiet) :
    ∃ rs, Demuxed f ops rs := by
  induction ops generalizing f with
  | nil =>
    exact ⟨[], by simp, by simp, .nil, by simp, fun i => by simp [opsFor, stdoutFor, endsFor]⟩
  | cons o ops ih =>
    obtain ⟨i, op⟩ := o
    cases hfind : f.find i.toUInt32 with
    | none =>
      -- there is nobody to write
      have hperform : perform f (i, op) = f := by rw [perform, withClient, hfind]
      have hpending : f.pending i = none := by rw [Fcgi.pending, hfind]; rfl
      obtain ⟨rs, h⟩ := ih hf
      refine ⟨rs, ?_, h.proper, h.order, h.silent, fun j => ?_⟩
      · rw [List.foldl_cons, hperform]
        exact h.output
      · rw [h.told j]
        by_cases hji : j = i
        · subst hji
          simp [hpending]
        · rw [opsFor_cons_of_ne (Ne.symm hji)]
    | some c =>
      obtain ⟨rs, hrs⟩ := perform_tells hf hfind op
      obtain ⟨rs', hrs'⟩ := ih hrs.quiet
      exact ⟨rs ++ rs', .cons (by rw [Fcgi.pending, hfind]; rfl) hrs hrs'⟩

/-- **The output of many requests is the output of each.** For any interleaving of what requests
write, what is queued parses as FastCGI records; no `FCGI_STDOUT` record is empty; the records of
an id carry what the operations for it wrote, by `ledger`; and behind an `FCGI_END_REQUEST` there
is no `FCGI_STDOUT` with its id. -/
theorem output_demultiplexes (f : Fcgi) (ops : List (UInt16 × Say)) (hwrites : f.writes = [])
    (hcaps : ∀ j c, f.find j = some c → c.cltTp.tpCap = cltBufSize) :
    ∃ out rs, (ops.foldl perform f).output = f.output ++ out ∧ records out = some rs ∧
      (∀ r ∈ rs, r.type = stdout ∧ r.content ≠ [] ∨ r.type = endRequestType) ∧
      (∀ i, stdoutFor i rs = (ledger (f.pending i) (opsFor i ops)).1 ∧
        endsFor i rs = (ledger (f.pending i) (opsFor i ops)).2) ∧
      ∀ l₁ r l₂, rs = l₁ ++ r :: l₂ → r.type = endRequestType →
        ∀ q ∈ l₂, q.type = stdout → q.id ≠ r.id := by
  obtain ⟨rs, h⟩ := exists_demuxed ops ⟨hwrites, hcaps⟩
  refine ⟨rs.flatMap Record.encode, rs, h.output, records_encode rs, h.proper, fun i => ?_, ?_⟩
  · rw [← h.told i]
    exact ⟨rfl, rfl⟩
  · rintro l₁ r l₂ rfl ht q hq
    have hpair := (List.pairwise_append.mp h.order).2.1
    exact List.rel_of_pairwise_cons hpair hq ht

/-- Two requests: the second writes past the template of the first and ends. -/
theorem two_requests_demultiplex :
    let f := { Fcgi.new [] [] with fcgClients := [Client.new 1 0, Client.new 2 1] }
    let ops : List (UInt16 × Say) := [(1, .write [.html (lit "a<b")]), (2, .direct (lit "xy")),
      (1, .flush), (2, .write [.raw (lit "z")]), (2, .finish 0 requestComplete), (2, .flush)]
    ∃ out rs, (ops.foldl perform f).output = out ∧ records out = some rs ∧
      stdoutFor 1 rs = lit "a&lt;b" ∧ stdoutFor 2 rs = lit "xyz" ∧
      endsFor 2 rs = [endReqBody 0 requestComplete] := by
  intro f ops
  have hcaps : ∀ j c, f.find j = some c → c.cltTp.tpCap = cltBufSize := by
    intro j c hc
    have hmem : c ∈ [Client.new 1 0, Client.new 2 1] := List.mem_of_find?_eq_some hc
    rcases List.mem_cons.mp hmem with rfl | hmem
    · rfl
    · rw [List.mem_singleton.mp hmem]
      rfl
  obtain ⟨out, rs, hout, hrs, -, htold, -⟩ := output_demultiplexes f ops rfl hcaps
  refine ⟨out, rs, hout, hrs, (htold 1).1.trans ?_, (htold 2).1.trans ?_, (htold 2).2.trans ?_⟩
  all_goals decide

end Galileo
