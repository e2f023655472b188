import Galileo.Proof.Writer
import Galileo.Spec.Conn

/-!
# What reaches the web server

Whatever code runs for a request, all it can do to the connection's output is append whole
`FCGI_STDOUT` records with the request's id and a content that is neither empty nor too long —
until a write fails, and then the connection is gone. `Fcgi.said` is the connection after such
records, `Says` and `Torn` are the two ways a call can come out, and the triples of this module
say so for every function of the output path. What is handed over is the text that was to be, or a
prefix of it (`Handed`).
-/

set_option autoImplicit false

namespace Galileo

open Lib Lib.FastCgi

/-! ## Records and their bytes -/

/-- The records that carry the blocks `ds` to the web server. -/
def stdoutOf (id : UInt32) (ds : List Bytes) : List Obs := ds.map (.queued stdout id.toUInt16)

/-- Only two bytes of an id are written. -/
theorem byte0_ofNat (n : Nat) : byte0 (UInt16.ofNat n).toNat = byte0 n := by
  have hand : ∀ n : Nat, n &&& 255 = n % 256 := fun n => Nat.and_two_pow_sub_one_eq_mod n 8
  simp only [byte0, hand, UInt16.toNat_ofNat']
  congr 1
  omega

theorem byte1_ofNat (n : Nat) : byte1 (UInt16.ofNat n).toNat = byte1 n := by
  apply UInt8.toNat_inj.mp
  simp only [byte1, Nat.shiftRight_eq_div_pow, UInt16.toNat_ofNat', UInt8.toNat_ofNat']
  omega

theorem block_take {data : Bytes} (h : data ≠ []) : Block (data.take fcgiMaxContentSize) :=
  ⟨by simp [fcgiMaxContentSize, h], List.length_take_le _ _⟩

/-- The connection after the blocks `ds` were queued for `id`. -/
def Fcgi.said (f : Fcgi) (id : UInt32) (ds : List Bytes) (ws : List Bool)
    (as : List AsrAnswer) : Fcgi :=
  { f with
    output := f.output ++ (stdoutOf id ds).flatMap Obs.wire
    trace := f.trace ++ stdoutOf id ds
    writes := ws
    asr := as }

theorem Fcgi.said_nil (f : Fcgi) (id : UInt32) (as : List AsrAnswer) :
    f.said id [] f.writes as = { f with asr := as } := by
  simp [said, stdoutOf]

theorem Fcgi.said_said (f : Fcgi) (id : UInt32) (ds ds' : List Bytes) (ws ws' : List Bool)
    (as as' : List AsrAnswer) :
    (f.said id ds ws as).said id ds' ws' as' = f.said id (ds ++ ds') ws' as' := by
  simp [said, stdoutOf]

/-- All is well: only such records were queued. -/
def Says (f : Fcgi) (id : UInt32) (g : Fcgi) : Prop :=
  ∃ ds ws as, (∀ d ∈ ds, Block d) ∧ g = f.said id ds ws as

/-- The connection is gone, after such records and perhaps a piece of one more. -/
def Torn (f : Fcgi) (id : UInt32) (g : Fcgi) : Prop :=
  ∃ ds ws as out, (∀ d ∈ ds, Block d) ∧ (f.said id ds ws as).output <+: out ∧
    g = { fcgiError (f.said id ds ws as) with output := out }

theorem Says.refl (f : Fcgi) (id : UInt32) : Says f id f :=
  ⟨[], f.writes, f.asr, by simp, (f.said_nil id f.asr).symm⟩

theorem Says.trans {f g h : Fcgi} {id : UInt32} (hfg : Says f id g) (hgh : Says g id h) :
    Says f id h := by
  obtain ⟨ds, ws, as, hds, rfl⟩ := hfg
  obtain ⟨ds', ws', as', hds', rfl⟩ := hgh
  refine ⟨ds ++ ds', ws', as', ?_, f.said_said id ds ds' ws ws' as as'⟩
  intro d hd
  rcases List.mem_append.mp hd with h | h
  exacts [hds d h, hds' d h]

theorem Says.torn {f g h : Fcgi} {id : UInt32} (hfg : Says f id g) (hgh : Torn g id h) :
    Torn f id h := by
  obtain ⟨ds, ws, as, hds, rfl⟩ := hfg
  obtain ⟨ds', ws', as', out, hds', hout, rfl⟩ := hgh
  rw [f.said_said] at hout ⊢
  refine ⟨ds ++ ds', ws', as', out, ?_, hout, rfl⟩
  intro d hd
  rcases List.mem_append.mp hd with h | h
  exacts [hds d h, hds' d h]

/-- A teardown out of the blue. -/
theorem torn_fcgiError (f : Fcgi) (id : UInt32) (ws : List Bool) (out : Bytes)
    (h : f.output <+: out) : Torn f id { fcgiError f with writes := ws, output := out } :=
  ⟨[], ws, f.asr, out, by simp, by simpa [Fcgi.said, stdoutOf] using h,
    by simp [Fcgi.said, stdoutOf, fcgiError]⟩

/-! ## Writes that may fail -/

/-- `bufferevent_write` either appends or leaves the output alone. -/
theorem buffereventWrite_cases (data : Bytes) (f : Fcgi) :
    (∃ ws, ws <:+ f.writes ∧
      buffereventWrite data f = (some (), { f with writes := ws, output := f.output ++ data })) ∨
    ∃ ws, ws <:+ f.writes ∧ false ∈ f.writes ∧
      buffereventWrite data f = (none, { f with writes := ws }) := by
  rcases f with ⟨clients, toread, want, padding, type, recId, keep, done, input, output, sent,
    closed, _ | ⟨_ | _, ws⟩, asr, trace, next⟩
  · exact .inl ⟨[], List.suffix_refl _, rfl⟩
  · exact .inr ⟨ws, List.suffix_cons _ _, by simp, rfl⟩
  · exact .inl ⟨ws, List.suffix_cons _ _, rfl⟩

/-- Two writes in a row: both succeed, or a prefix of the two was written. -/
theorem buffereventWrite_two (a b : Bytes) (f : Fcgi) :
    (∃ ws, ws <:+ f.writes ∧ (do buffereventWrite a; buffereventWrite b : Prog Fcgi Unit) f
      = (some (), { f with writes := ws, output := f.output ++ (a ++ b) })) ∨
    ∃ ws out, ws <:+ f.writes ∧ false ∈ f.writes ∧ f.output <+: out ∧
      (do buffereventWrite a; buffereventWrite b : Prog Fcgi Unit) f
        = (none, { f with writes := ws, output := out }) := by
  rcases buffereventWrite_cases a f with ⟨ws, hws, h⟩ | ⟨ws, hws, hfail, h⟩
  · rw [Prog.bind_some h]
    rcases buffereventWrite_cases b { f with writes := ws, output := f.output ++ a } with
      ⟨ws', hws', h'⟩ | ⟨ws', hws', hfail, h'⟩
    · exact .inl ⟨ws', hws'.trans hws, by rw [h']; simp⟩
    · exact .inr ⟨ws', f.output ++ a, hws'.trans hws, hws.subset hfail, List.prefix_append _ _,
        by rw [h']⟩
  · rw [Prog.bind_none h]
    exact .inr ⟨ws, f.output, hws, hfail, List.prefix_refl _, rfl⟩

theorem wire_stdoutOf_singleton (id : UInt32) (d : Bytes) :
    (stdoutOf id [d]).flatMap Obs.wire
      = [1, stdout, byte1 id.toNat, byte0 id.toNat, byte1 d.length, byte0 d.length, 0, 0] ++ d := by
  simp only [stdoutOf, List.map_cons, List.map_nil, List.flatMap_cons, List.flatMap_nil, Obs.wire,
    show id.toUInt16 = UInt16.ofNat id.toNat from rfl, byte0_ofNat, byte1_ofNat, List.append_nil]

/-! ## Handing over text -/

/-- `text` was to be handed over for `id`, in blocks; this is what came of it. -/
inductive Handed (f : Fcgi) (id : UInt32) (text : Bytes) : Option Unit × Fcgi → Prop
  | all {ds : List Bytes} {ws : List Bool} (hds : ∀ d ∈ ds, Block d) (htext : ds.flatten = text)
      (hws : ws <:+ f.writes) : Handed f id text (some (), f.said id ds ws f.asr)
  | torn {ds : List Bytes} {ws : List Bool} {out : Bytes} (hfail : false ∈ f.writes)
      (hds : ∀ d ∈ ds, Block d) (htext : ds.flatten <+: text) (hws : ws <:+ f.writes)
      (hout : (f.said id ds ws f.asr).output <+: out) :
      Handed f id text (none, { fcgiError (f.said id ds ws f.asr) with output := out })

section Handing

variable {f g : Fcgi} {id : UInt32} {s t : Bytes} {r : Option Unit × Fcgi}

theorem Handed.nil (f : Fcgi) (id : UInt32) : Handed f id [] (some (), f) := by
  have h := @Handed.all f id [] [] f.writes (by simp) rfl (List.suffix_refl _)
  rwa [f.said_nil] at h

/-- The first write fails. -/
theorem Handed.broken (f : Fcgi) (id : UInt32) (text : Bytes) {ws : List Bool} {out : Bytes}
    (hfail : false ∈ f.writes) (hws : ws <:+ f.writes) (hout : f.output <+: out) :
    Handed f id text (none, fcgiError { f with writes := ws, output := out }) := by
  have h := @Handed.torn f id text [] ws out hfail (by simp) List.nil_prefix hws
    (by simpa [Fcgi.said, stdoutOf] using hout)
  simpa [Fcgi.said, stdoutOf, fcgiError] using h

theorem forall_block_append {ds ds' : List Bytes} (h : ∀ d ∈ ds, Block d)
    (h' : ∀ d ∈ ds', Block d) : ∀ d ∈ ds ++ ds', Block d := fun d hd =>
  (List.mem_append.mp hd).elim (h d) (h' d)

/-- One text after another. -/
theorem Handed.append (h : Handed f id s (some (), g)) (h' : Handed g id t r) :
    Handed f id (s ++ t) r := by
  cases h with
  | @all ds ws hds htext hws =>
    cases h' with
    | @all ds' ws' hds' htext' hws' =>
      rw [f.said_said]
      exact .all (forall_block_append hds hds') (by simp [htext, htext']) (hws'.trans hws)
    | @torn ds' ws' out hfail hds' htext' hws' hout =>
      rw [f.said_said] at hout ⊢
      refine .torn (hws.subset hfail) (forall_block_append hds hds') ?_ (hws'.trans hws) hout
      rw [List.flatten_append, htext]
      exact (List.prefix_append_right_inj s).mpr htext'

/-- A failure, whatever was to come. -/
theorem Handed.cut (h : Handed f id s (none, g)) (t : Bytes) : Handed f id (s ++ t) (none, g) := by
  cases h with
  | torn hfail hds htext hws hout =>
    exact .torn hfail hds (htext.trans (List.prefix_append s t)) hws hout

theorem hands_handed (id : UInt32) : Hands fun f text r => Handed f id text r :=
  ⟨fun f => .nil f id, .append, .cut⟩

theorem dowrite_handed {d : Bytes} (hd : Block d) (f : Fcgi) (id : UInt32) :
    Handed f id d (dowrite id d f) := by
  rcases buffereventWrite_two
      [1, stdout, byte1 id.toNat, byte0 id.toNat, byte1 d.length, byte0 d.length, 0, 0] d f with
    ⟨ws, hws, h⟩ | ⟨ws, out, hws, hfail, hout, h⟩
  · have hall := @Handed.all f id d [d] ws (by simpa using hd) (by simp) hws
    rw [Fcgi.said, wire_stdoutOf_singleton] at hall
    simp only [dowrite, h]
    exact hall
  · simp only [dowrite, h]
    exact .broken f id d hfail hws hout

theorem cltWrite_handed (f : Fcgi) (id : UInt32) (data : Bytes) :
    Handed f id data (cltWrite id data f) := by
  suffices h : ∀ (n : Nat) (data : Bytes) (f : Fcgi), data.length ≤ n →
      Handed f id data (cltWriteLoop id n data f) from h _ _ f (Nat.le_refl _)
  intro n
  induction n with
  | zero =>
    intro data f hn
    rw [List.length_eq_zero_iff.mp (Nat.le_zero.mp hn)]
    exact .nil f id
  | succ n ih =>
    intro data f hn
    rw [cltWriteLoop]
    split
    · rename_i hempty
      rw [List.isEmpty_iff.mp hempty]
      exact .nil f id
    · rename_i hne
      have hfirst := dowrite_handed (block_take (by simpa using hne)) f id
      have hsplit := List.take_append_drop fcgiMaxContentSize data
      rcases hr : dowrite id (data.take fcgiMaxContentSize) f with ⟨_ | _, g⟩ <;> rw [hr] at hfirst
      · rw [Prog.bind_none hr, ← hsplit]
        exact hfirst.cut _
      · have hlen : (data.drop fcgiMaxContentSize).length ≤ n := by
          simp only [List.length_drop, fcgiMaxContentSize]
          omega
        rw [Prog.bind_some hr]
        have happend := hfirst.append (ih _ g hlen)
        rwa [hsplit] at happend

end Handing

theorem cltWrite_triple (f : Fcgi) (id : UInt32) (data : Bytes) :
    Prog.Triple (Says f id) (cltWrite id data) (fun _ => Says f id) (Torn f id) := by
  intro g hg
  have hhanded := cltWrite_handed g id data
  generalize cltWrite id data g = r at hhanded
  cases hhanded with
  | all hds _ _ => exact hg.trans ⟨_, _, _, hds, rfl⟩
  | torn _ hds _ _ hout => exact hg.torn ⟨_, _, _, _, hds, hout, rfl⟩

/-! ## The end of a request -/

theorem wire_endReq (id : Nat) (as ps : UInt8) :
    (Obs.queued endRequestType (UInt16.ofNat id) (endReqBody as ps)).wire
      = [1, endRequestType, byte1 id, byte0 id, 0, 8, 0, 0] ++ endReqBody as ps := by
  have hlen : (endReqBody as ps).length = 8 := rfl
  rw [Obs.wire, byte0_ofNat, byte1_ofNat, hlen]
  rfl

/-- `fcgi_send_end_req` queues one record, or the start of one. -/
theorem fcgiSendEndReq_cases (id : Nat) (as ps : UInt8) (f : Fcgi) :
    (∃ ws, ws <:+ f.writes ∧ fcgiSendEndReq id as ps f
      = (some (), { f with
          writes := ws
          output :=
            f.output ++ (Obs.queued endRequestType (UInt16.ofNat id) (endReqBody as ps)).wire
          trace := f.trace ++ [.queued endRequestType (UInt16.ofNat id) (endReqBody as ps)] })) ∨
    ∃ ws out, ws <:+ f.writes ∧ false ∈ f.writes ∧ f.output <+: out ∧
      fcgiSendEndReq id as ps f = (none, { f with writes := ws, output := out }) := by
  have hrun : fcgiSendEndReq id as ps
      = (do buffereventWrite [1, endRequestType, byte1 id, byte0 id, 0, 8, 0, 0]
            buffereventWrite (endReqBody as ps) : Prog Fcgi Unit) >>= fun _ =>
          Prog.modify fun f => f.observe
            (.queued endRequestType (UInt16.ofNat id) (endReqBody as ps)) := by
    rw [fcgiSendEndReq, bind_assoc]
  rcases buffereventWrite_two [1, endRequestType, byte1 id, byte0 id, 0, 8, 0, 0]
      (endReqBody as ps) f with ⟨ws, hws, h⟩ | ⟨ws, out, hws, hfail, hout, h⟩
  · refine .inl ⟨ws, hws, ?_⟩
    rw [hrun, Prog.bind_some h, wire_endReq]
    rfl
  · refine .inr ⟨ws, out, hws, hfail, hout, ?_⟩
    rw [hrun, Prog.bind_none h]

end Galileo
