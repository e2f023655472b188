import Galileo.Proof.Refine

/-!
# Requests do not meet

Several requests share a connection, and the only thing that tells them apart is their id. This
module says that the id is enough: no two clients have the same one, a look-up finds the client of
the request that was last accepted under it, and a record is processed for the client its header
names and for nobody else.
-/

set_option autoImplicit false

namespace Galileo

open Lib Lib.FastCgi Lib.Run

variable {c : Client} {f g : Fcgi} {m : CltM Unit}

/-! ## One record, one client -/

section Records

variable {i : UInt16}

/-- Something was logged first that is not for the web server. -/
theorem Outcome.of_observe {o : Obs} (ho : ∀ t k d, o ≠ .queued t k d)
    (h : Outcome i (f.observe o) g) : Outcome i f g := by
  obtain ⟨os, htr, hos, hout⟩ := h.queues
  have hwire : o.wire = [] := by
    cases o with
    | queued t k d => exact absurd rfl (ho t k d)
    | _ => rfl
  refine ⟨h.frame, o :: os, by simpa [Fcgi.observe] using htr, fun t k d hm => ?_, fun hc => ?_⟩
  · rcases List.mem_cons.mp hm with hm | hm
    · exact absurd hm.symm (ho t k d)
    · exact hos t k d hm
  · rw [hout hc, List.flatMap_cons, hwire]
    rfl

/-- "Prepare for the next record" touches no client. -/
theorem Outcome.next (h : Outcome i f g) : Outcome i f (nextRecord g) := ⟨h.frame, h.queues⟩

theorem outcome_afterCall {r : Option Unit × Fcgi} (h : Outcome i f r.2) :
    Outcome i f (afterCall r).fcgi := by
  rcases r with ⟨_ | u, g⟩
  · exact h
  · exact h.next

/-- Input is taken and a client stored. -/
theorem outcome_store_input (hc : c.cltId = i.toUInt32) (toread : Int) (input : Bytes) :
    Outcome i f (Fcgi.store { f with fcgToread := toread, input := input } c) :=
  Outcome.trans (g := { f with fcgToread := toread, input := input })
    (Outcome.same i rfl rfl rfl) (outcome_store hc) fun h => h

theorem withClient_outcome (hm : Serves m) (hfind : f.find i.toUInt32 = some c) :
    Outcome i f (withClient i.toUInt32 m f).2 := by
  rw [withClient_run hfind]
  exact (hm.runs ⟨f, c⟩).served.outcome (f.cltId_of_find hfind)

/-- The client a request is started for, as `proxy_start_request` leaves it. -/
theorem started_served (env : Env) (f : Fcgi) (d : Client) : ∃ c : Client, c.cltId = d.cltId ∧
    Served (f.observe (.started d.serial)) c (proxyStartRequest env ⟨f, d⟩).2 := by
  cases proxyStartRequest_runs env f d with
  | stays pc _ h => exact ⟨{ d with cltPc := some pc }, rfl, .stays h⟩
  | ends _ h => exact ⟨d, rfl, .ends h⟩
  | breaks _ h => exact ⟨d, rfl, .breaks h⟩

theorem start_outcome (env : Env) {d : Client} (hd : d.cltId = i.toUInt32) :
    Outcome i f
      ((proxyStartRequest env ⟨f, d⟩).2.fcgi.store (proxyStartRequest env ⟨f, d⟩).2.clt) := by
  obtain ⟨c, hc, hserved⟩ := started_served env f d
  exact (hserved.outcome (hc.trans hd)).of_observe fun _ _ _ => Obs.noConfusion

theorem parseForm_outcome (env : Env) (hfind : f.find i.toUInt32 = some c) :
    Outcome i f (withClient i.toUInt32 (fcgiParseForm env) f).2 := by
  have hc := f.cltId_of_find hfind
  rw [withClient_run hfind]
  by_cases hlen : f.fcgToread = 0
  · rw [fcgiParseForm_empty env c hlen]
    exact start_outcome env hc
  · rw [fcgiParseForm_chunk env c hlen]
    exact outcome_store_input ((formChunk_same _ c).id.trans hc) _ _

theorem readParams_outcome (env : Env) (stale : Bytes) (f : Fcgi) :
    Outcome f.fcgRecId f (readParams env stale f).fcgi := by
  cases hfind : f.find f.fcgRecId.toUInt32 with
  | none =>
    rw [readParams, hfind]
    exact Outcome.same _ rfl rfl rfl
  | some c =>
    by_cases hlen : f.fcgToread = 0
    · rw [readParams, hfind]
      dsimp only
      rw [if_pos hlen]
      split
      · refine outcome_afterCall ?_
        rw [withClient_run hfind]
        exact start_outcome env (f.cltId_of_find hfind)
      · exact Outcome.same _ rfl rfl rfl
    · obtain ⟨r, -, hlearnt, hread⟩ := readParams_content env stale hfind hlen
      rw [hread]
      split
      · exact (outcome_store_input (hlearnt.id.trans (f.cltId_of_find hfind)) _ _).next
      · exact Outcome.closed _ rfl rfl

theorem readStdin_outcome (env : Env) (f : Fcgi) :
    Outcome f.fcgRecId f (readStdin env f).fcgi := by
  rw [readStdin]
  cases hfind : f.find f.fcgRecId.toUInt32 with
  | none => exact Outcome.same _ rfl rfl rfl
  | some c =>
    dsimp only
    split
    · exact Outcome.same _ rfl rfl rfl
    · exact outcome_afterCall (parseForm_outcome env hfind)

theorem readAbort_outcome (f : Fcgi) : Outcome f.fcgRecId f (readAbort f).fcgi := by
  rw [readAbort]
  cases hfind : f.find f.fcgRecId.toUInt32 with
  | none => exact Outcome.same _ rfl rfl rfl
  | some c =>
    exact outcome_afterCall (withClient_outcome (endRequest_finishes _ _).serves hfind)

theorem readBegin_outcome (f : Fcgi) : Outcome f.fcgRecId f (readBegin f).fcgi := by
  have hcases := readBegin_cases f
  generalize readBegin f = r at hcases ⊢
  cases hcases with
  | waits _ _ => exact Outcome.same _ rfl rfl rfl
  | badSize _ => exact Outcome.closed _ rfl rfl
  | refused ws _ _ =>
    refine ⟨fun _ _ _ => rfl, _, rfl, fun t k d hm => ?_, fun _ => ?_⟩
    · cases List.mem_singleton.mp hm
      rfl
    · simp [Flow.fcgi, nextRecord]
  | refusedTorn ws out _ => exact Outcome.closed _ rfl rfl
  | notKept _ => exact Outcome.closed _ rfl rfl
  | again c _ _ _ _ => exact Outcome.same _ rfl rfl rfl
  | accepted _ _ _ _ =>
    refine ⟨fun _ j hj => ?_, [.accepted f.fcgRecId f.nextSerial], rfl, by simp, fun _ => ?_⟩
    · exact (f.find_cons (Client.new f.fcgRecId.toUInt32 f.nextSerial) j).trans (if_neg hj)
    · simp [Flow.fcgi, nextRecord, Obs.wire]

/-- **A record is processed for the client its header names**: no other client changes, and only
records with that id are queued. -/
theorem readBody_outcome (env : Env) (stale : Bytes) (f : Fcgi) :
    Outcome f.fcgRecId f (readBody env stale f).fcgi := by
  rw [readBody_eq]
  have hrec : ∀ t k d, f.record ≠ .queued t k d := fun _ _ _ => Obs.noConfusion
  split
  · exact (readBegin_outcome (f.observe f.record)).of_observe hrec
  split
  · exact (readParams_outcome env stale (f.observe f.record)).of_observe hrec
  split
  · exact (readStdin_outcome env (f.observe f.record)).of_observe hrec
  split
  · exact (readAbort_outcome (f.observe f.record)).of_observe hrec
  · exact Outcome.of_observe hrec (Outcome.same _ rfl rfl rfl)

end Records

/-! ## The ids -/

/-- A step removes clients, or adds one under an id that has none. -/
def Grows (f g : Fcgi) : Prop :=
  g.ids.Sublist f.ids ∨
    ∃ i : UInt16, f.find i.toUInt32 = none ∧ g.ids = i.toUInt32 :: f.ids

theorem Grows.same (h : g.fcgClients = f.fcgClients) : Grows f g :=
  .inl (by rw [Fcgi.ids, Fcgi.ids, h])

theorem Grows.closed (h : g.fcgClients = []) : Grows f g :=
  .inl (by rw [Fcgi.ids, h]; exact List.nil_sublist _)

theorem Grows.next (h : Grows f g) : Grows f (nextRecord g) := h

theorem grows_afterCall {f : Fcgi} {r : Option Unit × Fcgi} (h : Grows f r.2) :
    Grows f (afterCall r).fcgi := by
  rcases r with ⟨_ | u, g⟩
  · exact h
  · exact h.next

theorem grows_store (f : Fcgi) (c : Client) (toread : Int) (input : Bytes) :
    Grows f (Fcgi.store { f with fcgToread := toread, input := input } c) :=
  .inl (by rw [Fcgi.ids_store]; exact List.Sublist.refl _)

theorem withClient_grows (hm : Serves m) {f : Fcgi} {i : UInt16}
    (hfind : f.find i.toUInt32 = some c) : Grows f (withClient i.toUInt32 m f).2 := by
  rw [withClient_run hfind]
  exact .inl ((hm.runs ⟨f, c⟩).served.ids (f.cltId_of_find hfind))

theorem start_grows (env : Env) (f : Fcgi) {i : UInt16} {d : Client} (hd : d.cltId = i.toUInt32) :
    Grows f
      ((proxyStartRequest env ⟨f, d⟩).2.fcgi.store (proxyStartRequest env ⟨f, d⟩).2.clt) := by
  obtain ⟨c, hc, hserved⟩ := started_served env f d
  have hsub := hserved.ids (hc.trans hd)
  exact .inl hsub

theorem readBody_grows (env : Env) (stale : Bytes) (f : Fcgi) :
    Grows f (readBody env stale f).fcgi := by
  rw [readBody_eq]
  suffices h : ∀ g : Fcgi, Grows g (readBegin g).fcgi ∧ Grows g (readParams env stale g).fcgi ∧
      Grows g (readStdin env g).fcgi ∧ Grows g (readAbort g).fcgi by
    obtain ⟨hb, hp, hs, ha⟩ := h (f.observe f.record)
    split
    · exact hb
    split
    · exact hp
    split
    · exact hs
    split
    · exact ha
    · exact Grows.same rfl
  intro g
  refine ⟨?_, ?_, ?_, ?_⟩
  · have hcases := readBegin_cases g
    generalize readBegin g = r at hcases ⊢
    cases hcases with
    | waits _ _ => exact Grows.same rfl
    | badSize _ => exact Grows.closed rfl
    | refused ws _ _ => exact Grows.same rfl
    | refusedTorn ws out _ => exact Grows.closed rfl
    | notKept _ => exact Grows.closed rfl
    | again c _ _ _ _ => exact Grows.same rfl
    | accepted _ _ _ hfind => exact .inr ⟨g.fcgRecId, hfind, rfl⟩
  · cases hfind : g.find g.fcgRecId.toUInt32 with
    | none =>
      rw [readParams, hfind]
      exact Grows.same rfl
    | some c =>
      by_cases hlen : g.fcgToread = 0
      · rw [readParams, hfind]
        dsimp only
        rw [if_pos hlen]
        split
        · refine grows_afterCall ?_
          rw [withClient_run hfind]
          exact start_grows env g (g.cltId_of_find hfind)
        · exact Grows.same rfl
      · obtain ⟨r, -, -, hread⟩ := readParams_content env stale hfind hlen
        rw [hread]
        split
        · exact (grows_store g _ _ _).next
        · exact Grows.closed rfl
  · rw [readStdin]
    cases hfind : g.find g.fcgRecId.toUInt32 with
    | none => exact Grows.same rfl
    | some c =>
      dsimp only
      split
      · exact Grows.same rfl
      · refine grows_afterCall ?_
        rw [withClient_run hfind]
        by_cases hlen : g.fcgToread = 0
        · rw [fcgiParseForm_empty env c hlen]
          have hid : c.cltId = g.fcgRecId.toUInt32 := g.cltId_of_find hfind
          exact start_grows env g (d := { c with cltBodydone := true }) hid
        · rw [fcgiParseForm_chunk env c hlen]
          exact grows_store g _ _ _
  · rw [readAbort]
    cases hfind : g.find g.fcgRecId.toUInt32 with
    | none => exact Grows.same rfl
    | some c => exact grows_afterCall (withClient_grows (endRequest_finishes _ _).serves hfind)

theorem callback_grows (hm : Serves m) (f : Fcgi) (i : UInt16) (waiting : Client → Bool) :
    Grows f (callback i waiting m f) := by
  rw [callback]
  cases hfind : f.find i.toUInt32 with
  | none => exact Grows.same rfl
  | some c =>
    dsimp only
    split
    · exact withClient_grows hm hfind
    · exact Grows.same rfl

theorem readHeader_grows (f : Fcgi) : Grows f (readHeader f).fcgi := by
  rw [readHeader]
  split
  · split
    · exact Grows.closed rfl
    · exact Grows.same rfl
  · exact Grows.same rfl

theorem step_grows (env : Env) (f : Fcgi) (e : Event) : Grows f (step env f e) := by
  rw [step]
  split
  · exact Grows.same rfl
  · cases e with
    | arrive bytes =>
      rw [handle, Fcgi.arrive]
      split <;> exact Grows.same rfl
    | read stale =>
      rw [handle, readStep]
      split
      · exact Grows.same rfl
      · cases f.fcgWant with
        | header => exact readHeader_grows f
        | body => exact readBody_grows env stale f
    | resolved i res net => exact callback_grows (proxyResolved_serves res net) f i _
    | connect i net => exact callback_grows (proxyConnect_serves net) f i _
    | upstream i oob bytes => exact callback_grows (upstreamRead_serves oob bytes) f i _
    | upstreamError i err => exact callback_grows (proxyError_finishes err).serves f i _
    | drained n =>
      rw [handle, fcgiWrite]
      split
      · exact Grows.closed rfl
      · exact Grows.same rfl
    | error => exact Grows.closed rfl

/-- The ids of a connection are distinct and have two bytes. -/
structure Fcgi.Keyed (f : Fcgi) : Prop where
  nodup : f.ids.Nodup
  lt : ∀ j ∈ f.ids, j.toNat < 65536

theorem Fcgi.find_eq_none {f : Fcgi} {j : UInt32} : f.find j = none ↔ j ∉ f.ids := by
  rw [find_eq, List.find?_eq_none, ids, List.mem_map]
  constructor
  · rintro h ⟨c, hc, rfl⟩
    simpa using h c hc
  · intro h c hc
    simpa using fun hj => h ⟨c, hc, hj.symm⟩

theorem Grows.keyed (h : Grows f g) (hf : f.Keyed) : g.Keyed := by
  rcases h with h | ⟨i, hi, hids⟩
  · exact ⟨hf.nodup.sublist h, fun j hj => hf.lt j (h.subset hj)⟩
  · constructor
    · rw [hids, List.nodup_cons]
      exact ⟨Fcgi.find_eq_none.mp hi, hf.nodup⟩
    · intro j hj
      rw [hids, List.mem_cons] at hj
      rcases hj with rfl | hj
      · simpa using i.toNat_lt
      · exact hf.lt j hj

/-- Every client is found under its id. -/
theorem Fcgi.Keyed.find_of_mem {f : Fcgi} (h : f.Keyed) (hc : c ∈ f.fcgClients) :
    f.find c.cltId = some c := by
  have hn := h.nodup
  rw [ids] at hn
  rw [find_eq]
  revert hn hc
  induction f.fcgClients with
  | nil => simp
  | cons d ds ih =>
    intro hc hn
    rw [List.map_cons, List.nodup_cons] at hn
    rcases List.mem_cons.mp hc with rfl | hc
    · simp
    · have hne : ¬ c.cltId = d.cltId := fun h => hn.1 (h ▸ List.mem_map_of_mem hc)
      rw [List.find?_cons, decide_eq_false hne]
      exact ih hc hn.2

theorem keyed_run (env : Env) (writes : List Bool) (asr : List AsrAnswer) (es : List Event) :
    (run env (Fcgi.new writes asr) es).Keyed := by
  suffices h : ∀ f : Fcgi, f.Keyed → (run env f es).Keyed from
    h _ ⟨by simp [Fcgi.ids, Fcgi.new], by simp [Fcgi.ids, Fcgi.new]⟩
  induction es with
  | nil => exact fun f hf => hf
  | cons e es ih => exact fun f hf => ih _ ((step_grows env f e).keyed hf)

/-! ## Isolation -/

theorem readStep_outcome (env : Env) (stale : Bytes) (f : Fcgi) :
    Outcome f.fcgRecId f (readStep env stale f).fcgi := by
  rw [readStep]
  split
  · exact Outcome.same _ rfl rfl rfl
  · cases f.fcgWant with
    | body => exact readBody_outcome env stale f
    | header =>
      show Outcome _ _ (readHeader f).fcgi
      rw [readHeader]
      split
      · split
        · exact Outcome.closed _ rfl rfl
        · exact Outcome.same _ rfl rfl rfl
      · exact Outcome.same _ rfl rfl rfl

/-- **Requests do not meet.** In every state of a connection the clients have distinct ids of two
bytes, on which the comparator is the order of the numbers, so that each is found under its own
id; what is found under an id is the client made for the request last accepted under it; and a
turn of `fcgi_read` that leaves the connection open changes no client but that of the record's id
and queues records with that id only. -/
theorem requests_isolated (env : Env) (writes : List Bool) (asr : List AsrAnswer)
    (es : List Event) :
    let f := run env (Fcgi.new writes asr) es
    (f.ids.Nodup ∧ (∀ j ∈ f.ids, j.toNat < 65536) ∧
      (∀ a ∈ f.ids, ∀ b ∈ f.ids, fcgiClientCmp a b = (a.toNat : Int) - b.toNat) ∧
      ∀ c ∈ f.fcgClients, f.find c.cltId = some c) ∧
    (∀ (i : UInt16) (c : Client), f.find i.toUInt32 = some c →
      ∃ l₁ l₂, f.trace = l₁ ++ .accepted i c.serial :: l₂ ∧ ∀ s, .accepted i s ∉ l₂) ∧
    ∀ stale, (readStep env stale f).fcgi.closed = false →
      (∀ j, j ≠ f.fcgRecId.toUInt32 → (readStep env stale f).fcgi.find j = f.find j) ∧
      ∃ os, (readStep env stale f).fcgi.trace = f.trace ++ os ∧
        (readStep env stale f).fcgi.output = f.output ++ os.flatMap Obs.wire ∧
        ∀ t k d, .queued t k d ∈ os → k = f.fcgRecId := by
  intro f
  have hkeyed : f.Keyed := keyed_run env writes asr es
  have hwf : f.abs.Wf := wf_of_run env writes asr es
  refine ⟨⟨hkeyed.nodup, hkeyed.lt, ?_, fun c hc => hkeyed.find_of_mem hc⟩, ?_, ?_⟩
  · exact fun a ha b hb => fcgiClientCmp_of_lt (hkeyed.lt a ha) (hkeyed.lt b hb)
  · intro i c hfind
    have hopen : f.closed = false := by
      by_contra hclosed
      have hgone : f.abs.req i = none :=
        gone_of_run env writes asr es (show f.closed = true by simpa using hclosed) i
      simp [Fcgi.abs, hfind] at hgone
    have hlive : Conn.live i f.trace = some c.serial := by
      have := hwf.live hopen i
      simpa [Fcgi.abs, hfind, Client.req] using this
    exact Conn.accepted_of_live hlive
  · intro stale hopen
    have hout := readStep_outcome env stale f
    obtain ⟨os, htr, hos, hwire⟩ := hout.queues
    exact ⟨hout.frame hopen, os, htr, hwire hopen, hos⟩

end Galileo
