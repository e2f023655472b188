import Galileo.Lib.Run
import Galileo.Model.Output
import Mathlib.Data.List.Induction
import Mathlib.Logic.Function.Basic

/-!
# A connection, abstractly

What a FastCGI connection is for, without the bytes: requests are admitted under an id, started,
answered with records, and finished. A `Conn` maps each id to the request that is open under it
and keeps the log of what was observed; an `Act` is one thing that can happen, `Enabled` says
when, `apply` says what it does. The log decides everything: `live i` reads off it which request
is open under `i`.

Nothing here is translated from the source. That the program does nothing but these acts is
`step_refines`, and the theorems about all runs of a connection are theorems about runs of acts.

Two acts are enabled more often than one would like, because the program allows them: an id can
be *refused* while a request is open under it, and a request can be *started* twice. What follows
when they are not is stated with the condition spelled out.
-/

set_option autoImplicit false

namespace Galileo

open Lib Lib.FastCgi Lib.Run

/-! ## Records and their bytes -/

/-- The bytes of a queued record; other observations put nothing on the wire. -/
def Obs.wire : Obs → Bytes
  | .queued type id content =>
      [1, type, byte1 id.toNat, byte0 id.toNat, byte1 content.length, byte0 content.length, 0, 0]
        ++ content
  | _ => []

/-- What a `FCGI_STDOUT` record may carry. -/
def Block (d : Bytes) : Prop := d ≠ [] ∧ d.length ≤ fcgiMaxContentSize

/-! ## States and acts -/

/-- An open request. -/
@[ext] structure Req where
  serial : Nat
  method : Method
  started : Bool

@[ext] structure Conn where
  /-- The request that is open under an id. -/
  req : UInt16 → Option Req
  keep : Bool
  done : Bool
  closed : Bool
  log : List Obs
  out : Bytes
  next : Nat

inductive Act where
  /-- A record was read and its content is looked at. -/
  | dispatch (type : UInt8) (id : UInt16) (content : Bytes)
  /-- Content is queued for the web server. -/
  | say (id : UInt16) (data : Bytes)
  /-- `FCGI_END_REQUEST` in answer to a role the program does not play. -/
  | refuse (id : UInt16) (body : Bytes)
  /-- `FCGI_BEGIN_REQUEST` for a responder: a request is opened unless one is. -/
  | accept (id : UInt16) (keep : Bool)
  /-- The parameters tell the method. -/
  | learn (id : UInt16) (method : Method)
  /-- `proxy_start_request` is called. -/
  | start (id : UInt16)
  /-- `end_request`. -/
  | finish (id : UInt16) (body : Bytes)
  /-- The connection is torn down; `out` is what the socket's buffer held by then. -/
  | tear (out : Bytes)
  /-- The connection is closed because it is done. -/
  | close

variable {c : Conn} {i : UInt16} {s : Nat} {a : Act} {r : Req}

namespace Conn

/-- Log observations, and queue the records among them. -/
def put (c : Conn) (os : List Obs) : Conn :=
  { c with log := c.log ++ os, out := c.out ++ os.flatMap Obs.wire }

/-- What an act does. -/
def apply (c : Conn) : Act → Conn
  | .dispatch type id content => c.put [.dispatched type id content]
  | .say id data => c.put [.queued stdout id data]
  | .refuse id body => c.put [.queued endRequestType id body]
  | .accept id keep =>
      match c.req id with
      | some _ => { c with keep := keep }
      | none =>
          { c.put [.accepted id c.next] with
            keep := keep
            req := Function.update c.req id (some ⟨c.next, .unknown, false⟩)
            next := c.next + 1 }
  | .learn id method =>
      { c with
        req := Function.update c.req id ((c.req id).map fun r => { r with method := method }) }
  | .start id =>
      match c.req id with
      | none => c
      | some r =>
          { c.put [.started r.serial] with
            req := Function.update c.req id (some { r with started := true }) }
  | .finish id body =>
      match c.req id with
      | none => c
      | some r =>
          { c.put [.queued endRequestType id body, .freed id r.serial] with
            req := Function.update c.req id none
            done := c.done || !c.keep }
  | .tear out => { c with req := fun _ => none, closed := true, out := out }
  | .close => { c with req := fun _ => none, closed := true }

/-- When an act can happen. -/
def Enabled (c : Conn) (a : Act) : Prop :=
  c.closed = false ∧
    match a with
    | .say id data => (c.req id).isSome ∧ Block data
    | .accept _ _ => c.keep = true
    | .learn _ method => method ≠ .unknown
    | .start id => ∃ r, c.req id = some r ∧ r.method ≠ .unknown
    | .finish id _ => (c.req id).isSome
    | .tear out => c.out <+: out
    | .close => c.done = true
    | _ => True

@[simp] theorem put_req (c : Conn) (os : List Obs) : (c.put os).req = c.req := rfl
@[simp] theorem put_keep (c : Conn) (os : List Obs) : (c.put os).keep = c.keep := rfl
@[simp] theorem put_done (c : Conn) (os : List Obs) : (c.put os).done = c.done := rfl
@[simp] theorem put_closed (c : Conn) (os : List Obs) : (c.put os).closed = c.closed := rfl
@[simp] theorem put_next (c : Conn) (os : List Obs) : (c.put os).next = c.next := rfl
@[simp] theorem put_log (c : Conn) (os : List Obs) : (c.put os).log = c.log ++ os := rfl
@[simp] theorem put_out (c : Conn) (os : List Obs) :
    (c.put os).out = c.out ++ os.flatMap Obs.wire := rfl

theorem put_put (c : Conn) (os os' : List Obs) : (c.put os).put os' = c.put (os ++ os') := by
  simp [put]

/-! ## What the log says -/

/-- The request that is open under `i`, as one observation changes it. -/
def liveStep (i : UInt16) (l : Option Nat) : Obs → Option Nat
  | .accepted j s => if j = i then some s else l
  | .freed j _ => if j = i then none else l
  | _ => l

/-- The serial of the request the log leaves open under `i`. -/
def live (i : UInt16) (log : List Obs) : Option Nat := log.foldl (liveStep i) none

@[simp] theorem live_append (i : UInt16) (log log' : List Obs) :
    live i (log ++ log') = log'.foldl (liveStep i) (live i log) := List.foldl_append

/-- Without a new request under `i`, none is open. -/
theorem live_none_append {m : List Obs} (hm : ∀ s, .accepted i s ∉ m) :
    ∀ {l : List Obs}, live i l = none → live i (l ++ m) = none := by
  induction m with
  | nil => intro l hl; simpa using hl
  | cons o m ih =>
    intro l hl
    have hl' : live i (l ++ [o]) = none := by
      cases o with
      | accepted j s =>
        have hj : j ≠ i := by
          rintro rfl
          exact hm s (by simp)
        simp [liveStep, hj, hl]
      | freed j s => simp [liveStep, hl]
      | _ => simpa [liveStep] using hl
    simpa using ih (fun s hs => hm s (by simp [hs])) hl'

/-- The request that is open under `i` is the last that was accepted under it. -/
theorem accepted_of_live {log : List Obs} (h : live i log = some s) :
    ∃ l₁ l₂, log = l₁ ++ .accepted i s :: l₂ ∧ ∀ t, .accepted i t ∉ l₂ := by
  induction log using List.reverseRecOn with
  | nil => simp [live] at h
  | append_singleton log o ih =>
    have hkeep : live i log = some s → (∀ t, o ≠ .accepted i t) →
        ∃ l₁ l₂, log ++ [o] = l₁ ++ .accepted i s :: l₂ ∧ ∀ t, .accepted i t ∉ l₂ := by
      intro hl ho
      obtain ⟨l₁, l₂, rfl, hl₂⟩ := ih hl
      refine ⟨l₁, l₂ ++ [o], by simp, fun t ht => ?_⟩
      rcases List.mem_append.mp ht with ht | ht
      · exact hl₂ t ht
      · exact ho t (List.mem_singleton.mp ht).symm
    rw [live_append] at h
    cases o with
    | accepted j t =>
      by_cases hj : j = i
      · subst hj
        obtain rfl : t = s := by simpa [liveStep] using h
        exact ⟨log, [], by simp, by simp⟩
      · exact hkeep (by simpa [liveStep, hj] using h) fun t ht => by cases ht; exact hj rfl
    | freed j t =>
      by_cases hj : j = i
      · simp [liveStep, hj] at h
      · exact hkeep (by simpa [liveStep, hj] using h) fun _ => Obs.noConfusion
    | _ => exact hkeep h fun _ => Obs.noConfusion

/-- The log is written in an order that makes sense: a request is accepted under an id that is
free, output is queued for an open request, and a request is freed right behind its
`FCGI_END_REQUEST`. -/
def Orderly (before : List Obs) (o : Obs) (_ : List Obs) : Prop :=
  match o with
  | .accepted i _ => live i before = none
  | .queued type i _ => type = stdout → (live i before).isSome
  | .freed i s => live i before = some s ∧ ∃ l body, before = l ++ [.queued endRequestType i body]
  | _ => True

/-- An open request sees `FCGI_END_REQUEST` only when it is freed. -/
def EndsOnce (before : List Obs) (o : Obs) (behind : List Obs) : Prop :=
  match o with
  | .queued type i _ =>
      type = endRequestType → ∀ s, live i before = some s → ∃ l, behind = .freed i s :: l
  | _ => True

theorem Orderly.mono (l₁ : List Obs) (o : Obs) (l₂ l₃ : List Obs) (h : Orderly l₁ o l₂) :
    Orderly l₁ o (l₂ ++ l₃) := h

theorem EndsOnce.mono (l₁ : List Obs) (o : Obs) (l₂ l₃ : List Obs) (h : EndsOnce l₁ o l₂) :
    EndsOnce l₁ o (l₂ ++ l₃) := by
  cases o with
  | queued type i body =>
    intro ht s hs
    obtain ⟨l, rfl⟩ := h ht s hs
    exact ⟨l ++ l₃, rfl⟩
  | _ => trivial

/-- A request that is open stays the one that is open until it is freed. -/
theorem live_some_append {m : List Obs} (hm : ∀ t, .freed i t ∉ m) :
    ∀ {l t : List Obs}, Everywhere Orderly (l ++ m ++ t) → live i l = some s →
      live i (l ++ m) = some s := by
  induction m with
  | nil => intro l t _ hl; simpa using hl
  | cons o m ih =>
    intro l t hlog hl
    have ho : Orderly l o (m ++ t) := hlog l o (m ++ t) (by simp)
    have hl' : live i (l ++ [o]) = some s := by
      cases o with
      | accepted j u =>
        have hj : j ≠ i := by
          rintro rfl
          exact absurd (hl.symm.trans ho) (by simp)
        simp [liveStep, hj, hl]
      | freed j u =>
        have hj : j ≠ i := by
          rintro rfl
          exact hm u (by simp)
        simp [liveStep, hj, hl]
      | _ => simpa [liveStep] using hl
    have := ih (fun u hu => hm u (by simp [hu])) (l := l ++ [o]) (t := t) (by simpa using hlog) hl'
    simpa using this

/-- Whether a request is freed under `i`. -/
def frees (i : UInt16) : Obs → Bool
  | .freed j _ => j == i
  | _ => false

/-- Every request that is no longer open was freed, right behind its `FCGI_END_REQUEST`. -/
theorem freed_of_live_ne {log : List Obs} (hlog : Everywhere Orderly log)
    (hacc : .accepted i s ∈ log) (hlive : live i log ≠ some s) :
    ∃ l₁ body l₂, log = l₁ ++ .queued endRequestType i body :: .freed i s :: l₂ := by
  obtain ⟨l, m, rfl⟩ := List.append_of_mem hacc
  have hopen : live i (l ++ [.accepted i s]) = some s := by simp [liveStep]
  by_cases hfree : ∃ t, .freed i t ∈ m
  · -- the first time a request is freed under `i`, it is this one
    have hfind : (m.find? (frees i)).isSome := by
      obtain ⟨t, ht⟩ := hfree
      exact List.find?_isSome.mpr ⟨_, ht, by simp [frees]⟩
    obtain ⟨o, ho⟩ := Option.isSome_iff_exists.mp hfind
    obtain ⟨hp, m₁, m₂, rfl, hm₁⟩ := List.find?_eq_some_iff_append.mp ho
    obtain ⟨t, rfl⟩ : ∃ t, o = .freed i t := by
      cases o <;> simp_all [frees]
    have hno : ∀ u, .freed i u ∉ m₁ := fun u hu => by simpa [frees] using hm₁ _ hu
    have hstill : live i (l ++ .accepted i s :: m₁) = some s := by
      have := live_some_append hno (l := l ++ [.accepted i s]) (t := .freed i t :: m₂)
        (by simpa using hlog) hopen
      simpa using this
    obtain ⟨hlive', l', body, hl'⟩ := hlog (l ++ .accepted i s :: m₁) (.freed i t) m₂ (by simp)
    obtain rfl : t = s := by simpa using hlive'.symm.trans hstill
    refine ⟨l', body, m₂, ?_⟩
    calc l ++ .accepted i t :: (m₁ ++ .freed i t :: m₂)
        = (l ++ .accepted i t :: m₁) ++ .freed i t :: m₂ := by simp
      _ = _ := by rw [hl']; simp
  · simp only [not_exists] at hfree
    refine absurd ?_ hlive
    have := live_some_append hfree (l := l ++ [.accepted i s]) (t := []) (by simpa using hlog)
      hopen
    simpa using this

/-! ## Every run -/

/-- What holds in every state of a connection. -/
structure Wf (c : Conn) : Prop where
  fresh : ∀ i r, c.req i = some r → r.serial < c.next
  serials : ∀ i j r q, c.req i = some r → c.req j = some q → r.serial = q.serial → i = j
  known : ∀ i r, c.req i = some r → r.started = true → r.method ≠ .unknown
  marked : ∀ i r, c.req i = some r → (.started r.serial ∈ c.log ↔ r.started = true)
  past : ∀ s, .started s ∈ c.log → s < c.next
  orderly : Everywhere Orderly c.log
  live : c.closed = false → ∀ i, live i c.log = (c.req i).map Req.serial
  sent : c.closed = false → c.out = c.log.flatMap Obs.wire
  sent_le : c.log.flatMap Obs.wire <+: c.out

/-- A connection on which nothing has happened. -/
def opened : Conn := ⟨fun _ => none, true, false, false, [], [], 0⟩

theorem wf_opened : Wf opened where
  fresh := by simp [opened]
  serials := by simp [opened]
  known := by simp [opened]
  marked := by simp [opened]
  past := by simp [opened]
  orderly := Everywhere.nil
  live := by simp [opened, Conn.live]
  sent := by simp [opened]
  sent_le := by simp [opened]

/-- Log entries that neither open, start nor free a request. -/
theorem Wf.put (h : c.Wf) {o : Obs} (hopen : c.closed = false) (hlive : ∀ i l, liveStep i l o = l)
    (hstart : ∀ s, o ≠ .started s) (ho : Orderly c.log o []) : (c.put [o]).Wf where
  fresh := h.fresh
  serials := h.serials
  known := h.known
  marked i r hr := by simpa [(hstart _).symm] using h.marked i r hr
  past s hs := by
    rcases List.mem_append.mp hs with hs | hs
    · exact h.past s hs
    · exact absurd (List.mem_singleton.mp hs).symm (hstart s)
  orderly := h.orderly.append Orderly.mono (everywhere_singleton.mpr (by simpa using ho))
  live _ i := by simpa [hlive] using h.live hopen i
  sent _ := by simp [h.sent hopen]
  sent_le := by simp [h.sent hopen]

/-- A look into a map after one entry has changed. -/
theorem update_eq_some {f : UInt16 → Option Req} {i j : UInt16} {v : Option Req} :
    Function.update f i v j = some r ↔ (j = i ∧ v = some r) ∨ (j ≠ i ∧ f j = some r) := by
  by_cases hji : j = i
  · subst hji
    simp
  · simp [hji]

/-- A new request has a serial nobody has seen. -/
theorem Wf.accept (h : c.Wf) (hopen : c.closed = false) (i : UInt16) (keep : Bool) :
    (c.apply (.accept i keep)).Wf := by
  cases hr : c.req i with
  | some r =>
    simp only [apply, hr]
    exact ⟨h.fresh, h.serials, h.known, h.marked, h.past, h.orderly, h.live, h.sent, h.sent_le⟩
  | none =>
    have hfree : Conn.live i c.log = none := by simp [h.live hopen i, hr]
    have hnew : .started c.next ∉ c.log := fun hc => Nat.lt_irrefl _ (h.past _ hc)
    simp only [apply, hr]
    constructor
    · intro j r hj
      rcases update_eq_some.mp hj with ⟨-, hv⟩ | ⟨-, hj⟩
      · cases hv
        exact Nat.lt_succ_self _
      · exact Nat.lt_succ_of_lt (h.fresh j r hj)
    · intro j k r q hj hk hs
      rcases update_eq_some.mp hj with ⟨rfl, hv⟩ | ⟨hji, hj⟩ <;>
        rcases update_eq_some.mp hk with ⟨hki, hv'⟩ | ⟨hki, hk⟩
      · exact hki.symm
      · cases hv
        exact absurd (h.fresh k q hk) (by rw [← hs]; exact Nat.lt_irrefl _)
      · cases hv'
        exact absurd (h.fresh j r hj) (by rw [hs]; exact Nat.lt_irrefl _)
      · exact h.serials j k r q hj hk hs
    · intro j r hj
      rcases update_eq_some.mp hj with ⟨-, hv⟩ | ⟨-, hj⟩
      · cases hv
        exact fun hst => absurd hst (by simp)
      · exact h.known j r hj
    · intro j r hj
      rcases update_eq_some.mp hj with ⟨-, hv⟩ | ⟨-, hj⟩
      · cases hv
        simpa using hnew
      · simpa using h.marked j r hj
    · intro s hs
      exact Nat.lt_succ_of_lt (h.past s (by simpa using hs))
    · exact h.orderly.append Orderly.mono
        (everywhere_singleton.mpr (by simpa [Orderly] using hfree))
    · intro _ j
      by_cases hji : j = i
      · subst hji
        simp [liveStep]
      · simpa [liveStep, Ne.symm hji, hji] using h.live hopen j
    · intro _
      simp [h.sent hopen]
    · simp [h.sent hopen]

theorem Wf.learn (h : c.Wf) {m : Method} (hm : m ≠ .unknown) (i : UInt16) :
    (c.apply (.learn i m)).Wf := by
  have hreq : ∀ j r, (c.apply (.learn i m)).req j = some r → ∃ q, c.req j = some q ∧
      q.serial = r.serial ∧ q.started = r.started ∧ (r.method = q.method ∨ r.method = m) := by
    intro j r hj
    rcases update_eq_some.mp hj with ⟨rfl, hv⟩ | ⟨-, hj⟩
    · obtain ⟨q, hq, rfl⟩ := Option.map_eq_some_iff.mp hv
      exact ⟨q, hq, rfl, rfl, .inr rfl⟩
    · exact ⟨r, hj, rfl, rfl, .inl rfl⟩
  constructor
  · intro j r hj
    obtain ⟨q, hq, hs, -, -⟩ := hreq j r hj
    exact hs ▸ h.fresh j q hq
  · intro j k r r' hj hk hs
    obtain ⟨q, hq, hqs, -, -⟩ := hreq j r hj
    obtain ⟨q', hq', hqs', -, -⟩ := hreq k r' hk
    exact h.serials j k q q' hq hq' (by rw [hqs, hqs', hs])
  · intro j r hj hst
    obtain ⟨q, hq, -, hqst, hmeth⟩ := hreq j r hj
    rcases hmeth with hmeth | hmeth
    · exact hmeth ▸ h.known j q hq (hqst.trans hst)
    · exact hmeth ▸ hm
  · intro j r hj
    obtain ⟨q, hq, hs, hst, -⟩ := hreq j r hj
    exact hs ▸ hst ▸ h.marked j q hq
  · exact h.past
  · exact h.orderly
  · intro hopen j
    refine (h.live hopen j).trans ?_
    by_cases hji : j = i
    · subst hji
      cases hr : c.req j <;> simp [Conn.apply, hr]
    · simp [Conn.apply, Function.update_of_ne hji]
  · exact h.sent
  · exact h.sent_le

theorem Wf.start (h : c.Wf) (hopen : c.closed = false) (hr : c.req i = some r)
    (hm : r.method ≠ .unknown) : (c.apply (.start i)).Wf := by
  have hother : ∀ j q, j ≠ i → c.req j = some q → q.serial ≠ r.serial := fun j q hji hq hs =>
    hji (h.serials j i q r hq hr hs)
  simp only [Conn.apply, hr]
  constructor
  · intro j q hj
    rcases update_eq_some.mp hj with ⟨-, hv⟩ | ⟨-, hj⟩
    · cases hv
      exact h.fresh i r hr
    · exact h.fresh j q hj
  · intro j k q q' hj hk hs
    rcases update_eq_some.mp hj with ⟨rfl, hv⟩ | ⟨hji, hj⟩ <;>
      rcases update_eq_some.mp hk with ⟨hki, hv'⟩ | ⟨hki, hk⟩
    · exact hki.symm
    · cases hv
      exact absurd hs.symm (hother k q' hki hk)
    · cases hv'
      exact absurd hs (hother j q hji hj)
    · exact h.serials j k q q' hj hk hs
  · intro j q hj
    rcases update_eq_some.mp hj with ⟨-, hv⟩ | ⟨-, hj⟩
    · cases hv
      exact fun _ => hm
    · exact h.known j q hj
  · intro j q hj
    rcases update_eq_some.mp hj with ⟨-, hv⟩ | ⟨hji, hj⟩
    · cases hv
      simp
    · simpa [hother j q hji hj] using h.marked j q hj
  · intro s hs
    simp only [put_log, List.mem_append, List.mem_singleton, Obs.started.injEq] at hs
    rcases hs with hs | rfl
    · exact h.past s hs
    · exact h.fresh i r hr
  · exact h.orderly.append Orderly.mono (everywhere_singleton.mpr trivial)
  · intro _ j
    by_cases hji : j = i
    · subst hji
      simpa [liveStep, hr] using h.live hopen j
    · simpa [liveStep, hji] using h.live hopen j
  · intro _
    simp [h.sent hopen]
  · simp [h.sent hopen]

theorem Wf.finish (h : c.Wf) (hopen : c.closed = false) (hr : c.req i = some r) (body : Bytes) :
    (c.apply (.finish i body)).Wf := by
  have hlive : Conn.live i c.log = some r.serial := by simp [h.live hopen i, hr]
  have hsub : ∀ j q, Function.update c.req i none j = some q → c.req j = some q := by
    intro j q hj
    rcases update_eq_some.mp hj with ⟨-, hv⟩ | ⟨-, hj⟩
    · cases hv
    · exact hj
  simp only [Conn.apply, hr]
  constructor
  · exact fun j q hj => h.fresh j q (hsub j q hj)
  · exact fun j k q q' hj hk => h.serials j k q q' (hsub j q hj) (hsub k q' hk)
  · exact fun j q hj => h.known j q (hsub j q hj)
  · intro j q hj
    simpa using h.marked j q (hsub j q hj)
  · intro s hs
    exact h.past s (by simpa using hs)
  · refine h.orderly.append Orderly.mono (everywhere_pair.mpr ⟨?_, ?_, c.log, body, rfl⟩)
    · intro ht
      exact absurd ht (by decide)
    · simpa [liveStep] using hlive
  · intro _ j
    by_cases hji : j = i
    · subst hji
      simp [liveStep]
    · simpa [liveStep, Ne.symm hji, hji] using h.live hopen j
  · intro _
    simp [h.sent hopen]
  · simp [h.sent hopen]

theorem Wf.tear (h : c.Wf) {out : Bytes} (hout : c.out <+: out) : (c.apply (.tear out)).Wf where
  fresh := by simp [apply]
  serials := by simp [apply]
  known := by simp [apply]
  marked := by simp [apply]
  past := h.past
  orderly := h.orderly
  live := by simp [apply]
  sent := by simp [apply]
  sent_le := h.sent_le.trans hout

/-- **Every act keeps a connection well-formed.** -/
theorem Wf.apply (h : c.Wf) (ha : c.Enabled a) : (c.apply a).Wf := by
  obtain ⟨hopen, ha⟩ := ha
  cases a with
  | dispatch type i content =>
    exact h.put hopen (fun _ _ => rfl) (fun _ => Obs.noConfusion) trivial
  | say i data =>
    refine h.put hopen (fun _ _ => rfl) (fun _ => Obs.noConfusion) fun _ => ?_
    simpa [h.live hopen i] using ha.1
  | refuse i body =>
    refine h.put hopen (fun _ _ => rfl) (fun _ => Obs.noConfusion) fun ht => ?_
    exact absurd ht (by decide)
  | accept i keep => exact h.accept hopen i keep
  | learn i m => exact h.learn ha i
  | start i =>
    obtain ⟨r, hr, hm⟩ := ha
    exact h.start hopen hr hm
  | finish i body =>
    obtain ⟨r, hr⟩ := Option.isSome_iff_exists.mp ha
    exact h.finish hopen hr body
  | tear out => exact h.tear ha
  | close => exact h.tear (List.prefix_refl c.out)

/-- A connection that is closed has no requests. -/
def Gone (c : Conn) : Prop := c.closed = true → ∀ i, c.req i = none

theorem gone_apply (ha : c.Enabled a) : (c.apply a).Gone := by
  have hopen : c.closed = false := ha.1
  intro hclosed
  cases a with
  | tear out => exact fun _ => rfl
  | close => exact fun _ => rfl
  | accept i keep => cases hr : c.req i <;> simp [apply, hr, hopen] at hclosed
  | start i => cases hr : c.req i <;> simp [apply, hr, hopen] at hclosed
  | finish i body => cases hr : c.req i <;> simp [apply, hr, hopen] at hclosed
  | _ => simp [apply, hopen] at hclosed

/-- The log only grows. -/
theorem log_prefix_apply (c : Conn) (a : Act) : c.log <+: (c.apply a).log := by
  cases a with
  | accept i keep => cases hr : c.req i <;> simp [apply, hr]
  | start i => cases hr : c.req i <;> simp [apply, hr]
  | finish i body => cases hr : c.req i <;> simp [apply, hr]
  | _ => simp [apply]

theorem log_prefix_run (as : List Act) (c : Conn) : c.log <+: (Run.run apply c as).log := by
  induction as generalizing c with
  | nil => exact List.prefix_refl _
  | cons a as ih => exact (log_prefix_apply c a).trans (ih _)

/-! ## One end for each request -/

/-- Nobody is refused under an id that has an open request. -/
def Civil (c : Conn) (a : Act) : Prop :=
  match a with
  | .refuse i _ => c.req i = none
  | _ => True

theorem endsOnce_apply (h : c.Wf) (ha : c.Enabled a) (hciv : c.Civil a)
    (hlog : Everywhere EndsOnce c.log) : Everywhere EndsOnce (c.apply a).log := by
  have happ : ∀ {new : List Obs},
      Everywhere (fun n₁ o n₂ => EndsOnce (c.log ++ n₁) o n₂) new →
        Everywhere EndsOnce (c.log ++ new) := fun hn => hlog.append EndsOnce.mono hn
  cases a with
  | dispatch type i content => exact happ (everywhere_singleton.mpr trivial)
  | say i data => exact happ (everywhere_singleton.mpr fun ht => absurd ht (by decide))
  | refuse i body =>
    refine happ (everywhere_singleton.mpr fun _ s hs => ?_)
    have hfree : live i c.log = none := by simpa [show c.req i = none from hciv] using h.live ha.1 i
    simp [hfree] at hs
  | accept i keep =>
    cases hr : c.req i with
    | some r => simpa [apply, hr] using hlog
    | none =>
      simp only [apply, hr, put_log]
      exact happ (everywhere_singleton.mpr trivial)
  | start i =>
    cases hr : c.req i with
    | none => simpa [apply, hr] using hlog
    | some r =>
      simp only [apply, hr, put_log]
      exact happ (everywhere_singleton.mpr trivial)
  | finish i body =>
    cases hr : c.req i with
    | none => simpa [apply, hr] using hlog
    | some r =>
      have hlive : live i c.log = some r.serial := by simpa [hr] using h.live ha.1 i
      simp only [apply, hr, put_log]
      refine happ (everywhere_pair.mpr ⟨fun _ s hs => ⟨[], ?_⟩, trivial⟩)
      obtain rfl : r.serial = s := by simpa [hlive] using hs
      rfl
  | learn i m => exact hlog
  | tear out => exact hlog
  | close => exact hlog

section Consequences

variable {log : List Obs} (hord : Everywhere Orderly log) (hend : Everywhere EndsOnce log)
  {i : UInt16}

include hord hend

/-- From the acceptance of a request on, the first `FCGI_END_REQUEST` is the one it is freed
with. -/
theorem end_of_accepted {l₁ m l₂ : List Obs} {body : Bytes}
    (hlog : log = l₁ ++ .accepted i s :: (m ++ .queued endRequestType i body :: l₂))
    (hm : ∀ t, .freed i t ∉ m) : ∃ l₃, l₂ = .freed i s :: l₃ := by
  subst hlog
  have hopen : live i (l₁ ++ [.accepted i s]) = some s := by simp [liveStep]
  have hstill := live_some_append hm (l := l₁ ++ [.accepted i s])
    (t := .queued endRequestType i body :: l₂) (by simpa using hord) hopen
  refine hend (l₁ ++ .accepted i s :: m) (.queued endRequestType i body) l₂ (by simp) rfl s ?_
  simpa using hstill

/-- Behind a `FCGI_END_REQUEST` there is no output without a new request. -/
theorem accepted_between {m l₁ l₂ : List Obs} {body data : Bytes}
    (hlog : log = l₁ ++ .queued endRequestType i body :: (m ++ .queued stdout i data :: l₂)) :
    ∃ s, .accepted i s ∈ m := by
  subst hlog
  have hopen := hord (l₁ ++ .queued endRequestType i body :: m) (.queued stdout i data) l₂
    (by simp) rfl
  by_contra hno
  simp only [not_exists] at hno
  have hdead : live i (l₁ ++ .queued endRequestType i body :: m) = none := by
    cases hl : live i l₁ with
    | none =>
      refine live_none_append (i := i) (m := .queued endRequestType i body :: m) ?_ hl
      simpa using hno
    | some s =>
      -- the request that was open is freed at once
      obtain ⟨l₃, hl₃⟩ := hend l₁ _ _ rfl rfl s hl
      cases m with
      | nil => simp at hl₃
      | cons o m =>
        simp only [List.cons_append, List.cons.injEq] at hl₃
        obtain ⟨rfl, -⟩ := hl₃
        have hfreed : live i (l₁ ++ [.queued endRequestType i body, .freed i s]) = none := by
          simp [liveStep]
        have := live_none_append (m := m) (fun t ht => hno t (by simp [ht])) hfreed
        simpa using this
  simp [hdead] at hopen

end Consequences

/-! ## Closing when done -/

/-- A request that does not keep the connection comes alone. -/
def Alone (c : Conn) (a : Act) : Prop :=
  match a with
  | .accept i false => ∀ j, (c.req j).isSome → j = i
  | _ => True

/-- Once the connection is not to be kept there is at most one request, and once it is done there
is none. -/
structure Draining (c : Conn) : Prop where
  single : c.keep = false → ∀ i j, (c.req i).isSome → (c.req j).isSome → i = j
  done : c.done = true → c.keep = false ∧ ∀ i, c.req i = none

theorem draining_opened : Draining opened := ⟨by simp [opened], by simp [opened]⟩

theorem isSome_update {f : UInt16 → Option Req} {i j : UInt16}
    (h : (Function.update f i (some r) j).isSome) : j = i ∨ (f j).isSome := by
  by_cases hji : j = i
  · exact .inl hji
  · exact .inr (by simpa [hji] using h)

theorem Draining.apply (h : c.Draining) (ha : c.Enabled a) (halone : c.Alone a) :
    (c.apply a).Draining := by
  cases a with
  | accept i keep =>
    have hkeep : c.keep = true := ha.2
    have hdone : c.done = false := by
      by_contra hd
      exact absurd (h.done (by simpa using hd)).1 (by simp [hkeep])
    cases hr : c.req i with
    | some r =>
      refine ⟨fun hk => ?_, fun hd => ?_⟩
      · obtain rfl : keep = false := by simpa [Conn.apply, hr] using hk
        intro j k hj hk
        simp only [Conn.apply, hr] at hj hk
        rw [halone j hj, halone k hk]
      · exact absurd hd (by simp [Conn.apply, hr, hdone])
    | none =>
      refine ⟨fun hk => ?_, fun hd => ?_⟩
      · obtain rfl : keep = false := by simpa [Conn.apply, hr] using hk
        have honly : ∀ j, ((c.apply (.accept i false)).req j).isSome → j = i := by
          intro j hj
          simp only [Conn.apply, hr] at hj
          exact (isSome_update hj).elim id (halone j)
        intro j k hj hk
        rw [honly j hj, honly k hk]
      · exact absurd hd (by simp [Conn.apply, hr, hdone])
  | learn i m =>
    have hreq : ∀ j, ((c.apply (.learn i m)).req j).isSome = (c.req j).isSome := by
      intro j
      by_cases hji : j = i
      · subst hji
        simp [Conn.apply]
      · simp [Conn.apply, hji]
    refine ⟨fun hk j k hj hk' => h.single hk j k (hreq j ▸ hj) (hreq k ▸ hk'), fun hd => ?_⟩
    refine ⟨(h.done hd).1, fun j => ?_⟩
    have := hreq j
    rw [(h.done hd).2 j] at this
    simpa using this
  | start i =>
    obtain ⟨r, hr, -⟩ := ha.2
    have hsub : ∀ j, ((c.apply (.start i)).req j).isSome → (c.req j).isSome := by
      intro j hj
      simp only [Conn.apply, hr] at hj
      rcases isSome_update hj with rfl | hj
      · simp [hr]
      · exact hj
    refine ⟨fun hk j k hj hk' => ?_, fun hd => ?_⟩
    · exact h.single (by simpa [Conn.apply, hr] using hk) j k (hsub j hj) (hsub k hk')
    · have := (h.done (by simpa [Conn.apply, hr] using hd)).2 i
      simp [hr] at this
  | finish i body =>
    obtain ⟨r, hr⟩ := Option.isSome_iff_exists.mp ha.2
    have hsub : ∀ j, ((c.apply (.finish i body)).req j).isSome → j ≠ i ∧ (c.req j).isSome := by
      intro j hj
      by_cases hji : j = i
      · subst hji
        simp [Conn.apply, hr] at hj
      · exact ⟨hji, by simpa [Conn.apply, hr, hji] using hj⟩
    refine ⟨fun hk j k hj hk' => ?_, fun hd => ?_⟩
    · exact h.single (by simpa [Conn.apply, hr] using hk) j k (hsub j hj).2 (hsub k hk').2
    · have hkeep : c.keep = false := by
        by_contra hk
        have hk : c.keep = true := by simpa using hk
        have hd' : c.done = true := by simpa [Conn.apply, hr, hk] using hd
        exact absurd (h.done hd').1 (by simp [hk])
      refine ⟨by simpa [Conn.apply, hr] using hkeep, fun j => ?_⟩
      by_contra hj
      obtain ⟨hji, hj⟩ := hsub j (Option.isSome_iff_ne_none.mpr hj)
      exact hji (h.single hkeep j i hj (by simp [hr]))
  | dispatch type i content => exact ⟨h.single, h.done⟩
  | say i data => exact ⟨h.single, h.done⟩
  | refuse i body => exact ⟨h.single, h.done⟩
  | tear out =>
    exact ⟨fun _ _ _ hj => by simp [Conn.apply] at hj, fun hd => ⟨(h.done hd).1, fun _ => rfl⟩⟩
  | close =>
    exact ⟨fun _ _ _ hj => by simp [Conn.apply] at hj, fun hd => ⟨(h.done hd).1, fun _ => rfl⟩⟩

/-! ## Starting once -/

/-- No request is started that was. -/
def Once (c : Conn) (a : Act) : Prop :=
  match a with
  | .start i => ∀ r, c.req i = some r → r.started = false
  | _ => True

theorem count_started_apply (h : c.Wf) (honce : c.Once a) (hs : c.log.count (.started s) ≤ 1) :
    (c.apply a).log.count (.started s) ≤ 1 := by
  cases a with
  | start i =>
    cases hr : c.req i with
    | none => simpa [apply, hr] using hs
    | some r =>
      have hnew : .started r.serial ∉ c.log := fun hc =>
        absurd ((h.marked i r hr).mp hc) (by simp [honce r hr])
      by_cases hsr : r.serial = s
      · subst hsr
        simp [apply, hr, List.count_eq_zero_of_not_mem hnew]
      · simpa [apply, hr, hsr] using hs
  | accept i keep => cases hr : c.req i <;> simpa [apply, hr] using hs
  | finish i body => cases hr : c.req i <;> simpa [apply, hr] using hs
  | _ => simpa [apply] using hs

/-- A second start is in the log for good. -/
theorem count_started_restart (h : c.Wf) (hr : c.req i = some r) (hst : r.started = true) :
    2 ≤ (c.apply (.start i)).log.count (.started r.serial) := by
  have hone : 1 ≤ c.log.count (.started r.serial) :=
    List.one_le_count_iff.mpr ((h.marked i r hr).mpr hst)
  simp only [apply, hr, put_log, List.count_append, List.count_singleton_self]
  omega

/-- A start is in the log because the request was started. -/
theorem started_mem_apply (h : .started s ∈ (c.apply a).log) :
    .started s ∈ c.log ∨ ∃ i r, a = .start i ∧ c.req i = some r ∧ r.serial = s := by
  cases a with
  | start i =>
    cases hr : c.req i with
    | none => exact .inl (by simpa [apply, hr] using h)
    | some r =>
      have hcases : .started s ∈ c.log ∨ s = r.serial := by simpa [apply, hr] using h
      exact hcases.imp_right fun hs => ⟨i, r, rfl, hr, hs.symm⟩
  | accept i keep => cases hr : c.req i <;> exact .inl (by simpa [apply, hr] using h)
  | finish i body => cases hr : c.req i <;> exact .inl (by simpa [apply, hr] using h)
  | _ => exact .inl (by simpa [apply] using h)

end Conn

end Galileo
