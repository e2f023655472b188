import Galileo.Proof.Client

/-!
# The tree of clients

The comparator subtracts two `unsigned int`s and returns the result as an `int`. It is zero
exactly for equal ids, and on ids of two bytes — all the program ever stores — it is the order of
the numbers (`fcgiClientCmp_of_lt`), so the tree is a finite map: `find_store`, `find_remove` and
`find_cons` say what a look-up finds after each operation.

`Outcome` is what a callback can do, seen through the map: the entry of its own id may change or
go, all others stay, and only records with its own id are queued.
-/

set_option autoImplicit false

namespace Galileo

open Lib Lib.FastCgi

variable {c : Client} {f : Fcgi} {i : UInt16} {y : Ctx} {m : CltM Unit}

/-! ## The comparator -/

theorem fcgiClientCmp_eq_zero (a b : UInt32) : fcgiClientCmp a b = 0 ↔ a = b := by
  have ha := a.toNat_lt
  have hb := b.toNat_lt
  constructor
  · intro h
    apply UInt32.toNat_inj.mp
    have hdvd := Int.dvd_of_bmod_eq_zero h
    omega
  · rintro rfl
    simp [fcgiClientCmp]

/-- On two-byte ids the comparator is the order of the ids. -/
theorem fcgiClientCmp_of_lt {a b : UInt32} (ha : a.toNat < 65536) (hb : b.toNat < 65536) :
    fcgiClientCmp a b = (a.toNat : Int) - b.toNat := by
  rw [fcgiClientCmp, Int.bmod_eq_of_le] <;> omega

theorem fcgiClientCmp_beq (a b : UInt32) : (fcgiClientCmp a b == 0) = decide (a = b) := by
  rw [Bool.eq_iff_iff]
  simp [fcgiClientCmp_eq_zero]

/-! ## Look-ups -/

theorem Fcgi.find_eq (f : Fcgi) (j : UInt32) :
    f.find j = f.fcgClients.find? fun c => decide (j = c.cltId) := by
  simp only [find, fcgiClientCmp_beq]

theorem Fcgi.cltId_of_find {j : UInt32} (h : f.find j = some c) : c.cltId = j := by
  rw [find_eq] at h
  exact (by simpa using List.find?_some h : j = c.cltId).symm

theorem Fcgi.find_store (f : Fcgi) (c : Client) (j : UInt32) :
    (f.store c).find j = if c.cltId = j then (f.find j).map fun _ => c else f.find j := by
  rw [find_eq, find_eq]
  simp only [store, fcgiClientCmp_beq]
  induction f.fcgClients with
  | nil => simp
  | cons d ds ih =>
    rw [List.map_cons, List.find?_cons, List.find?_cons, ih]
    by_cases hcd : c.cltId = d.cltId <;> by_cases hcj : c.cltId = j <;>
      by_cases hjd : j = d.cltId <;> simp_all

theorem Fcgi.find_remove (f : Fcgi) (i j : UInt32) :
    (f.remove i).find j = if j = i then none else f.find j := by
  rw [find_eq, find_eq]
  have hne : ∀ d : Client, (fcgiClientCmp i d.cltId != 0) = !decide (i = d.cltId) := fun d => by
    rw [← fcgiClientCmp_beq]
    rfl
  simp only [remove, hne, List.find?_filter]
  split
  · subst_vars
    simp
  · rename_i hji
    congr 1
    funext d
    by_cases hjd : j = d.cltId
    · subst hjd
      simp [Ne.symm hji]
    · simp [hjd]

theorem Fcgi.find_cons (f : Fcgi) (c : Client) (j : UInt32) :
    ({ f with fcgClients := c :: f.fcgClients } : Fcgi).find j
      = if j = c.cltId then some c else f.find j := by
  rw [find_eq, find_eq, List.find?_cons]
  by_cases hj : j = c.cltId <;> simp [hj]

/-! ## Ids -/

theorem toUInt16_toUInt32 (i : UInt16) : i.toUInt32.toUInt16 = i := by simp

theorem toUInt32_inj {i j : UInt16} : i.toUInt32 = j.toUInt32 ↔ i = j := by
  constructor
  · intro h
    rw [← toUInt16_toUInt32 i, h, toUInt16_toUInt32]
  · rintro rfl
    rfl

/-! ## Outcomes through the map -/

/-- What code that runs for the request under `i` does to the rest of the connection. -/
structure Outcome (i : UInt16) (f g : Fcgi) : Prop where
  frame : g.closed = false → ∀ j, j ≠ i.toUInt32 → g.find j = f.find j
  queues : ∃ os, g.trace = f.trace ++ os ∧ (∀ t k d, .queued t k d ∈ os → k = i) ∧
    (g.closed = false → g.output = f.output ++ os.flatMap Obs.wire)

/-- The ids under which there is a client. -/
def Fcgi.ids (f : Fcgi) : List UInt32 := f.fcgClients.map (·.cltId)

theorem Outcome.trans {f g h : Fcgi} (hfg : Outcome i f g) (hgh : Outcome i g h)
    (hopen : h.closed = false → g.closed = false) : Outcome i f h := by
  obtain ⟨os, htr, hos, hout⟩ := hfg.queues
  obtain ⟨os', htr', hos', hout'⟩ := hgh.queues
  refine ⟨fun hc j hj => ?_, os ++ os', ?_, ?_, fun hc => ?_⟩
  · rw [hgh.frame hc j hj, hfg.frame (hopen hc) j hj]
  · rw [htr', htr, List.append_assoc]
  · intro t k d hm
    rcases List.mem_append.mp hm with hm | hm
    exacts [hos t k d hm, hos' t k d hm]
  · rw [hout' hc, hout (hopen hc), List.flatMap_append, List.append_assoc]

/-- Clients and output are as they were. -/
theorem Outcome.same (i : UInt16) {f g : Fcgi} (hc : g.fcgClients = f.fcgClients)
    (ht : g.trace = f.trace) (ho : g.output = f.output) : Outcome i f g :=
  ⟨fun _ j _ => by simp only [Fcgi.find, hc], [], by simp [ht], by simp, fun _ => by simp [ho]⟩

/-- The connection is gone, and nothing was queued. -/
theorem Outcome.closed (i : UInt16) {f g : Fcgi} (hc : g.closed = true) (ht : g.trace = f.trace) :
    Outcome i f g :=
  ⟨fun h => absurd h (by simp [hc]), [], by simp [ht], by simp, fun h => absurd h (by simp [hc])⟩

theorem Says.outcome {f g : Fcgi} (h : Says f i.toUInt32 g) : Outcome i f g := by
  obtain ⟨ds, ws, as, -, rfl⟩ := h
  refine ⟨fun _ _ _ => rfl, stdoutOf i.toUInt32 ds, rfl, ?_, fun _ => rfl⟩
  intro t k d hm
  obtain ⟨e, -, he⟩ := List.mem_map.mp hm
  cases he
  exact toUInt16_toUInt32 i

theorem Torn.outcome {f g : Fcgi} (h : Torn f i.toUInt32 g) : Outcome i f g := by
  obtain ⟨ds, ws, as, out, hds, -, rfl⟩ := h
  have hsaid : Outcome i f (f.said i.toUInt32 ds ws as) := Says.outcome ⟨ds, ws, as, hds, rfl⟩
  obtain ⟨os, htr, hos, -⟩ := hsaid.queues
  exact ⟨fun hc => absurd hc (by simp [fcgiError]), os, htr, hos,
    fun hc => absurd hc (by simp [fcgiError])⟩

theorem Fcgi.find_finish (f : Fcgi) (c : Client) (body : Bytes) (j : UInt32) :
    (f.finish c body).find j = if j = c.cltId then none else f.find j :=
  f.find_remove c.cltId j

theorem outcome_finish (hc : c.cltId = i.toUInt32) (body : Bytes) (ws : List Bool) :
    Outcome i f { f.finish c body with writes := ws } := by
  refine ⟨fun _ j hj => ?_, _, rfl, ?_, fun _ => ?_⟩
  · exact (f.find_finish c body j).trans (by simp [hc, hj])
  · intro t k d hm
    have hk : k = c.cltId.toUInt16 := by
      rcases List.mem_cons.mp hm with h | h
      · cases h
        rfl
      · simp at h
    rw [hk, hc, toUInt16_toUInt32]
  · simp [Fcgi.finish, Obs.wire]

theorem outcome_store (hc : c.cltId = i.toUInt32) : Outcome i f (f.store c) := by
  refine ⟨fun _ j hj => ?_, [], ?_, by simp, fun _ => ?_⟩
  · rw [f.find_store, hc, if_neg (Ne.symm hj)]
  · simp [Fcgi.store]
  · simp [Fcgi.store]

/-- Storing a client that is not in the tree changes nothing. -/
theorem Fcgi.store_of_find_none (h : f.find c.cltId = none) : f.store c = f := by
  have hnone : ∀ d ∈ f.fcgClients, ¬ c.cltId = d.cltId := by
    rw [find_eq] at h
    simpa using h
  have hmap : (f.fcgClients.map fun d => if fcgiClientCmp c.cltId d.cltId == 0 then c else d)
      = f.fcgClients := by
    conv_rhs => rw [← List.map_id f.fcgClients]
    refine List.map_congr_left fun d hd => ?_
    simp [fcgiClientCmp_beq, hnone d hd]
  rw [store, hmap]

/-- The three outcomes of a callback for the client `c`, which the connection has under `i`. -/
inductive Served (f : Fcgi) (c : Client) (y : Ctx) : Prop
  | stays (h : Stays ⟨f, c⟩ y)
  | ends (h : Ends ⟨f, c⟩ y)
  | breaks (h : Breaks ⟨f, c⟩ y)

theorem Ends.store (hc : c.cltId = i.toUInt32) (h : Ends ⟨f, c⟩ y) :
    ∃ g as ps ws, Says f i.toUInt32 g ∧
      y.fcgi.store y.clt = { g.finish c (endReqBody as ps) with writes := ws } := by
  obtain ⟨g, ws, as, ps, hsaid, hy, hid⟩ := h
  refine ⟨g, as, ps, ws, hc ▸ hsaid, ?_⟩
  rw [Fcgi.store_of_find_none, hy]
  rw [hy, hid]
  exact (g.find_finish c (endReqBody as ps) _).trans (by simp)

theorem Breaks.store (hc : c.cltId = i.toUInt32) (h : Breaks ⟨f, c⟩ y) :
    Torn f i.toUInt32 (y.fcgi.store y.clt) := by
  have h : Torn f i.toUInt32 y.fcgi := hc ▸ h
  rw [Fcgi.store_of_find_none]
  · exact h
  · obtain ⟨ds, ws, as, out, -, -, hy⟩ := h
    rw [hy]
    rfl

/-- After the outcome, the client's fields are stored where the tree has them. -/
theorem Served.store_cases (hc : c.cltId = i.toUInt32) (h : Served f c y) :
    (∃ g, Says f i.toUInt32 g ∧ c.Same y.clt ∧ y.fcgi.store y.clt = g.store y.clt) ∨
    (∃ g as ps ws, Says f i.toUInt32 g ∧
      y.fcgi.store y.clt = { g.finish c (endReqBody as ps) with writes := ws }) ∨
    Torn f i.toUInt32 (y.fcgi.store y.clt) := by
  cases h with
  | stays h => exact .inl ⟨y.fcgi, hc ▸ h.1, h.2, rfl⟩
  | ends h => exact .inr (.inl (h.store hc))
  | breaks h => exact .inr (.inr (h.store hc))

theorem withClient_run {α : Type} {id : UInt32} (h : f.find id = some c) (m : CltM α) :
    withClient id m f = ((m ⟨f, c⟩).1, (m ⟨f, c⟩).2.fcgi.store (m ⟨f, c⟩).2.clt) := by
  rw [withClient, h]

theorem Served.outcome (hc : c.cltId = i.toUInt32) (h : Served f c y) :
    Outcome i f (y.fcgi.store y.clt) := by
  rcases h.store_cases hc with ⟨g, hsaid, hsame, hy⟩ | ⟨g, as, ps, ws, hsaid, hy⟩ | htorn
  · rw [hy]
    exact hsaid.outcome.trans (outcome_store (hsame.id.trans hc)) fun h => h
  · rw [hy]
    exact hsaid.outcome.trans (outcome_finish hc _ ws) fun h => h
  · exact htorn.outcome

theorem Fcgi.ids_store (f : Fcgi) (c : Client) : (f.store c).ids = f.ids := by
  simp only [ids, store, fcgiClientCmp_beq, List.map_map]
  refine List.map_congr_left fun d _ => ?_
  by_cases h : c.cltId = d.cltId <;> simp [h]

/-- A callback adds no client. -/
theorem Served.ids (hc : c.cltId = i.toUInt32) (h : Served f c y) :
    (y.fcgi.store y.clt).ids.Sublist f.ids := by
  rcases h.store_cases hc with ⟨g, ⟨ds, ws, as, -, rfl⟩, -, hy⟩ |
    ⟨g, as, ps, ws, ⟨ds, ws', as', -, rfl⟩, hy⟩ | ⟨ds, ws, as, out, -, -, hy⟩
  · rw [hy, Fcgi.ids_store]
    exact List.Sublist.refl _
  · rw [hy]
    exact List.filter_sublist.map _
  · rw [hy]
    exact List.nil_sublist _

/-- How a run of a callback comes out, with its return code. -/
def Runs (x : Ctx) (r : Option Unit × Ctx) : Prop :=
  (r.1 = some () ∧ (Stays x r.2 ∨ Ends x r.2)) ∨ (r.1 = none ∧ Breaks x r.2)

theorem Serves.runs (hm : Serves m) (x : Ctx) : Runs x (m x) := by
  have h := hm x x (.refl _)
  rcases hr : m x with ⟨_ | u, y⟩ <;> rw [hr] at h
  · exact .inr ⟨rfl, h⟩
  · exact .inl ⟨rfl, h⟩

theorem Runs.served {r : Option Unit × Ctx} (h : Runs ⟨f, c⟩ r) : Served f c r.2 := by
  rcases h with ⟨-, h | h⟩ | ⟨-, h⟩
  exacts [.stays h, .ends h, .breaks h]

/-! ## Starting a request -/

theorem Finishes.runs (hm : Finishes m) (x : Ctx) :
    ((m x).1 = some () ∧ Ends x (m x).2) ∨ ((m x).1 = none ∧ Breaks x (m x).2) := by
  have h := hm x x (.refl _)
  rcases hr : m x with ⟨_ | u, y⟩ <;> rw [hr] at h
  · exact .inr ⟨rfl, h⟩
  · exact .inl ⟨rfl, h⟩

/-- How the start of a request comes out: it stays only if a proxy was found for it. -/
inductive Starts (f : Fcgi) (c : Client) (r : Option Unit × Ctx) : Prop
  | stays (pc : ProxyConfig) (hr : r.1 = some ()) (h : Stays ⟨f, { c with cltPc := some pc }⟩ r.2)
  | ends (hr : r.1 = some ()) (h : Ends ⟨f, c⟩ r.2)
  | breaks (hr : r.1 = none) (h : Breaks ⟨f, c⟩ r.2)

theorem Finishes.starts (hm : Finishes m) {c d : Client} (hid : d.cltId = c.cltId)
    (hser : d.serial = c.serial) : Starts f c (m ⟨f, d⟩) := by
  have hfin : ∀ (g : Fcgi) (body : Bytes), g.finish d body = g.finish c body := fun g body => by
    rw [Fcgi.finish, hid, hser]
    rfl
  rcases hm.runs ⟨f, d⟩ with ⟨hr, h⟩ | ⟨hr, h⟩
  · simp only [Ends, hid, hfin] at h
    exact .ends hr h
  · simp only [Breaks, hid] at h
    exact .breaks hr h

/-- `proxy_start_request` is seen to be called, and then is one more callback. The request stays
only if a proxy was found for it. -/
theorem proxyStartRequest_runs (env : Env) (f : Fcgi) (c : Client) :
    Starts (f.observe (.started c.serial)) c (proxyStartRequest env ⟨f, c⟩) := by
  simp only [proxyStartRequest, Prog.modify_bind, Prog.get_bind]
  -- the fields the branches look at, apart from the client itself
  generalize c.cltPathInfo = path, c.cltBody = body, c.cltScriptName = script
  cases path with
  | none => exact (failWith_finishes 501 "internal server error").starts rfl rfl
  | some path =>
    simp only [setClt, Prog.modify_bind]
    generalize proxyMatch env c.cltServerName = pc
    cases pc with
    | none => exact (failWith_finishes 501 "unknown server").starts rfl rfl
    | some pc =>
      simp only
      split
      · exact (failWith_finishes 400 "bad request").starts rfl rfl
      · cases body with
        | some body =>
          exact ((emit_writes _).finishes fun _ => endRequest_finishes _ _).starts rfl rfl
        | none =>
          rcases startResolver_serves.runs
              ⟨f.observe (.started c.serial), { c with cltPc := some pc }⟩ with
            ⟨hr, h | h⟩ | ⟨hr, h⟩
          · exact .stays pc hr h
          · exact .ends hr h
          · exact .breaks hr h

end Galileo
