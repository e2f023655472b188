import Galileo.Proof.Dispatch
import Galileo.Proof.Lifecycle

/-!
# Return codes

`fcgi_read` and `config_purge` go on with a connection after a call that returned 0, and never look
at it again after one that returned -1. That is right if -1 means just this: the connection is gone.

A call has three outcomes (`Stays`, `Ends`, `Breaks`), and it returns -1 for the last one only; what
is left to say is what each outcome is for the connection, and for the other requests on it.
-/

set_option autoImplicit false

namespace Galileo

open Lib Lib.FastCgi

/-- The call for the client `id` returned -1 just in case the connection is gone; otherwise every
other client is as it was. -/
structure CodeKept (id : UInt32) (f : Fcgi) (r : Option Unit × Fcgi) : Prop where
  gone : r.1 = none ↔ r.2.closed = true
  others : r.1 = some () → ∀ j, j ≠ id → r.2.find j = f.find j

section Outcomes

variable {f g : Fcgi} {c d : Client} {id : UInt32}

theorem Says.closed (h : Says f id g) : g.closed = f.closed := by
  obtain ⟨ds, ws, as, -, rfl⟩ := h
  rfl

theorem Says.find (h : Says f id g) (j : UInt32) : g.find j = f.find j := by
  obtain ⟨ds, ws, as, -, rfl⟩ := h
  rfl

theorem Fcgi.find_store_other (f : Fcgi) (hid : d.cltId = id) {j : UInt32} (hj : j ≠ id) :
    (f.store d).find j = f.find j := by
  rw [Fcgi.find_store, if_neg (hid.symm ▸ hj.symm)]

/-- A call that returns 0 and leaves the request. -/
theorem Stays.codeKept {y : Ctx} (hopen : f.closed = false) (hid : c.cltId = id)
    (h : Stays ⟨f, c⟩ y) : CodeKept id f (some (), y.fcgi.store y.clt) := by
  have hclosed : (y.fcgi.store y.clt).closed = false := h.1.closed.trans hopen
  refine ⟨by simp [hclosed], fun _ j hj => ?_⟩
  exact (Fcgi.find_store_other _ (h.2.id.trans hid) hj).trans (h.1.find j)

/-- A call that returns 0 and has ended the request. -/
theorem Ends.codeKept {y : Ctx} (hopen : f.closed = false) (hid : c.cltId = id)
    (h : Ends ⟨f, c⟩ y) : CodeKept id f (some (), y.fcgi.store y.clt) := by
  obtain ⟨g, ws, as, ps, hsays, hy, hid'⟩ := h
  have hclosed : (y.fcgi.store y.clt).closed = false := by
    rw [show (y.fcgi.store y.clt).closed = y.fcgi.closed from rfl, hy]
    exact hsays.closed.trans hopen
  refine ⟨by simp [hclosed], fun _ j hj => ?_⟩
  rw [Fcgi.find_store_other _ (hid'.trans hid) hj, hy]
  refine (g.find_finish c (endReqBody as ps) j).trans ?_
  rw [if_neg (hid.symm ▸ hj), hsays.find]

/-- A call that returns -1. -/
theorem Breaks.codeKept {y : Ctx} (h : Breaks ⟨f, c⟩ y) :
    CodeKept id f (none, y.fcgi.store y.clt) := by
  obtain ⟨ds, ws, as, out, -, -, hy⟩ := h
  have hclosed : (y.fcgi.store y.clt).closed = true := by
    rw [show (y.fcgi.store y.clt).closed = y.fcgi.closed from rfl, hy]
    rfl
  exact ⟨by simp [hclosed], fun h => nomatch h⟩

theorem Finishes.codeKept {m : CltM Unit} (hm : Finishes m) (hopen : f.closed = false)
    (hfind : f.find id = some c) : CodeKept id f (withClient id m f) := by
  have hid := f.cltId_of_find hfind
  rw [withClient_run hfind]
  rcases hm.runs ⟨f, c⟩ with ⟨hr, h⟩ | ⟨hr, h⟩ <;> rw [hr]
  · exact h.codeKept hopen hid
  · exact h.codeKept

theorem Starts.codeKept {r : Option Unit × Ctx} (hopen : f.closed = false) (hid : c.cltId = id)
    (h : Starts f c r) : CodeKept id f (r.1, r.2.fcgi.store r.2.clt) := by
  cases h with
  | stays pc hr h =>
    rw [hr]
    exact Stays.codeKept (c := { c with cltPc := some pc }) hopen hid h
  | ends hr h =>
    rw [hr]
    exact h.codeKept hopen hid
  | breaks hr h =>
    rw [hr]
    exact h.codeKept

theorem proxyStartRequest_codeKept (env : Env) (hopen : f.closed = false) (hid : c.cltId = id) :
    CodeKept id f ((proxyStartRequest env ⟨f, c⟩).1,
      (proxyStartRequest env ⟨f, c⟩).2.fcgi.store (proxyStartRequest env ⟨f, c⟩).2.clt) := by
  have hstarted : (f.observe (.started c.serial)).closed = false := hopen
  have h := (proxyStartRequest_runs env f c).codeKept hstarted hid
  exact ⟨h.gone, h.others⟩

/-- `fcgi_parse_form` starts the request at the empty record, and otherwise only changes its own
client. -/
theorem fcgiParseForm_codeKept (env : Env) (hopen : f.closed = false) (hfind : f.find id = some c) :
    CodeKept id f (withClient id (fcgiParseForm env) f) := by
  have hid := f.cltId_of_find hfind
  rw [withClient_run hfind]
  by_cases hempty : f.fcgToread = 0
  · rw [fcgiParseForm_empty env c hempty]
    exact proxyStartRequest_codeKept env hopen hid
  · rw [fcgiParseForm_chunk env c hempty]
    refine ⟨⟨(nomatch ·), fun h => nomatch (hopen.symm.trans h)⟩, fun _ j hj => ?_⟩
    exact Fcgi.find_store_other _ ((formChunk_same _ c).id.trans hid) hj

end Outcomes

/-- **-1 is returned exactly when the connection is gone**, by every function that ends or starts a
request, and 0 means that every other request is as it was. -/
theorem return_codes_kept (env : Env) (f : Fcgi) (id : UInt32) (c : Client)
    (hopen : f.closed = false) (hfind : f.find id = some c) :
    CodeKept id f (withClient id (proxyStartRequest env) f) ∧
      CodeKept id f (withClient id (fcgiParseForm env) f) ∧
      (∀ status, CodeKept id f (withClient id (fcgiEndRequest status) f)) ∧
      CodeKept id f (withClient id fcgiAbortRequest f) := by
  refine ⟨?_, fcgiParseForm_codeKept env hopen hfind, fun status => ?_, ?_⟩
  · rw [withClient_run hfind]
    exact proxyStartRequest_codeKept env hopen (f.cltId_of_find hfind)
  · exact (endRequest_finishes status requestComplete).codeKept hopen hfind
  · exact (endRequest_finishes 1 overloaded).codeKept hopen hfind

/-- Two requests, and a connection whose second write fails: the abort of the first one tears it
down. -/
theorem failed_end_kept :
    let f := { Fcgi.new [true, false] [] with
      fcgClients := [exampleClient .get, Client.new 2 1] }
    f.closed = false ∧ f.find 1 = some (exampleClient .get) ∧
      CodeKept 1 f (withClient 1 fcgiAbortRequest f) ∧
      (withClient 1 fcgiAbortRequest f).2.closed = true := by
  intro f
  refine ⟨rfl, rfl, (return_codes_kept exampleEnv f 1 _ rfl rfl).2.2.2, ?_⟩
  exact (return_codes_kept exampleEnv f 1 _ rfl rfl).2.2.2.gone.mp (by decide)

end Galileo
