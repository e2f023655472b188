import Galileo.Proof.Lifecycle

/-!
# Records that are refused

Some records are not for this connection: a request id that is in use, a role that is not known, a
request that was never begun, a type that does not exist. `fcgi_read` passes over them, and that is
to leave no trace. It does not for one kind of them. A `FCGI_BEGIN_REQUEST` for an id that is in use
is looked at in the wrong order: its `FCGI_KEEP_CONN` flag is stored first.
-/

set_option autoImplicit false

namespace Galileo

open Lib Lib.FastCgi

/-- A turn that takes a record `fcgi_read` passes over. -/
inductive Fcgi.PassesOver (f : Fcgi) (e : Event) : Prop
  | role (h : f.takes e beginRequest) (hlen : f.fcgToread = 8) (hrole : f.role ≠ responder)
  | active (h : f.takes e beginRequest) (hlen : f.fcgToread = 8) (hrole : f.role = responder)
      (hfind : (f.find f.fcgRecId.toUInt32).isSome = true)
  | inactive (type : UInt8) (htype : type ∈ [params, stdin, abortRequest]) (h : f.takes e type)
      (hfind : f.find f.fcgRecId.toUInt32 = none)
  | unknown (type : UInt8) (htype : type ∉ [beginRequest, params, stdin, abortRequest])
      (h : f.takes e type)

/-- The clients and the fields that say when the connection is closed are as they were. -/
structure Fcgi.Untouched (f g : Fcgi) : Prop where
  clients : g.fcgClients = f.fcgClients
  keepConn : g.fcgKeepConn = f.fcgKeepConn
  done : g.fcgDone = f.fcgDone

section Cases

variable {f g : Fcgi} {e : Event}

theorem takes_type (h : f.takes e beginRequest) {type : UInt8} (h' : f.takes e type) :
    type = beginRequest := h'.2.2.2.1.symm.trans h.2.2.2.1

/-- `case FCGI_BEGIN_REQUEST`, when the record is passed over and the connection stays. -/
theorem readBegin_passes {g : Fcgi} (hlen : g.fcgToread = 8) (hin : 8 ≤ g.input.length)
    (hpass : g.role ≠ responder ∨ (g.find g.fcgRecId.toUInt32).isSome = true)
    (hopen : (readBegin g).fcgi.closed = false) :
    g.Untouched (readBegin g).fcgi ↔ ¬ (g.role = responder ∧ g.keepFlag = false) := by
  have hcases := readBegin_cases g
  generalize readBegin g = r at hcases hopen
  cases hcases with
  | waits _ h => omega
  | badSize h => exact absurd hlen h
  | refusedTorn ws out hout => cases hopen
  | notKept hkeep => cases hopen
  | refused ws _ hrole =>
    exact iff_of_true ⟨rfl, rfl, rfl⟩ fun h => hrole h.1
  | again c _ hrole hkeep hfind =>
    -- the connection is kept so far, and the flag is stored
    constructor
    · intro h hflag
      have hsame : g.keepFlag = g.fcgKeepConn := h.keepConn
      rw [hflag.2, hkeep] at hsame
      cases hsame
    · intro h
      refine ⟨rfl, ?_, rfl⟩
      rw [hkeep]
      exact (Bool.not_eq_false _).mp fun hflag => h ⟨hrole, hflag⟩
  | accepted _ hrole hkeep hfind =>
    rcases hpass with hr | hactive
    · exact absurd hrole hr
    · rw [hfind] at hactive
      cases hactive

/-- The other records that are passed over. -/
theorem readBody_passes (env : Env) (stale : Bytes) (htype : f.fcgType ≠ beginRequest)
    (hpass : f.fcgType ∈ [params, stdin, abortRequest] → f.find f.fcgRecId.toUInt32 = none) :
    f.Untouched (readBody env stale f).fcgi := by
  have hfind (ht : f.fcgType ∈ [params, stdin, abortRequest]) :
      (f.observe f.record).find (f.observe f.record).fcgRecId.toUInt32 = none := hpass ht
  rw [readBody_eq, if_neg htype]
  split
  · rename_i ht
    rw [readParams, hfind (by simp [ht])]
    exact ⟨rfl, rfl, rfl⟩
  split
  · rename_i ht
    rw [readStdin, hfind (by simp [ht])]
    exact ⟨rfl, rfl, rfl⟩
  split
  · rename_i ht
    rw [readAbort, hfind (by simp [ht])]
    exact ⟨rfl, rfl, rfl⟩
  · exact ⟨rfl, rfl, rfl⟩

end Cases

/-- **A record that is refused leaves no trace**, exactly when it is not a `FCGI_BEGIN_REQUEST` for
an id that is in use, for a responder and without `FCGI_KEEP_CONN`. -/
theorem refused_record_untouched_iff (env : Env) (f : Fcgi) (e : Event) (hpass : f.PassesOver e)
    (hopen : (step env f e).closed = false) :
    f.Untouched (step env f e) ↔
      ¬ (f.takes e beginRequest ∧ f.role = responder ∧ f.keepFlag = false) := by
  obtain ⟨stale, rfl⟩ : ∃ stale, e = .read stale := by
    have hread : e.isRead = true := by
      cases hpass with
      | role h _ _ => exact h.1
      | active h _ _ _ => exact h.1
      | inactive _ _ h _ => exact h.1
      | unknown _ _ h => exact h.1
    cases e <;> first | exact ⟨_, rfl⟩ | cases hread
  -- the two kinds of `FCGI_BEGIN_REQUEST`
  have hbegin (h : f.takes (.read stale) beginRequest) (hlen : f.fcgToread = 8)
      (hp : f.role ≠ responder ∨ (f.find f.fcgRecId.toUInt32).isSome = true) :
      f.Untouched (step env f (.read stale)) ↔
        ¬ (f.takes (.read stale) beginRequest ∧ f.role = responder ∧ f.keepFlag = false) := by
    have hin : 8 ≤ f.input.length := by
      have hle := h.2.2.2.2
      rw [hlen] at hle
      exact hle
    rw [step_of_takes env h, readBody_eq, if_pos h.2.2.2.1] at hopen ⊢
    have hiff := readBegin_passes (g := f.observe f.record) hlen hin hp hopen
    rw [and_iff_right h]
    exact ⟨fun hu => hiff.mp ⟨hu.clients, hu.keepConn, hu.done⟩, fun hn =>
      have hu := hiff.mpr hn
      ⟨hu.clients, hu.keepConn, hu.done⟩⟩
  have hother {type : UInt8} (h : f.takes (.read stale) type) (hne : type ≠ beginRequest)
      (hp : type ∈ [params, stdin, abortRequest] → f.find f.fcgRecId.toUInt32 = none) :
      f.Untouched (step env f (.read stale)) ↔
        ¬ (f.takes (.read stale) beginRequest ∧ f.role = responder ∧ f.keepFlag = false) := by
    have htype : f.fcgType = type := h.2.2.2.1
    rw [step_of_takes env h]
    exact iff_of_true
      (readBody_passes env stale (by rwa [htype]) (by rwa [htype]))
      fun hb => hne (takes_type hb.1 h)
  cases hpass with
  | role h hlen hrole => exact hbegin h hlen (.inl hrole)
  | active h hlen hrole hfind => exact hbegin h hlen (.inr hfind)
  | inactive type htype h hfind =>
    refine hother h ?_ fun _ => hfind
    rintro rfl
    exact absurd htype (by decide)
  | unknown type htype h =>
    refine hother h (fun heq => htype (by simp [heq])) fun hmem => absurd ?_ htype
    exact List.mem_cons_of_mem _ hmem

/-- The connection when the header of a record for a request that was never begun has been read. -/
def strayParams : Fcgi :=
  run exampleEnv (Fcgi.new [] []) (Event.begin 1 1 1
    ++ [.arrive [1, 4, 0, 2, 0, 4, 0, 0, 1, 1, 65, 98], .read []])

/-- Parameters for a request that was never begun. -/
theorem stray_params_untouched :
    strayParams.find 2 = none ∧ strayParams.Untouched (step exampleEnv strayParams (.read [])) := by
  refine ⟨by decide, (refused_record_untouched_iff exampleEnv strayParams (.read []) ?_
    (by decide)).mpr (by decide)⟩
  exact .inactive params (by decide) (by decide) (by decide)

/-- The id of an active request is used again, without `FCGI_KEEP_CONN`. -/
theorem reused_id_drops_keep_conn :
    let f := run exampleEnv (Fcgi.new [] []) (Event.begin 1 1 1)
    let g := run exampleEnv f (Event.begin 1 1 0)
    g.closed = false ∧ g.fcgClients = f.fcgClients ∧ f.fcgKeepConn = true ∧
      g.fcgKeepConn = false := by
  decide

end Galileo
