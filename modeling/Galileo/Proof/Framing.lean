import Galileo.Proof.Contained
import Galileo.Proof.Lifecycle

/-!
# Where a record ends

A record that is in the input buffer as a whole should be taken from it as a whole, so that the next
header is read where the next record starts. Every branch of the dispatcher sees to that by itself,
and `readBody_takes` says how much each takes: the content of the record and the padding, **except
that**

* `fcgi_parse_form` takes at most 2047 bytes of a `FCGI_STDIN` record;
* a `FCGI_ABORT_REQUEST` for a request that is open ends it and leaves the content alone;
* `fcgi_parse_params` goes on behind the record after a pair that it counts wrongly.

Two of these can end with the connection torn down instead: parameters when the parser comes to a
pair it gives up on (`Refused`), and an abort when one of its writes fails (`endWrites` counts
them). `record_framed_iff` is the consequence for whole records.
-/

set_option autoImplicit false

namespace Galileo

open Lib Lib.FastCgi Lib.Run

/-! ## Callbacks leave the input alone -/

/-- After a call the connection is gone, or the call has returned and the input is as it was. -/
def Kept (f : Fcgi) (r : Option Unit × Fcgi) : Prop :=
  r.1 = none ∧ r.2.closed = true ∧ r.2.input = [] ∨
    r.1 = some () ∧ r.2.closed = f.closed ∧ r.2.input = f.input ∧
      r.2.fcgPadding = f.fcgPadding

section Callbacks

variable {f : Fcgi} {c : Client} {y : Ctx}

theorem Stays.kept (h : Stays ⟨f, c⟩ y) : y.fcgi.closed = f.closed ∧ y.fcgi.input = f.input ∧
    y.fcgi.fcgPadding = f.fcgPadding := by
  obtain ⟨⟨ds, ws, as, -, hy⟩, -⟩ := h
  rw [hy]
  exact ⟨rfl, rfl, rfl⟩

theorem Ends.kept (h : Ends ⟨f, c⟩ y) : y.fcgi.closed = f.closed ∧ y.fcgi.input = f.input ∧
    y.fcgi.fcgPadding = f.fcgPadding := by
  obtain ⟨g, ws, as, ps, ⟨ds, ws', as', -, rfl⟩, hy, -⟩ := h
  rw [hy]
  exact ⟨rfl, rfl, rfl⟩

theorem Breaks.gone (h : Breaks ⟨f, c⟩ y) : y.fcgi.closed = true ∧ y.fcgi.input = [] := by
  obtain ⟨ds, ws, as, out, -, -, hy⟩ := h
  rw [hy]
  exact ⟨rfl, rfl⟩

theorem Serves.kept {m : CltM Unit} (hm : Serves m) {id : UInt32} (hfind : f.find id = some c) :
    Kept f (withClient id m f) := by
  rw [withClient_run hfind]
  rcases hm.runs ⟨f, c⟩ with ⟨hr, h | h⟩ | ⟨hr, h⟩
  · exact .inr ⟨hr, h.kept⟩
  · exact .inr ⟨hr, h.kept⟩
  · exact .inl ⟨hr, h.gone⟩

theorem start_kept (env : Env) (f : Fcgi) (c : Client) :
    Kept f ((proxyStartRequest env ⟨f, c⟩).1,
      (proxyStartRequest env ⟨f, c⟩).2.fcgi.store (proxyStartRequest env ⟨f, c⟩).2.clt) := by
  cases proxyStartRequest_runs env f c with
  | stays pc hr h => exact .inr ⟨hr, h.kept⟩
  | ends hr h => exact .inr ⟨hr, h.kept⟩
  | breaks hr h => exact .inl ⟨hr, h.gone⟩

theorem Kept.afterCall {r : Option Unit × Fcgi} (h : Kept f r) :
    (afterCall r).fcgi.closed = true ∧ (Galileo.afterCall r).fcgi.input = [] ∨
      (Galileo.afterCall r).fcgi.closed = f.closed ∧
        (Galileo.afterCall r).fcgi.input = f.input.drop f.fcgPadding := by
  obtain ⟨_ | _, g⟩ := r
  · rcases h with ⟨-, h⟩ | ⟨h, -⟩
    · exact .inl h
    · cases h
  · rcases h with ⟨h, -⟩ | ⟨-, hopen, hin, hpad⟩
    · cases h
    · refine .inr ⟨hopen, ?_⟩
      show g.input.drop g.fcgPadding = _
      rw [hin, hpad]

end Callbacks

/-! ## How much a record takes -/

/-- Whether a record for this client is one of those that are taken exactly. `stale` is what
`fcgi_parse_params` may come to read behind the input. -/
def Fcgi.FramedFor (env : Env) (stale : Bytes) (f : Fcgi) : Option Client → Prop
  | none => True
  | some c =>
      (f.fcgType = params →
        (ParamSt.mk f.fcgToread (f.input ++ stale) c).overruns env = false) ∧
      (f.fcgType = stdin → c.cltMethod = .post → f.fcgToread ≤ 2047) ∧
      (f.fcgType = abortRequest → f.fcgToread = 0)

/-- The same of the record whose content is next in the input. -/
def Fcgi.Framed (env : Env) (stale : Bytes) (f : Fcgi) : Prop :=
  f.FramedFor env stale (f.find f.fcgRecId.toUInt32)

instance (env : Env) (stale : Bytes) (f : Fcgi) :
    (clt : Option Client) → Decidable (f.FramedFor env stale clt)
  | none => inferInstanceAs (Decidable True)
  | some _ => inferInstanceAs (Decidable (_ ∧ _))

instance (env : Env) (stale : Bytes) (f : Fcgi) : Decidable (f.Framed env stale) :=
  inferInstanceAs (Decidable (f.FramedFor env stale _))

/-- `used` bytes of the input were taken before the padding. -/
structure Used (env : Env) (stale : Bytes) (f : Fcgi) (n used : Nat) : Prop where
  exact : f.Framed env stale → used = n
  more : ¬ f.Framed env stale → f.fcgType = params → n < used ∨ f.input.length ≤ used
  less : ¬ f.Framed env stale → f.fcgType ≠ params → used < n

section Branches

variable {env : Env} {stale : Bytes} {f : Fcgi} {n : Nat}

/-- A branch that takes the content and the padding when that is right. -/
theorem used_content (hframed : f.Framed env stale) : Used env stale f n n :=
  ⟨fun _ => rfl, fun h => absurd hframed h, fun h => absurd hframed h⟩

theorem framed_of_find_none (hfind : f.find f.fcgRecId.toUInt32 = none) :
    f.Framed env stale := by
  rw [Fcgi.Framed, hfind]
  trivial

section Active

variable {c : Client} (hfind : f.find f.fcgRecId.toUInt32 = some c)

include hfind

theorem framed_params (ht : f.fcgType = params) : f.Framed env stale ↔
    (ParamSt.mk f.fcgToread (f.input ++ stale) c).overruns env = false := by
  rw [Fcgi.Framed, hfind, Fcgi.FramedFor, ht]
  simp [show params ≠ stdin by decide, show params ≠ abortRequest by decide]

theorem framed_stdin (ht : f.fcgType = stdin) :
    f.Framed env stale ↔ (c.cltMethod = .post → f.fcgToread ≤ 2047) := by
  rw [Fcgi.Framed, hfind, Fcgi.FramedFor, ht]
  simp [show stdin ≠ params by decide, show stdin ≠ abortRequest by decide]

theorem framed_abort (ht : f.fcgType = abortRequest) :
    f.Framed env stale ↔ f.fcgToread = 0 := by
  rw [Fcgi.Framed, hfind, Fcgi.FramedFor, ht]
  simp [show abortRequest ≠ params by decide, show abortRequest ≠ stdin by decide]

end Active

theorem framed_other (hp : f.fcgType ≠ params) (hs : f.fcgType ≠ stdin)
    (ha : f.fcgType ≠ abortRequest) : f.Framed env stale := by
  rw [Fcgi.Framed]
  cases f.find f.fcgRecId.toUInt32 with
  | none => trivial
  | some c => exact ⟨fun h => absurd h hp, fun h => absurd h hs, fun h => absurd h ha⟩

/-- How a branch comes out: torn down, or so much of the input taken. -/
def Takes (env : Env) (stale : Bytes) (f : Fcgi) (n : Nat) (g : Fcgi) : Prop :=
  g.closed = true ∧ g.input = [] ∨
    g.closed = f.closed ∧
      ∃ used, g.input = f.input.drop (used + f.fcgPadding) ∧ Used env stale f n used

theorem takes_skip (hn : sizeT f.fcgToread = n) (hframed : f.Framed env stale) :
    Takes env stale f n (nextRecord (skipContent f)) := by
  refine .inr ⟨rfl, n, ?_, used_content hframed⟩
  show (f.input.drop (sizeT f.fcgToread)).drop f.fcgPadding = _
  rw [List.drop_drop, hn]

/-- A branch that leaves the content alone. -/
theorem takes_next (hn : f.fcgToread = n) {g : Fcgi}
    (hg : g.closed = true ∧ g.input = [] ∨
      g.closed = f.closed ∧ g.input = f.input.drop f.fcgPadding)
    (hframed : f.Framed env stale ↔ f.fcgToread = 0) (htype : f.fcgType ≠ params ∨ n = 0) :
    Takes env stale f n g := by
  rcases hg with hg | ⟨hopen, hg⟩
  · exact .inl hg
  · refine .inr ⟨hopen, 0, by rw [hg, Nat.zero_add], fun h => ?_, fun h hp => ?_, fun h _ => ?_⟩
    · have := hframed.mp h
      omega
    · exact absurd (hframed.mpr (by rw [hn, htype.resolve_left (not_not.mpr hp)]; rfl)) h
    · have : ¬ f.fcgToread = 0 := fun h0 => h (hframed.mpr h0)
      omega

theorem readBegin_takes (htype : f.fcgType = beginRequest) (hn : f.fcgToread = n)
    (hlen : n ≤ f.input.length) : Takes env stale f n (readBegin f).fcgi := by
  have hframed : f.Framed env stale := by
    apply framed_other <;> rw [htype] <;> decide
  have htaken : ∀ g : Fcgi, g.closed = f.closed →
      g.input = (f.input.drop 8).drop f.fcgPadding → f.fcgToread = 8 →
      Takes env stale f n g := by
    intro g hopen hg h8
    obtain rfl : n = 8 := by omega
    exact .inr ⟨hopen, 8, by rw [hg, List.drop_drop], used_content hframed⟩
  have hcases := readBegin_cases f
  generalize readBegin f = r at hcases ⊢
  cases hcases with
  | waits h8 hlt => omega
  | badSize _ => exact .inl ⟨rfl, rfl⟩
  | refused ws h8 _ => exact htaken _ rfl rfl h8
  | refusedTorn ws out _ => exact .inl ⟨rfl, rfl⟩
  | notKept _ => exact .inl ⟨rfl, rfl⟩
  | again c h8 _ _ _ => exact htaken _ rfl rfl h8
  | accepted h8 _ _ _ => exact htaken _ rfl rfl h8

/-- Parameters that are counted right are parsed as if there were nothing behind them, and what is
behind them stays. -/
theorem parse_content {c : Client} {input : Bytes} (hmax : n ≤ 65535) (hlen : n ≤ input.length)
    (h : (ParamSt.mk n (input ++ stale) c).overruns env = false) :
    ((fcgiParseParams env ⟨n, input ++ stale, c⟩).1 = false ∧
      (fcgiParseParams env ⟨n, input.take n, c⟩).1 = false) ∨
    ∃ c', fcgiParseParams env ⟨n, input ++ stale, c⟩ = (true, ⟨0, input.drop n ++ stale, c'⟩) ∧
      fcgiParseParams env ⟨n, input.take n, c⟩ = (true, ⟨0, [], c'⟩) := by
  have hcut : (input.take n).length = n := by rw [List.length_take]; omega
  have hsplit : input ++ stale = input.take n ++ (input.drop n ++ stale) := by
    rw [← List.append_assoc, List.take_append_drop]
  rw [hsplit] at h ⊢
  generalize input.take n = content at hcut h ⊢
  subst hcut
  exact fcgiParseParams_framed env hmax _ c h

/-- How much `fcgi_parse_params` takes. -/
theorem parse_used (htype : f.fcgType = params) {c : Client}
    (hfind : f.find f.fcgRecId.toUInt32 = some c) (hn : f.fcgToread = n) (hmax : n ≤ 65535)
    (hlen : n ≤ f.input.length) {r : Bool × ParamSt}
    (hr : r = fcgiParseParams env ⟨f.fcgToread, f.input ++ stale, c⟩) (hok : r.1 = true) :
    Used env stale f n ((f.input ++ stale).length - r.2.src.length) := by
  have hframed : f.Framed env stale ↔ _ := framed_params hfind htype
  have htail : (f.input ++ stale).length = n + (f.input.drop n ++ stale).length := by
    simp only [List.length_append, List.length_drop]
    omega
  rw [hn] at hr hframed
  refine ⟨fun h => ?_, fun h _ => ?_, fun _ h => absurd htype h⟩
  · rcases parse_content hmax hlen (hframed.mp h) with ⟨hf, -⟩ | ⟨c', hf, -⟩ <;> rw [← hr] at hf
    · exact absurd (hok.symm.trans hf) (by simp)
    · rw [hf, htail]
      exact Nat.add_sub_cancel ..
  · have hcut : (f.input.take n).length = n := by rw [List.length_take]; omega
    have hsplit : f.input ++ stale = f.input.take n ++ (f.input.drop n ++ stale) := by
      rw [← List.append_assoc, List.take_append_drop]
    have hover : (ParamSt.mk (f.input.take n).length
        (f.input.take n ++ (f.input.drop n ++ stale)) c).overruns env = true := by
      rw [hcut, ← hsplit]
      simpa using fun h' => h (hframed.mpr h')
    have hgone := fcgiParseParams_overrun env (by omega) _ c hover
    rw [hcut, ← hsplit, ← hr] at hgone
    rcases hgone hok with hlt | hnil
    · exact .inl (by omega)
    · rw [hnil]
      exact .inr (by simp)

theorem readParams_takes (htype : f.fcgType = params) (hn : f.fcgToread = n) (hmax : n ≤ 65535)
    (hlen : n ≤ f.input.length) : Takes env stale f n (readParams env stale f).fcgi := by
  cases hfind : f.find f.fcgRecId.toUInt32 with
  | none =>
    rw [readParams, hfind]
    exact takes_skip (by rw [hn, sizeT_natCast (by omega)]) (framed_of_find_none hfind)
  | some c =>
    by_cases h0 : f.fcgToread = 0
    · have hframed : f.Framed env stale ↔ f.fcgToread = 0 := by
        rw [framed_params hfind htype]
        exact ⟨fun _ => h0, fun _ => by rw [ParamSt.overruns, h0]; rfl⟩
      rw [readParams, hfind]
      dsimp only
      rw [if_pos h0]
      refine takes_next hn ?_ hframed (.inr (by omega))
      split
      · rw [withClient_run hfind]
        exact (start_kept env f c).afterCall
      · exact .inr ⟨rfl, rfl⟩
    · obtain ⟨r, hr, -, hread⟩ := readParams_content env stale hfind h0
      rw [hread]
      by_cases hok : r.1 = true
      · rw [if_pos hok]
        exact .inr ⟨rfl, _, List.drop_drop, parse_used htype hfind hn hmax hlen hr hok⟩
      · rw [if_neg hok]
        exact .inl ⟨rfl, rfl⟩

theorem readStdin_takes (htype : f.fcgType = stdin) (hn : f.fcgToread = n) (hmax : n ≤ 65535) :
    Takes env stale f n (readStdin env f).fcgi := by
  have hnp : f.fcgType ≠ params := by
    rw [htype]
    decide
  rw [readStdin]
  cases hfind : f.find f.fcgRecId.toUInt32 with
  | none => exact takes_skip (by rw [hn, sizeT_natCast (by omega)]) (framed_of_find_none hfind)
  | some c =>
    have hframed : f.Framed env stale ↔ _ := framed_stdin hfind htype
    dsimp only
    split
    · rename_i hpost
      exact takes_skip (by rw [hn, sizeT_natCast (by omega)])
        (hframed.mpr fun h => absurd h hpost)
    · rename_i hpost
      have hpost : c.cltMethod = .post := not_not.mp hpost
      rw [withClient_run hfind]
      by_cases h0 : f.fcgToread = 0
      · rw [fcgiParseForm_empty env c h0]
        refine takes_next hn (start_kept env f _).afterCall ?_ (.inl hnp)
        rw [hframed]
        exact ⟨fun _ => h0, fun _ _ => by omega⟩
      · rw [fcgiParseForm_chunk env c h0]
        refine .inr ⟨rfl, min 2047 n, ?_, fun h => ?_, fun _ h => absurd h hnp, fun h _ => ?_⟩
        · show ((f.input.drop (min 2047 (sizeT f.fcgToread))).drop f.fcgPadding) = _
          rw [List.drop_drop, hn, sizeT_natCast (by omega)]
        · have := hframed.mp h hpost
          omega
        · have hbig : ¬ f.fcgToread ≤ 2047 := fun hle => h (hframed.mpr fun _ => hle)
          omega

theorem readAbort_takes (htype : f.fcgType = abortRequest) (hn : f.fcgToread = n)
    (hmax : n ≤ 65535) : Takes env stale f n (readAbort f).fcgi := by
  have hnp : f.fcgType ≠ params := by
    rw [htype]
    decide
  rw [readAbort]
  cases hfind : f.find f.fcgRecId.toUInt32 with
  | none => exact takes_skip (by rw [hn, sizeT_natCast (by omega)]) (framed_of_find_none hfind)
  | some c =>
    exact takes_next hn ((endRequest_finishes 1 requestComplete).serves.kept hfind).afterCall
      (framed_abort hfind htype) (.inl hnp)

/-- What was seen does not matter. -/
theorem Takes.of_observe {o : Obs} {g : Fcgi} (h : Takes env stale (f.observe o) n g) :
    Takes env stale f n g := by
  rcases h with h | ⟨hopen, used, hin, h⟩
  · exact .inl h
  · exact .inr ⟨hopen, used, hin, h.exact, h.more, h.less⟩

/-- **What a turn of the loop takes** of the content of a record. -/
theorem readBody_takes (hn : f.fcgToread = n) (hmax : n ≤ 65535) (hlen : n ≤ f.input.length) :
    Takes env stale f n (readBody env stale f).fcgi := by
  rw [readBody_eq]
  split
  · rename_i ht
    exact (readBegin_takes (f := f.observe f.record) ht hn hlen).of_observe
  split
  · rename_i ht
    exact (readParams_takes (f := f.observe f.record) ht hn hmax hlen).of_observe
  split
  · rename_i ht
    exact (readStdin_takes (f := f.observe f.record) ht hn hmax).of_observe
  split
  · rename_i ht
    exact (readAbort_takes (f := f.observe f.record) ht hn hmax).of_observe
  · rename_i _ hp hs ha
    refine Takes.of_observe (takes_skip ?_ (framed_other hp hs ha))
    show sizeT f.fcgToread = n
    rw [hn, sizeT_natCast (by omega)]

end Branches

/-! ## When the connection is torn down -/

/-- With `toread` bytes to go, the parser comes to a pair in `src` that it gives up on. -/
inductive Refused : Int → Bytes → Prop
  | here {toread : Int} {src : Bytes} {n v : LenRes} (hpos : 0 < toread)
      (hn : parseLen toread src = n) (hv : parseLen n.toread n.src = v) (h : Rejects n v) :
      Refused toread src
  /-- A name too long for `pname`. -/
  | behindLong {toread : Int} {src : Bytes} {n v : LenRes} (hpos : 0 < toread)
      (hn : parseLen toread src = n) (hv : parseLen n.toread n.src = v) (h : ¬ Rejects n v)
      (hlong : 31 < n.len)
      (hrest : Refused (int32 (v.toread - (n.len - v.len)))
        (v.src.drop (sizeT (int32 (n.len + v.len))))) :
      Refused toread src
  | behindShort {toread : Int} {src : Bytes} {n v : LenRes} (hpos : 0 < toread)
      (hn : parseLen toread src = n) (hv : parseLen n.toread n.src = v) (h : ¬ Rejects n v)
      (hshort : ¬ 31 < n.len)
      (hrest : Refused (int32 (v.toread - n.len - v.len))
        ((v.src.drop n.len.toNat).drop v.len.toNat)) :
      Refused toread src

theorem Refused.pos {toread : Int} {src : Bytes} (h : Refused toread src) : 0 < toread := by
  cases h <;> assumption

theorem paramLoop_refused (env : Env) {n : Nat} {s : ParamSt} (hends : loopEnds env n s = true) :
    (paramLoop env n s).1 = false ↔ Refused s.toread s.src := by
  induction n generalizing s with
  | zero => cases hends
  | succ n ih =>
    rw [loopEnds, Bool.or_eq_true, decide_eq_true_eq] at hends
    rw [paramLoop]
    by_cases hpos : s.toread ≤ 0
    · rw [if_pos hpos]
      exact ⟨fun h => Bool.noConfusion h, fun h => absurd h.pos (by omega)⟩
    rw [if_neg hpos]
    have hends := hends.resolve_left hpos
    have hpos : 0 < s.toread := by omega
    by_cases hrej : Rejects (parseLen s.toread s.src)
        (parseLen (parseLen s.toread s.src).toread (parseLen s.toread s.src).src)
    · have hstep : (paramStep env s).1 = false := paramStep_rejects rfl rfl hrej
      rcases hs : paramStep env s with ⟨_ | _, s'⟩ <;> rw [hs] at hstep
      · exact ⟨fun _ => .here hpos rfl rfl hrej, fun _ => rfl⟩
      · cases hstep
    · by_cases hlong : 31 < (parseLen s.toread s.src).len
      · rw [paramStep_ignored rfl rfl hrej hlong] at hends ⊢
        refine (ih hends).trans ⟨fun h => .behindLong hpos rfl rfl hrej hlong h, fun h => ?_⟩
        cases h with
        | here _ hn hv h =>
          subst hn hv
          exact absurd h hrej
        | behindLong _ hn hv _ _ hrest =>
          subst hn hv
          exact hrest
        | behindShort _ hn _ _ hshort _ =>
          subst hn
          exact absurd hlong hshort
      · rw [paramStep_taken rfl rfl hrej hlong] at hends ⊢
        refine (ih hends).trans ⟨fun h => .behindShort hpos rfl rfl hrej hlong h, fun h => ?_⟩
        cases h with
        | here _ hn hv h =>
          subst hn hv
          exact absurd h hrej
        | behindLong _ hn _ _ hlong' _ =>
          subst hn
          exact absurd hlong' hlong
        | behindShort _ hn hv _ _ hrest =>
          subst hn hv
          exact hrest

theorem fcgiParseParams_refused (env : Env) {s : ParamSt} (hmax : s.toread < 2 ^ 31) :
    (fcgiParseParams env s).1 = false ↔ Refused s.toread s.src :=
  paramLoop_refused env (fcgiParseParams_ends env hmax)

/-- `m` makes `n` writes, and fails if and only if one of them does. -/
structure Spends {α : Type} (n : Nat) (m : Prog Fcgi α) : Prop where
  fails : ∀ f, (m f).1 = none ↔ false ∈ f.writes.take n
  leaves : ∀ f, (m f).1 ≠ none → (m f).2.writes = f.writes.drop n

section Writes

theorem spends_pure : Spends 0 (pure () : Prog Fcgi Unit) :=
  ⟨fun f => by simp, fun f _ => rfl⟩

theorem spends_write (data : Bytes) : Spends 1 (buffereventWrite data) := by
  refine ⟨fun f => ?_, fun f hf => ?_⟩ <;> unfold buffereventWrite at * <;>
    rcases hw : f.writes with _ | ⟨_ | _, ws⟩ <;> simp_all

theorem mem_take_add {α : Type} {x : α} {l : List α} (n m : Nat) :
    x ∈ l.take (n + m) ↔ x ∈ l.take n ∨ x ∈ (l.drop n).take m := by
  rw [List.take_add, List.mem_append]

/-- One program after another. -/
theorem Spends.bind {α β : Type} {n n' : Nat} {m : Prog Fcgi α} {k : α → Prog Fcgi β}
    (hm : Spends n m) (hk : ∀ a, Spends n' (k a)) : Spends (n + n') (m >>= k) := by
  have hrun : ∀ f, (m f).1 = none ∧ ((m >>= k) f).1 = none ∨
      ∃ a, (m f).1 = some a ∧ (m >>= k) f = k a (m f).2 := by
    intro f
    rcases hf : m f with ⟨_ | a, g⟩
    · exact .inl ⟨rfl, by rw [Prog.bind_none hf]⟩
    · exact .inr ⟨a, rfl, Prog.bind_some hf⟩
  refine ⟨fun f => ?_, fun f hok => ?_⟩ <;> rcases hrun f with ⟨hnone, hfail⟩ | ⟨a, hsome, heq⟩
  · exact ⟨fun _ => (mem_take_add n n').mpr (.inl ((hm.fails f).mp hnone)), fun _ => hfail⟩
  · have hgood : false ∉ f.writes.take n := fun h => by
      rw [(hm.fails f).mpr h] at hsome
      cases hsome
    rw [heq, (hk a).fails, hm.leaves f (by rw [hsome]; simp), mem_take_add, or_iff_right hgood]
  · exact absurd hfail hok
  · rw [heq] at hok ⊢
    rw [(hk a).leaves _ hok, hm.leaves f (by rw [hsome]; simp), List.drop_drop]

/-- The same writes, and then something else. -/
theorem Spends.of_same {α : Type} {n : Nat} {m m' : Prog Fcgi α} (hm : Spends n m)
    (hfst : ∀ f, (m' f).1 = (m f).1)
    (hsnd : ∀ f, (m f).1 ≠ none → (m' f).2.writes = (m f).2.writes) : Spends n m' :=
  ⟨fun f => by rw [hfst, hm.fails],
    fun f h => by rw [hfst] at h; rw [hsnd f h, hm.leaves f h]⟩

theorem spends_dowrite (id : UInt32) (data : Bytes) : Spends 2 (dowrite id data) := by
  have htwo := (spends_write [1, stdout, byte1 id.toNat, byte0 id.toNat, byte1 data.length,
    byte0 data.length, 0, 0]).bind fun _ => spends_write data
  refine htwo.of_same (fun f => ?_) (fun f hok => ?_) <;> rw [dowrite]
  · split <;> rename_i h <;> rw [h]
  · split <;> rename_i h <;> rw [h] at hok ⊢
    · exact absurd rfl hok
    · rfl

theorem spends_cltWrite (id : UInt32) (data : Bytes) :
    Spends (2 * ((data.length + 65534) / 65535)) (cltWrite id data) := by
  suffices h : ∀ (n : Nat) (data : Bytes), data.length ≤ n →
      Spends (2 * ((data.length + 65534) / 65535)) (cltWriteLoop id n data) from
    h _ _ (Nat.le_refl _)
  intro n
  induction n with
  | zero =>
    intro data hn
    rw [List.length_eq_zero_iff.mp (Nat.le_zero.mp hn)]
    exact spends_pure
  | succ n ih =>
    intro data hn
    rw [cltWriteLoop]
    split
    · rename_i hempty
      rw [List.isEmpty_iff.mp hempty]
      exact spends_pure
    · rename_i hne
      have hpos : 0 < data.length := List.length_pos_iff.mpr (by simpa using hne)
      have hdrop : (data.drop fcgiMaxContentSize).length = data.length - 65535 := List.length_drop
      have hrest := ih (data.drop fcgiMaxContentSize) (by omega)
      have hcount : 2 * ((data.length + 65534) / 65535)
          = 2 + 2 * (((data.drop fcgiMaxContentSize).length + 65534) / 65535) := by
        omega
      rw [hcount]
      exact (spends_dowrite id _).bind fun _ => hrest

theorem spends_endReq (id : Nat) (status proto : UInt8) :
    Spends 2 (fcgiSendEndReq id status proto) := by
  have hseen : Spends 0 (Prog.modify fun f : Fcgi => f.observe
      (.queued endRequestType (UInt16.ofNat id) (endReqBody status proto))) :=
    spends_pure.of_same (fun _ => rfl) fun _ _ => rfl
  exact (spends_write _).bind fun _ => (spends_write _).bind fun _ => hseen

end Writes

/-- The writes that end a request: a header and a content for each block that is pending, and for
the record that says so. -/
def endWrites (pending : Nat) : Nat := 2 * ((pending + 65534) / 65535) + 2

/-- `clt_flush` is a write of what is pending. -/
theorem cltFlush_writing (f : Fcgi) (c : Client) : ∃ tp : Template,
    cltFlush ⟨f, c⟩ = ((cltWrite c.cltId c.cltTp.tpBuf f).1,
      ⟨(cltWrite c.cltId c.cltTp.tpBuf f).2, { c with cltTp := tp }⟩) := by
  simp only [cltFlush, Prog.get_bind, onTp, Prog.zoom, templateFlush]
  split
  · rename_i hempty
    rw [List.isEmpty_iff.mp hempty]
    exact ⟨c.cltTp, rfl⟩
  · rcases cltWrite c.cltId c.cltTp.tpBuf f with ⟨_ | _, g⟩
    · exact ⟨c.cltTp, rfl⟩
    · exact ⟨c.cltTp.clear, rfl⟩

theorem endRequest_fails (f : Fcgi) (c : Client) (status proto : UInt8) :
    (endRequest status proto ⟨f, c⟩).1 = none ↔
      false ∈ f.writes.take (endWrites c.cltTp.tpBuf.length) := by
  have hboth := (spends_cltWrite c.cltId c.cltTp.tpBuf).bind fun _ =>
    spends_endReq c.cltId.toNat status proto
  obtain ⟨tp, hflush⟩ := cltFlush_writing f c
  rw [endWrites, ← hboth.fails f, endRequest]
  rcases hwrite : cltWrite c.cltId c.cltTp.tpBuf f with ⟨_ | _, g⟩ <;> rw [hwrite] at hflush
  · rw [Prog.bind_none hflush, Prog.bind_none hwrite]
  · rw [Prog.bind_some hflush, Prog.bind_some hwrite, Prog.get_bind]
    dsimp only
    rcases fcgiSendEndReq c.cltId.toNat status proto g with ⟨_ | _, g'⟩
    · exact ⟨fun _ => rfl, fun _ => rfl⟩
    · exact ⟨fun h => absurd h (Option.some_ne_none _), fun h => absurd h (Option.some_ne_none _)⟩

/-- Whether a record for this client that is not taken exactly tears the connection down. -/
def Fcgi.TornFor (stale : Bytes) (f : Fcgi) : Option Client → Prop
  | none => False
  | some c =>
      f.fcgType = params ∧ Refused f.fcgToread (f.input ++ stale) ∨
      f.fcgType = abortRequest ∧ false ∈ f.writes.take (endWrites c.cltTp.tpBuf.length)

/-- The same of the record whose content is next in the input. -/
def Fcgi.Torn (stale : Bytes) (f : Fcgi) : Prop :=
  f.TornFor stale (f.find f.fcgRecId.toUInt32)

section Torn

variable {env : Env} {stale : Bytes} {f : Fcgi} {c : Client} (hopen : f.closed = false)
  (hfind : f.find f.fcgRecId.toUInt32 = some c)

include hopen hfind

theorem readParams_closed_iff (hmax : f.fcgToread < 2 ^ 31) (h0 : f.fcgToread ≠ 0) :
    (readParams env stale f).fcgi.closed = true ↔ Refused f.fcgToread (f.input ++ stale) := by
  obtain ⟨r, hr, -, hread⟩ := readParams_content env stale hfind h0
  rw [hread, ← fcgiParseParams_refused env (s := ⟨f.fcgToread, f.input ++ stale, c⟩) hmax, ← hr]
  obtain ⟨_ | _, s⟩ := r
  · exact ⟨fun _ => rfl, fun _ => rfl⟩
  · show f.closed = true ↔ _
    rw [hopen]
    exact ⟨fun h => Bool.noConfusion h, fun h => Bool.noConfusion h⟩

theorem readAbort_closed_iff : (readAbort f).fcgi.closed = true ↔
    false ∈ f.writes.take (endWrites c.cltTp.tpBuf.length) := by
  have hkept := (endRequest_finishes 1 requestComplete).serves.kept hfind
  have hfst : (withClient f.fcgRecId.toUInt32 (endRequest 1 requestComplete) f).1
      = (endRequest 1 requestComplete ⟨f, c⟩).1 := by
    rw [withClient_run hfind]
  rw [readAbort, hfind, ← endRequest_fails f c 1 requestComplete, ← hfst]
  show (afterCall (withClient f.fcgRecId.toUInt32 (endRequest 1 requestComplete) f)).fcgi.closed
    = true ↔ _
  generalize withClient f.fcgRecId.toUInt32 (endRequest 1 requestComplete) f = r at hkept ⊢
  obtain ⟨_ | _, g⟩ := r
  · rcases hkept with ⟨-, hclosed, -⟩ | ⟨h, -⟩
    · exact ⟨fun _ => rfl, fun _ => hclosed⟩
    · cases h
  · rcases hkept with ⟨h, -⟩ | ⟨-, hclosed, -⟩
    · cases h
    · refine ⟨fun h => ?_, fun h => absurd h (Option.some_ne_none _)⟩
      rw [show (afterCall (some (), g)).fcgi.closed = g.closed from rfl, hclosed, hopen] at h
      cases h

theorem readStdin_open (h0 : f.fcgToread ≠ 0) : (readStdin env f).fcgi.closed = false := by
  rw [readStdin, hfind]
  dsimp only
  split
  · exact hopen
  · rw [withClient_run hfind, fcgiParseForm_chunk env c h0]
    exact hopen

end Torn

/-- **A record that is not taken exactly** leaves the connection open unless `Torn` says
otherwise. -/
theorem readBody_closed_iff {env : Env} {stale : Bytes} {f : Fcgi} (hopen : f.closed = false)
    (hmax : f.fcgToread < 2 ^ 31) (hframed : ¬ f.Framed env stale) :
    (readBody env stale f).fcgi.closed = true ↔ f.Torn stale := by
  cases hfind : f.find f.fcgRecId.toUInt32 with
  | none => exact absurd (framed_of_find_none hfind) hframed
  | some c =>
    have hfind' : (f.observe f.record).find (f.observe f.record).fcgRecId.toUInt32 = some c := hfind
    rw [Fcgi.Torn, hfind, readBody_eq, Fcgi.TornFor]
    by_cases hp : f.fcgType = params
    · have h0 : f.fcgToread ≠ 0 := by
        intro h0
        refine hframed ((framed_params hfind hp).mpr ?_)
        rw [ParamSt.overruns, h0]
        rfl
      have hclosed : (readParams env stale (f.observe f.record)).fcgi.closed = true ↔
          Refused f.fcgToread (f.input ++ stale) := readParams_closed_iff hopen hfind' hmax h0
      rw [hp]
      simpa [show params ≠ beginRequest by decide, show params ≠ abortRequest by decide]
        using hclosed
    by_cases hs : f.fcgType = stdin
    · have h0 : f.fcgToread ≠ 0 := by
        intro h0
        exact hframed ((framed_stdin hfind hs).mpr fun _ => by omega)
      have hclosed : (readStdin env (f.observe f.record)).fcgi.closed = false :=
        readStdin_open hopen hfind' h0
      rw [hs]
      simp [show stdin ≠ beginRequest by decide, show stdin ≠ abortRequest by decide,
        show stdin ≠ params by decide, hclosed]
    by_cases ha : f.fcgType = abortRequest
    · have hclosed : (readAbort (f.observe f.record)).fcgi.closed = true ↔
          false ∈ f.writes.take (endWrites c.cltTp.tpBuf.length) :=
            readAbort_closed_iff hopen hfind'
      rw [ha]
      simpa [show abortRequest ≠ beginRequest by decide, show abortRequest ≠ params by decide,
        show abortRequest ≠ stdin by decide] using hclosed
    · exact absurd (framed_other hp hs ha) hframed

/-! ## Whole records -/

/-- The connection when the header of a record has been read and `rest` stands behind it. -/
def Fcgi.announced (f : Fcgi) (r : Record) (rest : Bytes) : Fcgi :=
  { f with
    fcgWant := .body
    input := r.content ++ (r.padding ++ rest)
    fcgToread := r.content.length
    fcgPadding := r.padding.length
    fcgType := r.type
    fcgRecId := r.id }

section Record

variable {env : Env} {f : Fcgi} {r : Record} {rest stale : Bytes}

theorem step_header (hopen : f.closed = false) (hwant : f.fcgWant = .header)
    (htoread : f.fcgToread = 8) (hin : f.input = r.encode ++ rest) :
    step env f (.read stale) = f.announced r rest := by
  have hc : r.content.length < 65536 := by have := r.content_le; omega
  have hid : r.id.toNat < 65536 := r.id.toNat_lt
  have hp : (UInt8.ofNat r.padding.length).toNat = r.padding.length := by
    have := r.padding_le
    rw [UInt8.toNat_ofNat']
    omega
  have hlen : ¬ f.input.length < sizeT f.fcgToread := by
    rw [hin, htoread, List.length_append, r.length_encode]
    show ¬ _ < 8
    omega
  rw [step, if_neg (by simp [hopen]), handle, readStep, if_neg (by simp [hopen, hlen]), hwant]
  simp only [readHeader, hin, Record.encode, Record.header, List.cons_append, List.nil_append,
    cat_bytes hc, cat_bytes hid, hp, UInt16.ofNat_toNat, List.append_assoc, ne_eq,
    not_true_eq_false, if_false, Flow.fcgi, Fcgi.announced]

theorem step_announced (hopen : f.closed = false) :
    step env (f.announced r rest) (.read stale)
      = (readBody env stale (f.announced r rest)).fcgi := by
  have hc := r.content_le
  have hlen : sizeT r.content.length ≤ (r.content ++ (r.padding ++ rest)).length := by
    rw [sizeT_natCast (by omega), List.length_append]
    omega
  have htakes : (f.announced r rest).takes (.read stale) r.type :=
    ⟨rfl, hopen, rfl, rfl, hlen⟩
  exact step_of_takes env htakes

end Record

/-- What is left of the input after `used` bytes and the padding. -/
theorem drop_eq_rest_iff (r : Record) (rest : Bytes) (used : Nat) :
    (r.content ++ (r.padding ++ rest)).drop (used + r.padding.length) = rest ↔
      used = r.content.length ∨ rest = [] ∧ r.content.length ≤ used := by
  constructor
  · intro h
    have hlen := congrArg List.length h
    simp only [List.length_drop, List.length_append] at hlen
    by_cases hrest : rest = []
    · subst hrest
      simp only [List.length_nil] at hlen
      exact .inr ⟨rfl, by omega⟩
    · have := List.length_pos_iff.mpr hrest
      exact .inl (by omega)
  · rintro (rfl | ⟨rfl, hle⟩)
    · rw [← List.append_assoc, ← List.length_append, List.drop_left]
    · refine List.drop_of_length_le ?_
      simp only [List.length_append, List.length_nil]
      omega

/-- **Framing.** Of a record that is in the input as a whole exactly its bytes are taken, or the
connection is torn down, if and only if it is one of those `Framed` describes, or it carries
parameters and there is nothing behind it that could be taken too, or it is one of those `Torn`
describes. -/
theorem record_framed_iff (env : Env) (f : Fcgi) (r : Record) (rest stale : Bytes)
    (hopen : f.closed = false) (hwant : f.fcgWant = .header) (htoread : f.fcgToread = 8)
    (hin : f.input = r.encode ++ rest) :
    let g := run env f [.read stale, .read stale]
    (g.closed = true ∨ g.input = rest) ↔
      ((f.announced r rest).Framed env stale ∨ r.type = params ∧ rest = [] ∨
        (f.announced r rest).Torn stale) := by
  intro g
  have hg : g = (readBody env stale (f.announced r rest)).fcgi := by
    show step env (step env f (.read stale)) (.read stale) = _
    rw [step_header hopen hwant htoread hin, step_announced hopen]
  have htakes : Takes env stale (f.announced r rest) r.content.length g := by
    rw [hg]
    refine readBody_takes rfl r.content_le ?_
    show r.content.length ≤ (r.content ++ (r.padding ++ rest)).length
    rw [List.length_append]
    omega
  have hmax : (f.announced r rest).fcgToread < 2 ^ 31 := by
    have := r.content_le
    show (r.content.length : Int) < _
    omega
  have hinput : (f.announced r rest).input.length
      = r.content.length + (r.padding.length + rest.length) := by
    simp [Fcgi.announced]
  by_cases hframed : (f.announced r rest).Framed env stale
  · refine ⟨fun _ => .inl hframed, fun _ => ?_⟩
    rcases htakes with ⟨hclosed, -⟩ | ⟨-, used, hused, h⟩
    · exact .inl hclosed
    · refine .inr ?_
      rw [hused]
      exact (drop_eq_rest_iff r rest used).mpr (.inl (h.exact hframed))
  have htorn := readBody_closed_iff (f := f.announced r rest) hopen hmax hframed
  rw [← hg] at htorn
  rw [or_iff_right hframed, ← htorn, or_comm]
  rcases htakes with ⟨hclosed, -⟩ | ⟨-, used, hused, h⟩
  · exact ⟨fun _ => .inr hclosed, fun _ => .inr hclosed⟩
  refine or_congr_left ?_
  rw [hused]
  refine (drop_eq_rest_iff r rest used).trans ?_
  by_cases htype : r.type = params
  · have hmore := h.more hframed htype
    rw [hinput] at hmore
    constructor
    · rintro (heq | ⟨hrest, -⟩)
      · by_cases hrest : rest = []
        · exact ⟨htype, hrest⟩
        · have := List.length_pos_iff.mpr hrest
          omega
      · exact ⟨htype, hrest⟩
    · rintro ⟨-, hrest⟩
      exact .inr ⟨hrest, by omega⟩
  · have hless := h.less hframed htype
    constructor
    · rintro (heq | ⟨-, hle⟩) <;> omega
    · rintro ⟨ht, -⟩
      exact absurd ht htype

/-- A `FCGI_BEGIN_REQUEST` with eight bytes of padding, and two bytes of the next record. -/
theorem begin_framed :
    let r : Record := ⟨beginRequest, 1, [0, 1, 1, 0, 0, 0, 0, 0], List.replicate 8 0, by decide,
      by decide⟩
    let f := (Fcgi.new [] []).arrive (r.encode ++ [1, 4])
    let g := run exampleEnv f [.read [], .read []]
    g.closed = false ∧ (g.closed = true ∨ g.input = [1, 4]) := by
  intro r f g
  have hframed : (f.announced r [1, 4]).Framed exampleEnv [] := by decide
  exact ⟨by decide, (record_framed_iff exampleEnv f r [1, 4] [] rfl rfl rfl rfl).mpr
    (.inl hframed)⟩

/-- A form of 2048 bytes in one record: its last byte is left, to be read as the next header. -/
theorem long_stdin_unframed :
    let es := Event.begin 1 1 1 ++ Event.record params 1 (paramPair "REQUEST_METHOD" "POST")
    let r : Record := ⟨stdin, 1, List.replicate 2048 97, [],
      by rw [List.length_replicate]; decide, by decide⟩
    let f := (run exampleEnv (Fcgi.new [] []) es).arrive r.encode
    let g := run exampleEnv f [.read [], .read []]
    f.closed = false ∧ f.fcgWant = .header ∧ f.fcgToread = 8 ∧ f.input = r.encode ++ [] ∧
      g.closed = false ∧ g.input = [97] ∧ g.fcgWant = .header := by
  decide +kernel

end Galileo
