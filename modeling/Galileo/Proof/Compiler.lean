import Galileo.Spec.Block

/-!
# The template compiler preserves meaning

What the actions of the grammar print is read back as statements with the shape of the template
(`Body.reads`): every brace is closed by the production it belongs to, and every `else` finds its
`if`. These statements do what the template says (`Body.exec_stmts`), where leaving the body is
`goto err`. Behind the label are the lines of `finally`.

What a failed call leads to is then a matter of the templates alone (`Ran`).
-/

set_option autoImplicit false

namespace Galileo

open Lib Lib.CStmt

namespace Tmpl

abbrev Code := Stmt Simple Cond LoopHead

/-! ## The statements -/

/-- `if (c) goto err;` -/
def orGotoStmt (c : Cond) : Code := .ite c .goto .skip

def Verbatim.stmts (v : Verbatim) : List Code :=
  if v.lines.isEmpty then [] else [.simple (.code v.lines)]

mutual

def Body.stmts : Body → List Code
  | .empty => []
  | .verbatim b v => b.stmts ++ v.stmts
  | .raw b s => b.stmts ++ [orGotoStmt (.failed (.tpWrite s.nstring s.nstring.length))]
  | .special b p => b.stmts ++ p.stmts

def Special.stmts : Special → List Code
  | .render e => [orGotoStmt (.failed (.expr e.string))]
  | .printf args =>
      [orGotoStmt (.asprintf args), orGotoStmt (.failed .tpTmp), .simple .freeTmp, .simple .nullTmp]
  | .cond c b e => [.ite (.expr c.value) (.block b.stmts) e.stmt]
  | .for c b => [.loop (.for c.value) (.block b.stmts)]
  | .tqforeach var head field b => [.loop (.tqforeach var head field) (.block b.stmts)]
  | .while c b => [.loop (.while c.value) (.block b.stmts)]
  | .plain e => [orGotoStmt (.failed (.tpWrites e.string))]
  | .urlescape e => [orGotoStmt (.failed (.tpUrlescape e.string))]
  | .htmlescape e => [orGotoStmt (.failed (.tpHtmlescape e.string))]

def Endif.stmt : Endif → Code
  | .last => .skip
  | .els b => .block b.stmts
  | .elsif c b e => .ite (.expr c.value) (.block b.stmts) e.stmt

end

section Reading

variable {rest rest' : List CTok} {l : List Code}

/-- No statement begins with `else`. -/
theorem head_ne_els (h : ReadsItems rest l rest') : rest.head? ≠ some .els := by
  cases h with
  | nil h =>
    intro hels
    cases rest with
    | nil => exact nomatch hels
    | cons t ts =>
      obtain rfl : t = .els := by simpa using hels
      exact h
  | cons ha _ => cases ha <;> simp

theorem orGoto_reads (c : Cond) (h : ReadsItems rest l rest') :
    ReadsItems (orGoto c ++ rest) (orGotoStmt c :: l) rest' :=
  .cons (.ifOnly c (.goto rest) (head_ne_els h)) h

theorem Verbatim.reads (v : Verbatim) (h : ReadsItems rest l rest') :
    ReadsItems (v.emit ++ rest) (v.stmts ++ l) rest' := by
  unfold Verbatim.emit Verbatim.stmts
  split
  · exact h
  · exact .cons (.simple _ rest) h

/-- A body between braces. -/
theorem braced_reads {ts : List CTok} {l' : List Code}
    (h : ∀ (rest : List CTok) (l : List Code) (rest' : List CTok), ReadsItems rest l rest' →
      ReadsItems (ts ++ rest) (l' ++ l) rest') (rest : List CTok) :
    Reads (.lbrace :: (ts ++ .rbrace :: rest)) (.block l') rest := by
  have := h (.rbrace :: rest) [] (.rbrace :: rest) (.nil trivial)
  rw [List.append_nil] at this
  exact .block this

end Reading

mutual

/-- **A body is read back**, in front of whatever is read behind it. -/
theorem Body.reads : ∀ (b : Body) (rest : List CTok) (l : List Code) (rest' : List CTok),
    ReadsItems rest l rest' → ReadsItems (b.emit ++ rest) (b.stmts ++ l) rest'
  | .empty, _, _, _, h => h
  | .verbatim b v, _, _, _, h => by
    rw [Body.emit, Body.stmts, List.append_assoc, List.append_assoc]
    exact b.reads _ _ _ (v.reads h)
  | .raw b s, _, _, _, h => by
    rw [Body.emit, Body.stmts, List.append_assoc, List.append_assoc]
    exact b.reads _ _ _ (orGoto_reads _ h)
  | .special b p, _, _, _, h => by
    rw [Body.emit, Body.stmts, List.append_assoc, List.append_assoc]
    exact b.reads _ _ _ (p.reads _ _ _ h)

theorem Special.reads : ∀ (p : Special) (rest : List CTok) (l : List Code) (rest' : List CTok),
    ReadsItems rest l rest' → ReadsItems (p.emit ++ rest) (p.stmts ++ l) rest'
  | .render _, _, _, _, h => orGoto_reads _ h
  | .printf args, rest, _, _, h => by
    rw [Special.emit, List.append_assoc, List.append_assoc]
    exact orGoto_reads _ (orGoto_reads _ (.cons (.simple _ _) (.cons (.simple _ _) h)))
  | .cond c b e, rest, _, _, h => by
    rw [Special.emit, List.append_assoc, List.append_assoc, List.append_assoc]
    exact .cons (e.reads _ b b.reads rest (head_ne_els h)) h
  | .for _ b, rest, _, _, h => by
    rw [Special.emit, List.append_assoc, List.append_assoc]
    exact .cons (.loop _ (braced_reads b.reads rest)) h
  | .tqforeach _ _ _ b, rest, _, _, h => by
    rw [Special.emit, List.append_assoc, List.append_assoc]
    exact .cons (.loop _ (braced_reads b.reads rest)) h
  | .while _ b, rest, _, _, h => by
    rw [Special.emit, List.append_assoc, List.append_assoc]
    exact .cons (.loop _ (braced_reads b.reads rest)) h
  | .plain _, _, _, _, h => orGoto_reads _ h
  | .urlescape _, _, _, _, h => orGoto_reads _ h
  | .htmlescape _, _, _, _, h => orGoto_reads _ h

/-- The rest of an `if`: the brace that closes a branch is printed by whatever comes next. -/
theorem Endif.reads : ∀ (e : Endif) (c : Cond) (b : Body)
    (_ : ∀ (rest : List CTok) (l : List Code) (rest' : List CTok), ReadsItems rest l rest' →
      ReadsItems (b.emit ++ rest) (b.stmts ++ l) rest')
    (rest : List CTok) (_ : rest.head? ≠ some .els),
    Reads (.iff c :: .lbrace :: (b.emit ++ (e.emit ++ .rbrace :: rest)))
      (.ite c (.block b.stmts) e.stmt) rest
  | .last, c, _, hb, rest, hels => .ifOnly c (braced_reads hb rest) hels
  | .els b', c, _, hb, rest, _ => .ite c (braced_reads hb _) (braced_reads b'.reads rest)
  | .elsif c' b' e, c, _, hb, rest, hels => by
    rw [Endif.emit, List.append_assoc, List.append_assoc]
    exact .ite c (braced_reads hb _) (e.reads _ b' b'.reads rest hels)

end

/-! ## What they do -/

/-- A body is left by `goto err`. -/
def Stop.exit : Stop → Exit
  | .failed => .goto
  | .cut => .cut

section Exec

variable {σ : Type} (host : Host σ) (rounds : Nat)

/-- `if ((tp_ret = call) == -1) goto err;` -/
theorem exec_failed (call : CallExpr) :
    exec host.machine rounds (orGotoStmt (.failed call))
      = .leave Stop.exit (orStop (host.assign · call)) := by
  funext t
  simp only [orGotoStmt, exec, Act.branch, Act.leave, orStop, Host.machine]
  by_cases h : (host.assign t call).tpRet = -1
  · rw [if_pos h]
    simp only [h, decide_true]
    rfl
  · rw [if_neg h]
    simp only [h, decide_false]
    rfl

theorem exec_singleton (a : Code) :
    exec host.machine rounds (.block [a]) = exec host.machine rounds a :=
  Act.seq_skip _

theorem Verbatim.exec_stmts (v : Verbatim) :
    exec host.machine rounds (.block v.stmts) = .leave Stop.exit (v.run host) := by
  unfold Verbatim.stmts Verbatim.run
  split
  · rfl
  · rw [exec_singleton]
    rfl

theorem exec_printf (args : List Bytes) :
    exec host.machine rounds (.block (Special.printf args).stmts)
      = .leave Stop.exit (printf host args) := by
  have hprint : exec host.machine rounds (orGotoStmt (.asprintf args))
      = .leave Stop.exit (printOrStop host args) := by
    funext t
    simp only [orGotoStmt, exec, Act.branch, Act.leave, printOrStop, Host.machine]
    cases (host.asprintf args t.host).1 <;> rfl
  show Act.seq (exec host.machine rounds (orGotoStmt (.asprintf args)))
    (.seq (exec host.machine rounds (orGotoStmt (.failed .tpTmp)))
      (.seq (exec host.machine rounds (.simple .freeTmp))
        (.seq (exec host.machine rounds (.simple .nullTmp)) .skip))) = _
  rw [hprint, exec_failed, printf, Act.leave_seq, Act.leave_seq]
  rfl

end Exec

section Meaning

variable {σ : Type} (host : Host σ) (rounds : Nat)

mutual

/-- **The statements of a body do what the body says.** -/
theorem Body.exec_stmts : ∀ b : Body,
    exec host.machine rounds (.block b.stmts) = .leave Stop.exit (b.run host rounds)
  | .empty => rfl
  | .verbatim b v => by
    rw [Body.stmts, exec_block_append, Body.run, Act.leave_seq, b.exec_stmts, v.exec_stmts]
  | .raw b s => by
    rw [Body.stmts, exec_block_append, Body.run, Act.leave_seq, b.exec_stmts, exec_singleton,
      exec_failed]
    -- the printed length is that of the text
    simp only [Host.assign, List.take_length]
  | .special b p => by
    rw [Body.stmts, exec_block_append, Body.run, Act.leave_seq, b.exec_stmts, p.exec_stmts]

theorem Special.exec_stmts : ∀ p : Special,
    exec host.machine rounds (.block p.stmts) = .leave Stop.exit (p.run host rounds)
  | .render _ => by
    rw [Special.stmts, exec_singleton, exec_failed]
    rfl
  | .printf args => by
    rw [exec_printf, Special.run]
  | .cond c b e => by
    rw [Special.stmts, exec_singleton, Special.run, Act.leave_branch, ← b.exec_stmts, ← e.exec_stmt]
    rfl
  | .for c b => by
    rw [Special.stmts, exec_singleton, Special.run, Head.run, Act.leave_seq, Act.leave_loop,
      ← b.exec_stmts]
    rfl
  | .tqforeach _ _ _ b => by
    rw [Special.stmts, exec_singleton, Special.run, Head.run, Act.leave_seq, Act.leave_loop,
      ← b.exec_stmts]
    rfl
  | .while c b => by
    rw [Special.stmts, exec_singleton, Special.run, Head.run, Act.leave_seq, Act.leave_loop,
      ← b.exec_stmts]
    rfl
  | .plain _ => by
    rw [Special.stmts, exec_singleton, exec_failed]
    rfl
  | .urlescape _ => by
    rw [Special.stmts, exec_singleton, exec_failed]
    rfl
  | .htmlescape _ => by
    rw [Special.stmts, exec_singleton, exec_failed]
    rfl

theorem Endif.exec_stmt : ∀ e : Endif,
    exec host.machine rounds e.stmt = .leave Stop.exit (e.run host rounds)
  | .last => rfl
  | .els b => by
    rw [Endif.stmt, b.exec_stmts, Endif.run]
  | .elsif c b e => by
    rw [Endif.run, Act.leave_branch, ← b.exec_stmts, ← e.exec_stmt]
    rfl

end

end Meaning

/-! ## The whole function -/

def lastStmts (last : List (List Bytes)) : List Code := last.map fun ls => .simple (.code ls)

def Block.fn (b : Block) : Fn Simple Cond LoopHead :=
  ⟨.block (.simple .tpRet :: b.body.stmts), .block (lastStmts b.last ++ [.ret])⟩

theorem verbatims_reads (vs : List Verbatim) {rest rest' : List CTok} {l : List Code}
    (h : ReadsItems rest l rest') :
    ReadsItems (vs.flatMap Verbatim.emit ++ rest)
      (lastStmts ((vs.map Verbatim.lines).filter (!·.isEmpty)) ++ l) rest' := by
  induction vs with
  | nil => exact h
  | cons v vs ih =>
    have hv := v.reads ih
    rw [List.flatMap_cons, List.append_assoc, List.map_cons, List.filter_cons]
    unfold Verbatim.stmts at hv
    cases hempty : v.lines.isEmpty with
    | true =>
      rw [hempty] at hv
      exact hv
    | false =>
      rw [hempty] at hv
      exact hv

/-- **What is printed is a C function**: the body, the label, the lines of `finally`. -/
theorem Block.parses (b : Block) : parseFn b.emit = some b.fn := by
  have htail (vs : List Verbatim) := verbatims_reads vs
    (ReadsItems.cons (.ret [.rbrace]) (show ReadsItems [Tok.rbrace] [] _ from .nil trivial))
  have hbody (body : Body) (ts : List CTok) :
      ReadsItems (.simple .tpRet :: (body.emit ++ .label :: ts)) (.simple .tpRet :: body.stmts)
        (.label :: ts) := by
    have := body.reads (.label :: ts) [] (.label :: ts) (.nil trivial)
    rw [List.append_nil] at this
    exact .cons (.simple _ _) this
  cases b with
  | plain name body =>
    exact parseFn_eq (hbody body _) (htail [])
  | «finally» name body vs =>
    have hsplit : (Block.finally name body vs).emit
        = .simple .tpRet ::
          (body.emit ++ .label :: (vs.flatMap Verbatim.emit ++ [.ret, .rbrace])) := by
      simp only [Block.emit, List.cons_append, List.append_assoc]
    rw [hsplit]
    exact parseFn_eq (hbody body _) (htail vs)

section Function

variable {σ : Type} (host : Host σ) (rounds : Nat)

/-- The result of a C function: the value of `return tp_ret;`, if that is reached. -/
def returned (r : Option Exit × Turn σ) : Option Int × Turn σ :=
  (if r.1 = some .ret then some r.2.tpRet else none, r.2)

theorem exec_last (last : List (List Bytes)) (t : Turn σ) :
    exec host.machine rounds (.block (lastStmts last ++ [.ret])) t
      = (some .ret, last.foldl (fun t ls => host.lines ls t) t) := by
  induction last generalizing t with
  | nil => rfl
  | cons ls last ih => exact ih (host.lines ls t)

theorem foldl_lines_tpRet (last : List (List Bytes)) (t : Turn σ) :
    (last.foldl (fun t ls => host.lines ls t) t).tpRet = t.tpRet := by
  induction last generalizing t with
  | nil => rfl
  | cons ls last ih => exact ih (host.lines ls t)

theorem foldl_lines_trace (last : List (List Bytes)) (t : Turn σ) :
    (last.foldl (fun t ls => host.lines ls t) t).trace = t.trace ++ last.map .code := by
  induction last generalizing t with
  | nil => simp
  | cons ls last ih =>
    rw [List.foldl_cons, ih, Host.lines, List.map_cons, List.append_assoc, List.singleton_append]

/-- **The function does what the block says**, within any number of rounds. -/
theorem Block.exec_fn (b : Block) (t : Turn σ) :
    returned (b.fn.exec host.machine rounds t) = b.run host rounds t := by
  have hbody : exec host.machine rounds b.fn.body t
      = Act.leave Stop.exit (b.body.run host rounds) { t with tpRet := 0 } := by
    rw [← Body.exec_stmts]
    rfl
  have htail (t : Turn σ) : execTail host.machine rounds b.fn.tail (rounds + 1) t
      = (some .ret, b.last.foldl (fun t ls => host.lines ls t) t) := by
    have hlast : exec host.machine rounds b.fn.tail t = _ := exec_last host rounds b.last t
    simp only [execTail, hlast]
  simp only [Fn.exec, hbody, Block.run, Act.leave]
  rcases b.body.run host rounds { t with tpRet := 0 } with ⟨_ | _ | _, t'⟩
  · simp only [Option.map_none, htail, returned, if_true, foldl_lines_tpRet]
  · simp only [Option.map_some, Stop.exit, htail, returned, if_true, foldl_lines_tpRet]
  · rfl

end Function

/-! ## Failed calls -/

/-- No call in `es` has returned -1. -/
def Fine (es : List Event) : Prop := ∀ c v, Event.call c v ∈ es → v ≠ -1

theorem Fine.nil : Fine [] := fun _ _ h => nomatch h

theorem Fine.append {es es' : List Event} (h : Fine es) (h' : Fine es') : Fine (es ++ es') :=
  fun c v hmem => (List.mem_append.mp hmem).elim (h c v) (h' c v)

/-- What has happened since `t`: nothing that failed, or something that failed at the very end,
which is a call with its -1 in `tp_ret`, or `asprintf`. -/
inductive Ran {σ : Type} (t : Turn σ) : Option Stop × Turn σ → Prop
  | fine {x : Option Stop} {t' : Turn σ} (es : List Event) (hx : x ≠ some .failed) (hes : Fine es)
      (htrace : t'.trace = t.trace ++ es) : Ran t (x, t')
  | call {t' : Turn σ} (es : List Event) (c : Call) (hes : Fine es)
      (htrace : t'.trace = t.trace ++ es ++ [.call c (-1)]) (hret : t'.tpRet = -1) :
      Ran t (some .failed, t')
  | asprintf {t' : Turn σ} (es : List Event) (args : List Bytes) (hes : Fine es)
      (htrace : t'.trace = t.trace ++ es ++ [.asprintf args false]) : Ran t (some .failed, t')

section Ran

variable {σ : Type} {a b : Act Stop (Turn σ)}

theorem Ran.seq (ha : ∀ t, Ran t (a t)) (hb : ∀ t, Ran t (b t)) (t : Turn σ) :
    Ran t (Act.seq a b t) := by
  have hfirst := ha t
  unfold Act.seq
  rcases hr : a t with ⟨_ | x, t'⟩ <;> rw [hr] at hfirst
  · cases hfirst with
    | fine es hx hes htrace =>
      have hsecond := hb t'
      show Ran t (b t')
      generalize b t' = r at hsecond ⊢
      cases hsecond with
      | fine es' hx' hes' htrace' =>
        exact .fine (es ++ es') hx' (hes.append hes') (by rw [htrace', htrace, List.append_assoc])
      | call es' c hes' htrace' hret =>
        refine .call (es ++ es') c (hes.append hes') ?_ hret
        rw [htrace', htrace, List.append_assoc t.trace]
      | asprintf es' args hes' htrace' =>
        refine .asprintf (es ++ es') args (hes.append hes') ?_
        rw [htrace', htrace, List.append_assoc t.trace]
  · exact hfirst

theorem Ran.set {g : Turn σ → Turn σ} (hg : ∀ t, (g t).trace = t.trace) (t : Turn σ) :
    Ran t ((Act.set g : Act Stop (Turn σ)) t) :=
  .fine [] (by simp) .nil (by rw [hg, List.append_nil])

theorem Ran.skip (t : Turn σ) : Ran t ((Act.skip : Act Stop (Turn σ)) t) :=
  Ran.set (g := id) (fun _ => rfl) t

/-- A state with the same trace will do as a start. -/
theorem Ran.start {t t' : Turn σ} {r : Option Stop × Turn σ} (h : Ran t' r)
    (htrace : t'.trace = t.trace) : Ran t r := by
  cases h with
  | fine es hx hes h => exact .fine es hx hes (htrace ▸ h)
  | call es c hes h hret => exact .call es c hes (htrace ▸ h) hret
  | asprintf es args hes h => exact .asprintf es args hes (htrace ▸ h)

theorem Ran.branch {test : Turn σ → Bool × Turn σ} (htest : ∀ t, (test t).2.trace = t.trace)
    (ha : ∀ t, Ran t (a t)) (hb : ∀ t, Ran t (b t)) (t : Turn σ) :
    Ran t (Act.branch test a b t) := by
  have htrace := htest t
  unfold Act.branch
  rcases hr : test t with ⟨_ | _, t'⟩ <;> rw [hr] at htrace
  · exact (hb t').start htrace
  · exact (ha t').start htrace

/-- Every round of a loop is one part of it. -/
theorem Ran.loop {test : Turn σ → Bool × Turn σ} {next : Turn σ → Turn σ}
    (htest : ∀ t, (test t).2.trace = t.trace) (hnext : ∀ t, (next t).trace = t.trace)
    (ha : ∀ t, Ran t (a t)) (n : Nat) (t : Turn σ) : Ran t (Act.loop .cut test next a n t) := by
  induction n generalizing t with
  | zero => exact .fine [] (by simp) .nil (List.append_nil _).symm
  | succ n ih => exact Ran.branch htest (Ran.seq ha (Ran.seq (Ran.set hnext) ih)) Ran.skip t

variable (host : Host σ)

theorem Ran.perform {f : Turn σ → Turn σ}
    (hf : ∀ t, ∃ c, (f t).trace = t.trace ++ [.call c (f t).tpRet]) (t : Turn σ) :
    Ran t (orStop f t) := by
  obtain ⟨c, htrace⟩ := hf t
  unfold orStop
  split
  · rename_i hret
    rw [hret] at htrace
    exact .call [] c .nil (by rw [htrace, List.append_nil]) hret
  · rename_i hret
    refine .fine [.call c (f t).tpRet] (by simp) (fun c' v hmem => ?_) htrace
    obtain ⟨-, rfl⟩ : c' = c ∧ v = (f t).tpRet := by simpa using hmem
    exact hret

theorem Ran.verbatim (v : Verbatim) (t : Turn σ) : Ran t (v.run host t) := by
  unfold Verbatim.run
  split
  · exact Ran.skip t
  · exact .fine [.code v.lines] (by simp) (fun c v hmem => by simp at hmem) rfl

theorem Ran.printf (args : List Bytes) (t : Turn σ) : Ran t (printf host args t) := by
  have hprint (t : Turn σ) : Ran t (printOrStop host args t) := by
    have htrace : (host.print args t).trace
        = t.trace ++ [.asprintf args (host.asprintf args t.host).1.isSome] := rfl
    unfold printOrStop
    cases hr : (host.asprintf args t.host).1 with
    | none =>
      rw [hr] at htrace
      exact .asprintf [] args .nil (by rw [htrace, List.append_nil]; rfl)
    | some s => exact .fine _ (by simp) (fun c v hmem => by simp at hmem) htrace
  have hescape := @Ran.perform σ (fun t => host.perform (.htmlescape (t.tpTmp.getD [])) t)
    fun _ => ⟨_, rfl⟩
  exact Ran.seq hprint (Ran.seq hescape (Ran.set (by exact fun _ => rfl))) t

theorem Ran.head {h : Head (Turn σ)} (hinit : ∀ t, (h.init t).trace = t.trace)
    (htest : ∀ t, (h.test t).2.trace = t.trace) (hnext : ∀ t, (h.next t).trace = t.trace)
    (ha : ∀ t, Ran t (a t)) (n : Nat) (t : Turn σ) : Ran t (h.run .cut n a t) :=
  Ran.seq (Ran.set hinit) (Ran.loop htest hnext ha n) t

end Ran

section Bodies

variable {σ : Type} (host : Host σ) (rounds : Nat)

mutual

theorem Body.ran : ∀ (b : Body) (t : Turn σ), Ran t (b.run host rounds t)
  | .empty => Ran.skip
  | .verbatim b v => Ran.seq b.ran (Ran.verbatim host v)
  | .raw b _ => Ran.seq b.ran (Ran.perform fun _ => ⟨_, rfl⟩)
  | .special b p => Ran.seq b.ran p.ran

theorem Special.ran : ∀ (p : Special) (t : Turn σ), Ran t (p.run host rounds t)
  | .render _ => Ran.perform fun _ => ⟨_, rfl⟩
  | .printf args => Ran.printf host args
  | .cond _ b e => Ran.branch (fun _ => rfl) b.ran e.ran
  | .for _ b => Ran.head (fun _ => rfl) (fun _ => rfl) (fun _ => rfl) b.ran rounds
  | .tqforeach _ _ _ b => Ran.head (fun _ => rfl) (fun _ => rfl) (fun _ => rfl) b.ran rounds
  | .while _ b => Ran.head (fun _ => rfl) (fun _ => rfl) (fun _ => rfl) b.ran rounds
  | .plain _ => Ran.perform fun _ => ⟨_, rfl⟩
  | .urlescape _ => Ran.perform fun _ => ⟨_, rfl⟩
  | .htmlescape _ => Ran.perform fun _ => ⟨_, rfl⟩

theorem Endif.ran : ∀ (e : Endif) (t : Turn σ), Ran t (e.run host rounds t)
  | .last => Ran.skip
  | .els b => b.ran
  | .elsif _ b e => Ran.branch (fun _ => rfl) b.ran e.ran

end

/-- A call that returns -1 is the last thing in front of the lines of `finally`. -/
theorem Block.run_failed (b : Block) {t : Turn σ} (ht : t.trace = []) {c : Call}
    (hc : .call c (-1) ∈ (b.run host rounds t).2.trace) :
    (b.run host rounds t).1 = some (-1) ∧
      ∃ es, Fine es ∧ (b.run host rounds t).2.trace = es ++ .call c (-1) :: b.last.map .code := by
  have hran := b.body.ran host rounds { t with tpRet := 0 }
  unfold Block.run at hc ⊢
  generalize b.body.run host rounds { t with tpRet := 0 } = r at hran hc ⊢
  have hcode (es : List Event) (hmem : .call c (-1) ∈ es ++ b.last.map Event.code) :
      .call c (-1) ∈ es := by
    simpa using hmem
  cases hran with
  | @fine x t' es hx hes htrace =>
    -- nothing has failed, so there is no such call
    rw [ht, List.nil_append] at htrace
    have hmem : .call c (-1) ∈ es := by
      rcases x with _ | _ | _
      · rw [foldl_lines_trace, htrace] at hc
        exact hcode es hc
      · exact absurd rfl hx
      · rw [htrace] at hc
        exact hc
    exact absurd rfl (hes c (-1) hmem)
  | @call t' es c' hes htrace hret =>
    rw [ht, List.nil_append] at htrace
    dsimp only at hc ⊢
    rw [foldl_lines_trace, htrace] at hc ⊢
    rw [hret]
    refine ⟨rfl, es, hes, ?_⟩
    rcases List.mem_append.mp (hcode _ hc) with hmem | hmem
    · exact absurd rfl (hes c (-1) hmem)
    · obtain rfl : c = c' := by simpa using hmem
      rw [List.append_assoc, List.singleton_append]
  | @asprintf t' es args hes htrace =>
    rw [ht, List.nil_append] at htrace
    dsimp only at hc
    rw [foldl_lines_trace, htrace] at hc
    rcases List.mem_append.mp (hcode _ hc) with hmem | hmem
    · exact absurd rfl (hes c (-1) hmem)
    · exact nomatch (List.mem_singleton.mp hmem)

end Bodies

/-- **The template compiler preserves meaning.** For a block that is accepted a C function is
printed that does, within any number of rounds of its loops, what the block says; and if a write or
a `render` returns -1, nothing follows but the lines of `finally`, once, and the result is -1. -/
theorem compiled_as_meant {ts : List Token} {b : Block} {out : List CTok} (h : Compiles ts b out)
    {σ : Type} (host : Host σ) (rounds : Nat) (t : Turn σ) (ht : t.trace = []) :
    ∃ fn, parseFn out = some fn ∧
      returned (fn.exec host.machine rounds t) = b.run host rounds t ∧
      ∀ c, .call c (-1) ∈ (returned (fn.exec host.machine rounds t)).2.trace →
        (returned (fn.exec host.machine rounds t)).1 = some (-1) ∧
          ∃ es, Fine es ∧ (returned (fn.exec host.machine rounds t)).2.trace
            = es ++ .call c (-1) :: b.last.map .code := by
  refine ⟨b.fn, h.prints ▸ b.parses, b.exec_fn host rounds t, fun c hc => ?_⟩
  rw [b.exec_fn host rounds t] at hc ⊢
  exact b.run_failed host rounds ht hc

/-- A template with an endless loop, a choice and a `finally`. -/
def flowBlock : Block :=
  .finally ⟨lit "base(tp)", []⟩
    (.special (.verbatim .empty [lit "char *foo = NULL;"])
      (.while (.last (lit "more"))
        (.special (.raw .empty ⟨lit "<p>", []⟩)
          (.cond (.last (lit "star")) (.raw .empty ⟨lit "*", []⟩)
            (.elsif (.last (lit "eq")) (.special .empty (.htmlescape ⟨lit "title", []⟩))
              (.els (.special .empty (.render ⟨lit "other(tp)", []⟩))))))))
    [[lit "free(foo);"]]

/-- A program that counts the calls; the fourth one fails. -/
def countingHost : Host Nat where
  cond c n := (c == lit "more" || n == 1, n)
  forHead _ := ⟨id, fun n => (false, n), id⟩
  tqforeach _ _ _ := ⟨id, fun n => (false, n), id⟩
  expr e n := (e, n)
  call _ n := (if n = 3 then -1 else 0, n + 1)
  asprintf _ n := (some [], n)
  code _ n := n

/-- The fourth call is the `render` in the second round of the loop. -/
theorem failed_render_as_meant :
    let t : Turn Nat := ⟨0, 7, none, []⟩
    let r := flowBlock.run countingHost 5 t
    (∃ fn, parseFn flowBlock.emit = some fn ∧
      returned (fn.exec countingHost.machine 5 t) = r) ∧
      r.1 = some (-1) ∧
      ∃ es, Fine es ∧
        r.2.trace = es ++ [.call (.render (lit "other(tp)")) (-1), .code [lit "free(foo);"]] := by
  intro t r
  have hmem : .call (.render (lit "other(tp)")) (-1) ∈ r.2.trace := by decide
  obtain ⟨fn, hparse, hrun, hfail⟩ :=
    compiled_as_meant (b := flowBlock) ⟨rfl, rfl⟩ countingHost 5 t rfl
  rw [hrun] at hfail
  exact ⟨⟨fn, hparse, hrun⟩, hfail _ hmem⟩

end Tmpl

end Galileo
