import Galileo.Lib.Assoc
import Galileo.Model.Config
import Mathlib.Data.List.Induction

/-!
# Macros

What the list of macros stands for is one table: the definitions of the command line, and for a name
that has none of them the last assignment of the configuration being read (`Stands`). `symset` and
`symget` are read through `table`, which forgets which macros were used; assignments, references and
the clean-up at the end of `parse_config` are then one lemma each, and a run of the daemon any
number of them.
-/

set_option autoImplicit false

namespace Galileo.Conf

open Lib

variable {ds : List Bytes} {assigned : Bytes → Option Bytes} {l : List Sym} {as : List Action}
  {p p' : Parse}

/-- A macro, without whether it was used. -/
def Sym.entry (sym : Sym) : Bytes × (Bytes × Bool) := (sym.nam, sym.val, sym.persist)

def table (symhead : List Sym) : List (Bytes × (Bytes × Bool)) := symhead.map Sym.entry

/-- The first definition of the name on the command line. -/
def given (ds : List Bytes) (nam : Bytes) : Option Bytes := (ds.filterMap (splitLast 61)).lookup nam

/-- The assignment an action makes. -/
def Action.assigns : Action → Option (Bytes × Bytes)
  | .varset nam val => if nam.tail.any isspace then none else some (nam, val)
  | _ => none

/-- The last assignment to the name. -/
def latest (as : List Action) (nam : Bytes) : Option Bytes :=
  (as.filterMap Action.assigns).reverse.lookup nam

/-- The options of the command line, one after the other. -/
def cmdline (ds : List Bytes) : List Sym := ds.foldl (fun l d => (cmdlineSymset d l).2) []

/-! ## The table -/

theorem lookup_table (nam : Bytes) (l : List Sym) :
    (table l).lookup nam = (l.find? (·.nam == nam)).map fun sym => (sym.val, sym.persist) := by
  induction l with
  | nil => rfl
  | cons sym l ih =>
    rw [table, List.map_cons, Sym.entry, List.lookup_cons, List.find?_cons]
    by_cases h : sym.nam = nam
    · rw [h, beq_self_eq_true]
      rfl
    · rw [beq_false_of_ne h, beq_false_of_ne fun he => h he.symm]
      exact ih

theorem table_erase_append (nam val : Bytes) (persist : Bool) (l : List Sym) :
    table (l.eraseP (·.nam == nam) ++ [⟨nam, val, false, persist⟩]) =
      Assoc.put nam (val, persist) (table l) := by
  rw [table, List.map_append, Assoc.put, table, List.eraseP_map]
  rfl

/-- A macro that is not of the command line is set, one that is stays as it is. -/
theorem table_symset (nam val : Bytes) (persist : Bool) (l : List Sym) :
    table (symset nam val persist l) =
      if (table l).lookup nam |>.any Prod.snd then table l
      else Assoc.put nam (val, persist) (table l) := by
  rw [symset, lookup_table]
  cases hf : l.find? (·.nam == nam) with
  | none =>
    have habsent : ∀ sym ∈ l, ¬(sym.nam == nam) = true := by simpa using hf
    rw [← table_erase_append, List.eraseP_of_forall_not habsent]
    rfl
  | some sym =>
    show table (if sym.persist = true then l else _) = if sym.persist = true then _ else _
    split
    · rfl
    · exact table_erase_append nam val persist l

theorem symget_fst (nam : Bytes) (l : List Sym) :
    (symget nam l).1 = ((table l).lookup nam).map Prod.fst := by
  rw [lookup_table]
  induction l with
  | nil => rfl
  | cons sym l ih =>
    rw [symget, List.find?_cons]
    cases h : sym.nam == nam with
    | true => rfl
    | false => exact ih

theorem table_symget (nam : Bytes) (l : List Sym) : table (symget nam l).2 = table l := by
  induction l with
  | nil => rfl
  | cons sym l ih =>
    rw [symget]
    split
    · rfl
    · exact congrArg (sym.entry :: ·) ih

theorem table_freeMacros (l : List Sym) :
    table (freeMacros l).2 = (table l).filter fun e => e.2.2 := by
  rw [table, table, List.filter_map]
  rfl

/-! ## What it stands for -/

/-- The table has the definitions of the command line, which it keeps apart, and otherwise the
assignments. -/
structure Stands (ds : List Bytes) (assigned : Bytes → Option Bytes) (l : List Sym) : Prop where
  distinct : Assoc.Distinct (table l)
  lookup : ∀ nam, (table l).lookup nam =
    ((given ds nam).map fun v => (v, true)).or ((assigned nam).map fun v => (v, false))

theorem Stands.congr {l l' : List Sym} (h : Stands ds assigned l) (hl : table l' = table l) :
    Stands ds assigned l' := by
  constructor
  · rw [hl]
    exact h.distinct
  · rw [hl]
    exact h.lookup

/-- One more option of the command line. -/
theorem Stands.cmdline (h : Stands ds (fun _ => none) l) (d : Bytes) :
    Stands (ds ++ [d]) (fun _ => none) (cmdlineSymset d l).2 := by
  have hgiven : ∀ nam, given (ds ++ [d]) nam =
      (given ds nam).or (([d].filterMap (splitLast 61)).lookup nam) := by
    intro nam
    rw [given, List.filterMap_append, List.lookup_append]
    rfl
  unfold cmdlineSymset
  cases hd : splitLast 61 d with
  | none =>
    refine ⟨h.distinct, fun nam => ?_⟩
    rw [hgiven, List.filterMap_cons_none hd, List.filterMap_nil, List.lookup_nil, Option.or_none]
    exact h.lookup nam
  | some def' =>
    obtain ⟨sym, val⟩ := def'
    have hlook : ∀ nam, (table l).lookup nam = (given ds nam).map fun v => (v, true) := by
      intro nam
      rw [h.lookup nam, Option.map_none, Option.or_none]
    have hnew : ∀ nam, ([d].filterMap (splitLast 61)).lookup nam =
        if nam = sym then some val else none := by
      intro nam
      rw [List.filterMap_cons_some hd, List.filterMap_nil, List.lookup_cons, List.lookup_nil]
      by_cases hn : nam = sym
      · rw [if_pos hn, hn, beq_self_eq_true]
      · rw [if_neg hn, beq_false_of_ne hn]
    have htable := table_symset sym val true l
    rw [hlook] at htable
    constructor
    · show Assoc.Distinct (table (symset sym val true l))
      rw [htable]
      split
      · exact h.distinct
      · exact h.distinct.put _ _
    · intro nam
      show (table (symset sym val true l)).lookup nam = _
      rw [htable, hgiven, hnew]
      cases hg : given ds sym with
      | some v =>
        rw [Option.map_some, Option.any_some, if_pos rfl, hlook]
        by_cases hn : nam = sym
        · rw [hn, hg]
          rfl
        · rw [if_neg hn, Option.or_none, Option.map_none, Option.or_none]
      | none =>
        rw [Option.map_none, Option.any_none, if_neg Bool.false_ne_true]
        by_cases hn : nam = sym
        · rw [hn, Assoc.lookup_put_self h.distinct, hg, if_pos rfl]
          rfl
        · rw [Assoc.lookup_put_ne hn, hlook, if_neg hn, Option.or_none, Option.map_none,
            Option.or_none]

theorem cmdline_stands (ds : List Bytes) : Stands ds (fun _ => none) (cmdline ds) := by
  induction ds using List.reverseRecOn with
  | nil => exact ⟨List.nodup_nil, fun _ => rfl⟩
  | append_singleton ds d ih =>
    rw [Conf.cmdline, List.foldl_append]
    exact ih.cmdline d

/-! ## A run of the parser -/

/-- An assignment. -/
theorem Stands.assign (h : Stands ds assigned l) (sym val : Bytes) :
    Stands ds (fun nam => if nam = sym then some val else assigned nam)
      (symset sym val false l) := by
  have htable := table_symset sym val false l
  constructor
  · rw [htable]
    split
    · exact h.distinct
    · exact h.distinct.put _ _
  · intro nam
    rw [htable]
    cases hg : given ds sym with
    | some v =>
      -- the command line has the name: the list stays as it is
      have hkept : (((table l).lookup sym).any Prod.snd) = true := by
        rw [h.lookup, hg]
        rfl
      rw [if_pos hkept, h.lookup]
      by_cases hn : nam = sym
      · rw [hn, hg]
        rfl
      · rw [if_neg hn]
    | none =>
      have hset : ¬(((table l).lookup sym).any Prod.snd) = true := by
        rw [h.lookup, hg, Option.map_none, Option.none_or]
        cases assigned sym <;> exact Bool.false_ne_true
      rw [if_neg hset]
      by_cases hn : nam = sym
      · rw [hn, Assoc.lookup_put_self h.distinct, hg, if_pos rfl]
        rfl
      · rw [Assoc.lookup_put_ne hn, h.lookup, if_neg hn]

/-- The clean-up leaves the command line. -/
theorem Stands.freeMacros (h : Stands ds assigned l) :
    Stands ds (fun _ => none) (freeMacros l).2 := by
  constructor
  · rw [table_freeMacros]
    exact h.distinct.filter _
  · intro nam
    rw [table_freeMacros, Assoc.lookup_filter h.distinct, h.lookup]
    cases given ds nam with
    | some v => rfl
    | none => cases assigned nam <;> rfl

section Runs

variable (lim : Limits) (serv : Bytes → Bytes → Option UInt16)

theorem Parse.yyerrors_symhead (msgs : List Bytes) (p : Parse) :
    (p.yyerrors msgs).symhead = p.symhead := by
  induction msgs generalizing p with
  | nil => rfl
  | cons msg msgs ih => exact ih (p.yyerror msg)

theorem closeBlock_symhead (pr : ProxyConfig) (p : Parse) :
    (closeBlock pr p).symhead = p.symhead := by
  unfold closeBlock
  split <;> split <;> rfl

/-- Only an assignment changes the table. -/
theorem act_table {a : Action} (h : act lim serv p a = some p') :
    table p'.symhead = match a.assigns with
      | some (nam, val) => table (symset nam val false p.symhead)
      | none => table p.symhead := by
  cases a with
  | varset nam val =>
    obtain rfl := Option.some.inj h
    by_cases hspace : nam.tail.any isspace = true
    · rw [Action.assigns, if_pos hspace, if_pos hspace]
      rfl
    · rw [Action.assigns, if_neg hspace, if_neg hspace]
  | reference nam =>
    have htable := table_symget nam p.symhead
    obtain rfl := Option.some.inj h
    rcases hget : symget nam p.symhead with ⟨_ | v, symhead⟩ <;> rw [hget] at htable
    · rfl
    · exact htable
  | includeFile name opened => cases h; cases opened <;> rfl
  | eof =>
    cases h
    unfold Parse.popfile
    split <;> rfl
  | error msg => cases h; rfl
  | recovered => cases h; rfl
  | prefork n =>
    obtain rfl := Option.some.inj h
    split <;> rfl
  | chroot path =>
    cases h
    exact congrArg table (Parse.yyerrors_symhead _ _)
  | proxy host =>
    obtain rfl := Option.some.inj h
    split <;> rfl
  | option o =>
    obtain ⟨pr, -, rfl⟩ := Option.map_eq_some_iff.mp h
    exact congrArg table (Parse.yyerrors_symhead _ _)
  | close =>
    obtain ⟨pr, -, rfl⟩ := Option.map_eq_some_iff.mp h
    exact congrArg table (closeBlock_symhead pr p)

theorem latest_append (as : List Action) (a : Action) : latest (as ++ [a]) = match a.assigns with
    | some (sym, val) => fun nam => if nam = sym then some val else latest as nam
    | none => latest as := by
  funext nam
  unfold latest
  rw [List.filterMap_append, List.reverse_append]
  cases h : a.assigns with
  | none => rw [List.filterMap_cons_none h]; rfl
  | some d =>
    obtain ⟨sym, val⟩ := d
    rw [List.filterMap_cons_some h]
    show List.lookup nam ((sym, val) :: _) = if nam = sym then _ else _
    rw [List.lookup_cons]
    by_cases hn : nam = sym
    · rw [if_pos hn, hn, beq_self_eq_true]
    · rw [if_neg hn, beq_false_of_ne hn]
      rfl

/-- **One action.** -/
theorem act_stands {a : Action} (h : act lim serv p a = some p')
    (hp : Stands ds (latest as) p.symhead) :
    Stands ds (latest (as ++ [a])) p'.symhead := by
  have htable := act_table lim serv h
  rw [latest_append]
  cases ha : a.assigns with
  | none =>
    rw [ha] at htable
    exact hp.congr htable
  | some d =>
    rw [ha] at htable
    exact (hp.assign d.1 d.2).congr htable

/-- **A whole parse.** -/
theorem acts_stands (hp : Stands ds (fun _ => none) p.symhead) (h : acts lim serv p as = some p') :
    Stands ds (latest as) p'.symhead := by
  induction as using List.reverseRecOn generalizing p' with
  | nil =>
    cases h
    exact hp
  | append_singleton as a ih =>
    rw [acts, List.foldlM_append] at h
    obtain ⟨q, hq, hlast⟩ := Option.bind_eq_some_iff.mp h
    rw [List.foldlM_cons] at hlast
    obtain ⟨q', hq', hnil⟩ := Option.bind_eq_some_iff.mp hlast
    cases hnil
    exact act_stands lim serv hq' (ih hq)

/-- What `parse_config` is called with. -/
structure Load where
  filename : Bytes
  opened : Bool
  conf : Config
  as : List Action

/-- The macros after some calls of `parse_config`. -/
def loads (symhead : List Sym) (ls : List Load) : Option (List Sym) :=
  ls.foldlM (fun l r => (parseConfig lim serv r.filename r.opened r.as r.conf l).map Parsed.symhead)
    symhead

theorem parseConfig_stands {filename : Bytes} {opened : Bool} {conf : Config} {r : Parsed}
    (hl : Stands ds (fun _ => none) l)
    (h : parseConfig lim serv filename opened as conf l = some r) :
    Stands ds (fun _ => none) r.symhead := by
  unfold parseConfig at h
  split at h
  · cases h
    exact hl
  split at h
  · cases h
    exact hl
  obtain ⟨p, hp, rfl⟩ := Option.map_eq_some_iff.mp h
  have hstands := acts_stands lim serv hl hp
  dsimp only
  split <;> exact hstands.freeMacros

theorem loads_stands {ls : List Load} {l l' : List Sym} (hl : Stands ds (fun _ => none) l)
    (h : loads lim serv l ls = some l') :
    Stands ds (fun _ => none) l' := by
  induction ls generalizing l with
  | nil =>
    cases h
    exact hl
  | cons r ls ih =>
    rw [loads, List.foldlM_cons] at h
    obtain ⟨q, hq, hrest⟩ := Option.bind_eq_some_iff.mp h
    obtain ⟨parsed, hparsed, rfl⟩ := Option.map_eq_some_iff.mp hq
    exact ih (parseConfig_stands lim serv hl hparsed) hrest

end Runs

/-- **Macros of the command line win.** After the command line and any number of calls of
`parse_config` the list has exactly the definitions of the command line. During the next one no name
is there twice, and a name means its first definition on the command line, or else what it was last
assigned in this call. -/
theorem cmdline_wins (lim : Limits) (serv : Bytes → Bytes → Option UInt16) (ds : List Bytes)
    (ls : List Load) (l : List Sym) (hl : loads lim serv (cmdline ds) ls = some l) :
    ((l.map Sym.nam).Nodup ∧ ∀ nam val persist,
        (∃ used, ⟨nam, val, used, persist⟩ ∈ l) ↔ given ds nam = some val ∧ persist = true) ∧
      ∀ conf as p, acts lim serv ⟨conf, none, 0, [], l, []⟩ as = some p →
        (p.symhead.map Sym.nam).Nodup ∧
          ∀ nam, (symget nam p.symhead).1 = (given ds nam).or (latest as nam) := by
  have hstart := loads_stands lim serv (cmdline_stands ds) hl
  have hnames : ∀ l : List Sym, Assoc.Distinct (table l) → (l.map Sym.nam).Nodup := by
    intro l h
    rw [Assoc.Distinct, table, List.map_map] at h
    exact h
  refine ⟨⟨hnames l hstart.distinct, fun nam val persist => ?_⟩, fun conf as p hp => ?_⟩
  · have hmem : (∃ used, (⟨nam, val, used, persist⟩ : Sym) ∈ l) ↔
        (nam, val, persist) ∈ table l := by
      constructor
      · rintro ⟨used, h⟩
        exact List.mem_map_of_mem h
      · intro h
        obtain ⟨⟨nam', val', used, persist'⟩, hsym, he⟩ := List.mem_map.mp h
        cases he
        exact ⟨used, hsym⟩
    rw [hmem, Assoc.mem_iff_lookup hstart.distinct, hstart.lookup]
    cases given ds nam with
    | none => simp
    | some v => simp [eq_comm]
  · have hstands := acts_stands lim serv hstart hp
    refine ⟨hnames _ hstands.distinct, fun nam => ?_⟩
    rw [symget_fst, hstands.lookup]
    cases given ds nam with
    | none => cases latest as nam <;> rfl
    | some v => rfl

/-- `-D a=1 -D a=2`, then a configuration that assigns to `a` and to `b`, loaded twice. -/
theorem cmdline_wins_reloaded :
    let lim : Limits := ⟨1024, 255, by decide⟩
    let conf : Config := ⟨[], 3, [], []⟩
    let as :=
      [.varset (lit "a") (lit "3"), .varset (lit "b") (lit "4"), .varset (lit "b") (lit "5")]
    ∃ l p,
      loads lim (fun _ _ => none) (cmdline [lit "a=1", lit "a=2"]) [⟨lit "f", true, conf, as⟩] =
        some l ∧
      acts lim (fun _ _ => none) ⟨conf, none, 0, [], l, []⟩ as = some p ∧
      (symget (lit "a") p.symhead).1 = some (lit "1") ∧
      (symget (lit "b") p.symhead).1 = some (lit "5") := by
  intro lim conf as
  have hmeans := (cmdline_wins lim (fun _ _ => none) [lit "a=1", lit "a=2"]
    [⟨lit "f", true, conf, as⟩] _ rfl).2 conf as _ rfl
  refine ⟨_, _, rfl, rfl, (hmeans.2 (lit "a")).trans ?_, (hmeans.2 (lit "b")).trans ?_⟩
  · decide
  · decide

end Galileo.Conf
