import Galileo.Spec.Config
import Mathlib.Data.List.Induction

/-!
# Accepted configurations

What is stored for a block is a function of its options (`Block.conf`), of which the last source,
the port it has and whether the name is empty matter. Along a parse the stored proxies are those of
the outline (`Tracks`), and as long as no file has counted an error, every block that was closed had
a source and a name of its own. `parse_config` returns 0 when the file in which the parse ends has
counted no error: that is all files only if it ends in the topmost one.
-/

set_option autoImplicit false

namespace Galileo.Conf

open Lib

variable {tok : Option PortTok} {addr : Bytes} {o : Opt}

theorem fmtNat_ne_nil (n : Nat) : fmtNat n ≠ [] := by
  rw [fmtNat, Nat.toDigits_eq_if (by decide)]
  split <;> simp

/-- No positive number is written `0`. -/
theorem fmtNat_ne_zero {n : Nat} (h : 1 ≤ n) : fmtNat n ≠ lit "0" := by
  by_cases hn : n < 10
  · have hall : ∀ n < 10, 1 ≤ n → fmtNat n ≠ lit "0" := by decide
    exact hall n hn h
  · have hsplit : fmtNat n =
        fmtNat (n / 10) ++ [UInt8.ofNat (Nat.digitChar (n % 10)).toNat] := by
      rw [fmtNat, Nat.toDigits_eq_if (by decide), if_neg hn, List.map_append]
      rfl
    intro he
    have hlen := congrArg List.length he
    have hpos := List.length_pos_iff.mpr (fmtNat_ne_nil (n / 10))
    rw [hsplit, List.length_append, List.length_singleton] at hlen
    change (fmtNat (n / 10)).length + 1 = 1 at hlen
    omega

theorem strlcpy_ne_nil {siz : Nat} (h : 2 ≤ siz) {s : Bytes} : strlcpy siz s ≠ [] ↔ s ≠ [] := by
  rw [strlcpy, Ne, List.take_eq_nil_iff, not_or]
  exact ⟨And.right, fun hs => ⟨by omega, hs⟩⟩

section Blocks

variable (lim : Limits) (serv : Bytes → Bytes → Option UInt16)

theorem getservice_le {s : Bytes} {n : Nat} (h : getservice serv s = some n) : n ≤ 65535 := by
  have hport : ∀ port : UInt16, port.toNat ≤ 65535 := fun port => Nat.le_of_lt_succ port.toNat_lt
  unfold getservice at h
  cases hnum : strtonum s 0 65535 with
  | some llval =>
    rw [hnum] at h
    cases h
    unfold strtonum at hnum
    split at hnum
    · split_ifs at hnum with hrange
      cases hnum
      omega
    · cases hnum
  | none =>
    rw [hnum] at h
    dsimp only at h
    cases htcp : serv s (lit "tcp") with
    | some port =>
      rw [htcp] at h
      cases h
      exact hport port
    | none =>
      rw [htcp] at h
      obtain ⟨port, -, rfl⟩ := Option.map_eq_some_iff.mp h
      exact hport port

/-- A port that is not refused is a number, and 0 only as a text. -/
theorem proxyport_ok {text : Bytes} (h : proxyport serv tok = .ok text) :
    ∃ n, n ≤ 65535 ∧ text = fmtNat n ∧
      (n = 0 ↔ ∃ s, tok = some (.string s) ∧ getservice serv s = some 0) := by
  rcases tok with _ | n | s
  · cases h
    exact ⟨1965, by decide, rfl, by simp⟩
  · rw [proxyport, port] at h
    split_ifs at h with hrange
    cases h
    refine ⟨n.toNat, by omega, ?_, ?_⟩
    · rw [show n = (n.toNat : Int) by omega]
      rfl
    · constructor
      · intro hzero
        omega
      · rintro ⟨s, hs, -⟩
        cases hs
  · rw [proxyport, port] at h
    cases hserv : getservice serv s with
    | none =>
      simp only [hserv] at h
      cases h
    | some n =>
      simp only [hserv] at h
      cases h
      refine ⟨n, getservice_le serv hserv, rfl, ?_⟩
      constructor
      · rintro rfl
        exact ⟨s, rfl, hserv⟩
      · rintro ⟨s', hs, hzero⟩
        cases hs
        rw [hserv] at hzero
        exact Option.some.inj hzero

/-- What is stored for a block. -/
def Block.conf (b : Block) : ProxyConfig :=
  b.opts.foldl (fun pr o => (o.act lim serv pr).1) { proxyConfigZero with host := b.host }

/-- One more option. -/
theorem Block.conf_append (host : Bytes) (opts : List Opt) (o : Opt) :
    Block.conf lim serv ⟨host, opts ++ [o]⟩
      = (o.act lim serv (Block.conf lim serv ⟨host, opts⟩)).1 :=
  List.foldl_append

theorem Opt.act_source_error {msg : Bytes} (h : proxyport serv tok = .error msg) (addr : Bytes)
    (pr : ProxyConfig) :
    (Opt.source addr tok).act lim serv pr = (pr, [msg]) := by
  rw [Opt.act, h]

theorem Opt.act_source_ok {text : Bytes} (h : proxyport serv tok = .ok text) (addr : Bytes)
    (pr : ProxyConfig) :
    ((Opt.source addr tok).act lim serv pr).1 = { pr with
      proxyPort := text
      proxyAddr := strlcpy (lim.hostNameMax + 1) addr
      proxyName := if pr.proxyName.isEmpty then strlcpy (lim.hostNameMax + 1) addr
        else pr.proxyName } := by
  rw [Opt.act, h]
  dsimp only
  split <;> rfl

theorem Opt.act_host (pr : ProxyConfig) (o : Opt) : (o.act lim serv pr).1.host = pr.host := by
  cases o with
  | source addr tok =>
    cases hport : proxyport serv tok with
    | error msg => rw [Opt.act_source_error lim serv hport]
    | ok text => rw [Opt.act_source_ok lim serv hport]
  | _ => rfl

theorem Block.conf_host (b : Block) : (b.conf lim serv).host = b.host := by
  obtain ⟨host, opts⟩ := b
  induction opts using List.reverseRecOn with
  | nil => rfl
  | append_singleton opts o ih =>
    rw [Block.conf_append, Opt.act_host]
    exact ih

/-- An option that is not an accepted `source` leaves address and port alone. -/
theorem Opt.act_of_not_source (h : o.source? serv = none) (pr : ProxyConfig) :
    (o.act lim serv pr).1.proxyAddr = pr.proxyAddr ∧
      (o.act lim serv pr).1.proxyPort = pr.proxyPort := by
  cases o with
  | source addr tok =>
    cases hport : proxyport serv tok with
    | error msg =>
      rw [Opt.act_source_error lim serv hport]
      exact ⟨rfl, rfl⟩
    | ok text =>
      rw [Opt.source?, hport] at h
      cases h
  | _ => exact ⟨rfl, rfl⟩

theorem Opt.source?_eq_some (h : o.source? serv = some (addr, tok)) :
    o = .source addr tok ∧ ∃ text, proxyport serv tok = .ok text := by
  cases o with
  | source addr' tok' =>
    cases hport : proxyport serv tok' with
    | error msg =>
      rw [Opt.source?, hport] at h
      cases h
    | ok text =>
      rw [Opt.source?, hport] at h
      cases h
      exact ⟨rfl, text, hport⟩
  | _ => cases h

theorem Block.lastSource_append (host : Bytes) (opts : List Opt) (o : Opt) :
    Block.lastSource serv ⟨host, opts ++ [o]⟩ =
      (o.source? serv).or (Block.lastSource serv ⟨host, opts⟩) := by
  unfold Block.lastSource
  rw [List.filterMap_append]
  cases h : o.source? serv with
  | none =>
    rw [List.filterMap_cons_none h, List.filterMap_nil, List.append_nil]
    rfl
  | some s =>
    rw [List.filterMap_cons_some h, List.filterMap_nil, List.getLast?_concat]
    rfl

/-- Address and port are those of the last source. -/
theorem Block.conf_source (b : Block) :
    match b.lastSource serv with
    | none => (b.conf lim serv).proxyAddr = []
    | some (addr, tok) => (b.conf lim serv).proxyAddr = strlcpy (lim.hostNameMax + 1) addr ∧
        proxyport serv tok = .ok (b.conf lim serv).proxyPort := by
  obtain ⟨host, opts⟩ := b
  induction opts using List.reverseRecOn with
  | nil => rfl
  | append_singleton opts o ih =>
    rw [Block.lastSource_append, Block.conf_append]
    cases ho : o.source? serv with
    | none =>
      obtain ⟨haddr, hport⟩ := Opt.act_of_not_source lim serv ho (Block.conf lim serv ⟨host, opts⟩)
      rw [Option.none_or]
      cases hlast : Block.lastSource serv ⟨host, opts⟩ with
      | none =>
        rw [hlast] at ih
        exact haddr.trans ih
      | some s =>
        rw [hlast] at ih
        exact ⟨haddr.trans ih.1, ih.2.trans (congrArg Except.ok hport.symm)⟩
    | some s =>
      obtain ⟨rfl, text, hport⟩ := Opt.source?_eq_some serv ho
      rw [Opt.act_source_ok lim serv hport]
      exact ⟨rfl, hport⟩

theorem Block.conf_addr_ne_nil (b : Block) :
    (b.conf lim serv).proxyAddr ≠ [] ↔ ∃ addr tok, b.lastSource serv = some (addr, tok) ∧
    addr ≠ [] := by
  have hsource := b.conf_source lim serv
  have hsize : 2 ≤ lim.hostNameMax + 1 := Nat.succ_le_succ lim.pos
  cases hlast : b.lastSource serv with
  | none =>
    rw [hlast] at hsource
    simp [hsource]
  | some s =>
    obtain ⟨addr, tok⟩ := s
    rw [hlast] at hsource
    rw [hsource.1, strlcpy_ne_nil hsize]
    simp

/-! ## The name -/

theorem Opt.act_name_of_not_names (h : o.names serv = false) (pr : ProxyConfig) :
    (o.act lim serv pr).1.proxyName = pr.proxyName := by
  cases o with
  | source addr tok =>
    cases hport : proxyport serv tok with
    | error msg => rw [Opt.act_source_error lim serv hport]
    | ok text =>
      rw [Opt.names, Opt.source?, hport] at h
      · cases h
      · exact fun _ => nofun
  | hostname name => cases h
  | _ => rfl

/-- A name that is empty at the end was made empty, and not given again. -/
theorem Block.exists_of_name_nil {host : Bytes} {opts : List Opt}
    (hlast : Block.lastSource serv ⟨host, opts⟩ = some (addr, tok)) (haddr : addr ≠ [])
    (hname : (Block.conf lim serv ⟨host, opts⟩).proxyName = []) :
    ∃ l r, opts = l ++ .hostname [] :: r ∧ ∀ o ∈ r, o.names serv = false := by
  have hsize : 2 ≤ lim.hostNameMax + 1 := Nat.succ_le_succ lim.pos
  induction opts using List.reverseRecOn with
  | nil => cases hlast
  | append_singleton opts o ih =>
    rw [Block.conf_append] at hname
    rw [Block.lastSource_append] at hlast
    cases hn : o.names serv with
    | false =>
      have hsrc : o.source? serv = none := by
        cases o with
        | source addr tok => simpa [Opt.names] using hn
        | hostname name => cases hn
        | _ => rfl
      rw [Opt.act_name_of_not_names lim serv hn] at hname
      rw [hsrc, Option.none_or] at hlast
      obtain ⟨l, r, rfl, hr⟩ := ih hlast hname
      refine ⟨l, r ++ [o], by simp, fun o' ho' => ?_⟩
      rcases List.mem_append.mp ho' with ho' | ho'
      · exact hr o' ho'
      · rw [List.mem_singleton.mp ho']
        exact hn
    | true =>
      cases hsrc : o.source? serv with
      | some s =>
        rw [hsrc] at hlast
        cases hlast
        obtain ⟨rfl, text, hport⟩ := Opt.source?_eq_some serv hsrc
        rw [Opt.act_source_ok lim serv hport] at hname
        dsimp only at hname
        split_ifs at hname with hempty
        · exact absurd hname ((strlcpy_ne_nil hsize).mpr haddr)
        · rw [hname] at hempty
          exact absurd rfl hempty
      | none =>
        cases o with
        | hostname name =>
          have hnil : name = [] := by
            by_contra hne
            exact (strlcpy_ne_nil hsize).mpr hne hname
          exact ⟨opts, [], by rw [hnil], fun _ h => nomatch h⟩
        | source addr tok => simp [Opt.names, hsrc] at hn
        | _ => cases hn

theorem Block.name_nil_of_split {host : Bytes} {l r : List Opt}
    (h : ∀ o ∈ r, o.names serv = false) :
    (Block.conf lim serv ⟨host, l ++ .hostname [] :: r⟩).proxyName = [] := by
  induction r using List.reverseRecOn with
  | nil =>
    rw [Block.conf_append]
    exact List.take_nil
  | append_singleton r o ih =>
    rw [← List.cons_append, ← List.append_assoc, Block.conf_append,
      Opt.act_name_of_not_names lim serv (h o (by simp))]
    exact ih fun o' ho' => h o' (List.mem_append_left _ ho')

theorem Block.conf_name_ne_nil {b : Block} (hlast : b.lastSource serv = some (addr, tok))
    (haddr : addr ≠ []) :
    (b.conf lim serv).proxyName ≠ [] ↔ b.NameGiven serv := by
  constructor
  · intro hname l r hsplit
    by_contra hnone
    refine hname ?_
    have hb : b = ⟨b.host, l ++ .hostname [] :: r⟩ := by rw [← hsplit]
    rw [hb]
    refine Block.name_nil_of_split lim serv fun o ho => ?_
    exact Bool.eq_false_iff.mpr fun hn => hnone ⟨o, ho, hn⟩
  · intro hgiven hname
    obtain ⟨l, r, hsplit, hr⟩ := Block.exists_of_name_nil lim serv hlast haddr hname
    obtain ⟨o, ho, hn⟩ := hgiven l r hsplit
    rw [hr o ho] at hn
    exact Bool.false_ne_true hn

theorem Block.conf_port {b : Block} (hlast : b.lastSource serv = some (addr, tok)) :
    (∃ n, 1 ≤ n ∧ n ≤ 65535 ∧ (b.conf lim serv).proxyPort = fmtNat n) ↔ b.PortGiven serv := by
  have hsource := b.conf_source lim serv
  rw [hlast] at hsource
  obtain ⟨n, hn, htext, hzero⟩ := proxyport_ok serv hsource.2
  constructor
  · rintro ⟨n', hn', -, htext'⟩ addr' s hs hserv
    rw [hs] at hlast
    cases hlast
    rw [hzero.mpr ⟨s, rfl, hserv⟩] at htext
    exact fmtNat_ne_zero hn' (htext'.symm.trans htext)
  · intro hgiven
    refine ⟨n, Nat.one_le_iff_ne_zero.mpr fun h => ?_, hn, htext⟩
    obtain ⟨s, rfl, hserv⟩ := hzero.mp h
    exact hgiven addr s hlast hserv

/-- A block is stored as it should be if there is a source, and the port and the name are given. -/
theorem Block.conf_usable (b : Block) (hsource : (b.conf lim serv).proxyAddr ≠ []) :
    ((b.conf lim serv).proxyName ≠ [] ∧
      ∃ n, 1 ≤ n ∧ n ≤ 65535 ∧ (b.conf lim serv).proxyPort = fmtNat n) ↔
        b.PortGiven serv ∧ b.NameGiven serv := by
  obtain ⟨addr, tok, hlast, haddr⟩ := (b.conf_addr_ne_nil lim serv).mp hsource
  rw [Block.conf_name_ne_nil lim serv hlast haddr, Block.conf_port lim serv hlast, and_comm]

end Blocks

/-! ## A parse -/

variable {as : List Action} {symhead : List Sym} {filename : Bytes} {t : Outline} {conf : Config}
  {p : Parse}

section Parse

variable (lim : Limits) (serv : Bytes → Bytes → Option UInt16)

/-- What all open files have counted. -/
def Parse.total (p : Parse) : Nat := p.errors + p.outer.sum

/-- What is stored is what the text says, and it is complete as long as nothing was reported. -/
structure Tracks (p : Parse) (t : Outline) : Prop where
  proxies : p.conf.scProxies = t.blocks.map (Block.conf lim serv)
  pr : p.pr = t.current.map (Block.conf lim serv)
  depth : p.outer.length = t.depth
  prefork : 1 ≤ p.conf.scPrefork ∧ p.conf.scPrefork ≤ procMaxInstances
  complete : p.total = 0 →
    (∀ pr ∈ p.conf.scProxies, pr.proxyAddr ≠ []) ∧ (p.conf.scProxies.map (·.host)).Nodup

variable {lim serv}

/-- An error, or several. -/
theorem Tracks.yyerrors (h : Tracks lim serv p t) (msgs : List Bytes) :
    Tracks lim serv (p.yyerrors msgs) t := by
  induction msgs generalizing p with
  | nil => exact h
  | cons msg msgs ih =>
    refine ih ⟨h.proxies, h.pr, h.depth, h.prefork, fun hzero => absurd hzero ?_⟩
    show p.errors + 1 + p.outer.sum ≠ 0
    omega

theorem Tracks.yyerror {p : Parse} {t : Outline} (h : Tracks lim serv p t) (msg : Bytes) :
    Tracks lim serv (p.yyerror msg) t :=
  h.yyerrors [msg]

theorem closeBlock_eq (pr : ProxyConfig) (p : Parse) : ∃ log, closeBlock pr p =
    { p with
      conf := { p.conf with scProxies := p.conf.scProxies ++ [pr] }
      pr := none
      errors := p.errors + (if p.conf.scProxies.any (·.host == pr.host) then 1 else 0) +
        (if pr.proxyAddr.isEmpty then 1 else 0)
      log := log } := by
  unfold closeBlock
  split <;> split <;> exact ⟨_, rfl⟩

/-- The end of a block. -/
theorem Tracks.close (h : Tracks lim serv p t) (b : Block) :
    Tracks lim serv (closeBlock (b.conf lim serv) p)
      { t with blocks := t.blocks ++ [b], current := none } := by
  obtain ⟨log, hclose⟩ := closeBlock_eq (b.conf lim serv) p
  rw [hclose]
  refine ⟨?_, rfl, h.depth, h.prefork, fun hzero => ?_⟩
  · rw [List.map_append, ← h.proxies]
    rfl
  · -- nothing was reported: the name was free and there is an address
    unfold Parse.total at hzero
    dsimp only at hzero ⊢
    have hold := h.complete (by unfold Parse.total; omega)
    have hfree : ¬p.conf.scProxies.any (·.host == (b.conf lim serv).host) = true := by
      intro hdup
      rw [if_pos hdup] at hzero
      omega
    have haddr : (b.conf lim serv).proxyAddr ≠ [] := by
      intro hnil
      rw [hnil, List.isEmpty_nil, if_pos rfl] at hzero
      omega
    constructor
    · intro pr hpr
      rcases List.mem_append.mp hpr with hpr | hpr
      · exact hold.1 pr hpr
      · rw [List.mem_singleton.mp hpr]
        exact haddr
    · rw [List.map_append, List.map_singleton, List.nodup_append]
      refine ⟨hold.2, List.nodup_singleton _, fun a ha a' ha' he => hfree ?_⟩
      obtain ⟨pr, hpr, rfl⟩ := List.mem_map.mp ha
      rw [List.mem_singleton.mp ha'] at he
      exact List.any_eq_true.mpr ⟨pr, hpr, beq_iff_eq.mpr he⟩

/-- **One action.** -/
theorem act_tracks {p p' : Parse} {a : Action} (h : Tracks lim serv p t)
    (ha : act lim serv p a = some p') : Tracks lim serv p' (t.step lim a) := by
  cases a with
  | includeFile name opened =>
    obtain rfl := Option.some.inj ha
    cases opened with
    | false => exact h.yyerror _
    | true =>
      refine ⟨h.proxies, h.pr, congrArg (· + 1) h.depth, h.prefork, fun hzero => h.complete ?_⟩
      show p.errors + p.outer.sum = 0
      unfold Parse.total Parse.pushfile at hzero
      rw [if_pos rfl, List.sum_cons] at hzero
      omega
  | eof =>
    obtain rfl := Option.some.inj ha
    rcases p with ⟨conf, pr, errors, _ | ⟨e, outer⟩, symhead, log⟩
    · exact ⟨h.proxies, h.pr, (Nat.sub_eq_zero_of_le (h.depth ▸ Nat.zero_le 1)).symm, h.prefork,
        h.complete⟩
    · refine ⟨h.proxies, h.pr, ?_, h.prefork, fun hzero => h.complete ?_⟩
      · show outer.length = t.depth - 1
        rw [← h.depth]
        rfl
      · unfold Parse.total at hzero ⊢
        rw [List.sum_cons]
        change e + errors + outer.sum = 0 at hzero
        dsimp only
        omega
  | error msg =>
    obtain rfl := Option.some.inj ha
    exact h.yyerror msg
  | recovered =>
    obtain rfl := Option.some.inj ha
    refine ⟨h.proxies, h.pr, h.depth, h.prefork, fun hzero => absurd hzero ?_⟩
    show p.errors + 1 + p.outer.sum ≠ 0
    omega
  | varset nam val =>
    obtain rfl := Option.some.inj ha
    split
    · exact h.yyerror _
    · exact ⟨h.proxies, h.pr, h.depth, h.prefork, h.complete⟩
  | reference nam =>
    obtain rfl := Option.some.inj ha
    split
    · exact h.yyerror _
    · exact ⟨h.proxies, h.pr, h.depth, h.prefork, h.complete⟩
  | prefork n =>
    obtain rfl := Option.some.inj ha
    split
    · exact h.yyerror _
    · rename_i hrange
      refine ⟨h.proxies, h.pr, h.depth, ?_, h.complete⟩
      show 1 ≤ n.toNat ∧ n.toNat ≤ procMaxInstances
      omega
  | chroot path =>
    obtain rfl := Option.some.inj ha
    refine Tracks.yyerrors ?_ _
    exact ⟨h.proxies, h.pr, h.depth, h.prefork, h.complete⟩
  | proxy host =>
    obtain rfl := Option.some.inj ha
    rw [Outline.step]
    split
    · exact h.yyerror _
    · exact ⟨h.proxies, rfl, h.depth, h.prefork, h.complete⟩
  | option o =>
    obtain ⟨pr, hpr, rfl⟩ := Option.map_eq_some_iff.mp ha
    rw [h.pr] at hpr
    obtain ⟨b, hb, rfl⟩ := Option.map_eq_some_iff.mp hpr
    refine Tracks.yyerrors ?_ _
    refine ⟨h.proxies, ?_, h.depth, h.prefork, h.complete⟩
    rw [Outline.step, hb]
    exact congrArg some (Block.conf_append lim serv b.host b.opts o).symm
  | close =>
    obtain ⟨pr, hpr, rfl⟩ := Option.map_eq_some_iff.mp ha
    rw [h.pr] at hpr
    obtain ⟨b, hb, rfl⟩ := Option.map_eq_some_iff.mp hpr
    rw [Outline.step, hb]
    exact h.close b

/-- **All actions.** -/
theorem acts_tracks {p p' : Parse} (h : Tracks lim serv p t) (ha : acts lim serv p as = some p') :
    Tracks lim serv p' (as.foldl (Outline.step lim) t) := by
  induction as generalizing p t with
  | nil =>
    cases ha
    exact h
  | cons a as ih =>
    rw [acts, List.foldlM_cons] at ha
    obtain ⟨q, hq, hrest⟩ := Option.bind_eq_some_iff.mp ha
    exact ih (act_tracks h hq) hrest

/-- From the state `parse_config` starts with. -/
theorem start_tracks (hempty : conf.scProxies = [])
    (hprefork : 1 ≤ conf.scPrefork ∧ conf.scPrefork ≤ procMaxInstances)
    (hp : acts lim serv ⟨{ conf with scConffile := strlcpy lim.pathMax filename }, none, 0, [],
      symhead, []⟩ as = some p) : Tracks lim serv p (outline lim as) := by
  refine acts_tracks ⟨hempty, rfl, rfl, hprefork, fun _ => ?_⟩ hp
  dsimp only
  rw [hempty]
  exact ⟨fun _ h => (nomatch h), List.nodup_nil⟩

end Parse

/-- A call that returns 0 has come to the end of a parse, with something stored and no error counted
in the file in which it ended. -/
theorem parseConfig_ok {lim : Limits} {serv : Bytes → Bytes → Option UInt16} {opened : Bool}
    {r : Parsed} (h : parseConfig lim serv filename opened as conf symhead = some r)
    (hok : r.ok = true) :
    ∃ p, acts lim serv ⟨{ conf with scConffile := strlcpy lim.pathMax filename }, none, 0, [],
        symhead, []⟩ as = some p ∧ p.errors = 0 ∧ r.conf = p.conf ∧ p.conf.scProxies ≠ [] := by
  unfold parseConfig at h
  split at h
  · cases h
    cases hok
  split at h
  · cases h
    cases hok
  obtain ⟨p, hp, rfl⟩ := Option.map_eq_some_iff.mp h
  refine ⟨p, hp, ?_⟩
  dsimp only at hok
  split_ifs at hok with hempty
  · simp [Parse.yyerror] at hok
  · refine ⟨by simpa using hok, ?_, fun hnil => hempty (by rw [hnil]; rfl)⟩
    dsimp only
    rw [if_neg hempty]

/-- **An accepted configuration is usable exactly when** no block has a port that is a text for 0 or
a name taken back by an empty `hostname`, and the parse has ended in the topmost file: or, if it
ended in an included one, the blocks are complete anyway. -/
theorem accepted_usable_iff (lim : Limits) (serv : Bytes → Bytes → Option UInt16) (filename : Bytes)
    (opened : Bool) (as : List Action) (conf : Config) (symhead : List Sym) (r : Parsed)
    (hempty : conf.scProxies = [])
    (hprefork : 1 ≤ conf.scPrefork ∧ conf.scPrefork ≤ procMaxInstances)
    (h : parseConfig lim serv filename opened as conf symhead = some r) (hok : r.ok = true) :
    Usable r.conf ↔
      (∀ b ∈ (outline lim as).blocks, b.PortGiven serv ∧ b.NameGiven serv) ∧
        ((outline lim as).depth = 0 ∨ Complete serv (outline lim as).blocks) := by
  obtain ⟨p, hp, herrors, hconf, hne⟩ := parseConfig_ok h hok
  have htracks := start_tracks hempty hprefork hp
  have hhosts : p.conf.scProxies.map (·.host) = (outline lim as).blocks.map (·.host) := by
    rw [htracks.proxies, List.map_map]
    exact List.map_congr_left fun b _ => Block.conf_host lim serv b
  have hmem : ∀ b ∈ (outline lim as).blocks, b.conf lim serv ∈ p.conf.scProxies := by
    intro b hb
    rw [htracks.proxies]
    exact List.mem_map_of_mem hb
  rw [hconf]
  constructor
  · intro husable
    refine ⟨fun b hb => ?_, .inr ⟨fun b hb => ?_, hhosts ▸ husable.distinct⟩⟩
    · exact (b.conf_usable lim serv (husable.addr _ (hmem b hb))).mp
        ⟨husable.name _ (hmem b hb), husable.port _ (hmem b hb)⟩
    · exact (b.conf_addr_ne_nil lim serv).mp (husable.addr _ (hmem b hb))
  · rintro ⟨hblocks, hend⟩
    have hcomplete : (∀ pr ∈ p.conf.scProxies, pr.proxyAddr ≠ []) ∧
        (p.conf.scProxies.map (·.host)).Nodup := by
      rcases hend with hdepth | hcomplete
      · refine htracks.complete ?_
        rw [Parse.total, herrors, List.eq_nil_of_length_eq_zero (htracks.depth.trans hdepth)]
        rfl
      · refine ⟨fun pr hpr => ?_, hhosts ▸ hcomplete.distinct⟩
        rw [htracks.proxies] at hpr
        obtain ⟨b, hb, rfl⟩ := List.mem_map.mp hpr
        exact (b.conf_addr_ne_nil lim serv).mpr (hcomplete.source b hb)
    have hgiven : ∀ pr ∈ p.conf.scProxies, pr.proxyName ≠ [] ∧
        ∃ n, 1 ≤ n ∧ n ≤ 65535 ∧ pr.proxyPort = fmtNat n := by
      intro pr hpr
      have haddr := hcomplete.1 pr hpr
      rw [htracks.proxies] at hpr
      obtain ⟨b, hb, rfl⟩ := List.mem_map.mp hpr
      exact (b.conf_usable lim serv haddr).mpr (hblocks b hb)
    exact ⟨hne, hcomplete.2, hcomplete.1, fun pr hpr => (hgiven pr hpr).1,
      fun pr hpr => (hgiven pr hpr).2, htracks.prefork⟩

/-- `proxy "h" { source "a" port 1966 }` in an included file. -/
theorem included_proxy_usable :
    let lim : Limits := ⟨1024, 255, by decide⟩
    let as := [.includeFile (lit "i") true, .proxy (lit "h"),
      .option (.source (lit "a") (some (.number 1966))), .close, .eof]
    ∃ r, parseConfig lim (fun _ _ => none) (lit "f") true as ⟨[], proxyNumproc, [], []⟩ []
      = some r ∧
      r.ok = true ∧ Usable r.conf := by
  intro lim as
  refine ⟨_, rfl, rfl, (accepted_usable_iff lim (fun _ _ => none) (lit "f") true as
    ⟨[], proxyNumproc, [], []⟩ [] _ rfl (by decide) rfl rfl).mpr ⟨fun b hb => ?_, .inl rfl⟩⟩
  obtain rfl := List.mem_singleton.mp hb
  constructor
  · intro addr s hs
    cases hs
  · intro l r hsplit
    have hmem : Opt.hostname [] ∈ [Opt.source (lit "a") (some (.number 1966))] := by
      rw [show [Opt.source (lit "a") (some (.number 1966))] = _ from hsplit]
      simp
    simp at hmem

/-- `source "a" port "0"`; `source "a"` and then `hostname ""`; and a block without a source in
front of an included file in which the parse ends. -/
theorem accepted_unusable :
    let lim : Limits := ⟨1024, 255, by decide⟩
    let load := fun as => parseConfig lim (fun _ _ => none) (lit "f") true as
      ⟨[], proxyNumproc, [], []⟩ []
    (∃ r, load [.proxy (lit "h"), .option (.source (lit "a") (some (.string (lit "0")))), .close] =
        some r ∧ r.ok = true ∧ ¬Usable r.conf) ∧
      (∃ r, load [.proxy (lit "h"), .option (.source (lit "a") none), .option (.hostname []),
        .close] = some r ∧ r.ok = true ∧ ¬Usable r.conf) ∧
      ∃ r, load [.proxy (lit "h"), .option (.hostname (lit "n")), .close,
        .includeFile (lit "i") true] = some r ∧ r.ok = true ∧ ¬Usable r.conf := by
  intro lim load
  refine ⟨⟨_, rfl, rfl, fun husable => ?_⟩, ⟨_, rfl, rfl, fun husable => ?_⟩,
    ⟨_, rfl, rfl, fun husable => ?_⟩⟩
  · obtain ⟨n, hn, -, hport⟩ := husable.port _ (List.mem_singleton.mpr rfl)
    exact fmtNat_ne_zero hn hport.symm
  · exact husable.name _ (List.mem_singleton.mpr rfl) rfl
  · exact husable.addr _ (List.mem_singleton.mpr rfl) rfl

/-! ## The parent -/

/-- What the parent makes of a configuration file is what it makes of some `ConfFile`. -/
theorem parseConfig_file {lim : Limits} {serv : Bytes → Bytes → Option UInt16} {opened : Bool}
    {r : Parsed} (hempty : conf.scProxies = [])
    (hprefork : 1 ≤ conf.scPrefork ∧ conf.scPrefork ≤ procMaxInstances)
    (h : parseConfig lim serv filename opened as conf symhead = some r) :
    ∃ file : ConfFile, ∀ parent : Parent, parent.scProxies = [] →
      Galileo.parseConfig file parent =
        (r.ok, { parent with scProxies := r.conf.scProxies, scPrefork := r.conf.scPrefork }) := by
  have hrange : 1 ≤ r.conf.scPrefork ∧ r.conf.scPrefork ≤ procMaxInstances := by
    unfold parseConfig at h
    split at h
    · cases h
      exact hprefork
    split at h
    · cases h
      exact hprefork
    obtain ⟨p, hp, rfl⟩ := Option.map_eq_some_iff.mp h
    have htracks := start_tracks hempty hprefork hp
    dsimp only
    split <;> exact htracks.prefork
  refine ⟨⟨r.conf.scProxies, some r.conf.scPrefork, ?_, !r.ok⟩, fun parent hparent => ?_⟩
  · simpa [Nat.pos_iff_ne_zero, Nat.one_le_iff_ne_zero] using hrange
  · unfold Galileo.parseConfig
    rw [hparent, List.nil_append, Option.getD_some, Bool.not_not]
    cases hok : r.ok with
    | false => rfl
    | true =>
      obtain ⟨p, -, -, hconf, hne⟩ := parseConfig_ok h hok
      have hstored : r.conf.scProxies.isEmpty = false := by
        rw [hconf]
        exact List.isEmpty_eq_false_iff.mpr hne
      dsimp only
      rw [hstored]
      rfl

end Galileo.Conf
