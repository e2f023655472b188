import Galileo.Model.Reads
import Galileo.Proof.Links

/-!
# Reading behind the end of a URL

Where the reads of `proxy_resurl` go. Comparisons stop at the terminator, and so do the loops; the
authority is cut off by lengths that were compared before. One step is made without a look: the
`url + 1` that skips the slash of a path is also taken when there is no slash, because there is no
path, and then it is the byte behind the terminator that is read first.

So the checked functions agree with the ones of `Model.Gemtext` (`proxyResurlAt_eq`,
`gemtextLinkAt_eq`), whatever memory those are given, except for a URL of which nothing is left.
-/

set_option autoImplicit false

namespace Galileo

open Lib Lib.CString

/-! ## The authority -/

section Authority

variable {name port url : Bytes} {i : Nat} (hurl : 0 ∉ url) (hname : 0 ∉ name) (hport : 0 ∉ port)

include hurl

theorem endsAuthority_headD (i : Nat) :
    endsAuthority ((url.drop i).headD 0) = authorityEnd (url.drop i) := by
  cases hdrop : url.drop i with
  | nil => rfl
  | cons b u =>
    have hb : b ≠ 0 := by
      rintro rfl
      have hmem : (0 : UInt8) ∈ url.drop i := by
        rw [hdrop]
        exact List.mem_cons_self
      exact hurl (List.mem_of_mem_drop hmem)
    have hb' : (b == 0) = false := beq_eq_false_iff_ne.mpr hb
    rw [List.headD_cons, endsAuthority, hb', Bool.false_or]
    rfl

include hport

theorem portokAt_eq (hi : i ≤ url.length) :
    portokAt port url i
      = some ((portok port (url.drop i)).map fun rest => url.length - rest.length) := by
  have hend := endsAuthority_headD hurl
  rw [portokAt, charAt_eq hi]
  show (if endsAuthority ((url.drop i).headD 0) then some (some i)
    else if (url.drop i).headD 0 ≠ 58 then some none else _) = _
  rw [hend i]
  unfold portok
  by_cases h : authorityEnd (url.drop i) = true
  · rw [if_pos h, if_pos h, Option.map_some, List.length_drop]
    congr 2
    omega
  rw [if_neg h, if_neg h]
  rcases Nat.lt_or_eq_of_le hi with hlt | rfl
  · have hdrop := List.drop_eq_getElem_cons hlt
    rw [hdrop, List.headD_cons]
    by_cases hb : url[i] = 58
    · rw [if_neg (not_not.mpr hb), hb, startsAt_eq hlt hport]
      show (if (!port.isPrefixOf (url.drop (i + 1))) = true then some none else _)
        = some (Option.map _ (if (port.isPrefixOf (url.drop (i + 1))
            && authorityEnd ((url.drop (i + 1)).drop port.length)) = true then
          some ((url.drop (i + 1)).drop port.length) else none))
      cases hsame : port.isPrefixOf (url.drop (i + 1)) with
      | false => rfl
      | true =>
        obtain ⟨t, ht⟩ := List.isPrefixOf_iff_prefix.mp hsame
        have hlen := congrArg List.length ht
        rw [List.length_append, List.length_drop] at hlen
        have hrest : (url.drop (i + 1)).drop port.length = url.drop (i + 1 + port.length) :=
          List.drop_drop
        rw [Bool.not_true, if_neg Bool.false_ne_true, charAt_eq (by omega),
          Option.bind_eq_bind, Option.bind_some, hend, hrest, Bool.true_and]
        split
        · rw [Option.map_some, List.length_drop]
          congr 2
          omega
        · rfl
    · rw [if_pos hb]
      split
      · rename_i u hu
        exact absurd (List.cons.inj hu).1 hb
      · rfl
  · rw [List.drop_length] at h
    exact absurd rfl h

include hname

theorem authorityAt_eq (hi : i ≤ url.length) :
    authorityAt name port url i
      = some ((if name.isPrefixOf (url.drop i) then portok port ((url.drop i).drop name.length)
          else none).map fun rest => url.length - rest.length) := by
  rw [authorityAt, startsAt_eq hi hname]
  dsimp only [Option.bind_eq_bind, Option.bind_some]
  cases hsame : name.isPrefixOf (url.drop i) with
  | false => rfl
  | true =>
    obtain ⟨t, ht⟩ := List.isPrefixOf_iff_prefix.mp hsame
    have hlen := congrArg List.length ht
    rw [List.length_append, List.length_drop] at hlen
    rw [Bool.not_true, if_neg Bool.false_ne_true, if_pos rfl,
      portokAt_eq hurl hport (by omega), List.drop_drop]

/-- **Nothing is read outside while the authority is cut off.** -/
theorem stripAuthorityAt_eq :
    stripAuthorityAt name port url
      = some ((stripAuthority name port url).map fun rest => url.length - rest.length) := by
  have hslash : lit "//" = [47, 47] := by decide
  have hgemini : lit "gemini://" = [103, 101, 109, 105, 110, 105, 58, 47, 47] := by decide
  rw [stripAuthorityAt, stripAuthority, startsAt_eq (Nat.zero_le _) (by decide),
    startsAt_eq (Nat.zero_le _) (by decide)]
  simp only [Option.bind_eq_bind, Option.bind_some, List.drop_zero]
  cases h2 : (lit "//").isPrefixOf url with
  | true =>
    have hlen := (List.isPrefixOf_iff_prefix.mp h2).length_le
    rw [hslash] at hlen
    rw [if_pos rfl, if_pos rfl]
    exact authorityAt_eq hurl hname hport hlen
  | false =>
    rw [if_neg Bool.false_ne_true, if_neg Bool.false_ne_true]
    cases h9 : (lit "gemini://").isPrefixOf url with
    | true =>
      have hlen := (List.isPrefixOf_iff_prefix.mp h9).length_le
      rw [hgemini] at hlen
      rw [if_pos rfl, if_pos rfl]
      exact authorityAt_eq hurl hname hport hlen
    | false =>
      have hle := (List.takeWhile_prefix (l := url) fun b => isalpha b || b == 43).length_le
      rw [if_neg Bool.false_ne_true, if_neg Bool.false_ne_true,
        skipAt_eq _ rfl (Nat.zero_le _) (by omega), Option.bind_some, Nat.zero_add, List.drop_zero,
        startsAt_eq hle (by decide), Option.bind_some, drop_length_takeWhile]
      split
      · rfl
      · rw [Option.map_some, Nat.sub_self]

end Authority

/-! ## Rewriting -/

/-- Nothing is left of the URL where a path is looked for, and the script name fits the buffer. -/
def Overrun (clt : Client) (url : Bytes) (len : Nat) : Prop :=
  ∃ name pc script, clt.cltServerName = some name ∧ clt.cltPc = some pc ∧
    clt.cltScriptName = some script ∧ script.length < len ∧
    (url = [] ∨ Own name pc.proxyPort url [])

/-- The strings a client brings along are C strings. -/
structure Client.CStrings (clt : Client) : Prop where
  name : ∀ name ∈ clt.cltServerName, 0 ∉ name
  port : ∀ pc ∈ clt.cltPc, 0 ∉ pc.proxyPort

theorem stripAuthority_eq_nil_iff {name port url : Bytes} :
    stripAuthority name port url = some [] ↔ url = [] ∨ Own name port url [] := by
  rw [stripAuthority_eq_some_iff]
  constructor
  · rintro (h | ⟨rfl, -⟩)
    · exact .inr h
    · exact .inl rfl
  · rintro (rfl | h)
    · exact .inr ⟨rfl, by decide, by decide, by decide⟩
    · exact .inl h

instance (clt : Client) (url : Bytes) (len : Nat) : Decidable (Overrun clt url len) :=
  decidable_of_iff (∃ name ∈ clt.cltServerName, ∃ pc ∈ clt.cltPc, ∃ script ∈ clt.cltScriptName,
      script.length < len ∧ stripAuthority name pc.proxyPort url = some []) <| by
    simp only [Overrun, stripAuthority_eq_nil_iff, Option.mem_def]
    exact ⟨fun ⟨name, hname, pc, hpc, script, hscript, hfits, hleft⟩ =>
        ⟨name, pc, script, hname, hpc, hscript, hfits, hleft⟩,
      fun ⟨name, pc, script, hname, hpc, hscript, hfits, hleft⟩ =>
        ⟨name, hname, pc, hpc, script, hscript, hfits, hleft⟩⟩

/-- What is left is the end of the URL. -/
theorem suffix_of_stripAuthority {name port url rest : Bytes}
    (h : stripAuthority name port url = some rest) : rest <:+ url := by
  rcases stripAuthority_eq_some_iff.mp h with ⟨-, scheme, -, h | h⟩ | ⟨rfl, -⟩
  · rw [h]
    exact List.suffix_append _ _
  · rw [h, ← List.singleton_append, ← List.append_assoc, ← List.append_assoc]
    exact List.suffix_append _ _
  · exact List.suffix_rfl

section Rewriting

variable {clt : Client} {url : Bytes} {len : Nat}

theorem proxyResurlAt_of_overrun (hclt : clt.CStrings) (hurl : 0 ∉ url) (h : Overrun clt url len) :
    proxyResurlAt clt url len = none := by
  obtain ⟨name, pc, script, hname, hpc, hscript, hfits, hleft⟩ := h
  rw [proxyResurlAt, hname, hpc, hscript]
  dsimp only
  rw [if_neg (by omega), stripAuthorityAt_eq hurl (hclt.name name hname) (hclt.port pc hpc),
    stripAuthority_eq_nil_iff.mpr hleft]
  simp only [Option.map_some, Option.bind_eq_bind, Option.bind_some, List.length_nil, Nat.sub_zero]
  have hend : ((0 : UInt8) == 0 || (0 : UInt8) == 47) = true := rfl
  rw [charAt_eq (Nat.le_refl _), List.drop_length, Option.bind_some, List.headD_nil, if_pos hend,
    if_neg (Nat.not_le.mpr hfits), readAt_none (Nat.lt_succ_self _)]
  rfl

/-- **Apart from that, every read is inside**, and the memory behind the URL makes no difference. -/
theorem proxyResurlAt_eq (hclt : clt.CStrings) (hurl : 0 ∉ url) (h : ¬ Overrun clt url len)
    (past : Bytes) : proxyResurlAt clt url len = some (proxyResurl clt url past len) := by
  rw [proxyResurlAt, proxyResurl]
  cases hname : clt.cltServerName with
  | none => rfl
  | some name =>
    dsimp only
    by_cases hlen : len = 0
    · rw [if_pos hlen, if_pos hlen]
    rw [if_neg hlen, if_neg hlen]
    cases hpc : clt.cltPc with
    | none => rfl
    | some pc =>
      dsimp only
      rw [stripAuthorityAt_eq hurl (hclt.name name hname) (hclt.port pc hpc)]
      cases hstrip : stripAuthority name pc.proxyPort url with
      | none =>
        simp only [Option.map_none, Option.bind_eq_bind, Option.bind_some]
        rw [readAt_eq (Nat.zero_le _), List.drop_zero]
        rfl
      | some rest =>
        obtain ⟨front, rfl⟩ := suffix_of_stripAuthority hstrip
        have hlength : (front ++ rest).length - rest.length = front.length := by
          rw [List.length_append]
          omega
        have hle : front.length ≤ (front ++ rest).length := by
          rw [List.length_append]
          omega
        simp only [Option.map_some, Option.bind_eq_bind, Option.bind_some, hlength]
        rw [charAt_eq hle, List.drop_left, Option.bind_some]
        rcases rest with _ | ⟨b, rest⟩
        · -- nothing is left, and the script name is missing or does not fit
          have hend : ((0 : UInt8) == 0 || (0 : UInt8) == 47) = true := rfl
          rw [List.headD_nil, if_pos hend]
          cases hscript : clt.cltScriptName with
          | none => rfl
          | some script =>
            have hlong : len ≤ script.length := by
              by_contra hfits
              exact h ⟨name, pc, script, hname, hpc, hscript, Nat.not_le.mp hfits,
                stripAuthority_eq_nil_iff.mp hstrip⟩
            have hcopy : copyFits len (script ++ past) = none := by
              rw [copyFits, if_pos (by rw [List.length_append]; omega)]
            dsimp only
            rw [if_pos hlong]
            exact congrArg (fun r => some (some r)) hcopy.symm
        · have hb : b ≠ 0 := fun h0 => hurl (by rw [h0]; simp)
          have hb' : (b == 0) = false := beq_eq_false_iff_ne.mpr hb
          rw [List.headD_cons, hb', Bool.false_or]
          by_cases hslash : b = 47
          · subst hslash
            have hnext : (front ++ 47 :: rest).drop (front.length + 1) = rest := by
              rw [← List.drop_drop, List.drop_left]
              rfl
            have hend : ((47 : UInt8) == 47) = true := rfl
            rw [if_pos hend, readAt_eq (by rw [List.length_append, List.length_cons]; omega), hnext]
            cases clt.cltScriptName with
            | none => rfl
            | some script =>
              dsimp only
              split
              · rename_i hlong
                have hcopy : copyFits len (script ++ rest) = none := by
                  rw [copyFits, if_pos (by rw [List.length_append]; omega)]
                exact congrArg (fun r => some (some r)) hcopy.symm
              · rfl
          · have hslash' : (b == 47) = false := beq_eq_false_iff_ne.mpr hslash
            rw [hslash', if_neg Bool.false_ne_true, readAt_eq hle, List.drop_left]
            simp only [List.isEmpty_cons, List.head?_cons, Bool.false_or, Option.bind_some]
            rw [if_neg (by simpa using hslash)]

end Rewriting

/-! ## Link lines -/

/-- The URL of a link line. -/
def linkedUrl (line : Bytes) : Bytes :=
  ((line.drop 2).dropWhile isblank).takeWhile fun b => !isblank b

section Link

variable {clt : Client} {line : Bytes}

/-- **The link branch reads inside of the line**, up to the call of `proxy_resurl`. -/
theorem gemtextLinkAt_eq (hline : 0 ∉ line) (harrow : 2 ≤ line.length) (past : Bytes) :
    gemtextLinkAt clt line = (proxyResurlAt clt (linkedUrl line) 1025).map fun buf =>
      buf.map fun buf => (buf.getD (linkedUrl line), (cutLink (line.drop 2) past).2.1) := by
  have hnul {p : UInt8 → Bool} {l : Bytes} (hl : 0 ∉ l) :
      l.takeWhile (fun b => b != 0 && p b) = l.takeWhile p := by
    induction l with
    | nil => rfl
    | cons b l ih =>
      rw [List.mem_cons, not_or] at hl
      have hb : (b != 0) = true := bne_iff_ne.mpr (Ne.symm hl.1)
      rw [List.takeWhile_cons, List.takeWhile_cons, hb, Bool.true_and, ih hl.2]
  -- the line from its URL on
  have hstart : line.drop (2 + ((line.drop 2).takeWhile isblank).length)
      = (line.drop 2).dropWhile isblank := by
    rw [← List.drop_drop, drop_length_takeWhile]
  generalize hl : (line.drop 2).dropWhile isblank = l at hstart
  have hl0 : 0 ∉ l := by
    intro h0
    rw [← hl] at h0
    exact hline (List.mem_of_mem_drop ((List.dropWhile_suffix _).subset h0))
  have hle : 2 + ((line.drop 2).takeWhile isblank).length ≤ line.length := by
    have := (List.takeWhile_prefix (l := line.drop 2) isblank).length_le
    rw [List.length_drop] at this
    omega
  rw [gemtextLinkAt, skipAt_eq isblank rfl harrow (by omega)]
  generalize 2 + ((line.drop 2).takeWhile isblank).length = start at hstart hle
  have hlen : start + l.length = line.length := by
    rw [← hstart, List.length_drop]
    omega
  have hurl : linkedUrl line = l.takeWhile fun b => !isblank b := by rw [linkedUrl, hl]
  have hurlLe := (List.takeWhile_prefix (l := l) fun b => !isblank b).length_le
  have htake : l.take (l.takeWhile fun b => !isblank b).length = l.takeWhile fun b => !isblank b :=
    (List.prefix_iff_eq_take.mp (List.takeWhile_prefix _)).symm
  have hbehind : line.drop (start + (l.takeWhile fun b => !isblank b).length)
      = l.dropWhile fun b => !isblank b := by
    rw [← List.drop_drop, hstart, drop_length_takeWhile]
  simp only [Option.bind_eq_bind, Option.bind_some]
  rw [skipAt_eq _ (by decide) hle (by omega), hstart, hnul hl0, Option.bind_some,
    charAt_eq (by omega), hbehind, Option.bind_some, Nat.add_sub_cancel_left, htake, ← hurl,
    cutLink, hl]
  dsimp only
  cases hrest : l.dropWhile fun b => !isblank b with
  | nil =>
    -- the line ends with its URL
    have hwhole : l = linkedUrl line := by
      have happend := List.takeWhile_append_dropWhile (p := fun b => !isblank b) (l := l)
      rw [hrest, List.append_nil] at happend
      rw [hurl, happend]
    rw [List.headD_nil, if_pos rfl, readAt_eq hle, hstart, Option.bind_some, ← hurl, hwhole]
    cases proxyResurlAt clt (linkedUrl line) 1025 with
    | none => rfl
    | some buf => rcases buf with _ | _ | buf <;> rfl
  | cons b rest =>
    have hb : b ≠ 0 := by
      rintro rfl
      exact hl0 ((List.dropWhile_suffix _).subset (hrest ▸ List.mem_cons_self))
    rw [hrest, ← hurl] at hbehind
    generalize start + (linkedUrl line).length = k at hbehind
    have hk : k + 1 ≤ line.length := by
      by_contra hlong
      rw [List.drop_eq_nil_of_le (by omega)] at hbehind
      cases hbehind
    have hafter : line.drop (k + 1) = rest := by
      rw [← List.drop_drop, hbehind]
      rfl
    have hlabel : line.drop (k + 1 + (rest.takeWhile isblank).length) = rest.dropWhile isblank := by
      rw [← List.drop_drop, hafter, drop_length_takeWhile]
    have hlabelLe : k + 1 + (rest.takeWhile isblank).length ≤ line.length := by
      have := (List.takeWhile_prefix (l := rest) isblank).length_le
      rw [← hafter, List.length_drop] at this
      rw [hafter] at this
      omega
    rw [List.headD_cons, if_neg hb, skipAt_eq isblank rfl hk (by omega), hafter, Option.bind_some,
      charAt_eq hlabelLe, hlabel, Option.bind_some, readAt_eq hlabelLe, hlabel]
    rw [← hurl]
    dsimp only
    cases hcase : rest.dropWhile isblank with
    | nil =>
      -- only blanks are behind the URL
      rw [List.headD_nil, if_pos rfl]
      cases proxyResurlAt clt (linkedUrl line) 1025 with
      | none => rfl
      | some buf => rcases buf with _ | _ | buf <;> rfl
    | cons a label =>
      have ha : a ≠ 0 := by
        rintro rfl
        have hmem : (0 : UInt8) ∈ rest.dropWhile isblank := hcase ▸ List.mem_cons_self
        have hmem' : (0 : UInt8) ∈ line.drop (k + 1) :=
          hafter ▸ (List.dropWhile_suffix _).subset hmem
        exact hline (List.mem_of_mem_drop hmem')
      rw [List.headD_cons, if_neg ha, Option.bind_some]
      cases proxyResurlAt clt (linkedUrl line) 1025 with
      | none => rfl
      | some buf => rcases buf with _ | _ | buf <;> rfl

end Link

/-- **`portok`, `proxy_resurl` and the link branch never read behind the end of a URL, exactly** if
something of the URL is left where a path is looked for (or the script name does not fit the
buffer).
-/
theorem rewriting_reads_inside_iff (clt : Client) (hclt : clt.CStrings) :
    (∀ pc ∈ clt.cltPc, ∀ url i, 0 ∉ url → i ≤ url.length →
      (portokAt pc.proxyPort url i).isSome = true) ∧
    (∀ url len, 0 ∉ url → ((proxyResurlAt clt url len).isSome = true ↔ ¬ Overrun clt url len)) ∧
    ∀ line, 0 ∉ line → lit "=>" <+: line →
      ((gemtextLinkAt clt line).isSome = true ↔ ¬ Overrun clt (linkedUrl line) 1025) := by
  have hresurl (url : Bytes) (len : Nat) (hurl : 0 ∉ url) :
      (proxyResurlAt clt url len).isSome = true ↔ ¬ Overrun clt url len := by
    constructor
    · intro h hover
      rw [proxyResurlAt_of_overrun hclt hurl hover] at h
      cases h
    · intro h
      rw [proxyResurlAt_eq hclt hurl h []]
      rfl
  refine ⟨fun pc hpc url i hurl hi => ?_, hresurl, fun line hline harrow => ?_⟩
  · rw [portokAt_eq hurl (hclt.port pc hpc) hi]
    rfl
  · have hlen : 2 ≤ line.length := harrow.length_le
    have hurl : 0 ∉ linkedUrl line := fun h0 => hline (List.mem_of_mem_drop
      ((List.dropWhile_suffix _).subset ((List.takeWhile_prefix _).subset h0)))
    rw [gemtextLinkAt_eq hline hlen [], Option.isSome_map]
    exact hresurl _ _ hurl

theorem linkClient_cstrings : (linkClient (lit "/s/")).CStrings := by
  constructor
  · intro name hname
    obtain rfl := Option.some.inj hname
    decide
  · intro pc hpc
    obtain rfl := Option.some.inj hpc
    decide

/-- The link line `=> /x` and its URL. -/
theorem path_read_inside :
    (proxyResurlAt (linkClient (lit "/s/")) (lit "/x") 1025).isSome = true ∧
      (gemtextLinkAt (linkClient (lit "/s/")) (lit "=> /x")).isSome = true := by
  obtain ⟨-, hresurl, hlink⟩ := rewriting_reads_inside_iff _ linkClient_cstrings
  have hnot : ¬ Overrun (linkClient (lit "/s/")) (lit "/x") 1025 := by
    rintro ⟨name, pc, script, -, -, -, -, hleft | hown⟩
    · exact absurd hleft (by decide)
    · exact hown.scheme.elim (by decide) (by decide)
  have hurl : linkedUrl (lit "=> /x") = lit "/x" := by decide
  exact ⟨(hresurl _ 1025 (by decide)).mpr hnot,
    (hlink (lit "=> /x") (by decide) (by decide)).mpr (by rw [hurl]; exact hnot)⟩

/-- The link line `=>` has no URL, and the URL `gemini://h` no path: the byte behind the terminator
is read in both cases. -/
theorem empty_url_overrun :
    gemtextLinkAt (linkClient (lit "/s/")) (lit "=>") = none ∧
      gemtextLinkAt (linkClient (lit "/s/")) (lit "=> gemini://h home") = none ∧
      proxyResurlAt (linkClient (lit "/s/")) (lit "gemini://h:1965") 1025 = none := by
  decide

end Galileo
