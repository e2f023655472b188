import Galileo.Model.Gemtext

/-!
# Where a rewritten link leads

A link of a capsule is one of three things to `proxy_resurl`: it names the capsule itself, as
`gemini://` or `//` with the server name and maybe the port (`Own`), it names somebody else
(`Foreign`), or it is relative. `stripAuthority_eq_some_iff` is what the prefix comparisons, the
port matcher and the scheme scanner come to together.

Links to others are left alone, all of them. The capsule's own are rewritten by what is behind the
authority, and only a path is rewritten right: a query or a fragment is copied without the script
name, and of `//h//x` the first two slashes that are left make another host of `x` when the script
name is `/`. `link_sound_iff` is the line between.
-/

set_option autoImplicit false

namespace Galileo

open Lib

/-! ## Authorities -/

/-- The URL is the capsule's own, with `rest` behind the authority. -/
def Own (name port url rest : Bytes) : Prop :=
  authorityEnd rest = true ∧ ∃ scheme ∈ [lit "//", lit "gemini://"],
    url = scheme ++ name ++ rest ∨ url = scheme ++ name ++ 58 :: (port ++ rest)

/-- The URL begins with a scheme: a letter, then letters, digits, `+`, `-` and `.`, then a colon. -/
def HasScheme (url : Bytes) : Prop :=
  ∃ b scheme rest, url = b :: (scheme ++ 58 :: rest) ∧ isalpha b = true ∧
    ∀ a ∈ scheme, isalpha a = true ∨ isdigit a = true ∨ a = 43 ∨ a = 45 ∨ a = 46

/-- The URL has a scheme or an authority and is not the capsule's own. -/
def Foreign (name port url : Bytes) : Prop :=
  (HasScheme url ∨ lit "//" <+: url) ∧ ¬ ∃ rest, Own name port url rest

/-- The URL is an absolute path. -/
def AbsolutePath (url : Bytes) : Prop := url.head? = some 47 ∧ ¬ lit "//" <+: url

section Authority

variable {name port : Bytes}

/-- What `portok` lets through. -/
theorem portok_eq_some_iff {u rest : Bytes} :
    portok port u = some rest ↔
      authorityEnd rest = true ∧ (u = rest ∨ u = 58 :: (port ++ rest)) := by
  unfold portok
  split
  · rename_i hend
    constructor
    · intro h
      obtain rfl := Option.some.inj h
      exact ⟨hend, .inl rfl⟩
    · rintro ⟨-, rfl | rfl⟩
      · rfl
      · cases hend
  · rename_i hend
    split
    · rename_i u
      constructor
      · intro h
        split at h
        · rename_i hport
          obtain ⟨hstarts, hrest⟩ := Bool.and_eq_true_iff.mp hport
          obtain rfl := Option.some.inj h
          refine ⟨hrest, .inr ?_⟩
          obtain ⟨t, rfl⟩ := List.isPrefixOf_iff_prefix.mp hstarts
          rw [List.drop_left]
        · cases h
      · rintro ⟨hrest, rfl | h⟩
        · cases hrest
        · obtain ⟨-, rfl⟩ := List.cons.inj h
          have hstarts : port.isPrefixOf (port ++ rest) = true :=
            List.isPrefixOf_iff_prefix.mpr (List.prefix_append _ _)
          rw [List.drop_left, hstarts, hrest]
          rfl
    · rename_i hcolon
      constructor
      · intro h
        cases h
      · rintro ⟨hrest, rfl | rfl⟩
        · exact absurd hrest hend
        · exact absurd rfl (hcolon _)

/-- The authority behind a scheme. -/
theorem authority_eq_some_iff {u rest : Bytes} :
    (if name.isPrefixOf u then portok port (u.drop name.length) else none) = some rest ↔
      authorityEnd rest = true ∧ (u = name ++ rest ∨ u = name ++ 58 :: (port ++ rest)) := by
  constructor
  · intro h
    split at h
    · rename_i hstarts
      obtain ⟨t, rfl⟩ := List.isPrefixOf_iff_prefix.mp hstarts
      rw [List.drop_left, portok_eq_some_iff] at h
      obtain ⟨hrest, rfl | rfl⟩ := h
      · exact ⟨hrest, .inl rfl⟩
      · exact ⟨hrest, .inr rfl⟩
    · cases h
  · rintro ⟨hrest, rfl | rfl⟩
    · rw [if_pos (List.isPrefixOf_iff_prefix.mpr (List.prefix_append _ _)), List.drop_left,
        portok_eq_some_iff]
      exact ⟨hrest, .inl rfl⟩
    · rw [if_pos (List.isPrefixOf_iff_prefix.mpr (List.prefix_append _ _)), List.drop_left,
        portok_eq_some_iff]
      exact ⟨hrest, .inr rfl⟩

theorem Own.scheme {url rest : Bytes} (h : Own name port url rest) :
    lit "//" <+: url ∨ lit "gemini://" <+: url := by
  obtain ⟨-, scheme, hscheme, heq⟩ := h
  have hstarts : scheme <+: url := by
    rcases heq with heq | heq
    · rw [heq, List.append_assoc]
      exact List.prefix_append _ _
    · rw [heq, List.append_assoc]
      exact List.prefix_append _ _
  rcases List.mem_cons.mp hscheme with rfl | hscheme
  · exact .inl hstarts
  · rw [List.mem_singleton.mp hscheme] at hstarts
    exact .inr hstarts

/-- A scheme that is followed by an authority, as the scanner of `proxy_resurl` finds it. -/
def scannedScheme (url : Bytes) : Bool :=
  (lit "://").isPrefixOf (url.dropWhile fun b => isalpha b || b == 43)

/-- **What is cut off**: the authority of the capsule, and nothing off a URL without any. -/
theorem stripAuthority_eq_some_iff {url rest : Bytes} :
    stripAuthority name port url = some rest ↔
      Own name port url rest ∨
        url = rest ∧ ¬ lit "//" <+: url ∧ ¬ lit "gemini://" <+: url ∧
          scannedScheme url = false := by
  have hslash : lit "//" = [47, 47] := by decide
  have hgemini : lit "gemini://" = [103, 101, 109, 105, 110, 105, 58, 47, 47] := by decide
  have hown (scheme u : Bytes) (hne : ∀ s ∈ [lit "//", lit "gemini://"], s ≠ scheme →
      ¬ s <+: scheme ++ u) (hmem : scheme ∈ [lit "//", lit "gemini://"]) :
      Own name port (scheme ++ u) rest ↔
        authorityEnd rest = true ∧ (u = name ++ rest ∨ u = name ++ 58 :: (port ++ rest)) := by
    constructor
    · rintro ⟨hrest, s, hs, heq⟩
      by_cases hsame : s = scheme
      · subst hsame
        refine ⟨hrest, ?_⟩
        simpa only [List.append_assoc, List.append_cancel_left_eq] using heq
      · refine absurd ?_ (hne s hs hsame)
        rcases heq with heq | heq
        · rw [heq, List.append_assoc]
          exact List.prefix_append _ _
        · rw [heq, List.append_assoc]
          exact List.prefix_append _ _
    · rintro ⟨hrest, rfl | rfl⟩
      · exact ⟨hrest, scheme, hmem, .inl (List.append_assoc _ _ _).symm⟩
      · exact ⟨hrest, scheme, hmem, .inr (List.append_assoc _ _ _).symm⟩
  rw [stripAuthority]
  dsimp only
  by_cases h2 : lit "//" <+: url
  · obtain ⟨u, rfl⟩ := h2
    have hstarts : lit "//" <+: lit "//" ++ u := List.prefix_append _ _
    have hdrop : (lit "//" ++ u).drop 2 = u := by
      rw [hslash]
      rfl
    rw [if_pos (List.isPrefixOf_iff_prefix.mpr hstarts), hdrop, authority_eq_some_iff,
      hown _ _ ?_ (by simp)]
    · constructor
      · exact .inl
      · rintro (h | h)
        · exact h
        · exact absurd hstarts h.2.1
    · intro s hs hne
      rcases List.mem_cons.mp hs with rfl | hs
      · exact absurd rfl hne
      · rw [List.mem_singleton.mp hs, hslash, hgemini]
        simp
  · rw [if_neg (fun h => h2 (List.isPrefixOf_iff_prefix.mp h))]
    by_cases h9 : lit "gemini://" <+: url
    · obtain ⟨u, rfl⟩ := h9
      have hstarts : lit "gemini://" <+: lit "gemini://" ++ u := List.prefix_append _ _
      have hdrop : (lit "gemini://" ++ u).drop 9 = u := by
        rw [hgemini]
        rfl
      rw [if_pos (List.isPrefixOf_iff_prefix.mpr hstarts), hdrop, authority_eq_some_iff,
        hown _ _ ?_ (by simp)]
      · constructor
        · exact .inl
        · rintro (h | h)
          · exact h
          · exact absurd hstarts h.2.2.1
      · intro s hs hne
        rcases List.mem_cons.mp hs with rfl | hs
        · exact h2
        · exact absurd (List.mem_singleton.mp hs) hne
    · have hnone : ¬ Own name port url rest := fun h => h.scheme.elim h2 h9
      rw [if_neg (fun h => h9 (List.isPrefixOf_iff_prefix.mp h))]
      show (if scannedScheme url = true then none else some url) = some rest ↔ _
      cases hscan : scannedScheme url with
      | true => simp [hnone]
      | false => simp [hnone, h2, h9]

theorem Own.unique {url rest rest' : Bytes} (h : Own name port url rest)
    (h' : Own name port url rest') : rest = rest' := by
  have hstrip := stripAuthority_eq_some_iff.mpr (.inl h)
  rw [stripAuthority_eq_some_iff.mpr (.inl h')] at hstrip
  exact (Option.some.inj hstrip).symm

/-- The capsule's own URLs are no paths. -/
theorem Own.not_absolute {url rest : Bytes} (h : Own name port url rest) : ¬ AbsolutePath url := by
  rintro ⟨hhead, hslash⟩
  rcases h.scheme with hstarts | ⟨u, rfl⟩
  · exact hslash hstarts
  · cases hhead

theorem stripAuthority_absolute {url : Bytes} (h : AbsolutePath url) :
    stripAuthority name port url = some url := by
  obtain ⟨hhead, hslash⟩ := h
  obtain ⟨t, rfl⟩ := List.head?_eq_some_iff.mp hhead
  have hgemini : ¬ lit "gemini://" <+: 47 :: t := by
    intro hg
    have := List.isPrefixOf_iff_prefix.mpr hg
    cases this
  exact stripAuthority_eq_some_iff.mpr (.inr ⟨rfl, hslash, hgemini, rfl⟩)

end Authority

/-! ## Rewriting -/

/-- A script name as web servers send it: `/`, or more between two slashes. -/
structure ScriptPath (script : Bytes) : Prop where
  first : script.head? = some 47
  last : script.getLast? = some 47

/-- The rewriting of a link is sound: links to others are left alone, and the capsule's own and the
absolute paths lead to a place under the script name of the same host. -/
structure LinkSound (name port script url buf : Bytes) : Prop where
  foreign : Foreign name port url → buf = url
  under : (∃ rest, Own name port url rest) ∨ AbsolutePath url →
    script <+: buf ∧ ¬ lit "//" <+: buf

/-- What is behind the authority leads under the script name: it is a path, or nothing and then
whatever is `past` its end, and the result has no second slash. -/
def LeadsUnder (script past rest : Bytes) : Prop :=
  (rest = [] ∨ rest.head? = some 47) ∧
    ¬ lit "//" <+: script ++ if rest = [] then past else rest.tail

/-- What `proxy_resurl` makes of a URL, when there is room. -/
theorem proxyResurl_eq {clt : Client} {name script : Bytes} {pc : ProxyConfig}
    (hname : clt.cltServerName = some name) (hpc : clt.cltPc = some pc)
    (hscript : clt.cltScriptName = some script) {url past : Bytes} {len : Nat}
    (hlen : url.length + script.length + past.length < len) :
    proxyResurl clt url past len = some (some
      (match stripAuthority name pc.proxyPort url with
        | none => url
        | some rest =>
            if rest = [] ∨ rest.head? = some 47 then
              script ++ if rest = [] then past else rest.tail
            else rest)) := by
  have hfits {s : Bytes} (hs : s.length < len) : copyFits len s = some s := by
    rw [copyFits, if_neg (Nat.not_le.mpr hs)]
  rw [proxyResurl, hname, hpc, hscript]
  dsimp only
  rw [if_neg (by omega)]
  cases hstrip : stripAuthority name pc.proxyPort url with
  | none => rw [hfits (by omega)]
  | some rest =>
    -- what is left is not longer than the URL
    have hle : rest.length ≤ url.length := by
      rcases stripAuthority_eq_some_iff.mp hstrip with ⟨-, scheme, -, h | h⟩ | ⟨h, -⟩
      · rw [h, List.length_append]
        omega
      · rw [h]
        simp only [List.length_append, List.length_cons]
        omega
      · rw [h]
    dsimp only
    rcases rest with _ | ⟨b, rest⟩
    · show some (copyFits len (script ++ past)) = some (some (script ++ past))
      rw [hfits (by rw [List.length_append]; omega)]
    · rw [List.length_cons] at hle
      by_cases hb : b = 47
      · subst hb
        show some (copyFits len (script ++ rest)) = some (some (script ++ rest))
        rw [hfits (by rw [List.length_append]; omega)]
      · rw [if_neg (by simpa using hb), if_neg (by simpa using hb),
          hfits (by rw [List.length_cons]; omega)]

/-- **The rewriting of a link is sound exactly when** what stands behind the capsule's authority, or
the absolute path itself, leads under the script name. -/
theorem link_sound_iff (clt : Client) (name script : Bytes) (pc : ProxyConfig)
    (hname : clt.cltServerName = some name) (hpc : clt.cltPc = some pc)
    (hscript : clt.cltScriptName = some script) (hform : ScriptPath script) (url past : Bytes)
    (len : Nat) (hlen : url.length + script.length + past.length < len) :
    (∃ buf, proxyResurl clt url past len = some (some buf) ∧
        LinkSound name pc.proxyPort script url buf) ↔
      ∀ rest, Own name pc.proxyPort url rest ∨ AbsolutePath url ∧ rest = url →
        LeadsUnder script past rest := by
  -- a query or a fragment does not begin like a script name
  have hnotUnder {rest : Bytes} (hrest : ¬ (rest = [] ∨ rest.head? = some 47)) :
      ¬ script <+: rest := by
    intro hstarts
    obtain ⟨s, hs⟩ := List.head?_eq_some_iff.mp hform.first
    obtain ⟨t, rfl⟩ := hstarts
    exact hrest (.inr (by rw [hs]; rfl))
  rw [proxyResurl_eq hname hpc hscript hlen]
  simp only [Option.some.injEq, exists_eq_left']
  cases hstrip : stripAuthority name pc.proxyPort url with
  | none =>
    have hown (rest : Bytes) : ¬ Own name pc.proxyPort url rest := fun h => by
      rw [stripAuthority_eq_some_iff.mpr (.inl h)] at hstrip
      cases hstrip
    have habs : ¬ AbsolutePath url := fun h => by
      rw [stripAuthority_absolute h] at hstrip
      cases hstrip
    refine iff_of_true ⟨fun _ => rfl, ?_⟩ ?_
    · rintro (⟨rest, h⟩ | h)
      · exact absurd h (hown rest)
      · exact absurd h habs
    · rintro rest (h | h)
      · exact absurd h (hown rest)
      · exact absurd h.1 habs
  | some rest =>
    rcases stripAuthority_eq_some_iff.mp hstrip with hown | ⟨rfl, hslash, hgemini, -⟩
    · have hforeign : ¬ Foreign name pc.proxyPort url := fun h => h.2 ⟨rest, hown⟩
      constructor
      · rintro ⟨-, hunder⟩ rest' hrest'
        obtain rfl : rest = rest' := by
          rcases hrest' with h | h
          · exact hown.unique h
          · exact absurd h.1 hown.not_absolute
        have h := hunder (.inl ⟨rest, hown⟩)
        dsimp only at h
        by_cases hpath : rest = [] ∨ rest.head? = some 47
        · rw [if_pos hpath] at h
          exact ⟨hpath, h.2⟩
        · rw [if_neg hpath] at h
          exact absurd h.1 (hnotUnder hpath)
      · intro h
        obtain ⟨hpath, hone⟩ := h rest (.inl hown)
        refine ⟨fun hf => absurd hf hforeign, fun _ => ?_⟩
        dsimp only
        rw [if_pos hpath]
        exact ⟨List.prefix_append _ _, hone⟩
    · -- a URL without an authority
      have hown (rest : Bytes) : ¬ Own name pc.proxyPort url rest :=
        fun h => h.scheme.elim hslash hgemini
      constructor
      · rintro ⟨-, hunder⟩ rest' hrest'
        obtain ⟨habs, rfl⟩ := hrest'.resolve_left (hown _)
        have h := hunder (.inr habs)
        dsimp only at h
        rw [if_pos (.inr habs.1)] at h
        exact ⟨.inr habs.1, h.2⟩
      · intro h
        refine ⟨?_, ?_⟩
        · rintro ⟨⟨b, scheme, t, rfl, hb, -⟩ | hauth, -⟩
          · dsimp only
            rw [if_neg]
            rintro (hnil | hhead)
            · cases hnil
            · obtain rfl := Option.some.inj hhead
              cases hb
          · exact absurd hauth hslash
        · rintro (⟨rest, hrest⟩ | habs)
          · exact absurd hrest (hown rest)
          · obtain ⟨hpath, hone⟩ := h url (.inr ⟨habs, rfl⟩)
            dsimp only
            rw [if_pos hpath]
            exact ⟨List.prefix_append _ _, hone⟩

/-- The client of a request to the capsule `h`, under this script name. -/
def linkClient (script : Bytes) : Client :=
  { Client.new 1 0 with
    cltServerName := some (lit "h")
    cltScriptName := some script
    cltPc :=
      some ⟨lit "h", lit "/s.css", lit "::1", lit "h", lit "1965", true, false, false, false⟩ }

/-- A path behind the authority, with the port. -/
theorem own_path_sound :
    ∃ buf, proxyResurl (linkClient (lit "/s/")) (lit "gemini://h:1965/x") [] 1025
      = some (some buf) ∧
      LinkSound (lit "h") (lit "1965") (lit "/s/") (lit "gemini://h:1965/x") buf := by
  refine (link_sound_iff (linkClient (lit "/s/")) (lit "h") (lit "/s/") _ rfl rfl rfl
    ⟨by decide, by decide⟩ (lit "gemini://h:1965/x") [] 1025 (by decide)).mpr fun rest hrest => ?_
  have hown : Own (lit "h") (lit "1965") (lit "gemini://h:1965/x") (lit "/x") :=
    ⟨by decide, lit "gemini://", by decide, .inr (by decide)⟩
  rcases hrest with hrest | hrest
  · rw [← hown.unique hrest]
    exact ⟨by decide, by decide⟩
  · exact absurd hrest.1 hown.not_absolute

/-- A query right behind the authority loses the script name; a doubled slash leads to another host;
and so may a URL that ends with its authority, by what is in memory behind it. -/
theorem own_links_leave :
    proxyResurl (linkClient (lit "/s/")) (lit "gemini://h?q") [] 1025 = some (some (lit "?q")) ∧
      proxyResurl (linkClient (lit "/")) (lit "gemini://h//evil") [] 1025
        = some (some (lit "//evil")) ∧
      proxyResurl (linkClient (lit "/")) (lit "gemini://h") (lit "/evil") 1025
        = some (some (lit "//evil")) ∧
      Own (lit "h") (lit "1965") (lit "gemini://h?q") (lit "?q") ∧
      Own (lit "h") (lit "1965") (lit "gemini://h//evil") (lit "//evil") ∧
      Own (lit "h") (lit "1965") (lit "gemini://h") [] := by
  refine ⟨by decide, by decide, by decide, ?_, ?_, ?_⟩
  all_goals exact ⟨by decide, lit "gemini://", by decide, .inl (by decide)⟩

end Galileo
