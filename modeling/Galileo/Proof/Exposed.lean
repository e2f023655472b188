import Galileo.Proof.Escape
import Galileo.Proof.Overrun
import Galileo.Proof.Response

/-!
# What shows of the memory behind a line

`proxy_resurl` reads behind the end of a URL of which nothing is left (`Overrun`). Behind the URL of
a link there may be a label, and behind a NUL there is the rest of the line; but where the URL ends
its line, and behind the URL of a redirection, it is whatever was in memory. Which responses let
that show is said here by their lines: a link line (`Exposes`) outside of the preformatted blocks
(`openLines`), or the line of a redirection (`RedirectExposes`).
-/

set_option autoImplicit false

namespace Galileo

open Lib Lib.FastCgi

variable {r : List Piece × Translate} {tr : Translate} {past : Bytes}

/-- What a link to `url` looks like: as an image or not, and with which address. -/
def linkShown (pc : ProxyConfig) (url : Bytes) : Bool × Bytes :=
  (!pc.noImgprv && matchImageHeur url, urlescape url)

/-- A link line that ends with its URL, and nothing of the URL is left where `proxy_resurl` looks
for a path. With a script name of 1024 bytes there is no room for what is read then: the link is to
the script, or if there is something to the URL itself, and these two may look the same. -/
structure Exposes (c : Client) (line : Bytes) : Prop where
  arrow : (lit "=>").isPrefixOf line = true
  whole : 0 ∉ line
  last : (line.drop 2).dropWhile isblank = linkedUrl line
  empty : Overrun c (linkedUrl line) 1025
  shown : ∀ pc script, c.cltPc = some pc → c.cltScriptName = some script → script.length = 1024 →
    linkShown pc script ≠ linkShown pc (linkedUrl line)

/-- The lines outside of preformatted blocks; `inside` one or not. -/
def openLines : Bool → List Bytes → List Bytes
  | _, [] => []
  | inside, line :: lines =>
      if (lit "```").isPrefixOf line then openLines (!inside) lines
      else if inside then openLines inside lines
      else line :: openLines inside lines

/-- A redirection to the capsule itself. -/
def RedirectExposes (c : Client) (hdr : Bytes) : Prop :=
  ∃ h1 url, hdr = 51 :: h1 :: 32 :: url ∧ isdigit h1 = true ∧ url ≠ [] ∧ 0 ∉ url ∧
    Overrun c url 1025

/-- The memory behind the lines of the response shows: it is a redirection of that kind, or gemtext
with a link of that kind. -/
def MemoryShows (c : Client) (s : Bytes) : Prop :=
  ∃ hdr body, readlnCrlfStrict s = some (hdr, body) ∧
    (RedirectExposes c hdr ∨
      ∃ mime, successMime hdr = some mime ∧ (lit "text/gemini").isPrefixOf mime = true ∧
        (parseMime .zero mime).2.isSome = true ∧
        ∃ line ∈ openLines false ((splitLines body).1.map stripCr), Exposes c line)

/-! ## URLs -/

section Urls

variable {clt : Client} {url : Bytes} {len : Nat}

theorem proxyResurl_past (h : ¬ Overrun clt url len) (past past' : Bytes) :
    proxyResurl clt url past len = proxyResurl clt url past' len := by
  rw [proxyResurl, proxyResurl]
  cases hname : clt.cltServerName with
  | none => rfl
  | some name =>
    dsimp only
    split
    · rfl
    cases hpc : clt.cltPc with
    | none => rfl
    | some pc =>
      dsimp only
      cases hstrip : stripAuthority name pc.proxyPort url with
      | none => rfl
      | some rest =>
        rcases rest with _ | ⟨b, rest⟩
        · cases hscript : clt.cltScriptName with
          | none => rfl
          | some script =>
            -- the script name alone does not fit
            have hlong : len ≤ script.length := by
              by_contra hfits
              exact h ⟨name, pc, script, hname, hpc, hscript, Nat.not_le.mp hfits,
                stripAuthority_eq_nil_iff.mp hstrip⟩
            have hcopy (past : Bytes) : copyFits len (script ++ past) = none := by
              rw [copyFits, if_pos (by rw [List.length_append]; omega)]
            simp only [List.isEmpty_nil, Bool.true_or, if_true, hcopy]
        · rfl

theorem proxyResurl_of_overrun (hlen : 0 < len) (h : Overrun clt url len) :
    ∃ pc script, clt.cltPc = some pc ∧ clt.cltScriptName = some script ∧ script.length < len ∧
      ∀ past, proxyResurl clt url past len = some (copyFits len (script ++ past)) := by
  obtain ⟨name, pc, script, hname, hpc, hscript, hfits, hleft⟩ := h
  refine ⟨pc, script, hpc, hscript, hfits, fun past => ?_⟩
  rw [proxyResurl, hname, hpc, hscript]
  dsimp only
  rw [if_neg (by omega), stripAuthority_eq_nil_iff.mpr hleft]
  rfl

/-- Such a link is to the script and what was read, if that fits, or else to the URL. -/
theorem linkUrl_of_overrun (h : Overrun clt url 1025) :
    ∃ pc script, clt.cltPc = some pc ∧ clt.cltScriptName = some script ∧ script.length < 1025 ∧
      ∀ past, linkUrl clt url past
        = some (if (script ++ past).length < 1025 then script ++ past else url) := by
  obtain ⟨pc, script, hpc, hscript, hfits, hres⟩ := proxyResurl_of_overrun (by decide) h
  refine ⟨pc, script, hpc, hscript, hfits, fun past => ?_⟩
  rw [linkUrl, hres, copyFits]
  by_cases hlt : (script ++ past).length < 1025
  · rw [if_neg (Nat.not_le.mpr hlt), if_pos hlt]
  · rw [if_pos (Nat.le_of_not_lt hlt), if_neg hlt]

end Urls

/-! ## Links -/

/-- The text of some pieces, and the bits they leave. -/
def lineShown (r : List Piece × Translate) : Bytes × Translate := (pageText r.1, r.2)

/-- What a link line becomes, as soon as it is known where it leads. -/
def linkItem (pc : ProxyConfig) (tr : Translate) (url label : Bytes) : List Piece × Translate :=
  if !pc.noImgprv && matchImageHeur url then
    ((if tr.nav then [text "</ul></nav>"] else []) ++ tpFigure url label, { tr with nav := false })
  else
    ((if tr.nav then [] else [text "<nav><ul>"])
      ++ [text "<li><a href='", .url url, text "'>", .html label, text "</a></li>"],
      { tr with nav := true })

section Links

variable {clt : Client} {pc : ProxyConfig} {url url' label line : Bytes}

theorem gemtextLink_of_url (hpc : clt.cltPc = some pc)
    (hurl : linkUrl clt (cutLink line past).1 (cutLink line past).2.2 = some url) :
    gemtextLink clt tr line past = some (linkItem pc tr url (cutLink line past).2.1) := by
  simp only [gemtextLink, hpc, hurl, linkItem]
  split <;> rfl

theorem linkItem_congr (h : linkShown pc url = linkShown pc url') :
    lineShown (linkItem pc tr url label) = lineShown (linkItem pc tr url' label) := by
  obtain ⟨himage, haddr⟩ := Prod.mk.inj h
  rw [linkItem, linkItem, himage]
  split <;> simp [lineShown, tpFigure, Piece.text, haddr]

/-- Two links that do not look the same give two pages, whatever stands behind them: the bits that
they leave are the same, or one of them begins with another tag. -/
theorem linkItem_ne (h : linkShown pc url ≠ linkShown pc url') {t t' : Bytes}
    (hsame : (linkItem pc tr url label).2 = (linkItem pc tr url' label).2 → t = t') :
    pageText (linkItem pc tr url label).1 ++ t ≠ pageText (linkItem pc tr url' label).1 ++ t' := by
  have himages : ∀ {u u' t t' : Bytes}, (!pc.noImgprv && matchImageHeur u) = true →
      (!pc.noImgprv && matchImageHeur u') = false →
      pageText (linkItem pc tr u label).1 ++ t ≠ pageText (linkItem pc tr u' label).1 ++ t' := by
    intro u u' t t' himage himage' heq
    rw [linkItem, linkItem, himage, himage', if_pos rfl, if_neg Bool.false_ne_true] at heq
    have hbyte := congrArg (fun l : Bytes => l[1]?) heq
    cases htr : tr.nav <;>
      simp only [htr, tpFigure, pageText_cons, pageText_append, if_true, if_false,
        Bool.false_eq_true, List.append_assoc, List.nil_append, pageText_nil] at hbyte <;>
      rw [List.getElem?_append_left (by decide), List.getElem?_append_left (by decide)] at hbyte <;>
      exact absurd hbyte (by decide)
  rw [linkShown, linkShown] at h
  cases himage : !pc.noImgprv && matchImageHeur url <;>
    cases himage' : !pc.noImgprv && matchImageHeur url'
  case false.true => exact (himages himage' himage).symm
  case true.false => exact himages himage himage'
  case false.false =>
    rw [himage, himage'] at h
    simp only [linkItem, himage, himage', Bool.false_eq_true, if_false] at hsame ⊢
    rw [hsame trivial]
    intro heq
    simp only [pageText_append, pageText_cons, List.append_cancel_right_eq, Piece.text, text,
      List.append_cancel_left_eq] at heq
    exact h (by rw [heq])
  case true.true =>
    rw [himage, himage'] at h
    simp only [linkItem, himage, himage', if_true] at hsame ⊢
    rw [hsame trivial]
    intro heq
    simp only [tpFigure, pageText_append, pageText_cons, List.append_cancel_right_eq, Piece.text,
      text, List.append_cancel_left_eq] at heq
    -- the address stands there twice
    have hlen := congrArg List.length heq
    simp only [List.length_append] at hlen
    exact h (by rw [(List.append_inj heq (by omega)).1])

end Links

/-! ## Lines -/

section Lines

variable {c : Client} {line : Bytes}

theorem cstrPast_of_nul (h : 0 ∈ line) (mem mem' : Bytes) :
    cstrPast mem line = cstrPast mem' line := by
  rw [cstrPast, cstrPast]
  split
  · rename_i hnil
    exact absurd (List.dropWhile_eq_nil_iff.mp hnil 0 h) (by decide)
  · rfl

theorem cstrPast_of_whole (h : 0 ∉ line) (mem : Bytes) : cstrPast mem line = (line, cstr mem) := by
  have hnil : line.dropWhile (· != 0) = [] :=
    List.dropWhile_eq_nil_iff.mpr fun b hb => bne_iff_ne.mpr fun heq => h (heq ▸ hb)
  rw [cstrPast, hnil]

/-- A link line that ends with its URL. -/
theorem cutLink_last (h : (line.drop 2).dropWhile isblank = linkedUrl line) (past : Bytes) :
    cutLink (line.drop 2) past = (linkedUrl line, linkedUrl line, past) := by
  have hall : ∀ b ∈ linkedUrl line, (!isblank b) = true :=
    fun b hb => List.mem_takeWhile_imp (p := fun b => !isblank b) hb
  have htake : (linkedUrl line).takeWhile (fun b => !isblank b) = linkedUrl line :=
    List.takeWhile_eq_self_iff.mpr hall
  have hdrop : (linkedUrl line).dropWhile (fun b => !isblank b) = [] :=
    List.dropWhile_eq_nil_iff.mpr hall
  rw [cutLink, h]
  dsimp only
  rw [hdrop, htake]

/-- With something behind the URL, that is what is read. -/
theorem cutLink_past (h : (line.drop 2).dropWhile isblank ≠ linkedUrl line) (past past' : Bytes) :
    cutLink (line.drop 2) past = cutLink (line.drop 2) past' := by
  rw [cutLink, cutLink]
  dsimp only
  split
  · rename_i hnil
    refine absurd (List.takeWhile_eq_self_iff.mpr ?_).symm h
    exact List.dropWhile_eq_nil_iff.mp hnil
  · rfl

theorem gemtextTranslateLine_link (hpre : tr.pre = false)
    (harrow : (lit "=>").isPrefixOf line = true) (past : Bytes) :
    gemtextTranslateLine { c with cltTranslate := tr } line past
      = (gemtextLink c { tr with list := false } (line.drop 2) past).map fun r =>
          ((if tr.list then [text "</ul>"] else []) ++ r.1, r.2) := by
  have hbullet : (lit "* ").isPrefixOf line = false := by
    obtain ⟨t, rfl⟩ := List.isPrefixOf_iff_prefix.mp harrow
    rfl
  simp only [gemtextTranslateLine, hpre, hbullet, harrow, Bool.false_eq_true, if_false, if_true]
  rfl

/-- The line of a link that ends with its URL: `target` says where it leads. -/
theorem translateLine_last {pc : ProxyConfig} {target : Bytes → Bytes} (hpre : tr.pre = false)
    (harrow : (lit "=>").isPrefixOf line = true) (hwhole : 0 ∉ line)
    (hlast : (line.drop 2).dropWhile isblank = linkedUrl line) (hpc : c.cltPc = some pc)
    (hlink : ∀ past, linkUrl c (linkedUrl line) past = some (target past)) (mem : Bytes) :
    gemtextTranslateLine { c with cltTranslate := tr } (cstrPast mem line).1 (cstrPast mem line).2
      = some ((if tr.list then [text "</ul>"] else [])
          ++ (linkItem pc { tr with list := false } (target (cstr mem)) (linkedUrl line)).1,
        (linkItem pc { tr with list := false } (target (cstr mem)) (linkedUrl line)).2) := by
  have hcut := cutLink_last hlast (cstr mem)
  have hitem : gemtextLink c { tr with list := false } (line.drop 2) (cstr mem)
      = some (linkItem pc { tr with list := false } (target (cstr mem)) (linkedUrl line)) := by
    rw [gemtextLink_of_url hpc (by rw [hcut]; exact hlink (cstr mem)), hcut]
  rw [cstrPast_of_whole hwhole, gemtextTranslateLine_link hpre harrow, hitem, Option.map_some]

/-- **The memory behind a line does not show** in a preformatted block, or if the line is none of
those that expose it. -/
theorem line_hidden (h : tr.pre = true ∨ ¬ Exposes c line) (mem mem' : Bytes) :
    (gemtextTranslateLine { c with cltTranslate := tr } (cstrPast mem line).1
        (cstrPast mem line).2).map lineShown
      = (gemtextTranslateLine { c with cltTranslate := tr } (cstrPast mem' line).1
        (cstrPast mem' line).2).map lineShown := by
  by_cases hnul : 0 ∈ line
  · rw [cstrPast_of_nul hnul mem mem']
  have hcut := cstrPast_of_whole hnul mem
  have hcut' := cstrPast_of_whole hnul mem'
  cases hpre : tr.pre with
  | true => simp only [hcut, hcut', gemtextTranslateLine, hpre, if_true]
  | false =>
    have hnot := h.resolve_left (by rw [hpre]; exact Bool.false_ne_true)
    cases harrow : (lit "=>").isPrefixOf line with
    | false =>
      simp only [hcut, hcut', gemtextTranslateLine, hpre, harrow, Bool.false_eq_true, if_false]
    | true =>
      by_cases hlast : (line.drop 2).dropWhile isblank = linkedUrl line
      · by_cases hover : Overrun c (linkedUrl line) 1025
        · obtain ⟨pc, script, hpc, hscript, hfits, hlink⟩ := linkUrl_of_overrun hover
          -- the script name leaves no room, and its link looks like one to the URL
          obtain ⟨hfull, hsame⟩ : script.length = 1024 ∧
              linkShown pc script = linkShown pc (linkedUrl line) := by
            by_contra hdiffer
            refine hnot ⟨harrow, hnul, hlast, hover, fun pc' script' hpc' hscript' hlen heq => ?_⟩
            rw [hpc] at hpc'
            rw [hscript] at hscript'
            cases hpc'
            cases hscript'
            exact hdiffer ⟨hlen, heq⟩
          have hshown (past : Bytes) :
              linkShown pc
                (if (script ++ past).length < 1025 then script ++ past else linkedUrl line)
                = linkShown pc (linkedUrl line) := by
            split
            · rename_i hlt
              rw [List.length_append] at hlt
              have hnil : past = [] := List.length_eq_zero_iff.mp (by omega)
              rw [hnil, List.append_nil, hsame]
            · rfl
          have hcongr := @linkItem_congr { tr with list := false } pc _ _ (linkedUrl line)
            ((hshown (cstr mem)).trans (hshown (cstr mem')).symm)
          obtain ⟨htext, hbits⟩ := Prod.mk.inj hcongr
          rw [translateLine_last hpre harrow hnul hlast hpc hlink,
            translateLine_last hpre harrow hnul hlast hpc hlink]
          simp only [Option.map_some, lineShown, pageText_append, htext, hbits]
        · simp only [hcut, hcut', gemtextTranslateLine_link hpre harrow, gemtextLink,
            cutLink_last hlast, linkUrl, proxyResurl_past hover (cstr mem) (cstr mem')]
      · simp only [hcut, hcut', gemtextTranslateLine_link hpre harrow, gemtextLink,
          cutLink_past hlast (cstr mem) (cstr mem')]

/-- **And it shows behind those**, in what the page says of the line. -/
theorem line_exposed (hpre : tr.pre = false) (h : Exposes c line) :
    ∃ (mem mem' : Bytes) (r r' : List Piece × Translate),
      gemtextTranslateLine { c with cltTranslate := tr } (cstrPast mem line).1
          (cstrPast mem line).2 = some r ∧
        gemtextTranslateLine { c with cltTranslate := tr } (cstrPast mem' line).1
          (cstrPast mem' line).2 = some r' ∧
        ∀ t t', (r.2 = r'.2 → t = t') → pageText r.1 ++ t ≠ pageText r'.1 ++ t' := by
  obtain ⟨pc, script, hpc, hscript, hfits, hlink⟩ := linkUrl_of_overrun h.empty
  -- two continuations of the script name, or one and none
  obtain ⟨mem, mem', hnul, hnul', hshown⟩ : ∃ mem mem' : Bytes, 0 ∉ mem ∧ 0 ∉ mem' ∧
      linkShown pc (if (script ++ mem).length < 1025 then script ++ mem else linkedUrl line)
        ≠ linkShown pc
            (if (script ++ mem').length < 1025 then script ++ mem' else linkedUrl line) := by
    by_cases hroom : script.length = 1024
    · refine ⟨[], [97], by decide, by decide, ?_⟩
      rw [if_pos (by rw [List.append_nil]; omega), List.append_nil,
        if_neg (by rw [List.length_append, hroom]; decide)]
      exact h.shown pc script hpc hscript hroom
    · have hlt (b : UInt8) : (script ++ [b]).length < 1025 := by
        rw [List.length_append, List.length_singleton]
        omega
      refine ⟨[97], [98], by decide, by decide, fun heq => ?_⟩
      rw [if_pos (hlt 97), if_pos (hlt 98)] at heq
      have haddr := (Prod.mk.inj heq).2
      rw [urlescape_eq_flatMap, urlescape_eq_flatMap, List.flatMap_append, List.flatMap_append]
        at haddr
      exact absurd (List.append_cancel_left haddr) (by decide)
  have hline := translateLine_last hpre h.arrow h.whole h.last hpc hlink
  refine ⟨mem, mem', _, _, hline mem, hline mem', fun t t' hsame heq => ?_⟩
  rw [cstr_eq_self hnul, cstr_eq_self hnul'] at hsame heq
  rw [pageText_append, pageText_append, List.append_assoc, List.append_assoc] at heq
  exact linkItem_ne hshown hsame (List.append_cancel_left heq)

theorem gemtextLink_pre (h : gemtextLink c tr line past = some r) : r.2.pre = tr.pre := by
  simp only [gemtextLink] at h
  split at h
  · split at h <;> (cases h; rfl)
  · cases h

/-- The bit that says whether the lines are preformatted. -/
theorem translateLine_pre
    (h : gemtextTranslateLine { c with cltTranslate := tr } line past = some r) :
    r.2.pre = if (lit "```").isPrefixOf line then !tr.pre else tr.pre := by
  cases hpre : tr.pre with
  | true =>
    simp only [gemtextTranslateLine, hpre, if_true] at h
    split at h
    · rename_i hfence
      cases h
      rw [hfence]
      rfl
    · rename_i hfence
      cases h
      rw [if_neg hfence, hpre]
  | false =>
    cases harrow : (lit "=>").isPrefixOf line with
    | true =>
      have hfence : (lit "```").isPrefixOf line = false := by
        obtain ⟨t, rfl⟩ := List.isPrefixOf_iff_prefix.mp harrow
        rfl
      rw [gemtextTranslateLine_link hpre harrow] at h
      obtain ⟨q, hq, rfl⟩ := Option.map_eq_some_iff.mp h
      rw [hfence, if_neg Bool.false_ne_true]
      exact (gemtextLink_pre hq).trans hpre
    | false =>
      simp only [gemtextTranslateLine, hpre, harrow, Bool.false_eq_true, if_false] at h
      split at h
      · rename_i hbullet
        obtain ⟨t, rfl⟩ := List.isPrefixOf_iff_prefix.mp hbullet
        cases h
        rfl
      · split at h
        · rename_i hfence
          cases h
          rw [hfence]
          rfl
        · rename_i hfence
          cases h
          rw [if_neg hfence]

end Lines

/-! ## Documents -/

section Documents

variable {c : Client}

/-- A pattern without a NUL is looked for in front of the first NUL. -/
theorem isPrefixOf_cstr {p : Bytes} (hp : 0 ∉ p) (s : Bytes) :
    p.isPrefixOf (cstr s) = p.isPrefixOf s := by
  induction p generalizing s with
  | nil => simp
  | cons a p ih =>
    rw [List.mem_cons, not_or] at hp
    cases s with
    | nil => rfl
    | cons b s =>
      by_cases hb : b = 0
      · subst hb
        have hne : (a == 0) = false := beq_eq_false_iff_ne.mpr (Ne.symm hp.1)
        rw [cstr, List.takeWhile_cons_of_neg (by decide), List.isPrefixOf_cons_cons, hne]
        rfl
      · rw [cstr, List.takeWhile_cons_of_pos (by simpa using hb), List.isPrefixOf_cons_cons,
          List.isPrefixOf_cons_cons]
        exact congrArg _ (ih hp.2 s)

/-- The lines that are left outside of preformatted blocks, behind one line. -/
theorem openLines_cons {line past mem : Bytes}
    (h : gemtextTranslateLine { c with cltTranslate := tr } (cstrPast mem line).1 past = some r)
    (lines : List Bytes) :
    openLines tr.pre (line :: lines)
      = (if (lit "```").isPrefixOf line || tr.pre then [] else [line])
        ++ openLines r.2.pre lines := by
  have hpre := translateLine_pre h
  rw [cstrPast_fst, isPrefixOf_cstr (by decide)] at hpre
  rw [hpre, openLines]
  cases (lit "```").isPrefixOf line <;> cases tr.pre <;> rfl

/-- The first line of those that are left does not expose the memory behind it, or is not open. -/
theorem not_exposes_of_open {pre : Bool} {line : Bytes} {lines : List Bytes}
    (h : ∀ l ∈ openLines pre (line :: lines), ¬ Exposes c l) : pre = true ∨ ¬ Exposes c line := by
  cases pre with
  | true => exact .inl rfl
  | false =>
    refine .inr fun hexp => ?_
    have hfence : (lit "```").isPrefixOf line = false := by
      obtain ⟨t, rfl⟩ := List.isPrefixOf_iff_prefix.mp hexp.arrow
      rfl
    refine h line ?_ hexp
    rw [openLines, hfence]
    exact List.mem_cons_self

/-- **No memory shows** on a page whose open lines do not expose it. -/
theorem lines_hidden {lines mems mems' : List Bytes} (hlen : mems.length = lines.length)
    (hlen' : mems'.length = lines.length) (h : ∀ line ∈ openLines tr.pre lines, ¬ Exposes c line) :
    (translateLines c tr (List.zipWith cstrPast mems lines)).map lineShown
      = (translateLines c tr (List.zipWith cstrPast mems' lines)).map lineShown := by
  induction lines generalizing tr mems mems' with
  | nil => rw [List.zipWith_nil_right, List.zipWith_nil_right]
  | cons line lines ih =>
    obtain _ | ⟨mem, mems⟩ := mems
    · cases hlen
    obtain _ | ⟨mem', mems'⟩ := mems'
    · cases hlen'
    rw [List.zipWith_cons_cons, List.zipWith_cons_cons, translateLines, translateLines]
    have hline := @line_hidden tr c line (not_exposes_of_open h) mem mem'
    cases hr : gemtextTranslateLine { c with cltTranslate := tr } (cstrPast mem line).1
        (cstrPast mem line).2 with
    | none =>
      rw [hr] at hline
      rw [Option.map_eq_none_iff.mp hline.symm]
    | some r =>
      rw [hr] at hline
      obtain ⟨r', hr', hsame⟩ := Option.map_eq_some_iff.mp hline.symm
      obtain ⟨htext, hbits⟩ := Prod.mk.inj hsame
      rw [hr']
      have hrest := @ih r.2 mems mems' (Nat.succ.inj hlen) (Nat.succ.inj hlen') fun l hl => h l (by
        rw [openLines_cons hr]
        exact List.mem_append_right _ hl)
      have hcons (q : List Piece × Translate) (o : Option (List Piece × Translate)) :
          (o.map fun s => (q.1 ++ s.1, s.2)).map lineShown
            = (o.map lineShown).map fun s => (pageText q.1 ++ s.1, s.2) := by
        cases o <;> simp [lineShown]
      dsimp only
      rw [hcons, hcons, hrest, htext, hbits]

/-- **Some memory shows** on a page with an open line that exposes it: two pages that have the same
memory behind all other lines differ. -/
theorem lines_exposed {lines : List Bytes} (h : ∃ line ∈ openLines tr.pre lines, Exposes c line) :
    ∃ mems mems' : List Bytes, mems.length = lines.length ∧ mems'.length = lines.length ∧
      ∀ r r', translateLines c tr (List.zipWith cstrPast mems lines) = some r →
        translateLines c tr (List.zipWith cstrPast mems' lines) = some r' →
        ∀ t t', (r.2 = r'.2 → t = t') → pageText r.1 ++ t ≠ pageText r'.1 ++ t' := by
  induction lines generalizing tr with
  | nil =>
    obtain ⟨line, hmem, -⟩ := h
    cases hmem
  | cons line lines ih =>
    by_cases hfirst : tr.pre = false ∧ Exposes c line
    · obtain ⟨mem, mem', p, p', hp, hp', hne⟩ := line_exposed hfirst.1 hfirst.2
      refine ⟨mem :: lines.map fun _ => [], mem' :: lines.map fun _ => [], by simp, by simp,
        fun r r' hr hr' t t' hsame => ?_⟩
      rw [List.zipWith_cons_cons, translateLines, hp] at hr
      rw [List.zipWith_cons_cons, translateLines, hp'] at hr'
      obtain ⟨q, hq, rfl⟩ := Option.map_eq_some_iff.mp hr
      obtain ⟨q', hq', rfl⟩ := Option.map_eq_some_iff.mp hr'
      rw [pageText_append, pageText_append, List.append_assoc, List.append_assoc]
      refine hne _ _ fun hbits => ?_
      rw [hbits, hq'] at hq
      cases hq
      rw [hsame rfl]
    · -- the line is somewhere behind this one
      cases hp : gemtextTranslateLine { c with cltTranslate := tr } (cstrPast [] line).1
          (cstrPast [] line).2 with
      | none =>
        refine ⟨[] :: lines.map fun _ => [], [] :: lines.map fun _ => [], by simp, by simp,
          fun r r' hr => ?_⟩
        rw [List.zipWith_cons_cons, translateLines, hp] at hr
        cases hr
      | some p =>
        obtain ⟨l, hl, hexp⟩ := h
        rw [openLines_cons hp] at hl
        have hl : l ∈ openLines p.2.pre lines := by
          refine (List.mem_append.mp hl).resolve_left fun hl => ?_
          split at hl
          · cases hl
          · rename_i hopen
            rw [Bool.not_eq_true, Bool.or_eq_false_iff] at hopen
            rw [List.mem_singleton.mp hl] at hexp
            exact hfirst ⟨hopen.2, hexp⟩
        obtain ⟨mems, mems', hlen, hlen', hne⟩ := ih ⟨l, hl, hexp⟩
        refine ⟨[] :: mems, [] :: mems', by simp [hlen], by simp [hlen'],
          fun r r' hr hr' t t' hsame => ?_⟩
        rw [List.zipWith_cons_cons, translateLines, hp] at hr hr'
        obtain ⟨q, hq, rfl⟩ := Option.map_eq_some_iff.mp hr
        obtain ⟨q', hq', rfl⟩ := Option.map_eq_some_iff.mp hr'
        rw [pageText_append, pageText_append, List.append_assoc, List.append_assoc]
        intro heq
        exact hne q q' hq hq' t t' hsame (List.append_cancel_left heq)

end Documents

/-! ## Clients without a script name

Nothing is read behind a URL then: the null pointer is followed first. -/

section NoScript

variable {c : Client} (h : c.cltScriptName = none)

include h

theorem translateLine_past (line past past' : Bytes) :
    gemtextTranslateLine c line past = gemtextTranslateLine c line past' := by
  have hnever (url : Bytes) : ¬ Overrun c url 1025 := by
    rintro ⟨name, pc, script, -, -, hscript, -⟩
    rw [h] at hscript
    cases hscript
  have hlink (tr : Translate) (line : Bytes) :
      gemtextLink c tr line past = gemtextLink c tr line past' := by
    have hurl (url p p' : Bytes) : linkUrl c url p = linkUrl c url p' := by
      rw [linkUrl, linkUrl, proxyResurl_past (hnever url) p p']
    simp only [gemtextLink, cutLink]
    cases (line.dropWhile isblank).dropWhile fun b => !isblank b with
    | nil => simp only [hurl _ past past']
    | cons b rest => rfl
  simp only [gemtextTranslateLine, hlink]

theorem speak_past {lines mems mems' : List Bytes} (hlen : mems.length = lines.length)
    (hlen' : mems'.length = lines.length) :
    speak (List.zipWith cstrPast mems lines) c = speak (List.zipWith cstrPast mems' lines) c := by
  induction lines generalizing c mems mems' with
  | nil => rw [List.zipWith_nil_right, List.zipWith_nil_right]
  | cons line lines ih =>
    obtain _ | ⟨mem, mems⟩ := mems
    · cases hlen
    obtain _ | ⟨mem', mems'⟩ := mems'
    · cases hlen'
    rw [List.zipWith_cons_cons, List.zipWith_cons_cons, speak, speak, cstrPast_fst, cstrPast_fst,
      translateLine_past h _ (cstrPast mem line).2 (cstrPast mem' line).2]
    cases gemtextTranslateLine c (cstr line) (cstrPast mem' line).2 with
    | none => rfl
    | some r =>
      exact congrArg (Script.after _) (ih (c := { c with cltTranslate := r.2 }) h
        (Nat.succ.inj hlen) (Nat.succ.inj hlen'))

end NoScript

end Galileo
