import Mathlib.Data.FinEnum
import Galileo.Proof.Writer
import Galileo.Spec.Page

/-!
# No markup injection

What a capsule says reaches a page through two escapers: `tp_htmlescape`, which leaves no `<` and
no quotes, and `tp_urlescape`, which leaves no quotes but lets `<` through. The templates put the
second only into quoted attribute values. That is what the template of a page says about it, so it
is enough that **what the code writes fits the template** of the kinds of the lines: `Shows`, piece
by piece.

The translation of a line is followed through its branches once (`translateLine_shows`), which also
gives the block it leaves; the rest is the induction over the document.
-/

set_option autoImplicit false

namespace Galileo

open Lib Lib.Html

variable {clt : Client}

/-! ## Escapers -/

theorem mem_htmlescapeByte (c : UInt8) :
    ∀ b ∈ htmlescapeByte c, b ≠ 60 ∧ b ≠ 34 ∧ b ≠ 39 := by
  unfold htmlescapeByte
  split_ifs
  case neg => simp_all
  all_goals exact List.forall_iff_forall_mem.mp (by decide)

theorem mem_urlescapeTmp (c : UInt8) : ∀ b ∈ urlescapeTmp c, b ≠ 34 ∧ b ≠ 39 := by
  have hpercent : lit "%" = [37] := by decide
  have hdigit : ∀ d < 16, hexDigit (Nat.digitChar d) ≠ 34 ∧ hexDigit (Nat.digitChar d) ≠ 39 := by
    decide
  intro b hb
  rw [urlescapeTmp, hpercent] at hb
  rcases List.mem_cons.mp hb with rfl | hb
  · decide
  · rcases mem_fmtHex2 hb with rfl | ⟨d, hd, rfl⟩
    · decide
    · exact hdigit d hd

theorem mem_htmlescape {str : Bytes} {b : UInt8} (h : b ∈ htmlescape str) :
    b ≠ 60 ∧ b ≠ 34 ∧ b ≠ 39 := by
  obtain ⟨c, -, hb⟩ := List.mem_flatMap.mp h
  exact mem_htmlescapeByte c b hb

theorem mem_urlescape {str : Bytes} {b : UInt8} (h : b ∈ urlescape str) : b ≠ 34 ∧ b ≠ 39 := by
  induction str with
  | nil => cases h
  | cons c str ih =>
    rw [urlescape] at h
    split_ifs at h with hunsafe hfits
    · cases h
    · rcases List.mem_append.mp h with h | h
      · exact mem_urlescapeTmp c b h
      · exact ih h
    · rcases List.mem_cons.mp h with rfl | h
      · simp_all [urlUnsafe]
      · exact ih h

/-! ## Fitting a template -/

/-- The piece fits the hole. -/
def Shows (h : Hole) (p : Piece) : Prop := h.Admits p.text

@[simp] theorem shows_text (s : String) : Shows (fixed s) (text s) := rfl

@[simp] theorem shows_html (s : Bytes) : Shows .escaped (.html s) := fun _ => mem_htmlescape

@[simp] theorem shows_url (s : Bytes) : Shows .quoted (.url s) := fun _ => mem_urlescape

/-- The language is set off by a blank, which is passed through the escaper too. -/
@[simp] theorem shows_blank : Shows (fixed " ") (.html (lit " ")) := by
  show htmlescape (lit " ") = lit " "
  decide

/-- The pieces fit the template. -/
abbrev Fits : List Hole → List Piece → Prop := List.Forall₂ Shows

/-- The tags of what fits a template. -/
theorem tags_of_fits {hs : List Hole} (heffect : effect hs [] = some []) :
    ∃ ts, WellNested ts ∧ ∀ ps, Fits hs ps → tags (pageText ps) = some ts := by
  obtain ⟨ts, hnested, hfill⟩ := exists_tags heffect
  refine ⟨ts, hnested, fun ps hps => ?_⟩
  rw [pageText, List.flatMap_def]
  exact hfill _ (List.forall₂_map_right_iff.mpr hps)

/-! ## Lines -/

theorem fence_fits (line : Bytes) :
    Fits (fenceKind line).holes (tpPreOpen ((line.drop 3).dropWhile isblank)) := by
  unfold fenceKind tpPreOpen
  split <;> simp [LineKind.holes]

theorem block_fits (line : Bytes) : Fits (blockKind line).holes (gemtextBlock line) := by
  unfold blockKind gemtextBlock
  split_ifs <;> simp [LineKind.holes]

section Lines

variable {b : Region} (hb : b ≠ .pre)

include hb

theorem next_fence (line : Bytes) : b.next (fenceKind line) = .pre := by
  unfold fenceKind
  cases b with
  | pre => exact absurd rfl hb
  | flow | list | nav => split <;> rfl

theorem next_block (line : Bytes) : b.next (blockKind line) = .flow := by
  unfold blockKind
  cases b with
  | pre => exact absurd rfl hb
  | flow | list | nav => split_ifs <;> rfl

theorem bullet_fits (str : Bytes) :
    Fits (b.holes .bullet) ((if b.bits.nav then [text "</ul></nav>"] else [])
      ++ (if b.bits.list then [] else [text "<ul>"])
        ++ [text "<li>", .html str, text "</li>"]) := by
  cases b with
  | pre => exact absurd rfl hb
  | flow | list | nav => simp [Region.holes, Region.next, Region.leave, Region.enter, Region.bits,
      LineKind.holes]

/-- The link branch, when the list is closed. -/
theorem link_fits (clt : Client) (line past : Bytes) :
    Option.Rel
      (fun k r => r.2 = (b.next k).bits ∧
        Fits (b.holes k) ((if b.bits.list then [text "</ul>"] else []) ++ r.1))
      (linkKind clt line past) (gemtextLink clt { b.bits with list := false } line past) := by
  simp only [linkKind, gemtextLink]
  generalize cutLink line past = cut
  rcases clt.cltPc with _ | pc <;> rcases linkUrl clt cut.1 cut.2.2 with _ | url
  · exact .none
  · exact .none
  · exact .none
  · dsimp only
    by_cases himage : (!pc.noImgprv && matchImageHeur url) = true
    all_goals
      simp only [himage, if_true, if_false, Bool.false_eq_true]
      refine .some ?_
      cases b with
      | pre => exact absurd rfl hb
      | flow | list | nav =>
        simp [Region.holes, Region.next, Region.leave, Region.enter, Region.bits, LineKind.holes,
          tpFigure]

/-- What the lines of all other kinds have in front of them. -/
theorem leave_fits {k : LineKind} {ps : List Piece} (hk : b.next k = .flow ∨ b.next k = .pre)
    (h : Fits k.holes ps) :
    Fits (b.holes k) ((if b.bits.list then [text "</ul>"] else [])
      ++ (if b.bits.nav then [text "</ul></nav>"] else []) ++ ps) := by
  have henter : (b.next k).enter = [] := by rcases hk with hk | hk <;> rw [hk] <;> rfl
  have hholes : b.holes k
      = (if b.next k = b then [] else b.leave ++ (b.next k).enter) ++ k.holes := by
    cases b with
    | pre => exact absurd rfl hb
    | flow | list | nav => rfl
  rw [hholes, henter]
  refine List.rel_append ?_ h
  generalize b.next k = b' at hk
  cases b with
  | pre => exact absurd rfl hb
  | flow | list | nav => rcases hk with rfl | rfl <;> simp [Region.leave, Region.bits]

end Lines

/-- The code's result for a line, next to its kind. -/
def Translates (b : Region) : Option LineKind → Option (List Piece × Translate) → Prop :=
  Option.Rel fun k r => r.2 = (b.next k).bits ∧ Fits (b.holes k) r.1

theorem preformatted_translates (hclt : clt.cltTranslate = Region.pre.bits) (line past : Bytes) :
    Translates .pre (lineKind clt .pre line past) (gemtextTranslateLine clt line past) := by
  rw [lineKind, if_pos rfl, gemtextTranslateLine, hclt]
  simp only [Region.bits, if_true]
  split
  · refine .some ?_
    unfold fenceKind
    split <;> simp [Region.next, Region.bits, Region.holes, Region.leave, tpPreClose]
  · exact .some (by simp [Region.next, Region.bits, Region.holes, LineKind.holes])

/-- **`gemtext_translate_line` writes what the kind of the line asks for**, and its bits are those
of the block it leaves. -/
theorem line_translates {b : Region} (hclt : clt.cltTranslate = b.bits) (line past : Bytes) :
    Translates b (lineKind clt b line past) (gemtextTranslateLine clt line past) := by
  by_cases hb : b = .pre
  · subst hb
    exact preformatted_translates hclt line past
  · have hpre : b.bits.pre = false := by cases b <;> simp_all [Region.bits]
    have hen : b.bits.enabled = true := by cases b <;> rfl
    rw [lineKind, if_neg hb, gemtextTranslateLine, hclt]
    simp only [hpre, Bool.false_eq_true, if_false]
    by_cases hbullet : (lit "* ").isPrefixOf line = true
    · simp only [if_pos hbullet]
      refine .some ⟨?_, bullet_fits hb _⟩
      cases b <;> simp_all [Region.next, Region.bits]
    simp only [if_neg hbullet]
    by_cases hlink : (lit "=>").isPrefixOf line = true
    · simp only [if_pos hlink]
      have h := link_fits hb clt (line.drop 2) past
      simp only [hpre] at h
      generalize linkKind clt (line.drop 2) past = k at h
      generalize gemtextLink clt _ (line.drop 2) past = r at h ⊢
      cases h with
      | none => exact .none
      | some h => exact .some h
    simp only [if_neg hlink]
    by_cases hfence : (lit "```").isPrefixOf line = true
    · simp only [if_pos hfence]
      refine .some ⟨?_, leave_fits hb (.inr (next_fence hb line)) (fence_fits line)⟩
      rw [next_fence hb, hen]
      rfl
    · simp only [if_neg hfence]
      refine .some ⟨?_, leave_fits hb (.inl (next_block hb line)) (block_fits line)⟩
      rw [next_block hb, hen]
      rfl

/-! ## Documents -/

/-- `gemtext_translate_line` on every line, each with the memory behind it. -/
def translateLines (clt : Client) :
    Translate → List (Bytes × Bytes) → Option (List Piece × Translate)
  | tr, [] => some ([], tr)
  | tr, p :: doc =>
      match gemtextTranslateLine { clt with cltTranslate := tr } p.1 p.2 with
      | none => none
      | some (ps, tr) => (translateLines clt tr doc).map fun r => (ps ++ r.1, r.2)

/-- The whole page: the head, the lines, and what `proxy_error` writes at the end of file. -/
def gemtextPage (clt : Client) (lang : Bytes) (doc : List (Bytes × Bytes)) : Option (List Piece) :=
  (translateLines clt { Translate.zero with enabled := true } doc).map fun r =>
    tpHead clt lang none ++ r.1 ++ closePieces { clt with cltTranslate := r.2 }

theorem lines_translate (clt : Client) (b : Region) (doc : List (Bytes × Bytes)) :
    Option.Rel (fun ks r => r.2 = (b.run ks).2.bits ∧ Fits (b.run ks).1 r.1)
      (documentKinds clt b doc) (translateLines clt b.bits doc) := by
  induction doc generalizing b with
  | nil => exact .some ⟨rfl, .nil⟩
  | cons p doc ih =>
    rw [documentKinds, translateLines]
    have hline := @line_translates { clt with cltTranslate := b.bits } b rfl p.1 p.2
    -- the kind of a line does not depend on the bits
    rw [show lineKind { clt with cltTranslate := b.bits } b p.1 p.2 = lineKind clt b p.1 p.2
      from rfl] at hline
    generalize lineKind clt b p.1 p.2 = k at hline
    generalize gemtextTranslateLine _ p.1 p.2 = r at hline
    cases hline with
    | none => exact .none
    | @some k r h =>
      obtain ⟨ps, tr⟩ := r
      obtain ⟨rfl, hfits⟩ := h
      have hrest := ih (b.next k)
      dsimp only
      generalize documentKinds clt (b.next k) doc = ks at hrest
      generalize translateLines clt (b.next k).bits doc = rs at hrest
      cases hrest with
      | none => exact .none
      | some h => exact .some ⟨h.1, List.rel_append hfits h.2⟩

theorem home_fits (clt : Client) {home usr : Bytes}
    (h : navHome (clt.cltPathInfo.getD []) = some (home, usr)) :
    Fits (navigationHoles (hasHome (clt.cltPathInfo.getD []))) (tpNavigation clt) := by
  cases hempty : home.isEmpty <;> simp [tpNavigation, navigationHoles, hasHome, h, hempty]

theorem navigation_fits (clt : Client) :
    Fits (navigationHoles (hasHome (clt.cltPathInfo.getD []))) (tpNavigation clt) := by
  match h : navHome (clt.cltPathInfo.getD []) with
  | some (home, usr) => exact home_fits clt h
  | none => simp [tpNavigation, navigationHoles, hasHome, h]

theorem head_fits (clt : Client) (lang : Bytes) :
    Fits (headHoles (!lang.isEmpty) (clt.cltPc.any fun pc => !pc.stylesheet.isEmpty)
        clt.cltPc.isSome (clt.cltPathInfo.isSome && !clt.cltPc.any (·.noNavbar))
        (hasHome (clt.cltPathInfo.getD [])))
      (tpHead clt lang none) := by
  have hnav := navigation_fits clt
  unfold headHoles tpHead
  refine List.rel_append (List.rel_append (List.rel_append (List.rel_append (List.rel_append
    (List.rel_append (List.rel_append ?_ ?_) ?_) ?_) ?_) ?_) ?_) ?_
  · simp
  · cases lang.isEmpty <;> simp
  · simp
  · rcases clt.cltPc with _ | pc
    · simp
    · cases h : pc.stylesheet.isEmpty <;> simp [h]
  · simp
  · rcases clt.cltPc with _ | pc <;> simp
  · simp
  · generalize tpNavigation clt = bar at hnav ⊢
    generalize navigationHoles (hasHome (clt.cltPathInfo.getD [])) = holes at hnav ⊢
    rcases clt.cltPathInfo with _ | path
    · simp
    · rcases clt.cltPc with _ | pc
      · simpa using hnav
      · cases h : pc.noNavbar <;> simp [h, hnav]

theorem foot_fits (clt : Client) :
    Fits (footHoles (clt.cltPc.any fun pc => !pc.noFooter)) (tpFoot clt) := by
  unfold footHoles tpFoot
  rcases clt.cltPc with _ | pc
  · simp
  · cases h : pc.noFooter <;> simp [h]

/-- What is open is closed before the foot. -/
theorem close_fits {b : Region} (hclt : clt.cltTranslate = b.bits) :
    Fits (b.leave ++ footHoles (clt.cltPc.any fun pc => !pc.noFooter)) (closePieces clt) := by
  have hfoot := foot_fits clt
  unfold closePieces
  rw [hclt]
  refine List.rel_append ?_ ?_
  · cases b <;> simp [Region.bits, Region.leave, tpPreClose]
  · cases b <;> exact hfoot

/-- **What is written for a document fits the template of its kinds.** -/
theorem page_fits (clt : Client) (lang : Bytes) (doc : List (Bytes × Bytes)) :
    Option.Rel
      (fun ks ps => Fits (pageHoles clt.cltPathInfo clt.cltPc (!lang.isEmpty) ks) ps)
      (documentKinds clt .flow doc) (gemtextPage clt lang doc) := by
  have hlines := lines_translate clt .flow doc
  rw [gemtextPage, show ({ Translate.zero with enabled := true } : Translate) = Region.flow.bits
    from rfl]
  generalize documentKinds clt .flow doc = ks at hlines
  generalize translateLines clt Region.flow.bits doc = r at hlines
  cases hlines with
  | none => exact .none
  | @some ks r h =>
    refine .some ?_
    unfold pageHoles
    rw [List.append_assoc]
    refine List.rel_append (List.rel_append (head_fits clt lang) h.2) ?_
    exact @close_fits { clt with cltTranslate := r.2 } _ h.1

theorem proxyResurl_isSome (hpc : clt.cltPc.isSome) (hscript : clt.cltScriptName.isSome)
    (url past : Bytes) (len : Nat) :
    (proxyResurl clt url past len).isSome := by
  obtain ⟨pc, hpc⟩ := Option.isSome_iff_exists.mp hpc
  obtain ⟨prfx, hscript⟩ := Option.isSome_iff_exists.mp hscript
  rw [proxyResurl, hpc, hscript]
  cases clt.cltServerName with
  | none => rfl
  | some name =>
    by_cases hlen : len = 0
    · simp [hlen]
    · cases hstrip : stripAuthority name pc.proxyPort url with
      | none => simp [hlen, hstrip]
      | some rest =>
        simp only [hlen, hstrip, if_false]
        split <;> rfl

/-- **No line is too much for the code** when the web server has sent a script name: only a link
can make it follow a null pointer. -/
theorem documentKinds_isSome (hpc : clt.cltPc.isSome) (hscript : clt.cltScriptName.isSome)
    (b : Region) (doc : List (Bytes × Bytes)) :
    (documentKinds clt b doc).isSome := by
  have hlink (line past : Bytes) : (linkKind clt line past).isSome := by
    obtain ⟨r, hr⟩ := Option.isSome_iff_exists.mp (proxyResurl_isSome hpc hscript
      (cutLink line past).1 (cutLink line past).2.2 1025)
    obtain ⟨pc, hpc⟩ := Option.isSome_iff_exists.mp hpc
    simp only [linkKind, linkUrl, hr, hpc]
    cases r <;> rfl
  have hline (b : Region) (line past : Bytes) : (lineKind clt b line past).isSome := by
    unfold lineKind
    split_ifs
    all_goals first | rfl | exact hlink _ _
  induction doc generalizing b with
  | nil => rfl
  | cons p doc ih =>
    obtain ⟨k, hk⟩ := Option.isSome_iff_exists.mp (hline b p.1 p.2)
    simp [documentKinds, hk, ih]

theorem gemtextPage_isSome (hpc : clt.cltPc.isSome) (hscript : clt.cltScriptName.isSome)
    (lang : Bytes) (doc : List (Bytes × Bytes)) :
    (gemtextPage clt lang doc).isSome := by
  have hsome := documentKinds_isSome hpc hscript .flow doc
  have hfits := page_fits clt lang doc
  generalize documentKinds clt .flow doc = ks at hsome hfits
  generalize gemtextPage clt lang doc = ps at hfits
  cases hfits with
  | none => exact hsome
  | some => rfl

/-- **No markup injection.** Two documents whose lines are of the same kinds, whatever their texts,
URLs and labels, and whatever the memory behind their lines, give pages with the same tags and
attribute names, as long as they answer requests for the same path under the same configuration and
both or none of the status lines gave a language. And the tags are well-nested. -/
theorem no_markup_injection (clt₁ clt₂ : Client) (lang₁ lang₂ : Bytes)
    (doc₁ doc₂ : List (Bytes × Bytes)) (ps₁ ps₂ : List Piece)
    (hpath : clt₁.cltPathInfo = clt₂.cltPathInfo) (hpc : clt₁.cltPc = clt₂.cltPc)
    (hlang : lang₁.isEmpty = lang₂.isEmpty)
    (hkinds : documentKinds clt₁ .flow doc₁ = documentKinds clt₂ .flow doc₂)
    (hpage₁ : gemtextPage clt₁ lang₁ doc₁ = some ps₁)
    (hpage₂ : gemtextPage clt₂ lang₂ doc₂ = some ps₂) :
    ∃ ts, WellNested ts ∧ tags (pageText ps₁) = some ts ∧ tags (pageText ps₂) = some ts := by
  have hfits₁ := page_fits clt₁ lang₁ doc₁
  have hfits₂ := page_fits clt₂ lang₂ doc₂
  rw [hkinds, hpage₁, hpath, hpc, hlang] at hfits₁
  rw [hpage₂] at hfits₂
  generalize documentKinds clt₂ .flow doc₂ = ks at hfits₁ hfits₂
  cases hfits₁ with
  | @some ks _ h₁ =>
    cases hfits₂ with
    | some h₂ =>
      obtain ⟨ts, hnested, htags⟩ :=
        tags_of_fits (effect_page clt₂.cltPathInfo clt₂.cltPc (!lang₂.isEmpty) ks)
      exact ⟨ts, hnested, htags ps₁ h₁, htags ps₂ h₂⟩

/-- A harmless document and one that tries: an attribute, a script, an end tag. -/
theorem nothing_injected :
    let clt : Client := { Client.new 1 0 with
      cltServerName := some (lit "a")
      cltScriptName := some (lit "/")
      cltPathInfo := some (lit "/")
      cltPc := some ⟨lit "a", [], lit "a", lit "a", lit "1965", false, false, false, false⟩ }
    let doc₁ : List (Bytes × Bytes) :=
      ["# Hi", "=> /x y", "```", "text", "```", "* item"].map fun s => (lit s, [])
    let doc₂ : List (Bytes × Bytes) :=
      ["#<b>", "=> 'onclick='x <script>", "```", "</pre>\"'", "```", "* </ul><img src=x>"].map
        fun s => (lit s, [])
    let ps₁ := (gemtextPage clt [] doc₁).getD []
    let ps₂ := (gemtextPage clt [] doc₂).getD []
    gemtextPage clt [] doc₁ = some ps₁ ∧ gemtextPage clt [] doc₂ = some ps₂ ∧
      ∃ ts, WellNested ts ∧ tags (pageText ps₁) = some ts ∧ tags (pageText ps₂) = some ts := by
  intro clt doc₁ doc₂ ps₁ ps₂
  have h₁ : gemtextPage clt [] doc₁ = some ps₁ :=
    (Option.getD_of_ne_none (by decide) []).symm
  have h₂ : gemtextPage clt [] doc₂ = some ps₂ :=
    (Option.getD_of_ne_none (by decide) []).symm
  exact ⟨h₁, h₂, no_markup_injection clt clt [] [] doc₁ doc₂ ps₁ ps₂ rfl rfl rfl
    (by decide) h₁ h₂⟩

end Galileo
