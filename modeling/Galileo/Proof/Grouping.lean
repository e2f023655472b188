import Galileo.Proof.Delivery
import Galileo.Spec.Gemtext

/-!
# One line at a time, and the document as a whole

`gemtext_translate_line` sees one line and three bits. `line_translated` says what it does in terms
of the line's class and of what is open; from there on it is `Lib.Runs.stream` over the lines of one
part and an induction over the document (`translateLines_eq_remaining`): what the code still writes
is what the rest of the document still asks for, given what is open. At the start nothing is, and
`translation_grouped` follows for responses in any pieces.
-/

set_option autoImplicit false

namespace Galileo

open Lib Lib.FastCgi Lib.Run Lib.Runs

/-! ## One line -/

section Line

variable {clt : Client} {b : Region}

theorem not_bullet_of_fence {line : Bytes} (h : (lit "```").isPrefixOf line = true) :
    (lit "* ").isPrefixOf line = false ∧ (lit "=>").isPrefixOf line = false := by
  have hfence : lit "```" = [96, 96, 96] := by decide
  have hbullet : lit "* " = [42, 32] := by decide
  have hlink : lit "=>" = [61, 62] := by decide
  rw [hfence] at h
  rw [hbullet, hlink]
  cases line with
  | nil => cases h
  | cons a line =>
    have ha : a = 96 := (eq_of_beq (Bool.and_eq_true_iff.mp h).1).symm
    subst ha
    exact ⟨rfl, rfl⟩

/-- A fence opens a figure and closes what was open. -/
theorem fence_opens (hclt : clt.cltTranslate = b.bits) (hb : b ≠ .pre) {l : RawLine}
    (hfence : l.fence = true) :
    gemtextTranslateLine clt l.1 l.2 = some (b.closes ++ tpPreOpen l.caption, Region.pre.bits) := by
  obtain ⟨hbullet, hlink⟩ := not_bullet_of_fence hfence
  have hf : (lit "```").isPrefixOf l.1 = true := hfence
  rw [gemtextTranslateLine, hclt]
  simp only [hbullet, hlink, hf]
  cases b with
  | pre => exact absurd rfl hb
  | flow | list | nav => rfl

/-- Inside of a figure there are its lines and the fence that closes it. -/
theorem preformatted_line (hclt : clt.cltTranslate = Region.pre.bits) (l : RawLine) :
    gemtextTranslateLine clt l.1 l.2
      = if l.fence then some (tpPreClose, Region.flow.bits)
        else some ([.html l.1, text "\n"], Region.pre.bits) := by
  rw [gemtextTranslateLine, hclt]
  rfl

/-- Links, when the list is closed. -/
theorem link_translated (hb : b ≠ .pre) (line past : Bytes) :
    (gemtextLink clt { b.bits with list := false } line past).map
        (fun r => ((if b.bits.list then [text "</ul>"] else []) ++ r.1, r.2))
      = (linkLine clt line past).map fun t =>
          ((if t.region = b && b.joins then [] else b.closes ++ t.region.opens) ++ t.pieces,
            t.region.bits) := by
  rw [gemtextLink, linkLine]
  generalize cutLink line past = cut
  obtain ⟨url, label, past⟩ := cut
  dsimp only
  rcases clt.cltPc with _ | pc
  · rfl
  rcases linkUrl clt url past with _ | url
  · rfl
  dsimp only
  by_cases himage : (!pc.noImgprv && matchImageHeur url) = true
  · rw [if_pos himage, if_pos himage]
    cases b with
    | pre => exact absurd rfl hb
    | flow | list | nav => rfl
  · rw [if_neg himage, if_neg himage]
    cases b with
    | pre => exact absurd rfl hb
    | flow | list | nav => rfl

theorem blockLine_region (line : Bytes) : (blockLine line).region = .flow := by
  unfold blockLine
  split <;> rfl

theorem gemtextBlock_eq (line : Bytes) : gemtextBlock line = (blockLine line).pieces := by
  unfold gemtextBlock blockLine blockKind
  split_ifs <;> rfl

/-- **A line outside of the figures** is written as its class asks for, in front of it what has to
be closed and opened. -/
theorem line_translated (hclt : clt.cltTranslate = b.bits) (hb : b ≠ .pre) {l : RawLine}
    (hfence : l.fence = false) :
    gemtextTranslateLine clt l.1 l.2 = (l.classify clt).map fun t =>
      ((if t.region = b && b.joins then [] else b.closes ++ t.region.opens) ++ t.pieces,
        t.region.bits) := by
  have hpre : b.bits.pre = false := by
    cases b with
    | pre => exact absurd rfl hb
    | flow | list | nav => rfl
  have hf : (lit "```").isPrefixOf l.1 = false := hfence
  rw [gemtextTranslateLine, RawLine.classify, hclt]
  simp only [hpre, Bool.false_eq_true, if_false, hf]
  by_cases hbullet : (lit "* ").isPrefixOf l.1 = true
  · simp only [hbullet, if_true]
    cases b with
    | pre => exact absurd rfl hb
    | flow | list | nav => rfl
  simp only [hbullet, if_false, Bool.false_eq_true]
  by_cases hlink : (lit "=>").isPrefixOf l.1 = true
  · simp only [hlink, if_true]
    have h := @link_translated clt b hb (l.1.drop 2) l.2
    dsimp only at h
    rwa [hpre] at h
  · simp only [hlink, if_false, Bool.false_eq_true, Option.map_some, blockLine_region,
      ← gemtextBlock_eq]
    cases b with
    | pre => exact absurd rfl hb
    | flow | list | nav => rfl

end Line

/-! ## The document -/

/-- What `proxy_error` writes in front of the foot. -/
def closeBits (tr : Translate) : List Piece :=
  (if tr.pre then tpPreClose else []) ++ (if tr.list then [text "</ul>"] else [])
    ++ (if tr.nav then [text "</ul></nav>"] else [])

theorem closeBits_bits (b : Region) : closeBits b.bits = b.closes := by
  cases b <;> rfl

/-- The lines of a part that is being written. -/
def streamText (b : Region) (ts : List TextLine) : List Piece :=
  stream TextLine.region Region.joins Region.opens Region.closes TextLine.pieces b ts

/-- What the rest of the document still asks for, when `b` is open. -/
def remaining (clt : Client) (b : Region) (doc : List RawLine) : Option (List Piece) :=
  if b = .pre then
    (partsPieces clt (cutFences true doc).2).map fun rest =>
      ((cutFences true doc).1.flatMap fun l => [.html l.1, text "\n"]) ++ tpPreClose ++ rest
  else
    ((cutFences false doc).1.mapM (RawLine.classify clt)).bind fun ts =>
      (partsPieces clt (cutFences false doc).2).map fun rest => streamText b ts ++ rest

theorem figurePieces_eq (caption : Bytes) (ls : List RawLine) :
    figurePieces caption ls
      = tpPreOpen caption ++ (ls.flatMap fun l => [.html l.1, text "\n"]) ++ tpPreClose := rfl

section Document

variable (clt : Client)

/-- At the start, and behind a figure, nothing is open. -/
theorem remaining_flow (doc : List RawLine) : remaining clt .flow doc = groupedBody clt doc := by
  have hstream (ts : List TextLine) : streamText .flow ts = textPieces ts :=
    stream_eq_grouped _ _ _ _ _ rfl rfl ts
  rw [remaining, if_neg (by decide), groupedBody, parts, partsPieces, Part.pieces]
  simp only [hstream]
  cases (cutFences false doc).1.mapM (RawLine.classify clt) <;> rfl

theorem remaining_fence {b : Region} (hb : b ≠ .pre) {l : RawLine} (hfence : l.fence = true)
    (doc : List RawLine) :
    remaining clt b (l :: doc)
      = (remaining clt .pre doc).map ((b.closes ++ tpPreOpen l.caption) ++ ·) := by
  rw [remaining, if_neg hb, remaining, if_pos rfl, cutFences, if_pos hfence]
  show (partsPieces clt (.figure _ _ :: _)).map _ = _
  rw [partsPieces, Part.pieces, Option.bind_some, Option.map_map, Option.map_map, figurePieces_eq]
  refine congrArg (Option.map · _) (funext fun rest => ?_)
  simp [streamText, stream]

theorem remaining_pre_fence {l : RawLine} (hfence : l.fence = true) (doc : List RawLine) :
    remaining clt .pre (l :: doc) = (remaining clt .flow doc).map (tpPreClose ++ ·) := by
  rw [remaining_flow, remaining, if_pos rfl, cutFences, if_pos hfence]
  rfl

theorem remaining_pre_line {l : RawLine} (hfence : l.fence = false) (doc : List RawLine) :
    remaining clt .pre (l :: doc)
      = (remaining clt .pre doc).map ([.html l.1, text "\n"] ++ ·) := by
  rw [remaining, if_pos rfl, remaining, if_pos rfl, cutFences, hfence, if_neg Bool.false_ne_true,
    Option.map_map]
  refine congrArg (Option.map · _) (funext fun rest => ?_)
  simp

theorem remaining_line {b : Region} (hb : b ≠ .pre) {l : RawLine} (hfence : l.fence = false)
    (doc : List RawLine) :
    remaining clt b (l :: doc) = (l.classify clt).bind fun t =>
      (remaining clt t.region doc).map
        ((if t.region = b && b.joins then [] else b.closes ++ t.region.opens) ++ t.pieces
          ++ ·) := by
  have hregion (t : TextLine) : t.region ≠ .pre := by cases t <;> exact Region.noConfusion
  rw [remaining, if_neg hb, cutFences, hfence, if_neg Bool.false_ne_true]
  show Option.bind ((l :: (cutFences false doc).1).mapM (RawLine.classify clt)) _ = _
  rw [List.mapM_cons]
  cases l.classify clt with
  | none => rfl
  | some t =>
    rw [Option.bind_some, remaining, if_neg (hregion t)]
    cases (cutFences false doc).1.mapM (RawLine.classify clt) with
    | none => rfl
    | some ts =>
      show (partsPieces clt (cutFences false doc).2).map _ = Option.map _ (Option.map _ _)
      rw [Option.map_map]
      refine congrArg (Option.map · _) (funext fun rest => ?_)
      simp [streamText, stream]

/-- **What the code still writes is what the document still asks for.** -/
theorem translateLines_eq_remaining (b : Region) (doc : List RawLine) :
    (translateLines clt b.bits doc).map (fun r => (r.1 ++ closeBits r.2, r.2.enabled))
      = (remaining clt b doc).map fun ps => (ps, true) := by
  induction doc generalizing b with
  | nil =>
    have hnil : remaining clt b [] = some b.closes := by
      rw [remaining]
      split
      · rename_i hb
        subst hb
        rfl
      · show some (streamText b [] ++ []) = _
        rw [List.append_nil]
        rfl
    rw [translateLines, hnil, Option.map_some, Option.map_some, List.nil_append, closeBits_bits]
    cases b <;> rfl
  | cons l doc ih =>
    -- one line is translated, and then the rest from what it leaves open
    have hstep {ps : List Piece} {b' : Region} {this : Option (List Piece)}
        (hline : gemtextTranslateLine { clt with cltTranslate := b.bits } l.1 l.2
          = some (ps, b'.bits))
        (hthis : this = (remaining clt b' doc).map (ps ++ ·)) :
        (translateLines clt b.bits (l :: doc)).map (fun r => (r.1 ++ closeBits r.2, r.2.enabled))
          = this.map fun ps => (ps, true) := by
      have hih := congrArg (Option.map fun q : List Piece × Bool => (ps ++ q.1, q.2)) (ih b')
      rw [translateLines, hline, hthis]
      dsimp only
      rw [Option.map_map, Option.map_map] at hih
      rw [Option.map_map, Option.map_map]
      refine Eq.trans (congrArg (Option.map · _) (funext fun r => ?_)) hih
      simp
    by_cases hb : b = .pre
    · subst hb
      have hline := @preformatted_line { clt with cltTranslate := Region.pre.bits } rfl l
      cases hfence : l.fence with
      | true =>
        rw [hfence, if_pos rfl] at hline
        exact hstep hline (remaining_pre_fence clt hfence doc)
      | false =>
        rw [hfence, if_neg Bool.false_ne_true] at hline
        exact hstep hline (remaining_pre_line clt hfence doc)
    · cases hfence : l.fence with
      | true =>
        exact hstep (@fence_opens { clt with cltTranslate := b.bits } b rfl hb l hfence)
          (remaining_fence clt hb hfence doc)
      | false =>
        have hline := @line_translated { clt with cltTranslate := b.bits } b rfl hb l hfence
        have hclass : l.classify { clt with cltTranslate := b.bits } = l.classify clt := rfl
        rw [hclass] at hline
        have hrest := remaining_line clt hb hfence doc
        cases ht : l.classify clt with
        | none =>
          rw [ht] at hline hrest
          rw [hrest, translateLines, hline]
          rfl
        | some t =>
          rw [ht] at hline hrest
          exact hstep hline hrest

/-- **The page of a document is its groups between head and foot.** -/
theorem gemtextPage_eq_grouped (lang : Bytes) (doc : List RawLine) :
    gemtextPage clt lang doc
      = (groupedBody clt doc).map fun body => tpHead clt lang none ++ body ++ tpFoot clt := by
  have h := translateLines_eq_remaining clt .flow doc
  rw [remaining_flow] at h
  rw [gemtextPage, show ({ Translate.zero with enabled := true } : Translate) = Region.flow.bits
    from rfl]
  cases hr : translateLines clt Region.flow.bits doc with
  | none =>
    rw [hr] at h
    have hnone := Option.map_eq_none_iff.mp h.symm
    rw [hnone]
    rfl
  | some r =>
    rw [hr] at h
    obtain ⟨body, hbody, heq⟩ := Option.map_eq_some_iff.mp h.symm
    obtain ⟨rfl, henabled⟩ := Prod.mk.inj heq
    rw [hbody, Option.map_some, Option.map_some]
    have hclose : closePieces { clt with cltTranslate := r.2 } = closeBits r.2 ++ tpFoot clt := by
      rw [closePieces, ← henabled]
      rfl
    rw [hclose]
    simp

end Document

/-! ## Responses -/

/-- A line of a document as it is sent: with LF or CR LF behind it. -/
structure SentLine where
  text : Bytes
  crlf : Bool
  nul : 0 ∉ text
  lf : 10 ∉ text
  cr : crlf = false → text.getLast? ≠ some 13

def SentLine.bytes (l : SentLine) : Bytes := l.text ++ if l.crlf then [13, 10] else [10]

theorem splitLines_sent (ls : List SentLine) :
    (splitLines (ls.flatMap SentLine.bytes)).1.map stripCr = ls.map SentLine.text ∧
      (splitLines (ls.flatMap SentLine.bytes)).2 = [] := by
  induction ls with
  | nil => exact ⟨rfl, rfl⟩
  | cons l ls ih =>
    rw [List.flatMap_cons, SentLine.bytes]
    cases hcrlf : l.crlf with
    | true =>
      have hlf : 10 ∉ l.text ++ [13] := by simpa using l.lf
      have hsplit : l.text ++ [13, 10] ++ ls.flatMap SentLine.bytes
          = (l.text ++ [13]) ++ 10 :: ls.flatMap SentLine.bytes := by simp
      have hstrip : stripCr (l.text ++ [13]) = l.text := by simp [stripCr]
      rw [if_pos rfl, hsplit, splitLines_cons hlf, List.map_cons, List.map_cons, hstrip, ih.1]
      exact ⟨rfl, ih.2⟩
    | false =>
      have hsplit : l.text ++ [10] ++ ls.flatMap SentLine.bytes
          = l.text ++ 10 :: ls.flatMap SentLine.bytes := by simp
      have hstrip : stripCr l.text = l.text := by simp [stripCr, l.cr hcrlf]
      rw [if_neg Bool.false_ne_true, hsplit, splitLines_cons l.lf, List.map_cons, List.map_cons,
        hstrip, ih.1]
      exact ⟨rfl, ih.2⟩

/-- The lines without a NUL are C strings as they are. -/
theorem zipWith_cstrPast {mems lines : List Bytes} (hnul : ∀ l ∈ lines, 0 ∉ l) :
    List.zipWith cstrPast mems lines = lines.zip (mems.map cstr) := by
  induction mems generalizing lines with
  | nil => cases lines <;> rfl
  | cons m mems ih =>
    cases lines with
    | nil => rfl
    | cons l lines =>
      have hl : cstrPast m l = (l, cstr m) := by
        have hdrop : l.dropWhile (· != 0) = [] := by
          rw [List.dropWhile_eq_nil_iff]
          intro b hb
          exact bne_iff_ne.mpr fun h => hnul l List.mem_cons_self (h ▸ hb)
        rw [cstrPast, hdrop]
      rw [List.zipWith_cons_cons, List.map_cons, List.zip_cons_cons, hl,
        ih fun l hl => hnul l (List.mem_cons_of_mem _ hl)]

/-- **Streaming translation is grouped translation.** The lines of a gemtext response, in any pieces
and followed by the end of file, are answered with the page of the grouped document; where the
document has none, because a null pointer is followed on the way, the request is never ended. The
memory behind the lines is what it is. -/
theorem translation_grouped (env : Env) (f : Fcgi) (i : UInt16) (c : Client) (as : List Arrival)
    (hdr mime lang : Bytes) (ls : List SentLine) (hopen : f.closed = false)
    (hwrites : false ∉ f.writes) (hfind : f.find i.toUInt32 = some c) (hc : c.Awaiting)
    (hline : readlnCrlfStrict (arrived as) = some (hdr, ls.flatMap SentLine.bytes))
    (htimely : timely [] as = true) (hmime : successMime hdr = some mime)
    (hgem : (lit "text/gemini").isPrefixOf mime = true)
    (hlang : (parseMime .zero mime).2 = some lang) :
    ∃ mems : List Bytes, mems.length = ls.length ∧
      (c.cltScriptName.isSome = true →
        (groupedBody c ((ls.map SentLine.text).zip mems)).isSome = true) ∧
      match groupedBody c ((ls.map SentLine.text).zip mems) with
      | some body =>
          answer i (run env f (responseEvents i as)).trace = (answer i f.trace).append
            ⟨lit "Content-Type: text/html;charset=utf-8\r\n\r\n"
              ++ pageText (tpHead c lang none ++ body ++ tpFoot c), [endReqBody 0 requestComplete]⟩
      | none => (answer i (run env f (responseEvents i as)).trace).ends
          = (answer i f.trace).ends := by
  obtain ⟨hlines, -⟩ := splitLines_sent ls
  obtain ⟨mems, hmems, hplay⟩ := playedOn_gemtext_response hc hline htimely hmime hgem hlang
  have hdoc : document mems (splitLines (ls.flatMap SentLine.bytes)).1
      = (ls.map SentLine.text).zip (mems.map cstr) := by
    rw [document, hlines]
    refine zipWith_cstrPast fun l hl => ?_
    obtain ⟨l, -, rfl⟩ := List.mem_map.mp hl
    exact l.nul
  rw [hdoc] at hplay
  have hlength : (mems.map cstr).length = ls.length := by
    have h := congrArg List.length hlines
    rw [List.length_map, List.length_map] at h
    rw [List.length_map, hmems, h]
  have hpage := gemtextPage_eq_grouped c lang ((ls.map SentLine.text).zip (mems.map cstr))
  refine ⟨mems.map cstr, hlength, fun hscript => ?_, ?_⟩
  · have hsome := gemtextPage_isSome hc.started hscript lang
      ((ls.map SentLine.text).zip (mems.map cstr))
    rwa [hpage, Option.isSome_map] at hsome
  · rw [answer_response env hopen hwrites hfind hc as]
    cases hbody : groupedBody c ((ls.map SentLine.text).zip (mems.map cstr)) with
    | some body =>
      rw [hbody] at hpage
      rw [reply_of_page hplay hpage]
    | none =>
      rw [hbody] at hpage
      show (answer i f.trace).ends ++ (reply as c).ends = _
      rw [ends_reply_of_crash hplay hpage, List.append_nil]

/-- Two bullets, a link and a fence that is not closed, in two pieces. -/
theorem bullets_and_figure_grouped :
    let f := run exampleEnv (Fcgi.new [] []) exampleSent
    let as := [sends "20 text/gemini\r\n* a\n* b\r", sends "\n=> x y\n```\n* c\n"]
    let lines := [lit "* a", lit "* b", lit "=> x y", lit "```", lit "* c"]
    ∃ mems : List Bytes, mems.length = 5 ∧ ∃ body,
      groupedBody exampleAwaiting (lines.zip mems) = some body ∧
      answer 1 (run exampleEnv f (responseEvents 1 as)).trace = (answer 1 f.trace).append
        ⟨lit "Content-Type: text/html;charset=utf-8\r\n\r\n"
          ++ pageText (tpHead exampleAwaiting [] none ++ body ++ tpFoot exampleAwaiting),
        [endReqBody 0 requestComplete]⟩ := by
  intro f as lines
  let ls : List SentLine := [
    ⟨lit "* a", false, by decide, by decide, by decide⟩,
    ⟨lit "* b", true, by decide, by decide, by decide⟩,
    ⟨lit "=> x y", false, by decide, by decide, by decide⟩,
    ⟨lit "```", false, by decide, by decide, by decide⟩,
    ⟨lit "* c", false, by decide, by decide, by decide⟩]
  obtain ⟨mems, hmems, hsome, hanswer⟩ := translation_grouped exampleEnv f 1 exampleAwaiting as
    (lit "20 text/gemini") (lit "text/gemini") [] ls (by decide +kernel) (by decide +kernel)
    (by decide +kernel) exampleAwaiting_awaiting (by decide +kernel) (by decide +kernel)
    (by decide +kernel) (by decide +kernel) (by decide +kernel)
  obtain ⟨body, hbody⟩ := Option.isSome_iff_exists.mp (hsome rfl)
  rw [hbody] at hanswer
  exact ⟨mems, hmems, body, hbody, hanswer⟩

/-- What the groups of that document look like. -/
example :
    groupedBody exampleAwaiting ([lit "* a", lit "* b", lit "=> x y", lit "```", lit "* c"].zip
      [[], [], [], [], []])
      = some [text "<ul>", text "<li>", .html (lit "a"), text "</li>", text "<li>", .html (lit "b"),
        text "</li>", text "</ul>", text "<nav><ul>", text "<li><a href='", .url (lit "x"),
        text "'>", .html (lit "y"), text "</a></li>", text "</ul></nav>", text "<figure>",
        text "<pre>", .html (lit "* c"), text "\n", text "</pre></figure>"] := by
  decide +kernel

end Galileo
