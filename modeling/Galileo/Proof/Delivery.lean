import Galileo.Proof.Exposed
import Galileo.Proof.Lifecycle

/-!
# What becomes of a response

Three questions about a response of a Gemini server and the page it becomes. Is anything lost or
changed on the way? A body that is not gemtext is passed on byte by byte, but *what is gemtext* is
decided on a prefix of its type; a gemtext body is translated line by line, but a last line without
a line end is not. And does it matter in which pieces the response arrives? It does for a status
line that is longer than the limit, which is looked at only while its end has not arrived.
-/

set_option autoImplicit false

namespace Galileo

open Lib Lib.FastCgi

variable {as : List Arrival} {s : Bytes}

/-! ## A request on its way -/

/-- A `GET` request is complete, the host is resolved and the connection made. -/
def exampleSent : List Event :=
  Event.begin 1 1 1 ++ Event.record params 1 getParams ++ Event.record params 1 []
    ++ [.resolved 1 (some [⟨[]⟩]) ⟨some 0, [some 5], true, true, true, true⟩]

/-- The client then. -/
def exampleAwaiting : Client :=
  { exampleClient .get with
    cltFd := 5
    cltPc := some ⟨lit "h", lit "/s.css", lit "::1", lit "h", lit "1965", true, false, false, false⟩
    cltBev := some ⟨[], lit "gemini://h//\r\n"⟩ }

theorem exampleAwaiting_awaiting : exampleAwaiting.Awaiting := ⟨rfl, rfl, rfl, rfl, rfl⟩

/-- Bytes of the Gemini server; the memory behind its lines is empty. -/
def sends (bytes : String) : Arrival := (fun _ => [], lit bytes)

/-! ## Content that is not gemtext -/

theorem reply_gemini_ne {c : Client} {hdr body mime : Bytes} (hc : c.Awaiting)
    (hline : readlnCrlfStrict (arrived as) = some (hdr, body)) (htimely : timely [] as = true)
    (hmime : successMime hdr = some mime) (hgem : (lit "text/gemini").isPrefixOf mime = true) :
    reply as c ≠ ⟨lit "Content-Type: " ++ mime ++ lit "\r\n\r\n" ++ body,
      [endReqBody 0 requestComplete]⟩ := by
  intro h
  cases hlang : (parseMime .zero mime).2 with
  | none =>
    obtain ⟨as', -, hplay⟩ := playedOn_success hc hline htimely hmime
    rw [hlang] at hplay
    rw [reply_of_ends hplay ((Utters.write _).append (.write _))] at h
    exact absurd (Answer.mk.inj h).2 (by decide)
  | some lang =>
    obtain ⟨mems, -, hplay⟩ := playedOn_gemtext_response hc hline htimely hmime hgem hlang
    cases hpage : gemtextPage c lang (document mems (splitLines body).1) with
    | none =>
      have hends := ends_reply_of_crash hplay hpage
      rw [h] at hends
      cases hends
    | some ps =>
      obtain ⟨more, rfl⟩ := List.isPrefixOf_iff_prefix.mp hgem
      rw [reply_of_page hplay hpage] at h
      -- the types differ behind `text/`
      have hbyte := congrArg (fun a : Answer => a.text[19]?) h
      simp only [List.append_assoc] at hbyte
      rw [List.getElem?_append_left (by decide), List.getElem?_append_right (by decide),
        List.getElem?_append_left (by decide)] at hbyte
      exact absurd hbyte (by decide)

/-- **Content of another type is served as it is**: the header block, the bytes of the body in
order, the end with status 0 and nothing else, in whatever pieces the response arrives. What the
code takes for another type is any that does not *begin* with `text/gemini`. -/
theorem served_as_is_iff (env : Env) (f : Fcgi) (i : UInt16) (c : Client) (as : List Arrival)
    (hdr body mime : Bytes) (hopen : f.closed = false) (hwrites : false ∉ f.writes)
    (hfind : f.find i.toUInt32 = some c) (hc : c.Awaiting)
    (hline : readlnCrlfStrict (arrived as) = some (hdr, body)) (htimely : timely [] as = true)
    (hmime : successMime hdr = some mime) :
    answer i (run env f (responseEvents i as)).trace
        = (answer i f.trace).append ⟨lit "Content-Type: " ++ mime ++ lit "\r\n\r\n" ++ body,
            [endReqBody 0 requestComplete]⟩
      ↔ (lit "text/gemini").isPrefixOf mime = false := by
  rw [answer_response env hopen hwrites hfind hc as]
  constructor
  · intro h
    by_contra hgem
    refine reply_gemini_ne hc hline htimely hmime (by simpa using hgem) ?_
    simpa [Answer.append, Answer.ext_iff] using h
  · intro hother
    rw [reply_raw hc hline htimely hmime hother]

/-- A plain text, in three pieces. -/
theorem plain_text_served :
    let f := run exampleEnv (Fcgi.new [] []) exampleSent
    answer 1 (run exampleEnv f (responseEvents 1
        [sends "20 text/pl", sends "ain\r\nh", sends "i\r\n"])).trace
      = ⟨lit "Content-Type: text/plain\r\n\r\nhi\r\n", [endReqBody 0 requestComplete]⟩ := by
  intro f
  have h := (served_as_is_iff exampleEnv f 1 exampleAwaiting
    [sends "20 text/pl", sends "ain\r\nh", sends "i\r\n"] (lit "20 text/plain") (lit "hi\r\n")
    (lit "text/plain") (by decide +kernel) (by decide +kernel) (by decide +kernel)
    exampleAwaiting_awaiting (by decide +kernel) (by decide +kernel) (by decide +kernel)).mpr
    (by decide)
  exact h.trans (by decide +kernel)

/-- A type that is not `text/gemini` and begins like it: the response becomes a page. -/
theorem geminix_translated :
    let f := run exampleEnv (Fcgi.new [] []) exampleSent
    let as := [sends "20 text/geminix\r\nhi\n"]
    f.fcgClients = [exampleAwaiting] ∧
      readlnCrlfStrict (arrived as) = some (lit "20 text/geminix", lit "hi\n") ∧
      successMime (lit "20 text/geminix") = some (lit "text/geminix") ∧
      lit "text/geminix" ≠ lit "text/gemini" ∧
      (answer 1 (run exampleEnv f (responseEvents 1 as)).trace).text
        = lit "Content-Type: text/html;charset=utf-8\r\n\r\n" ++
          pageText (tpHead exampleAwaiting [] none ++ [text "<p>", .html (lit "hi"), text "</p>"]
            ++ tpFoot exampleAwaiting) := by
  decide +kernel

/-! ## Gemtext -/

/-- The lines of a body; the last one may be without a line end. -/
def bodyLines (body : Bytes) : List Bytes :=
  (splitLines body).1.map stripCr ++ if (splitLines body).2 = [] then [] else [(splitLines body).2]

section Gemtext

variable (env : Env) {f : Fcgi} {i : UInt16} {c : Client} {as : List Arrival}
  {hdr body mime lang : Bytes} (hopen : f.closed = false) (hwrites : false ∉ f.writes)
  (hfind : f.find i.toUInt32 = some c) (hc : c.Awaiting) (hscript : c.cltScriptName.isSome = true)
  (hline : readlnCrlfStrict (arrived as) = some (hdr, body)) (htimely : timely [] as = true)
  (hmime : successMime hdr = some mime) (hgem : (lit "text/gemini").isPrefixOf mime = true)
  (hlang : (parseMime .zero mime).2 = some lang)

include hopen hwrites hfind hc hscript hline htimely hmime hgem hlang

/-- What is behind the last LF is still in the buffer when the end of file comes. -/
theorem held_at_end :
    ∃ d, (run env f (upstreamEvents i as)).find i.toUInt32 = some d ∧
      d.cltBev.map (·.input) = some (splitLines body).2 := by
  obtain ⟨mems, -, hplay⟩ := playedOn_gemtext_response hc hline htimely hmime hgem hlang
  obtain ⟨ps, hpage⟩ := Option.isSome_iff_exists.mp
    (gemtextPage_isSome hc.started hscript lang (document mems (splitLines body).1))
  obtain ⟨r, hr, -⟩ := Option.map_eq_some_iff.mp hpage
  rw [← translateLines_holding _ { Translate.zero with enabled := true }
    (splitLines body).2] at hr
  obtain ⟨ops, -, hspeak⟩ := speak_of_translateLines hr
  have hnext : (playedOn as c).next
      = .goes ((c.accepted r.2).holding (splitLines body).2) := by
    rw [hplay]
    exact congrArg Script.next hspeak
  cases heard_arrivals env as hopen hfind hc.connected with
  | goes hnext' hserial htext hcap hfind' =>
    rw [hnext] at hnext'
    cases hnext'
    exact ⟨_, hfind', rfl⟩
  | ends hnext' =>
    rw [hnext] at hnext'
    cases hnext'
  | crashed hnext' =>
    rw [hnext] at hnext'
    cases hnext'
  | torn hfail => exact absurd hfail hwrites

end Gemtext

/-- **The lines of a gemtext body are translated**, all of them and in order, between the head of
the page and its end, and nothing of the body is left over — when the body ends with a line end. A
last line without one stays in the buffer and is lost. -/
theorem lines_translated_iff (env : Env) (f : Fcgi) (i : UInt16) (c : Client) (as : List Arrival)
    (hdr body mime lang : Bytes) (hopen : f.closed = false) (hwrites : false ∉ f.writes)
    (hfind : f.find i.toUInt32 = some c) (hc : c.Awaiting)
    (hscript : c.cltScriptName.isSome = true)
    (hline : readlnCrlfStrict (arrived as) = some (hdr, body)) (htimely : timely [] as = true)
    (hmime : successMime hdr = some mime) (hgem : (lit "text/gemini").isPrefixOf mime = true)
    (hlang : (parseMime .zero mime).2 = some lang) :
    ((∃ mems ps, mems.length = (bodyLines body).length ∧
        gemtextPage c lang (List.zipWith cstrPast mems (bodyLines body)) = some ps ∧
        answer i (run env f (responseEvents i as)).trace
          = (answer i f.trace).append
            ⟨lit "Content-Type: text/html;charset=utf-8\r\n\r\n" ++ pageText ps,
              [endReqBody 0 requestComplete]⟩) ∧
      ∀ d, (run env f (upstreamEvents i as)).find i.toUInt32 = some d →
        d.cltBev.map (·.input) = some [])
      ↔ body = [] ∨ body.getLast? = some 10 := by
  rw [← splitLines_snd_eq_nil_iff]
  obtain ⟨d, hd, hheld⟩ := held_at_end env hopen hwrites hfind hc hscript hline htimely hmime
    hgem hlang
  constructor
  · rintro ⟨-, hempty⟩
    rw [hempty d hd] at hheld
    exact (Option.some.inj hheld).symm
  · intro hrest
    obtain ⟨mems, hmems, hplay⟩ := playedOn_gemtext_response hc hline htimely hmime hgem hlang
    obtain ⟨ps, hpage⟩ := Option.isSome_iff_exists.mp
      (gemtextPage_isSome hc.started hscript lang (document mems (splitLines body).1))
    have hlines : bodyLines body = (splitLines body).1.map stripCr := by simp [bodyLines, hrest]
    refine ⟨⟨mems, ps, by rw [hlines, List.length_map, hmems], by rw [hlines]; exact hpage, ?_⟩,
      fun d' hd' => ?_⟩
    · rw [answer_response env hopen hwrites hfind hc as, reply_of_page hplay hpage]
    · rw [hd] at hd'
      cases hd'
      rw [hheld, hrest]

/-- Two lines, in two pieces. -/
theorem two_lines_translated :
    let f := run exampleEnv (Fcgi.new [] []) exampleSent
    let as := [sends "20 text/gemini\r\n# a\r", sends "\nb\n"]
    (∃ mems ps, mems.length = (bodyLines (lit "# a\r\nb\n")).length ∧
        gemtextPage exampleAwaiting [] (List.zipWith cstrPast mems (bodyLines (lit "# a\r\nb\n")))
          = some ps ∧
        answer 1 (run exampleEnv f (responseEvents 1 as)).trace
          = (answer 1 f.trace).append
            ⟨lit "Content-Type: text/html;charset=utf-8\r\n\r\n" ++ pageText ps,
              [endReqBody 0 requestComplete]⟩) ∧
      ∀ d, (run exampleEnv f (upstreamEvents 1 as)).find 1 = some d →
        d.cltBev.map (·.input) = some [] := by
  intro f as
  exact (lines_translated_iff exampleEnv f 1 exampleAwaiting as (lit "20 text/gemini")
    (lit "# a\r\nb\n") (lit "text/gemini") [] (by decide +kernel) (by decide +kernel)
    (by decide +kernel) exampleAwaiting_awaiting rfl (by decide +kernel) (by decide +kernel)
    (by decide +kernel) (by decide +kernel) (by decide +kernel)).mpr (by decide +kernel)

/-- The second line of this body has no line end: it is in the buffer when the end of file comes,
and the page ends behind the first. -/
theorem last_line_lost :
    let f := run exampleEnv (Fcgi.new [] []) exampleSent
    let as := [sends "20 text/gemini\r\n# a\nb"]
    (run exampleEnv f (upstreamEvents 1 as)).fcgClients.map (·.cltBev.map (·.input))
        = [some (lit "b")] ∧
      bodyLines (lit "# a\nb") = [lit "# a", lit "b"] ∧
      answer 1 (run exampleEnv f (responseEvents 1 as)).trace
        = ⟨lit "Content-Type: text/html;charset=utf-8\r\n\r\n" ++
            pageText
              (tpHead exampleAwaiting [] none ++ [text "<h1>", .html (lit " a"), text "</h1>"]
              ++ tpFoot exampleAwaiting), [endReqBody 0 requestComplete]⟩ := by
  decide +kernel

/-! ## Arrivals -/

/-- The answer to what is not a response. -/
def errorReply (c : Client) : Answer :=
  ⟨pageText (proxyStartReply 501 (some (lit "text/html")))
    ++ pageText (tpError c (-1) (lit "Proxy error")), [endReqBody 1 requestComplete]⟩

section Arrivals

variable {c : Client} {hdr rest : Bytes}

theorem Script.andThen_idle (s : Script) : s.andThen idle = s := by
  obtain ⟨ops, next⟩ := s
  cases next <;> simp [Script.andThen, Script.after, idle]

theorem errorScript_evRead (hdone : c.cltHeadersdone = false) :
    errorScript evRead c = ⟨[.write (proxyStartReply 501 (some (lit "text/html")))]
      ++ [.write (tpError c (-1) (lit "Proxy error"))], .ends 1 requestComplete⟩ := by
  rw [errorScript, hdone]
  rfl

theorem reply_error (hdone : c.cltHeadersdone = false)
    (hplay : playedOn as c = errorScript evRead c) : reply as c = errorReply c := by
  rw [errorScript_evRead hdone] at hplay
  exact reply_of_ends hplay ((Utters.write _).append (.write _))

/-- A line that is not a status line is an error, in time or not. -/
theorem playedOn_invalid (hc : c.Awaiting)
    (hline : readlnCrlfStrict (arrived as) = some (hdr, rest)) (hinvalid : statusLine hdr = false) :
    playedOn as c = errorScript evRead c := by
  cases htimely : timely [] as with
  | false =>
    have hlate := playedOn_late as hc.headers htimely
    rwa [hc.holding_nil] at hlate
  | true =>
    obtain ⟨oob, mem, rest', as', -, hplay⟩ :=
      playedOn_header (b := []) as hc.headers rfl htimely hline
    rw [hc.holding_nil, headerScript_of_not_statusLine oob mem hinvalid] at hplay
    obtain ⟨status, hends⟩ := errorScript_ends evRead (c.holding rest')
    rw [hplay, Script.andThen_ends hends]
    rfl

/-- All at once. -/
theorem playedOn_single (mem : Bytes → Bytes) (hc : c.Awaiting)
    (hline : readlnCrlfStrict s = some (hdr, rest)) :
    playedOn [(mem, s)] c = headerScript mem (mem s) hdr (c.holding rest) := by
  have hread := upstreamScript_holding (b := []) hc.headers (mem, s)
  rw [hc.holding_nil] at hread
  simp only [List.nil_append, hline] at hread
  rw [playedOn, hread]
  exact Script.andThen_idle _

/-- A status line that is not of success is answered at once. The body does not matter, only what
is behind the line. -/
theorem headerScript_refusal (hsuccess : successMime hdr = none) (oob oob' : Bytes → Bytes)
    (mem b b' : Bytes) (k : Client → Script) :
    (headerScript oob mem hdr (c.holding b)).andThen k
    = headerScript oob' mem hdr (c.holding b') := by
  have herror : (errorScript evRead (c.holding b)).andThen k
      = errorScript evRead (c.holding b') := by
    obtain ⟨status, hends⟩ := errorScript_ends evRead (c.holding b)
    rw [Script.andThen_ends hends]
    rfl
  rcases hdr with _ | ⟨h0, _ | ⟨h1, _ | ⟨h2, _ | ⟨h3, more⟩⟩⟩⟩
  case cons.cons.cons.cons =>
    rw [successMime] at hsuccess
    simp only [headerScript]
    by_cases hvalid : (isdigit h0 && isdigit h1 && h2 == 32) = true
    · have h50 : (h0 == 50) = false := by
        by_contra h
        rw [Bool.not_eq_false] at h
        simp_all
      simp only [hvalid, if_true, statusScript, h50, Bool.false_eq_true, if_false]
      by_cases h49 : (h0 == 49) = true
      · simp only [h49, if_true]
        rfl
      · by_cases h51 : (h0 == 51) = true
        · simp only [h49, h51, if_true, if_false, Bool.false_eq_true]
          rw [show proxyResurl (c.holding b) = proxyResurl c from rfl,
            show proxyResurl (c.holding b') = proxyResurl c from rfl]
          rcases proxyResurl c (cstrPast mem (h3 :: more)).1 (cstrPast mem (h3 :: more)).2 1025
            with _ | _ | buf <;> rfl
        · simp only [h49, h51, if_false, Bool.false_eq_true]
          rfl
    · simp only [hvalid, if_false, Bool.false_eq_true]
      exact herror
  all_goals exact herror

theorem playedOn_single_gemtext (mem : Bytes → Bytes) {s mime lang : Bytes} (hc : c.Awaiting)
    (hline : readlnCrlfStrict s = some (hdr, rest)) (hmime : successMime hdr = some mime)
    (hgem : (lit "text/gemini").isPrefixOf mime = true)
    (hlang : (parseMime .zero mime).2 = some lang) :
    playedOn [(mem, s)] c
      = (speak (document ((starts (splitLines rest).1 (splitLines rest).2).map mem)
          (splitLines rest).1)
        ((c.accepted { Translate.zero with enabled := true }).holding (splitLines rest).2)).after
          [.write [.raw (lit "Content-Type: text/html;charset=utf-8\r\n\r\n")],
            .write (tpHead c lang none)] := by
  have hsuccess := successScript_andThen mem mime rest [] hc.plain
  rw [show playedOn [] = idle from rfl, Script.andThen_idle, hlang, parseMime_gemini hgem,
    playedOn_gemtext [(mem, rest)] rfl rfl rfl] at hsuccess
  rw [playedOn_single mem hc hline, headerScript_success mem _ hmime, hsuccess]
  simp [arrived, behind, Translate.any]
  rfl

theorem arrived_single (mem : Bytes → Bytes) (s : Bytes) : arrived [(mem, s)] = s := by
  simp [arrived]

theorem timely_single (mem : Bytes → Bytes) (hline : readlnCrlfStrict s = some (hdr, rest)) :
    timely [] [(mem, s)] = true := by
  rw [timely, List.nil_append, hline]
  rfl

/-- A response that is neither a redirection, or another line that is answered by itself, nor a page
of gemtext. -/
def Memoryless (s : Bytes) : Prop :=
  ∀ hdr rest, readlnCrlfStrict s = some (hdr, rest) → statusLine hdr = true →
    ∃ mime, successMime hdr = some mime ∧
      ((lit "text/gemini").isPrefixOf mime = false ∨ (parseMime .zero mime).2 = none)

/-- Such a response is answered the same, however it arrives, if its status line is in time. -/
theorem reply_memoryless {as bs : List Arrival} (hc : c.Awaiting) (hsame : arrived bs = arrived as)
    (hmemoryless : Memoryless (arrived as))
    (has : ∀ hdr rest, readlnCrlfStrict (arrived as) = some (hdr, rest) → statusLine hdr = true →
      timely [] as = true)
    (hbs : ∀ hdr rest, readlnCrlfStrict (arrived as) = some (hdr, rest) → statusLine hdr = true →
      timely [] bs = true) : reply as c = reply bs c := by
  have hnil {as : List Arrival} {s : Script} (h : playedOn as (c.holding []) = s) :
      playedOn as c = s := by rwa [hc.holding_nil] at h
  cases hline : readlnCrlfStrict (arrived as) with
  | none =>
    have hline' : readlnCrlfStrict (arrived bs) = none := by rw [hsame, hline]
    by_cases hshort : (arrived as).length < 1026
    · rw [reply, reply, played, played, hnil (playedOn_waiting as hc.headers hline hshort),
        hnil (playedOn_waiting bs hc.headers hline' (by rw [hsame]; exact hshort)), hsame]
    · have hlong : 1026 ≤ (arrived as).length := Nat.le_of_not_lt hshort
      rw [reply_error hc.headers (hnil (playedOn_late as hc.headers
          (not_timely_of_long as (by decide) hline hlong))),
        reply_error hc.headers (hnil (playedOn_late bs hc.headers
          (not_timely_of_long bs (by decide) hline' (by rw [hsame]; exact hlong))))]
  | some p =>
    obtain ⟨hdr, rest⟩ := p
    have hline' : readlnCrlfStrict (arrived bs) = some (hdr, rest) := by rw [hsame, hline]
    cases hvalid : statusLine hdr with
    | false =>
      rw [reply_error hc.headers (playedOn_invalid hc hline hvalid),
        reply_error hc.headers (playedOn_invalid hc hline' hvalid)]
    | true =>
      obtain ⟨mime, hmime, hother | hrefused⟩ := hmemoryless hdr rest hline hvalid
      · rw [reply_raw hc hline (has hdr rest hline hvalid) hmime hother,
          reply_raw hc hline' (hbs hdr rest hline hvalid) hmime hother]
      · obtain ⟨as₁, -, hplay⟩ := playedOn_success hc hline (has hdr rest hline hvalid) hmime
        obtain ⟨as₂, -, hplay'⟩ := playedOn_success hc hline' (hbs hdr rest hline hvalid) hmime
        rw [hrefused] at hplay hplay'
        rw [reply, reply, played, played, hplay, hplay']

/-- The memory behind the lines of a body can be anything. -/
theorem exists_memory (hline : readlnCrlfStrict s = some (hdr, rest)) {mems : List Bytes}
    (hlen : mems.length = (splitLines rest).1.length) :
    ∃ mem, (starts (splitLines rest).1 (splitLines rest).2).map mem = mems := by
  have hlt : (joinLines (splitLines rest).1 (splitLines rest).2).length < s.length := by
    rw [joinLines_splitLines, readlnCrlfStrict_eq_append hline, List.length_append,
      List.length_cons, List.length_cons]
    omega
  obtain ⟨mem, -, hmap⟩ := exists_on_starts _ _ hlen s [] hlt
  exact ⟨mem, hmap⟩

/-- The other responses. -/
theorem exists_of_not_memoryless (h : ¬ Memoryless s) :
    ∃ hdr rest, readlnCrlfStrict s = some (hdr, rest) ∧ statusLine hdr = true ∧
      (successMime hdr = none ∨ ∃ mime lang, successMime hdr = some mime ∧
        (lit "text/gemini").isPrefixOf mime = true ∧ (parseMime .zero mime).2 = some lang) := by
  rw [Memoryless] at h
  push Not at h
  obtain ⟨hdr, rest, hline, hvalid, h⟩ := h
  refine ⟨hdr, rest, hline, hvalid, ?_⟩
  cases hmime : successMime hdr with
  | none => exact .inl rfl
  | some mime =>
    obtain ⟨hgem, hlang⟩ := h mime hmime
    obtain ⟨lang, hlang⟩ := Option.ne_none_iff_exists'.mp hlang
    exact .inr ⟨mime, lang, rfl, by simpa using hgem, hlang⟩

/-- **A response all at once** is answered as one in pieces, if its status line fits. -/
theorem exists_single (hc : c.Awaiting)
    (hfits : ∀ hdr rest, readlnCrlfStrict (arrived as) = some (hdr, rest) →
      statusLine hdr = true → hdr.length ≤ 1024) :
    ∃ mem, reply as c = reply [(mem, arrived as)] c := by
  have htimely : ∀ hdr rest, readlnCrlfStrict (arrived as) = some (hdr, rest) →
      statusLine hdr = true → timely [] as = true :=
    fun hdr rest hline hvalid => timely_of_short as rfl hline (hfits hdr rest hline hvalid)
  by_cases hmemoryless : Memoryless (arrived as)
  · exact ⟨fun _ => [], reply_memoryless hc (arrived_single _ _) hmemoryless htimely
      fun _ _ hline _ => timely_single _ hline⟩
  obtain ⟨hdr, rest, hline, hvalid, hrefusal | ⟨mime, lang, hmime, hgem, hlang⟩⟩ :=
    exists_of_not_memoryless hmemoryless
  · obtain ⟨oob, mem, rest', as', -, hplay⟩ :=
      playedOn_header (b := []) as hc.headers rfl (htimely hdr rest hline hvalid) hline
    refine ⟨fun _ => mem, ?_⟩
    rw [hc.holding_nil, headerScript_refusal hrefusal oob (fun _ => mem) mem rest' rest] at hplay
    rw [reply, reply, played, played, hplay, playedOn_single _ hc hline]
  · obtain ⟨mems, hmems, hplay⟩ :=
      playedOn_gemtext_response hc hline (htimely hdr rest hline hvalid) hmime hgem hlang
    -- every line gets the memory it had behind it
    obtain ⟨mem, hmap⟩ := exists_memory hline hmems
    refine ⟨mem, ?_⟩
    rw [reply, reply, played, played, hplay,
      playedOn_single_gemtext mem hc hline hmime hgem hlang, hmap]

/-! Two error pages differ in what they say. -/

theorem tpError_ne_of_reason {reason : String} (h : pageText [.html (lit reason)]
    ≠ pageText [.html (lit "Proxy error")]) :
    pageText (tpError c (-1) (lit reason)) ≠ pageText (tpError c (-1) (lit "Proxy error")) := by
  intro heq
  have hcode : ¬ (fmtInt (-1)).length ≥ 4 := by decide
  simp only [tpError, if_neg hcode, pageText_append, List.append_cancel_left_eq,
    List.append_cancel_right_eq] at heq
  simp only [bne_self_eq_false, Bool.false_eq_true, if_false, pageText_cons, pageText_nil,
    List.append_nil, List.append_cancel_left_eq, ← List.append_assoc,
    List.append_cancel_right_eq] at heq h
  exact h heq

theorem fmtInt_length : ∀ code : Fin 100, (fmtInt (code.val : Nat)).length < 4 := by decide

theorem tpError_ne_of_code {code : Nat} (hcode : code < 100) (reason : Bytes) :
    pageText (tpError c code reason) ≠ pageText (tpError c (-1) (lit "Proxy error")) := by
  intro heq
  have hlen : ¬ (fmtInt code).length ≥ 4 := by
    have := fmtInt_length ⟨code, hcode⟩
    exact Nat.not_le.mpr this
  have hlen' : ¬ (fmtInt (-1)).length ≥ 4 := by decide
  have hne : ((code : Int) != -1) = true := by
    rw [bne_iff_ne]
    omega
  simp only [tpError, if_neg hlen, if_neg hlen', hne, if_true, pageText_append, List.append_assoc,
    List.append_cancel_left_eq] at heq
  -- one says that the request failed, the other that the page cannot be served
  have hbyte := congrArg (fun l : Bytes => l[3]?) heq
  simp only [pageText_cons, List.append_assoc, bne_self_eq_false, Bool.false_eq_true,
    if_false] at hbyte
  rw [List.getElem?_append_left (by decide), List.getElem?_append_left (by decide)]
    at hbyte
  exact absurd hbyte (by decide)

theorem code_lt {h0 h1 : UInt8} (hd0 : isdigit h0 = true) (hd1 : isdigit h1 = true) :
    (h0 - 48).toNat * 10 + (h1 - 48).toNat < 100 := by
  have hdigit : ∀ b : UInt8, isdigit b = true → (b - 48).toNat < 10 := by decide +kernel
  have := hdigit h0 hd0
  have := hdigit h1 hd1
  omega

/-- A status line is answered with something else than an error in reading it. -/
theorem reply_status_ne (mem : Bytes → Bytes) (hc : c.Awaiting)
    (hline : readlnCrlfStrict s = some (hdr, rest)) (hvalid : statusLine hdr = true) :
    reply [(mem, s)] c ≠ errorReply c := by
  have hone : arrived [(mem, s)] = s := arrived_single mem s
  have htimely : timely [] [(mem, s)] = true := timely_single mem hline
  have hplay := playedOn_single mem hc hline
  intro h
  cases hmime : successMime hdr with
  | some mime =>
    cases hgem : (lit "text/gemini").isPrefixOf mime with
    | false =>
      rw [reply_raw hc (by rw [hone]; exact hline) htimely hmime hgem] at h
      exact absurd (Answer.mk.inj h).2 (by decide)
    | true =>
      cases hlang : (parseMime .zero mime).2 with
      | none =>
        obtain ⟨as', -, hplay'⟩ := playedOn_success hc (by rw [hone]; exact hline) htimely hmime
        rw [hlang] at hplay'
        rw [reply_of_ends hplay' ((Utters.write _).append (.write _))] at h
        have htext := List.append_cancel_left (Answer.mk.inj h).1
        exact tpError_ne_of_reason (by decide) htext
      | some lang =>
        have hplay' := playedOn_single_gemtext mem hc hline hmime hgem hlang
        cases hpage : gemtextPage c lang (document
            ((starts (splitLines rest).1 (splitLines rest).2).map mem) (splitLines rest).1) with
        | none =>
          have hends := ends_reply_of_crash hplay' hpage
          rw [h] at hends
          cases hends
        | some ps =>
          rw [reply_of_page hplay' hpage] at h
          exact absurd (Answer.mk.inj h).2 (by decide)
  | none =>
    rcases hdr with _ | ⟨h0, _ | ⟨h1, _ | ⟨h2, _ | ⟨h3, more⟩⟩⟩⟩
    case cons.cons.cons.cons =>
      rw [statusLine] at hvalid
      have h50 : (h0 == 50) = false := by
        by_contra h
        rw [Bool.not_eq_false] at h
        rw [successMime] at hmime
        simp_all
      have hcode : (h0 - 48).toNat * 10 + (h1 - 48).toNat < 100 := by
        simp only [Bool.and_eq_true] at hvalid
        exact code_lt hvalid.1.1 hvalid.1.2
      have hfailure (hplay : playedOn [(mem, s)] c = failureScript (c.holding rest)
          ((h0 - 48).toNat * 10 + (h1 - 48).toNat) (cstrPast (mem s) (h3 :: more)).1) : False := by
        rw [reply_of_ends hplay ((Utters.write _).append (.write _))] at h
        have htext := List.append_cancel_left (Answer.mk.inj h).1
        exact tpError_ne_of_code hcode _ htext
      simp only [headerScript, hvalid, if_true, statusScript, h50, Bool.false_eq_true,
        if_false] at hplay
      by_cases h49 : (h0 == 49) = true
      · simp only [h49, if_true] at hplay
        rw [reply_of_ends hplay ((Utters.write _).append (.write _))] at h
        exact absurd (Answer.mk.inj h).2 (by decide)
      · by_cases h51 : (h0 == 51) = true
        · simp only [h49, h51, if_true, if_false, Bool.false_eq_true] at hplay
          rcases hres : proxyResurl (c.holding rest) (cstrPast (mem s) (h3 :: more)).1
            (cstrPast (mem s) (h3 :: more)).2 1025 with _ | _ | buf
          · rw [hres] at hplay
            have hends : (reply [(mem, s)] c).ends = [] := by
              rw [reply, played, hplay]
              rfl
            rw [h] at hends
            cases hends
          · rw [hres] at hplay
            exact hfailure hplay
          · rw [hres] at hplay
            rw [reply_of_ends hplay (.write _)] at h
            exact absurd (Answer.mk.inj h).2 (by decide)
        · simp only [h49, h51, if_false, Bool.false_eq_true] at hplay
          exact hfailure hplay
    all_goals cases hvalid

end Arrivals

/-! ## The memory behind the lines -/

section Hidden

variable {c : Client} {s hdr rest : Bytes}

/-- The gemtext page of a response that arrives at once. -/
theorem reply_single_page {mime lang : Bytes} (hc : c.Awaiting)
    (hscript : c.cltScriptName.isSome = true) (hline : readlnCrlfStrict s = some (hdr, rest))
    (hmime : successMime hdr = some mime) (hgem : (lit "text/gemini").isPrefixOf mime = true)
    (hlang : (parseMime .zero mime).2 = some lang) (mem : Bytes → Bytes) :
    ∃ r, translateLines c { Translate.zero with enabled := true }
        (document ((starts (splitLines rest).1 (splitLines rest).2).map mem) (splitLines rest).1)
          = some r ∧
      reply [(mem, s)] c = ⟨lit "Content-Type: text/html;charset=utf-8\r\n\r\n"
        ++ (pageText (tpHead c lang none)
          ++ (pageText r.1 ++ pageText (closePieces { c with cltTranslate := r.2 }))),
        [endReqBody 0 requestComplete]⟩ := by
  have hplay := playedOn_single_gemtext mem hc hline hmime hgem hlang
  obtain ⟨ps, hpage⟩ := Option.isSome_iff_exists.mp (gemtextPage_isSome hc.started hscript lang
    (document ((starts (splitLines rest).1 (splitLines rest).2).map mem) (splitLines rest).1))
  have hreply := reply_of_page hplay hpage
  obtain ⟨r, hr, rfl⟩ := Option.map_eq_some_iff.mp hpage
  refine ⟨r, hr, hreply.trans ?_⟩
  simp only [pageText_append, List.append_assoc]

/-- The answer to a redirection, by what is behind its line. -/
theorem headerScript_hidden (hsuccess : successMime hdr = none) (hnot : ¬ RedirectExposes c hdr)
    (oob oob' : Bytes → Bytes) (mem mem' : Bytes) :
    headerScript oob mem hdr (c.holding rest) = headerScript oob' mem' hdr (c.holding rest) := by
  rcases hdr with _ | ⟨h0, _ | ⟨h1, _ | ⟨h2, _ | ⟨h3, more⟩⟩⟩⟩
  case cons.cons.cons.cons =>
    rw [successMime] at hsuccess
    simp only [headerScript]
    by_cases hvalid : (isdigit h0 && isdigit h1 && h2 == 32) = true
    · have h50 : (h0 == 50) = false := by
        by_contra h
        rw [Bool.not_eq_false] at h
        simp_all
      simp only [hvalid, if_true, statusScript, h50, Bool.false_eq_true, if_false, cstrPast_fst]
      by_cases h51 : (h0 == 51) = true
      · have hsame :
            proxyResurl (c.holding rest) (cstr (h3 :: more)) (cstrPast mem (h3 :: more)).2 1025
            = proxyResurl (c.holding rest) (cstr (h3 :: more))
                (cstrPast mem' (h3 :: more)).2 1025 := by
          by_cases hnul : 0 ∈ h3 :: more
          · rw [cstrPast_of_nul hnul mem mem']
          · rw [cstr_eq_self hnul]
            refine @proxyResurl_past c _ _ (fun hover => hnot ?_) _ _
            simp only [Bool.and_eq_true, beq_iff_eq] at hvalid h51
            rw [h51, hvalid.2]
            exact ⟨h1, h3 :: more, rfl, hvalid.1.2, List.cons_ne_nil _ _, hnul, hover⟩
        rw [hsame]
      · simp only [h51, Bool.false_eq_true, if_false]
    · simp only [hvalid, Bool.false_eq_true, if_false]
  all_goals rfl

/-- A redirection to the capsule itself is answered by one to the script, or refused. -/
theorem reply_redirect_ne (hc : c.Awaiting) (hline : readlnCrlfStrict s = some (hdr, rest))
    (h : RedirectExposes c hdr) :
    reply [(fun _ => [], s)] c ≠ reply [(fun _ => List.replicate 1025 97, s)] c := by
  obtain ⟨h1, url, rfl, hdigit, hne, hnul, hover⟩ := h
  obtain ⟨pc, script, -, -, hfits, hres⟩ := proxyResurl_of_overrun (by decide) hover
  obtain ⟨h3, more, rfl⟩ := List.exists_cons_of_ne_nil hne
  have hplay (mem : Bytes → Bytes) : playedOn [(mem, s)] c
      = (copyFits 1025 (script ++ cstr (mem s))).elim
          (failureScript (c.holding rest) ((51 - 48 : UInt8).toNat * 10 + (h1 - 48).toNat)
            (h3 :: more))
          fun buf => ⟨[.write (proxyStartReply 302 (some buf))], .ends 0 requestComplete⟩ := by
    have hvalid : (isdigit 51 && isdigit h1 && (32 : UInt8) == 32) = true := by
      rw [hdigit]
      rfl
    have hholding : proxyResurl (c.holding rest) = proxyResurl c := rfl
    rw [playedOn_single mem hc hline, headerScript, if_pos hvalid, statusScript,
      cstrPast_of_whole hnul, hholding]
    dsimp only
    rw [hres, if_neg (by decide), if_neg (by decide), if_pos (by decide)]
    cases copyFits 1025 (script ++ cstr (mem s)) <;> rfl
  have hshort := hplay fun _ => []
  have hlong := hplay fun _ => List.replicate 1025 97
  have hcopy : copyFits 1025 (script ++ cstr []) = some script := by
    rw [copyFits, show cstr [] = [] from rfl, List.append_nil, if_neg (Nat.not_le.mpr hfits)]
  have hcopy' : copyFits 1025 (script ++ cstr (List.replicate 1025 97)) = none := by
    have hclean : (0 : UInt8) ∉ List.replicate 1025 97 := fun h0 => by
      cases List.eq_of_mem_replicate h0
    rw [copyFits, cstr_eq_self hclean, if_pos]
    rw [List.length_append, List.length_replicate]
    exact Nat.le_add_left _ _
  rw [hcopy] at hshort
  rw [hcopy'] at hlong
  rw [reply_of_ends hshort (.write _), reply_of_ends hlong ((Utters.write _).append (.write _))]
  intro heq
  exact absurd (Answer.mk.inj heq).2 (by decide)

/-- **The memory behind the lines does not show** exactly when no line exposes it. -/
theorem memory_hidden_iff (hc : c.Awaiting) (s : Bytes) :
    (∀ mem mem', reply [(mem, s)] c = reply [(mem', s)] c) ↔ ¬ MemoryShows c s := by
  constructor
  · rintro hsame ⟨hdr, rest, hline, hredirect | ⟨mime, hmime, hgem, hlang, hexp⟩⟩
    · exact reply_redirect_ne hc hline hredirect (hsame _ _)
    · obtain ⟨lang, hlang⟩ := Option.isSome_iff_exists.mp hlang
      have hscript : c.cltScriptName.isSome = true := by
        obtain ⟨line, -, h⟩ := hexp
        obtain ⟨name, pc, script, -, -, hscript, -⟩ := h.empty
        rw [hscript]
        rfl
      obtain ⟨mems, mems', hlen, hlen', hne⟩ :=
        @lines_exposed { Translate.zero with enabled := true } c _ hexp
      obtain ⟨mem, hmem⟩ := exists_memory hline (hlen.trans (List.length_map _))
      obtain ⟨mem', hmem'⟩ := exists_memory hline (hlen'.trans (List.length_map _))
      obtain ⟨r, hr, hreply⟩ := reply_single_page hc hscript hline hmime hgem hlang mem
      obtain ⟨r', hr', hreply'⟩ := reply_single_page hc hscript hline hmime hgem hlang mem'
      rw [hmem] at hr
      rw [hmem'] at hr'
      have htext := (Answer.mk.inj ((hreply.symm.trans (hsame mem mem')).trans hreply')).1
      refine hne r r' hr hr' _ _ (fun hbits => ?_)
        (List.append_cancel_left (List.append_cancel_left htext))
      rw [hbits]
  · intro hnot mem mem'
    by_cases hmemoryless : Memoryless s
    · refine reply_memoryless hc (by rw [arrived_single, arrived_single]) ?_ ?_ ?_
      all_goals rw [arrived_single]
      · exact hmemoryless
      · exact fun _ _ hline _ => timely_single _ hline
      · exact fun _ _ hline _ => timely_single _ hline
    obtain ⟨hdr, rest, hline, -, hrefusal | ⟨mime, lang, hmime, hgem, hlang⟩⟩ :=
      exists_of_not_memoryless hmemoryless
    · have hredirect : ¬ RedirectExposes c hdr := fun h => hnot ⟨hdr, rest, hline, .inl h⟩
      rw [reply, reply, played, played, playedOn_single mem hc hline, playedOn_single mem' hc hline,
        headerScript_hidden hrefusal hredirect mem mem' (mem s) (mem' s)]
    · have hlines : ∀ line ∈ openLines false ((splitLines rest).1.map stripCr), ¬ Exposes c line :=
        fun line hmem hexp => hnot ⟨hdr, rest, hline, .inr ⟨mime, hmime, hgem,
          by rw [hlang]; rfl, line, hmem, hexp⟩⟩
      have hlen (mem : Bytes → Bytes) :
          ((starts (splitLines rest).1 (splitLines rest).2).map mem).length
            = ((splitLines rest).1.map stripCr).length := by
        rw [List.length_map, List.length_map, length_starts]
      cases hscript : c.cltScriptName with
      | none =>
        rw [reply, reply, played, played, playedOn_single_gemtext mem hc hline hmime hgem hlang,
          playedOn_single_gemtext mem' hc hline hmime hgem hlang, document, document,
          speak_past (by exact hscript) (hlen mem) (hlen mem')]
      | some script =>
        have hsome : c.cltScriptName.isSome = true := by rw [hscript]; rfl
        obtain ⟨r, hr, hreply⟩ := reply_single_page hc hsome hline hmime hgem hlang mem
        obtain ⟨r', hr', hreply'⟩ := reply_single_page hc hsome hline hmime hgem hlang mem'
        have hshown := @lines_hidden { Translate.zero with enabled := true } c _ _ _ (hlen mem)
          (hlen mem') hlines
        rw [show translateLines c _ (List.zipWith cstrPast _ _) = _ from hr,
          show translateLines c _ (List.zipWith cstrPast _ _) = _ from hr'] at hshown
        obtain ⟨htext, hbits⟩ := Prod.mk.inj (Option.some.inj hshown)
        rw [hreply, hreply', htext, hbits]

end Hidden

/-- **The answer does not depend on the pieces a response arrives in** exactly when its status line
is not longer than 1024 bytes, or none at all, and the memory behind its lines does not show. A
longer line is accepted if its end arrives with it and refused if not. -/
theorem chunk_independent_iff (env : Env) (f : Fcgi) (i : UInt16) (c : Client) (s : Bytes)
    (hopen : f.closed = false) (hwrites : false ∉ f.writes) (hfind : f.find i.toUInt32 = some c)
    (hc : c.Awaiting) :
    (∀ as bs, arrived as = s → arrived bs = s →
        answer i (run env f (responseEvents i as)).trace
          = answer i (run env f (responseEvents i bs)).trace)
      ↔ (∀ hdr rest, readlnCrlfStrict s = some (hdr, rest) → statusLine hdr = true →
          hdr.length ≤ 1024) ∧ ¬ MemoryShows c s := by
  have hanswer (as bs : List Arrival) :
      answer i (run env f (responseEvents i as)).trace
          = answer i (run env f (responseEvents i bs)).trace ↔ reply as c = reply bs c := by
    rw [answer_response env hopen hwrites hfind hc as,
      answer_response env hopen hwrites hfind hc bs]
    simp [Answer.append, Answer.ext_iff]
  simp only [hanswer]
  constructor
  · intro h
    refine ⟨fun hdr rest hline hvalid => ?_, (memory_hidden_iff hc s).mp fun mem mem' =>
      h _ _ (arrived_single mem s) (arrived_single mem' s)⟩
    by_contra hlong
    -- the line arrives without its LF
    have hsplit : s.take (hdr.length + 1) ++ s.drop (hdr.length + 1) = s :=
      List.take_append_drop _ _
    have hlen : (s.take (hdr.length + 1)).length = hdr.length + 1 := by
      rw [List.length_take, readlnCrlfStrict_eq_append hline]
      simp
    have hnone : readlnCrlfStrict (s.take (hdr.length + 1)) = none := by
      have hline' := hline
      rw [← hsplit] at hline'
      exact (readlnCrlfStrict_none_iff hline').mpr (Nat.le_of_eq hlen)
    have hlate : timely [] [(fun _ => [], s.take (hdr.length + 1)),
        (fun _ => [], s.drop (hdr.length + 1))] = false := by
      rw [timely, List.nil_append, hnone, hlen]
      simp
      omega
    have hcut := playedOn_late _ hc.headers hlate
    rw [hc.holding_nil] at hcut
    refine reply_status_ne (fun _ => []) hc hline hvalid ?_
    rw [← reply_error hc.headers hcut]
    exact h _ _ (arrived_single _ s) (by simp [arrived])
  · rintro ⟨hfits, hmem⟩ as bs rfl hbs
    obtain ⟨mem, has⟩ := exists_single hc hfits
    rw [← hbs] at hfits
    obtain ⟨mem', hbs'⟩ := exists_single hc hfits
    rw [has, hbs', hbs]
    exact (memory_hidden_iff hc _).mpr hmem mem mem'

/-- A response of plain text is answered the same in whatever pieces it arrives. -/
theorem plain_text_independent :
    let f := run exampleEnv (Fcgi.new [] []) exampleSent
    ∀ as bs, arrived as = lit "20 text/plain\r\nhi" → arrived bs = lit "20 text/plain\r\nhi" →
      answer 1 (run exampleEnv f (responseEvents 1 as)).trace
        = answer 1 (run exampleEnv f (responseEvents 1 bs)).trace := by
  intro f
  have hhdr : readlnCrlfStrict (lit "20 text/plain\r\nhi")
      = some (lit "20 text/plain", lit "hi") := by decide
  refine (chunk_independent_iff exampleEnv f 1 exampleAwaiting (lit "20 text/plain\r\nhi")
    (by decide +kernel) (by decide +kernel) (by decide +kernel) exampleAwaiting_awaiting).mpr
    ⟨fun hdr rest hline _ => ?_, ?_⟩
  · rw [hhdr] at hline
    obtain ⟨rfl, -⟩ := Prod.mk.inj (Option.some.inj hline)
    decide +kernel
  · rintro ⟨hdr, rest, hline, hshows⟩
    rw [hhdr] at hline
    obtain ⟨rfl, -⟩ := Prod.mk.inj (Option.some.inj hline)
    rcases hshows with ⟨h1, url, hredirect, -⟩ | ⟨mime, hmime, hgem, -⟩
    · exact absurd (List.cons.inj hredirect).1 (by decide)
    · rw [show successMime (lit "20 text/plain") = some (lit "text/plain") by decide] at hmime
      rw [← Option.some.inj hmime] at hgem
      exact absurd hgem (by decide)

/-- A status line of 1025 bytes, in one piece and with its LF in a second one: it is served, and it
is refused. -/
theorem long_line_refused_in_pieces :
    let f := run exampleEnv (Fcgi.new [] []) exampleSent
    let line := lit "20 " ++ List.replicate 1022 120
    let whole : List Arrival := [(fun _ => [], line ++ [13, 10])]
    let cut : List Arrival := [(fun _ => [], line ++ [13]), (fun _ => [], [10])]
    f.fcgClients = [exampleAwaiting] ∧ arrived whole = arrived cut ∧
      (answer 1 (run exampleEnv f (responseEvents 1 whole)).trace).ends
        = [endReqBody 0 requestComplete] ∧
      (answer 1 (run exampleEnv f (responseEvents 1 cut)).trace).ends
        = [endReqBody 1 requestComplete] ∧
      (answer 1 (run exampleEnv f (responseEvents 1 cut)).trace).text.take 11
        = lit "Status: 501" := by
  decide +kernel

end Galileo
