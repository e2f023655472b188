import Galileo.Lib.Lines
import Galileo.Proof.Markup
import Galileo.Proof.Reply

/-!
# The upstream response

A response arrives in pieces, and `proxy_read` works on whatever is in the buffer. Here the pieces
are put together again: the script of any number of arrivals is brought into a form that mentions
the whole stream only — its status line, and the lines or the bytes of its body.

Two things keep a response from being a function of its stream. The limit on the status line is a
limit on *what has arrived without a line end*, so a long line passes or not depending on how it
arrives (`timely`). And a link without a URL reads the memory behind its line, which is part of an
`Arrival`.
-/

set_option autoImplicit false

namespace Galileo

open Lib Lib.FastCgi

variable {doc : List (Bytes × Bytes)} {as : List Arrival} {ops : List Put} {mime : Bytes}
  {b : Bytes}

/-- The client with `b` read from the Gemini server and not taken. -/
def Client.holding (c : Client) (b : Bytes) : Client :=
  { c with cltBev := some ⟨b, (c.cltBev.map (·.output)).getD []⟩ }

/-! ## Scripts -/

section Scripts

variable {s : Script} {k k' : Client → Script}

theorem Script.andThen_congr (h : ∀ c, s.next = .goes c → k c = k' c) :
    s.andThen k = s.andThen k' := by
  rw [andThen, andThen]
  cases hnext : s.next with
  | goes c => simp only [h c hnext]
  | ends status proto => rfl
  | crashed => rfl

theorem Script.andThen_after (ops : List Put) :
    (s.after ops).andThen k = (s.andThen k).after ops := by
  obtain ⟨os, next⟩ := s
  cases next <;> simp [andThen, after]

theorem errorScript_ends (err : Nat) (c : Client) :
    ∃ status, (errorScript err c).next = .ends status requestComplete := by
  rw [errorScript]
  split_ifs <;> exact ⟨_, rfl⟩

/-- Operations that add `text` to what is handed over or pending, in order. -/
def Utters (ops : List Put) (text : Bytes) : Prop :=
  ∀ cap pending, (putAll cap pending ops).1 ++ (putAll cap pending ops).2 = pending ++ text

theorem Utters.nil : Utters [] [] := fun _ _ => by simp [putAll]

theorem Utters.append {os os' : List Put} {t t' : Bytes} (h : Utters os t) (h' : Utters os' t') :
    Utters (os ++ os') (t ++ t') := fun cap pending => by
  rw [putAll_append, List.append_assoc, h' cap, ← List.append_assoc, h cap, List.append_assoc]

theorem Utters.write (ps : List Piece) : Utters [.write ps] (pageText ps) := fun cap pending => by
  simp [putAll, Put.effect, spill_append]

/-- The words of a request that is ended. -/
theorem Script.words_ends {status proto : UInt8} {text : Bytes} (h : Utters ops text) (cap : Nat)
    (pending : Bytes) :
    (Script.mk ops (.ends status proto)).words cap pending = pending ++ text := h cap pending

end Scripts

/-! ## Gemtext -/

/-- Lines as `gemtext_translate_line` gets them, each with the memory behind it. -/
def document (mems lines : List Bytes) : List (Bytes × Bytes) :=
  List.zipWith cstrPast mems (lines.map stripCr)

/-- The script of the translation of lines. -/
def speak : List (Bytes × Bytes) → Client → Script
  | [], c => idle c
  | p :: doc, c =>
      match gemtextTranslateLine c p.1 p.2 with
      | none => ⟨[], .crashed⟩
      | some (ps, tr) => (speak doc { c with cltTranslate := tr }).after [.write ps]

section Gemtext

variable {c : Client}

theorem linesScript_eq_speak (oob : Bytes → Bytes) {n : Nat} (hn : b.length ≤ n) :
    linesScript oob n (c.holding b)
      = speak (document ((starts (splitLines b).1 (splitLines b).2).map oob) (splitLines b).1)
          (c.holding (splitLines b).2) := by
  induction n generalizing c b with
  | zero =>
    rw [List.length_eq_zero_iff.mp (Nat.le_zero.mp hn)]
    rfl
  | succ n ih =>
    rw [linesScript]
    simp only [Client.holding, readlnCrlf]
    cases hsplit : splitLf b with
    | none =>
      rw [splitLines_of_splitLf_none hsplit]
      rfl
    | some p =>
      obtain ⟨l, rest⟩ := p
      have hlines := splitLines_of_splitLf_some hsplit
      have hjoin := joinLines_splitLines b
      rw [hlines, joinLines_cons, joinLines_splitLines] at hjoin
      have hlt : rest.length ≤ n := by
        have := congrArg List.length hjoin
        simp only [List.length_append, List.length_cons] at this
        omega
      have hstart : joinLines (l :: (splitLines rest).1) (splitLines rest).2 = b := by
        rw [joinLines_cons, joinLines_splitLines, hjoin]
      rw [hlines]
      simp only [starts, hstart, document, List.map_cons, List.zipWith_cons_cons, speak,
        Option.map_some]
      rw [show gemtextTranslateLine { c with
          cltBev := some ⟨(splitLines rest).2, (c.cltBev.map (·.output)).getD []⟩ }
        = gemtextTranslateLine { c with
          cltBev := some ⟨b, (c.cltBev.map (·.output)).getD []⟩ } from rfl]
      cases gemtextTranslateLine { c with
          cltBev := some ⟨b, (c.cltBev.map (·.output)).getD []⟩ }
        (cstrPast (oob b) (stripCr l)).1 (cstrPast (oob b) (stripCr l)).2 with
      | none => rfl
      | some r => exact congrArg (Script.after _) (ih (c := { c with cltTranslate := r.2 }) hlt)

theorem speak_append (doc doc' : List (Bytes × Bytes)) (b : Bytes) :
    (speak doc c).andThen (fun c' => speak doc' (c'.holding b))
      = speak (doc ++ doc') (c.holding b) := by
  induction doc generalizing c with
  | nil => rfl
  | cons p doc ih =>
    rw [List.cons_append, speak, speak,
      show gemtextTranslateLine (c.holding b) = gemtextTranslateLine c from rfl]
    cases gemtextTranslateLine c p.1 p.2 with
    | none => rfl
    | some r =>
      dsimp only
      rw [Script.andThen_after, ih]
      rfl

theorem gemtextLink_enabled {tr : Translate} {line past : Bytes} {r : List Piece × Translate}
    (h : gemtextLink c tr line past = some r) : r.2.enabled = tr.enabled := by
  simp only [gemtextLink] at h
  split at h
  · split_ifs at h <;> (cases h; rfl)
  · cases h

/-- Translating goes on as long as it was switched on. -/
theorem translateLine_enabled {line past : Bytes} {r : List Piece × Translate}
    (h : gemtextTranslateLine c line past = some r) : r.2.enabled = c.cltTranslate.enabled := by
  by_cases hlink : ¬ c.cltTranslate.pre = true ∧ ¬ (lit "* ").isPrefixOf line = true ∧
      (lit "=>").isPrefixOf line = true
  · obtain ⟨hpre, hbullet, hlink⟩ := hlink
    simp only [gemtextTranslateLine, if_neg hpre, if_neg hbullet, if_pos hlink] at h
    obtain ⟨q, hq, rfl⟩ := Option.map_eq_some_iff.mp h
    exact (gemtextLink_enabled hq : q.2.enabled = _)
  · simp only [gemtextTranslateLine] at h
    split_ifs at h
    all_goals
      first
      | (cases h; rfl)
      | exact absurd ⟨‹_›, ‹_›, ‹_›⟩ hlink

theorem speak_goes {c' : Client} (h : (speak doc c).next = .goes c') :
    ∃ tr : Translate, tr.enabled = c.cltTranslate.enabled ∧ c' = { c with cltTranslate := tr } := by
  induction doc generalizing c with
  | nil =>
    cases h
    exact ⟨_, rfl, rfl⟩
  | cons p doc ih =>
    rw [speak] at h
    cases hline : gemtextTranslateLine c p.1 p.2 with
    | none =>
      rw [hline] at h
      cases h
    | some r =>
      rw [hline] at h
      obtain ⟨tr, htr, rfl⟩ := ih h
      exact ⟨tr, htr.trans (translateLine_enabled hline), rfl⟩

theorem append_arrived_cons (b : Bytes) (a : Arrival) (as : List Arrival) :
    b ++ arrived (a :: as) = b ++ a.2 ++ arrived as := by
  simp [arrived]

/-- The script of lines that are translated: their text, and the bits they leave. -/
theorem speak_of_translateLines {tr tr' : Translate} {ps : List Piece}
    (h : translateLines c tr doc = some (ps, tr')) :
    ∃ ops, Utters ops (pageText ps) ∧
      speak doc { c with cltTranslate := tr } = ⟨ops, .goes { c with cltTranslate := tr' }⟩ := by
  induction doc generalizing tr ps with
  | nil =>
    cases h
    exact ⟨[], .nil, rfl⟩
  | cons p doc ih =>
    rw [translateLines] at h
    rw [speak]
    cases hline : gemtextTranslateLine { c with cltTranslate := tr } p.1 p.2 with
    | none =>
      rw [hline] at h
      cases h
    | some r =>
      rw [hline] at h
      obtain ⟨q, hq, hqps⟩ := Option.map_eq_some_iff.mp h
      obtain ⟨rfl, rfl⟩ := Prod.mk.inj hqps
      obtain ⟨ops, hops, hspeak⟩ := ih hq
      refine ⟨_, ?_, congrArg (Script.after [.write r.1]) hspeak⟩
      rw [pageText_append]
      exact (Utters.write r.1).append hops

theorem speak_crashed {tr : Translate} (h : translateLines c tr doc = none) :
    (speak doc { c with cltTranslate := tr }).next = .crashed := by
  induction doc generalizing tr with
  | nil => cases h
  | cons p doc ih =>
    rw [translateLines] at h
    rw [speak]
    cases hline : gemtextTranslateLine { c with cltTranslate := tr } p.1 p.2 with
    | none => rfl
    | some r =>
      rw [hline] at h
      exact ih (Option.map_eq_none_iff.mp h)

/-- The translation looks at a few fields of the client only. -/
theorem translateLines_holding (tr tr' : Translate) (b : Bytes) (doc : List (Bytes × Bytes)) :
    translateLines (({ c with cltTranslate := tr', cltHeadersdone := true } : Client).holding b) tr
      doc
      = translateLines c tr doc := by
  induction doc generalizing tr with
  | nil => rfl
  | cons p doc ih =>
    rw [translateLines, translateLines]
    simp only [ih]
    rfl

/-- The memory behind the lines of a body, arrival by arrival. -/
def behind : Bytes → List Arrival → List Bytes
  | _, [] => []
  | b, a :: as =>
      (starts (splitLines (b ++ a.2)).1 (splitLines (b ++ a.2)).2).map a.1
        ++ behind (splitLines (b ++ a.2)).2 as

theorem length_behind (as : List Arrival) (hb : (splitLines b).1 = []) :
    (behind b as).length = (splitLines (b ++ arrived as)).1.length := by
  induction as generalizing b with
  | nil => simp [behind, arrived, hb]
  | cons a as ih =>
    rw [behind, List.length_append, ih (splitLines_rest _), List.length_map, length_starts,
      append_arrived_cons, splitLines_append (b ++ a.2), List.length_append]

theorem document_append {mems lines : List Bytes} (h : mems.length = lines.length)
    (mems' lines' : List Bytes) :
    document (mems ++ mems') (lines ++ lines') = document mems lines ++ document mems' lines' := by
  rw [document, List.map_append, List.zipWith_append (by rw [h, List.length_map])]
  rfl

/-- **The script of a gemtext body** is the translation of its complete lines, however it
arrives. -/
theorem playedOn_gemtext (as : List Arrival) (hdone : c.cltHeadersdone = true)
    (htr : c.cltTranslate.enabled = true) (hb : (splitLines b).1 = []) :
    playedOn as (c.holding b)
      = speak (document (behind b as) (splitLines (b ++ arrived as)).1)
          (c.holding (splitLines (b ++ arrived as)).2) := by
  induction as generalizing c b with
  | nil =>
    have hrest : (splitLines b).2 = b := by
      have hjoin := joinLines_splitLines b
      rwa [hb] at hjoin
    simp [playedOn, behind, arrived, hb, hrest, document, speak]
  | cons a as ih =>
    have hread : upstreamScript a.1 a.2 (c.holding b)
        = speak (document ((starts (splitLines (b ++ a.2)).1 (splitLines (b ++ a.2)).2).map a.1)
            (splitLines (b ++ a.2)).1) (c.holding (splitLines (b ++ a.2)).2) := by
      rw [← linesScript_eq_speak a.1 (Nat.le_refl _)]
      show readScript a.1 (c.holding (b ++ a.2)) = _
      have hdone' : (c.holding (b ++ a.2)).cltHeadersdone = true := hdone
      have htr' : (c.holding (b ++ a.2)).cltTranslate.any = true := by
        show c.cltTranslate.any = true
        simp [Translate.any, htr]
      simp only [readScript, bodyScript, Client.holding] at hdone' htr' ⊢
      simp only [hdone', htr', if_true]
    rw [playedOn, hread]
    have hrest : ∀ c', (speak (document ((starts (splitLines (b ++ a.2)).1
          (splitLines (b ++ a.2)).2).map a.1) (splitLines (b ++ a.2)).1)
          (c.holding (splitLines (b ++ a.2)).2)).next = .goes c' →
        playedOn as c' = speak (document (behind (splitLines (b ++ a.2)).2 as)
          (splitLines ((splitLines (b ++ a.2)).2 ++ arrived as)).1)
          (c'.holding (splitLines ((splitLines (b ++ a.2)).2 ++ arrived as)).2) := by
      intro c' hnext
      obtain ⟨tr, htr', rfl⟩ := speak_goes hnext
      exact ih (c := { c with cltTranslate := tr }) hdone (htr'.trans htr) (splitLines_rest _)
    rw [Script.andThen_congr hrest, speak_append, ← document_append (by simp),
      append_arrived_cons, splitLines_append (b ++ a.2)]
    rfl

end Gemtext

/-! ## Other content -/

/-- **The script of any other body** passes the arrivals on. -/
theorem playedOn_raw {c : Client} (as : List Arrival) (hdone : c.cltHeadersdone = true)
    (htr : c.cltTranslate = .zero) :
    playedOn as (c.holding []) = ⟨as.map fun a => .direct a.2, .goes (c.holding [])⟩ := by
  induction as with
  | nil => rfl
  | cons a as ih =>
    have hread : upstreamScript a.1 a.2 (c.holding [])
        = ⟨[.direct a.2], .goes (c.holding [])⟩ := by
      show readScript a.1 (c.holding a.2) = _
      simp only [readScript, bodyScript, Client.holding, hdone, htr]
      rfl
    rw [playedOn, hread, Script.andThen_goes rfl, ih]
    rfl

theorem putAll_direct (cap : Nat) (pending : Bytes) (as : List Arrival) :
    putAll cap pending (as.map fun a => .direct a.2) = (arrived as, pending) := by
  induction as with
  | nil => rfl
  | cons a as ih => simp [putAll, Put.effect, ih, arrived]

/-! ## The status line -/

/-- Whether no arrival leaves too much in the buffer before the line's end is there. -/
def timely : Bytes → List Arrival → Bool
  | _, [] => true
  | b, a :: as =>
      (readlnCrlfStrict (b ++ a.2)).isSome
        || decide ((b ++ a.2).length < 1026) && timely (b ++ a.2) as

/-- Two digits, a blank and something more. -/
def statusLine : Bytes → Bool
  | h0 :: h1 :: h2 :: _ :: _ => isdigit h0 && isdigit h1 && h2 == 32
  | _ => false

section Header

variable {c : Client} {b hdr rest : Bytes}

theorem headerScript_of_not_statusLine (oob : Bytes → Bytes) (mem : Bytes)
    (h : statusLine hdr = false) : headerScript oob mem hdr c = errorScript evRead c := by
  rcases hdr with _ | ⟨h0, _ | ⟨h1, _ | ⟨h2, _ | ⟨h3, more⟩⟩⟩⟩
  case cons.cons.cons.cons =>
    rw [statusLine] at h
    simp [headerScript, h]
  all_goals rfl

theorem upstreamScript_holding (hdone : c.cltHeadersdone = false) (a : Arrival) :
    upstreamScript a.1 a.2 (c.holding b)
      = match readlnCrlfStrict (b ++ a.2) with
        | none =>
            if (b ++ a.2).length ≥ 1026 then errorScript evRead c else idle (c.holding (b ++ a.2))
        | some (hdr, rest) => headerScript a.1 (a.1 (b ++ a.2)) hdr (c.holding rest) := by
  have hread : readScript a.1 (c.holding (b ++ a.2))
      = if c.cltHeadersdone then bodyScript a.1 (c.holding (b ++ a.2))
        else match readlnCrlfStrict (b ++ a.2) with
        | none =>
            if (b ++ a.2).length ≥ 1026 then errorScript evRead c else idle (c.holding (b ++ a.2))
        | some (hdr, rest) => headerScript a.1 (a.1 (b ++ a.2)) hdr (c.holding rest) := rfl
  exact hread.trans (if_neg (by simp [hdone]))

/-- The line's end has not arrived, and not too much else. -/
theorem playedOn_waiting (as : List Arrival) (hdone : c.cltHeadersdone = false)
    (hnone : readlnCrlfStrict (b ++ arrived as) = none)
    (hshort : (b ++ arrived as).length < 1026) :
    playedOn as (c.holding b) = idle (c.holding (b ++ arrived as)) := by
  induction as generalizing b with
  | nil => simp [playedOn, arrived]
  | cons a as ih =>
    rw [append_arrived_cons] at hnone hshort ⊢
    have hnone' : readlnCrlfStrict (b ++ a.2) = none := by
      cases h : readlnCrlfStrict (b ++ a.2) with
      | none => rfl
      | some p =>
        rw [readlnCrlfStrict_append h] at hnone
        cases hnone
    have hlen : ¬ (b ++ a.2).length ≥ 1026 := by
      rw [List.length_append] at hshort
      omega
    rw [playedOn, upstreamScript_holding hdone, hnone']
    simp only [if_neg hlen]
    rw [Script.andThen_goes rfl]
    exact ih hnone hshort

/-- **The status line has arrived**, with `rest` of what is behind it and `as'` still to come. -/
theorem playedOn_header (as : List Arrival) (hdone : c.cltHeadersdone = false)
    (hnone : readlnCrlfStrict b = none) (htimely : timely b as = true)
    (hline : readlnCrlfStrict (b ++ arrived as) = some (hdr, rest)) :
    ∃ oob mem rest' as', rest = arrived ((oob, rest') :: as') ∧
      playedOn as (c.holding b)
        = (headerScript oob mem hdr (c.holding rest')).andThen (playedOn as') := by
  induction as generalizing b with
  | nil =>
    rw [arrived, List.flatMap_nil, List.append_nil, hnone] at hline
    cases hline
  | cons a as ih =>
    rw [append_arrived_cons] at hline
    rw [playedOn, upstreamScript_holding hdone]
    rw [timely] at htimely
    cases hfirst : readlnCrlfStrict (b ++ a.2) with
    | some p =>
      rw [readlnCrlfStrict_append hfirst] at hline
      obtain ⟨rfl, rfl⟩ := Prod.mk.inj (Option.some.inj hline)
      exact ⟨a.1, a.1 (b ++ a.2), p.2, as, rfl, rfl⟩
    | none =>
      rw [hfirst] at htimely
      obtain ⟨hshort, htimely⟩ : (b ++ a.2).length < 1026 ∧ timely (b ++ a.2) as = true := by
        simpa using htimely
      dsimp only
      rw [if_neg (by omega), Script.andThen_goes rfl]
      exact ih hfirst htimely hline

/-- **Too much has arrived** without a line's end. -/
theorem playedOn_late (as : List Arrival) (hdone : c.cltHeadersdone = false)
    (hlate : timely b as = false) : playedOn as (c.holding b) = errorScript evRead c := by
  induction as generalizing b with
  | nil => cases hlate
  | cons a as ih =>
    obtain ⟨status, hends⟩ := errorScript_ends evRead c
    rw [timely, Bool.or_eq_false_iff] at hlate
    have hnone : readlnCrlfStrict (b ++ a.2) = none := by simpa using hlate.1
    rw [playedOn, upstreamScript_holding hdone, hnone]
    dsimp only
    split
    · exact Script.andThen_ends hends
    · rename_i hlen
      rw [Script.andThen_goes rfl]
      refine ih ?_
      rw [decide_eq_true (Nat.lt_of_not_le hlen), Bool.true_and] at hlate
      exact hlate.2

/-- A line that fits is always in time. -/
theorem timely_of_short (as : List Arrival) (hnone : readlnCrlfStrict b = none)
    (hline : readlnCrlfStrict (b ++ arrived as) = some (hdr, rest)) (hshort : hdr.length ≤ 1024) :
    timely b as = true := by
  induction as generalizing b with
  | nil => rfl
  | cons a as ih =>
    rw [append_arrived_cons] at hline
    rw [timely]
    cases hfirst : readlnCrlfStrict (b ++ a.2) with
    | some p => rfl
    | none =>
      have hlen := (readlnCrlfStrict_none_iff hline).mp hfirst
      rw [ih hfirst hline]
      simp
      rw [List.length_append] at hlen
      omega

theorem not_timely_of_long (as : List Arrival) (hb : b.length < 1026)
    (hnone : readlnCrlfStrict (b ++ arrived as) = none)
    (hlong : 1026 ≤ (b ++ arrived as).length) : timely b as = false := by
  induction as generalizing b with
  | nil =>
    simp [arrived] at hlong
    omega
  | cons a as ih =>
    rw [append_arrived_cons] at hnone hlong
    have hfirst : readlnCrlfStrict (b ++ a.2) = none := by
      cases h : readlnCrlfStrict (b ++ a.2) with
      | none => rfl
      | some p =>
        rw [readlnCrlfStrict_append h] at hnone
        cases hnone
    rw [timely, hfirst]
    by_cases hlen : (b ++ a.2).length < 1026
    · rw [ih hlen hnone hlong]
      simp
    · simp only [Option.isSome_none, hlen, decide_false, Bool.false_and, Bool.or_false]

end Header

/-! ## The body -/

/-- The request was sent to the Gemini server, nothing has come back and nothing was said. -/
structure Client.Awaiting (c : Client) : Prop where
  started : c.cltPc.isSome = true
  waiting : c.cltBev.map (·.input) = some []
  headers : c.cltHeadersdone = false
  plain : c.cltTranslate = .zero
  silent : c.cltTp.tpBuf = []

/-- Two answers, one after the other. -/
def Answer.append (a a' : Answer) : Answer := ⟨a.text ++ a'.text, a.ends ++ a'.ends⟩

/-- What a request that was silent so far is told for the arrivals and the end of file. -/
def reply (as : List Arrival) (c : Client) : Answer :=
  ⟨(played as c).words c.cltTp.tpCap [], (played as c).ends⟩

/-- The events of a response. -/
def responseEvents (i : UInt16) (as : List Arrival) : List Event :=
  upstreamEvents i as ++ [.upstreamError i evbufferEof]

/-- The client when the status line was accepted. -/
def Client.accepted (c : Client) (tr : Translate) : Client :=
  { c with cltTranslate := tr, cltHeadersdone := true }

section Body

variable {c : Client} {hdr rest : Bytes}

theorem Client.Awaiting.connected (hc : c.Awaiting) : c.connected = true := by
  have hbev := hc.waiting
  rw [Option.map_eq_some_iff] at hbev
  obtain ⟨bev, hbev, -⟩ := hbev
  simp [Client.connected, Client.started, hc.started, hbev]

theorem Client.Awaiting.holding_nil (hc : c.Awaiting) : c.holding [] = c := by
  obtain ⟨bev, hbev, hinput⟩ := Option.map_eq_some_iff.mp hc.waiting
  obtain ⟨input, output⟩ := bev
  dsimp only at hinput
  subst hinput
  rw [Client.holding, hbev]
  exact congrArg (fun b => { c with cltBev := b }) hbev.symm

/-- **The answer to a response** on the connection. -/
theorem answer_response (env : Env) {f : Fcgi} {i : UInt16} (hopen : f.closed = false)
    (hwrites : false ∉ f.writes) (hfind : f.find i.toUInt32 = some c) (hc : c.Awaiting)
    (as : List Arrival) :
    answer i (run env f (responseEvents i as)).trace = (answer i f.trace).append (reply as c) := by
  have h := (heard_played env as hopen hfind hc.connected).answer_eq hwrites
  rw [hc.silent] at h
  exact h

/-- Behind a `2x` line comes the body, also the part of it that came with the line. -/
theorem successScript_andThen (oob : Bytes → Bytes) (mime rest' : Bytes) (as : List Arrival)
    (hplain : c.cltTranslate = .zero) :
    (successScript oob mime (c.holding rest')).andThen (playedOn as)
      = match (parseMime .zero mime).2 with
        | none => failScript c 501 "Bad response"
        | some lang =>
            (playedOn ((oob, rest') :: as) ((c.accepted (parseMime .zero mime).1).holding [])).after
              [.write [.raw (lit "Content-Type: "
                  ++ (if (parseMime .zero mime).1.any then lit "text/html;charset=utf-8" else mime)
                  ++ lit "\r\n\r\n")],
                if (parseMime .zero mime).1.any then .write (tpHead c lang none) else .flush] := by
  rw [← hplain, successScript]
  rw [show (c.holding rest').cltTranslate = c.cltTranslate from rfl]
  dsimp only
  generalize parseMime c.cltTranslate mime = r
  cases r.2 with
  | none => rfl
  | some lang =>
    dsimp only
    rw [Script.andThen_after]
    rfl

/-- The type a `2x` line gives. -/
def successMime : Bytes → Option Bytes
  | h0 :: h1 :: h2 :: h3 :: more =>
      if h0 == 50 && isdigit h1 && h2 == 32 then some ((cstr (h3 :: more)).dropWhile isblank)
      else none
  | _ => none

theorem cstrPast_fst (mem line : Bytes) : (cstrPast mem line).1 = cstr line := by
  rw [cstrPast]
  split
  · rename_i h
    exact (List.takeWhile_eq_self_iff.mpr (List.dropWhile_eq_nil_iff.mp h)).symm
  · rfl

theorem headerScript_success (oob : Bytes → Bytes) (mem : Bytes) (h : successMime hdr = some mime) :
    headerScript oob mem hdr c = successScript oob mime c := by
  rcases hdr with _ | ⟨h0, _ | ⟨h1, _ | ⟨h2, _ | ⟨h3, more⟩⟩⟩⟩
  case cons.cons.cons.cons =>
    rw [successMime] at h
    split at h
    · rename_i hok
      obtain ⟨⟨h50, h1⟩, h2⟩ : (h0 = 50 ∧ isdigit h1 = true) ∧ h2 = 32 := by simpa using hok
      subst h50 h2
      rw [← Option.some.inj h, headerScript, h1]
      simp only [statusScript, cstrPast_fst]
      rfl
    · cases h
  all_goals cases h

theorem parseMime_other (h : (lit "text/gemini").isPrefixOf mime = false) :
    parseMime .zero mime = (.zero, some []) := by
  simp [parseMime, h]

theorem parseMime_gemini (h : (lit "text/gemini").isPrefixOf mime = true) :
    (parseMime .zero mime).1 = { Translate.zero with enabled := true } := by
  simp [parseMime, h]

section Success

variable {as : List Arrival} {mime : Bytes} (hc : c.Awaiting)
  (hline : readlnCrlfStrict (arrived as) = some (hdr, rest)) (htimely : timely [] as = true)
  (hmime : successMime hdr = some mime)

include hc hline htimely hmime

/-- The script of a `2x` response: `as'` is the body as it arrived. -/
theorem playedOn_success :
    ∃ as', arrived as' = rest ∧ playedOn as c = match (parseMime .zero mime).2 with
      | none => failScript c 501 "Bad response"
      | some lang =>
          (playedOn as' ((c.accepted (parseMime .zero mime).1).holding [])).after
            [.write [.raw (lit "Content-Type: "
                ++ (if (parseMime .zero mime).1.any then lit "text/html;charset=utf-8" else mime)
                ++ lit "\r\n\r\n")],
              if (parseMime .zero mime).1.any then .write (tpHead c lang none) else .flush] := by
  obtain ⟨oob, mem, rest', as', hrest, hplay⟩ :=
    playedOn_header (b := []) as hc.headers rfl htimely hline
  rw [hc.holding_nil, headerScript_success oob mem hmime,
    successScript_andThen oob mime rest' as' hc.plain] at hplay
  exact ⟨_, hrest.symm, hplay⟩

/-- **Other content is served as it is.** -/
theorem reply_raw (hother : (lit "text/gemini").isPrefixOf mime = false) :
    reply as c = ⟨lit "Content-Type: " ++ mime ++ lit "\r\n\r\n" ++ rest,
      [endReqBody 0 requestComplete]⟩ := by
  obtain ⟨as', harr, hplay⟩ := playedOn_success hc hline htimely hmime
  rw [parseMime_other hother] at hplay
  dsimp only at hplay
  rw [playedOn_raw as' rfl rfl] at hplay
  rw [reply, played, hplay, Script.andThen_goes rfl]
  have hclose : errorScript evbufferEof ((c.accepted .zero).holding [])
      = ⟨[.write []], .ends 0 requestComplete⟩ := rfl
  rw [hclose]
  refine congrArg₂ Answer.mk ?_ rfl
  simp [Script.words, Script.after, putAll_append, putAll_direct, putAll, Put.effect,
    ← List.append_assoc, spill_append, pageText, Piece.text, Translate.any, Translate.zero, harr]

/-- **The script of a gemtext response**: its complete lines are translated, and what is behind the
last LF is still held when the end of file comes. -/
theorem playedOn_gemtext_response (hgem : (lit "text/gemini").isPrefixOf mime = true)
    {lang : Bytes} (hlang : (parseMime .zero mime).2 = some lang) :
    ∃ mems, mems.length = (splitLines rest).1.length ∧
      playedOn as c = (speak (document mems (splitLines rest).1)
        ((c.accepted { Translate.zero with enabled := true }).holding (splitLines rest).2)).after
          [.write [.raw (lit "Content-Type: text/html;charset=utf-8\r\n\r\n")],
            .write (tpHead c lang none)] := by
  obtain ⟨as', rfl, hplay⟩ := playedOn_success hc hline htimely hmime
  refine ⟨behind [] as', length_behind as' rfl, ?_⟩
  rw [hplay, hlang, parseMime_gemini hgem]
  dsimp only
  rw [playedOn_gemtext as' rfl rfl rfl]
  rfl

end Success

/-- The answer to a response that is answered before it has ended. -/
theorem reply_of_ends {status proto : UInt8} {text : Bytes}
    (hplay : playedOn as c = ⟨ops, .ends status proto⟩) (h : Utters ops text) :
    reply as c = ⟨text, [endReqBody status proto]⟩ := by
  rw [reply, played, hplay, Script.andThen_ends rfl]
  exact congrArg₂ Answer.mk (Script.words_ends h _ _) rfl

/-- The answer to a gemtext response whose lines are translated. -/
theorem reply_of_page {lang tail : Bytes} {ps : List Piece}
    (hplay : playedOn as c = (speak doc
      ((c.accepted { Translate.zero with enabled := true }).holding tail)).after
        [.write [.raw (lit "Content-Type: text/html;charset=utf-8\r\n\r\n")],
          .write (tpHead c lang none)])
    (hpage : gemtextPage c lang doc = some ps) :
    reply as c = ⟨lit "Content-Type: text/html;charset=utf-8\r\n\r\n" ++ pageText ps,
      [endReqBody 0 requestComplete]⟩ := by
  obtain ⟨r, hr, rfl⟩ := Option.map_eq_some_iff.mp hpage
  rw [← translateLines_holding _ { Translate.zero with enabled := true } tail] at hr
  obtain ⟨ops, hops, hspeak⟩ := speak_of_translateLines hr
  have hspeak' : speak doc ((c.accepted { Translate.zero with enabled := true }).holding tail)
      = ⟨ops, .goes ((c.accepted r.2).holding tail)⟩ := hspeak
  have hscript : played as c
      = ⟨[.write [.raw (lit "Content-Type: text/html;charset=utf-8\r\n\r\n")]]
          ++ ([.write (tpHead c lang none)]
            ++ (ops ++ [.write (closePieces { c with cltTranslate := r.2 })])),
        .ends 0 requestComplete⟩ := by
    rw [played, hplay, hspeak', Script.andThen_after, Script.andThen_goes rfl]
    rfl
  have hutters := (Utters.write [.raw (lit "Content-Type: text/html;charset=utf-8\r\n\r\n")]).append
    ((Utters.write (tpHead c lang none)).append
      (hops.append (Utters.write (closePieces { c with cltTranslate := r.2 }))))
  rw [reply, hscript]
  refine congrArg₂ Answer.mk ?_ rfl
  rw [Script.words_ends hutters]
  simp [Piece.text]

/-- A null pointer was followed on the way: the request is never ended. -/
theorem ends_reply_of_crash {lang tail : Bytes}
    (hplay : playedOn as c = (speak doc
      ((c.accepted { Translate.zero with enabled := true }).holding tail)).after ops)
    (hpage : gemtextPage c lang doc = none) : (reply as c).ends = [] := by
  have hnone := Option.map_eq_none_iff.mp hpage
  rw [← translateLines_holding _ { Translate.zero with enabled := true } tail] at hnone
  have hcrash : (playedOn as c).next = .crashed := by
    rw [hplay]
    exact speak_crashed hnone
  show (played as c).ends = []
  rw [played, Script.andThen_crashed hcrash, Script.ends, hcrash]

end Body

end Galileo
