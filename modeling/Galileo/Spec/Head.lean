import Mathlib.Data.List.Infix
import Galileo.Lib.Lines
import Galileo.Model.Proxy

/-!
# Header blocks

What the web server reads in front of a page: fields, each on a line of its own, and an empty line.
A reply of the proxy begins in one of two ways (`Head`): with `proxy_start_reply`, or, for a
successful response of a Gemini server, with a `Content-Type` alone. In both one value may come from
outside.
-/

set_option autoImplicit false

namespace Galileo

open Lib

structure Field where
  name : Bytes
  value : Bytes
deriving DecidableEq

def Field.text (f : Field) : Bytes := f.name ++ lit ": " ++ f.value ++ lit "\r\n"

/-- The block: the fields and an empty line. -/
def headText (fs : List Field) : Bytes := fs.flatMap Field.text ++ lit "\r\n"

/-- Neither CR nor LF. -/
def OneLine (v : Bytes) : Prop := 13 ∉ v ∧ 10 ∉ v

instance (v : Bytes) : Decidable (OneLine v) := inferInstanceAs (Decidable (_ ∧ _))

/-- The fields the proxy sends. -/
def ownNames : List Bytes :=
  [lit "Status", lit "Content-Security-Policy", lit "Location", lit "Content-Type"]

/-- The proxy's own fields, each on one line. -/
def OwnFields (fs : List Field) : Prop := ∀ f ∈ fs, f.name ∈ ownNames ∧ OneLine f.value

instance (fs : List Field) : Decidable (OwnFields fs) :=
  inferInstanceAs (Decidable (∀ f ∈ fs, _ ∧ _))

def cspField : Field :=
  ⟨lit "Content-Security-Policy",
    lit "default-src 'self'; script-src 'none'; object-src 'none';"⟩

/-- Whether a content type is HTML, whatever its parameters. -/
def isHtml (v : Bytes) : Bool :=
  caseEq (v.takeWhile fun b => b != 59 && !isblank b) (lit "text/html")

/-- With a blank in front there is no type. -/
theorem isHtml_of_dropWhile {v : Bytes} (h : isHtml (v.dropWhile isblank) = false) :
    isHtml v = false := by
  rcases v with _ | ⟨b, v⟩
  · rfl
  cases hb : isblank b with
  | true =>
    rw [isHtml, List.takeWhile_cons, if_neg (by simp [hb])]
    decide
  | false => rwa [List.dropWhile_cons, hb, if_neg Bool.false_ne_true] at h

/-- A block with an HTML type has the policy, and has it once. -/
def Guarded (fs : List Field) : Prop :=
  (∃ v, ⟨lit "Content-Type", v⟩ ∈ fs ∧ isHtml v = true) →
    fs.filter (·.name == lit "Content-Security-Policy") = [cspField]

inductive Head where
  | reply (status : Nat) (ctype : Bytes)
  | content (ctype : Bytes)
deriving DecidableEq

namespace Head

def fields : Head → List Field
  | reply status v =>
      (if status != 200 then [⟨lit "Status", fmtNat status⟩] else []) ++ [cspField]
        ++ [if status == 302 then ⟨lit "Location", v⟩
            else ⟨lit "Content-Type",
              if v == lit "text/html" then lit "text/html;charset=utf-8" else v⟩]
  | content v => [⟨lit "Content-Type", v⟩]

/-- The value that may come from outside. -/
def value : Head → Bytes
  | reply _ v => v
  | content v => v

/-- Whether it is the block of a redirection, behind which there is no page. -/
def redirects : Head → Bool
  | reply status _ => status == 302
  | content _ => false

/-- The text is the block with a page behind it, or the block of a redirection and nothing else. -/
def Begins (h : Head) (t : Bytes) : Prop :=
  if h.redirects then t = headText h.fields else headText h.fields <+: t

theorem Begins.isPrefix {h : Head} {t : Bytes} (ht : h.Begins t) : headText h.fields <+: t := by
  rw [Begins] at ht
  split at ht
  · exact ht ▸ List.prefix_refl _
  · exact ht

end Head

/-- Our own pages. -/
theorem ownFields_page : ∀ status ∈ [200, 400, 501],
    OwnFields (Head.reply status (lit "text/html")).fields := by
  decide

theorem ownFields_redirect {v : Bytes} (h : OneLine v) : OwnFields (Head.reply 302 v).fields := by
  have hown : OwnFields [⟨lit "Status", fmtNat 302⟩, cspField] := by decide
  intro f hf
  rcases List.mem_append.mp hf with hf | hf
  · exact hown f hf
  · rw [List.mem_singleton.mp hf]
    exact ⟨(by decide : lit "Location" ∈ ownNames), h⟩

theorem ownFields_content {v : Bytes} (h : OneLine v) : OwnFields (Head.content v).fields := by
  intro f hf
  rw [List.mem_singleton.mp hf]
  exact ⟨(by decide : lit "Content-Type" ∈ ownNames), h⟩

theorem guarded_reply (status : Nat) (v : Bytes) : Guarded (Head.reply status v).fields := by
  intro _
  have hcsp : (cspField.name == lit "Content-Security-Policy") = true := by decide
  have hstatus : (lit "Status" == lit "Content-Security-Policy") = false := by decide
  have hlocation : (lit "Location" == lit "Content-Security-Policy") = false := by decide
  have htype : (lit "Content-Type" == lit "Content-Security-Policy") = false := by decide
  rw [Head.fields]
  by_cases h200 : (status != 200) = true <;> by_cases h302 : (status == 302) = true <;>
    simp [h200, h302, hcsp, hstatus, hlocation, htype]

theorem guarded_content {v : Bytes} (h : isHtml v = false) : Guarded (Head.content v).fields := by
  rintro ⟨w, hw, hhtml⟩
  rw [(Field.mk.inj (List.mem_singleton.mp hw)).2, h] at hhtml
  cases hhtml

/-! ## Reading a block

How the web server takes a block apart: into lines, each with an LF at its end and as a rule a CR in
front of it, up to an empty one, and a line at its first colon. The case of a name makes no
difference. -/

def readField (line : Bytes) : Field :=
  ⟨line.takeWhile (· != 58), ((line.dropWhile (· != 58)).drop 1).dropWhile isblank⟩

def readBlock (t : Bytes) : List Field :=
  (((splitLines t).1.map stripCr).takeWhile (· != [])).map readField

def Field.named (f : Field) (name : String) : Bool := caseEq f.name (lit name)

/-- A block that reads as HTML has the policy, and has it once. -/
def Policed (t : Bytes) : Prop :=
  (∃ f ∈ readBlock t, f.named "Content-Type" = true ∧ isHtml f.value = true) →
    (readBlock t).filter (·.named "Content-Security-Policy") = [cspField]

instance (t : Bytes) : Decidable (Policed t) := inferInstanceAs (Decidable (_ → _))

/-- Whether the name stands somewhere in the text. -/
def mentions (name : String) (t : Bytes) : Bool :=
  t.tails.any fun t => caseEq (t.take (lit name).length) (lit name)

theorem readBlock_line {l : Bytes} (hline : 10 ∉ l) (hne : l ≠ []) (t : Bytes) :
    readBlock (l ++ lit "\r\n" ++ t) = readField l :: readBlock t := by
  have hcrlf : l ++ lit "\r\n" ++ t = (l ++ [13]) ++ 10 :: t := by
    rw [(by decide : lit "\r\n" = [13, 10])]
    simp
  have hstrip : stripCr (l ++ [13]) = l := by simp [stripCr]
  rw [readBlock, hcrlf, splitLines_cons (by simpa using hline), List.map_cons, hstrip,
    List.takeWhile_cons, if_pos (by simpa using hne), List.map_cons, readBlock]

theorem readBlock_end (t : Bytes) : readBlock (lit "\r\n" ++ t) = [] := rfl

theorem readField_text {name value : Bytes} (hname : 58 ∉ name) :
    readField (name ++ lit ": " ++ value) = ⟨name, value.dropWhile isblank⟩ := by
  have hcolon : lit ": " = [58, 32] := by decide
  have hstop : ∀ b ∈ name, (b != 58) = true := fun b hb => by
    simpa using ne_of_mem_of_not_mem hb hname
  rw [readField, hcolon, List.append_assoc, List.takeWhile_append_of_pos hstop,
    List.dropWhile_append_of_pos hstop]
  simp [isblank]

/-- A name that is read in the text stands there. -/
theorem mentions_of_infix {name : String} {n t : Bytes} (h : n <:+: t)
    (hn : caseEq n (lit name) = true) : mentions name t = true := by
  obtain ⟨p, q, rfl⟩ := h
  refine List.any_eq_true.mpr ⟨n ++ q, (List.mem_tails _ _).mpr ⟨p, by simp⟩, ?_⟩
  rwa [← length_of_caseEq hn, List.take_left]

/-- The fields of a block stand in its text. -/
theorem infix_of_mem_readBlock {f : Field} {t : Bytes} (h : f ∈ readBlock t) : f.name <:+: t := by
  obtain ⟨line, hline, rfl⟩ := List.mem_map.mp h
  obtain ⟨l, hl, rfl⟩ := List.mem_map.mp ((List.takeWhile_prefix _).subset hline)
  have hname : (readField (stripCr l)).name <+: stripCr l := List.takeWhile_prefix _
  have hstrip : stripCr l <+: l := by
    rw [stripCr]
    split
    · exact List.dropLast_prefix l
    · exact List.prefix_refl l
  obtain ⟨a, b, hjoin⟩ := mem_joinLines hl (splitLines t).2
  rw [joinLines_splitLines] at hjoin
  rw [hjoin]
  exact (hname.trans hstrip).isInfix.trans ⟨a, 10 :: b, by simp⟩

theorem policed_page : ∀ status ∈ [200, 400, 501],
    Policed (headText (Head.reply status (lit "text/html")).fields) := by
  decide

theorem policed_content {v : Bytes} (hline : 10 ∉ v)
    (hhtml : isHtml (v.dropWhile isblank) = false) :
    Policed (headText (Head.content v).fields) := by
  have hread : readBlock (headText (Head.content v).fields)
      = [⟨lit "Content-Type", v.dropWhile isblank⟩] := by
    have htext : headText (Head.content v).fields
        = (lit "Content-Type" ++ lit ": " ++ v) ++ lit "\r\n" ++ (lit "\r\n" ++ []) := by
      simp [headText, Head.fields, Field.text]
    rw [htext, readBlock_line, readBlock_end, readField_text (by decide)]
    · simpa using ⟨by decide, by decide, hline⟩
    · exact List.append_ne_nil_of_left_ne_nil (by decide) v
  rintro ⟨f, hf, -, hf'⟩
  rw [hread] at hf
  rw [List.mem_singleton.mp hf, hhtml] at hf'
  cases hf'

/-- Behind the name of the `Location` a field of that name is one of its target: it has no blank and
no CR. -/
theorem mentions_of_location {f : Field} {v : Bytes}
    (hf : f ∈ readBlock ((lit "Location" ++ lit ": " ++ v) ++ lit "\r\n" ++ (lit "\r\n" ++ [])))
    (hnamed : f.named "Content-Security-Policy" = true) :
    mentions "Content-Security-Policy" v = true := by
  have htext : (lit "Location" ++ lit ": " ++ v) ++ lit "\r\n" ++ (lit "\r\n" ++ [])
      = lit "Location:" ++ 32 :: (v ++ 13 :: [10, 13, 10]) := by
    rw [(by decide : lit "Location" ++ lit ": " = lit "Location:" ++ [32]),
      (by decide : lit "\r\n" = [13, 10])]
    simp
  have hshort {t : Bytes} (ht : t.length < 23) : ¬ f.name <:+: t := fun h => by
    have hlen := (length_of_caseEq hnamed).trans (by decide : _ = 23)
    have hle := h.length_le
    omega
  have hinfix := infix_of_mem_readBlock hf
  rw [htext] at hinfix
  rcases infix_of_not_mem hinfix (not_mem_of_caseEq hnamed (by decide)) with hinfix | hinfix
  · exact absurd hinfix (hshort (by decide))
  rcases infix_of_not_mem hinfix (not_mem_of_caseEq hnamed (by decide)) with hinfix | hinfix
  · exact mentions_of_infix hinfix hnamed
  · exact absurd hinfix (hshort (by decide))

/-- A redirection has the policy, and no other one unless its target has lines and names it. -/
theorem policed_redirect {v : Bytes} (h : 10 ∉ v ∨ mentions "Content-Security-Policy" v = false) :
    Policed (headText (Head.reply 302 v).fields) := by
  intro _
  have htext : headText (Head.reply 302 v).fields
      = lit "Status: 302" ++ lit "\r\n"
        ++ ((cspField.name ++ lit ": " ++ cspField.value) ++ lit "\r\n"
        ++ ((lit "Location" ++ lit ": " ++ v) ++ lit "\r\n" ++ (lit "\r\n" ++ []))) := by
    have hstatus : lit "Status" ++ (lit ": " ++ fmtNat 302) = lit "Status: 302" := by decide
    simp [headText, Head.fields, Field.text, ← hstatus]
  have hcsp : readField (cspField.name ++ lit ": " ++ cspField.value) = cspField := by decide
  rw [htext, readBlock_line (by decide) (by decide), readBlock_line (by decide) (by decide), hcsp,
    List.filter_cons_of_neg (by decide), List.filter_cons_of_pos (by decide), List.cons.injEq]
  refine ⟨rfl, List.filter_eq_nil_iff.mpr fun f hf hnamed => ?_⟩
  rcases h with hline | hno
  · rw [readBlock_line (by simpa using ⟨by decide, by decide, hline⟩)
      (List.append_ne_nil_of_left_ne_nil (by decide) v), readBlock_end,
      readField_text (by decide)] at hf
    rw [List.mem_singleton.mp hf] at hnamed
    exact absurd hnamed (by decide : ¬ caseEq (lit "Location") (lit "Content-Security-Policy"))
  · exact absurd (mentions_of_location hf hnamed) (by simp [hno])

/-- A proper block has one line for each field, and an empty one. -/
theorem count_headText {fs : List Field} (h : OwnFields fs) :
    (headText fs).count 10 = fs.length + 1 := by
  have hnames : ∀ n ∈ ownNames, n.count 10 = 0 := by decide
  have hcolon : (lit ": ").count 10 = 0 := by decide
  have hcrlf : (lit "\r\n").count 10 = 1 := by decide
  rw [headText, List.count_append, hcrlf]
  induction fs with
  | nil => rfl
  | cons f fs ih =>
    obtain ⟨hname, -, hvalue⟩ := h f (by simp)
    have hline : f.text.count 10 = 1 := by
      rw [Field.text, List.count_append, List.count_append, List.count_append, hnames _ hname,
        hcolon, hcrlf, List.count_eq_zero_of_not_mem hvalue]
    have hrest := ih fun g hg => h g (by simp [hg])
    rw [List.flatMap_cons, List.count_append, hline, List.length_cons]
    omega

end Galileo
