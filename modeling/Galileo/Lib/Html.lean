import Galileo.Lib.Bytes

/-!
# Markup and what is filled into it

A page is put together from fixed text and from strings of unknown origin. What a browser sees of
it is decided by the tokenizer, a machine that reads byte by byte and knows whether it is in text,
in a tag, or in a quoted attribute value. This is that machine, as far as tags and the names of
their attributes go; what happens inside text is of no interest here.

A *template* is a list of `Hole`s. Fixed text moves the machine; a hole must not. Whether it can
depends on where the machine is: a string without `<` is harmless in text, and one without quotes
is harmless in a quoted value **and nowhere else**. `check` follows a template through the machine
and rejects a hole in a place where it could do harm, so that the tags of a page are those of its
template, whatever was filled in (`checkAll_sound`).

`effect` adds what the tags do to the stack of open elements.
-/

set_option autoImplicit false

namespace Lib.Html

/-! ## The tokenizer -/

/-- A start tag or an end tag, and the names of its attributes. -/
structure Tag where
  name : Bytes
  attrs : List Bytes
  isEnd : Bool
  selfClosing : Bool
deriving DecidableEq

/-- A tag of which one letter has been read. -/
def Tag.start (b : UInt8) (isEnd : Bool) : Tag := ⟨[tolower b], [], isEnd, false⟩

def Tag.addAttr (t : Tag) (name : Bytes) : Tag := { t with attrs := t.attrs ++ [name] }

/-- The states of the tokenizer, with the tag that is being read. -/
inductive Mode where
  | data
  | tagOpen
  | endTagOpen
  /-- A `<!doctype>`, or anything else that is skipped up to the next `>`. -/
  | declaration
  | tagName (t : Tag)
  | beforeAttrName (t : Tag)
  | attrName (t : Tag) (name : Bytes)
  | afterAttrName (t : Tag)
  | beforeValue (t : Tag)
  | doubleQuoted (t : Tag)
  | singleQuoted (t : Tag)
  | unquoted (t : Tag)
  | selfClosing (t : Tag)
deriving DecidableEq

def blank (b : UInt8) : Bool := b == 9 || b == 10 || b == 12 || b == 13 || b == 32

/-- A byte of a tag, outside of names and values. -/
def inTag (t : Tag) (b : UInt8) : Mode × List Tag :=
  if blank b then (.beforeAttrName t, [])
  else if b == 47 then (.selfClosing t, [])
  else if b == 62 then (.data, [t])
  else (.attrName t [tolower b], [])

/-- The next state, and the tag that is complete with this byte. -/
def step : Mode → UInt8 → Mode × List Tag
  | .data, b => if b == 60 then (.tagOpen, []) else (.data, [])
  | .tagOpen, b =>
      if b == 33 || b == 63 then (.declaration, [])
      else if b == 47 then (.endTagOpen, [])
      else if isalpha b then (.tagName (.start b false), [])
      else if b == 60 then (.tagOpen, [])
      else (.data, [])
  | .endTagOpen, b =>
      if isalpha b then (.tagName (.start b true), [])
      else if b == 62 then (.data, [])
      else (.declaration, [])
  | .declaration, b => if b == 62 then (.data, []) else (.declaration, [])
  | .tagName t, b =>
      if blank b || b == 47 || b == 62 then inTag t b
      else (.tagName { t with name := t.name ++ [tolower b] }, [])
  | .beforeAttrName t, b => inTag t b
  | .attrName t name, b =>
      if b == 61 then (.beforeValue (t.addAttr name), [])
      else if blank b then (.afterAttrName (t.addAttr name), [])
      else if b == 47 || b == 62 then inTag (t.addAttr name) b
      else (.attrName t (name ++ [tolower b]), [])
  | .afterAttrName t, b =>
      if b == 61 then (.beforeValue t, [])
      else if blank b then (.afterAttrName t, [])
      else inTag t b
  | .beforeValue t, b =>
      if blank b then (.beforeValue t, [])
      else if b == 34 then (.doubleQuoted t, [])
      else if b == 39 then (.singleQuoted t, [])
      else if b == 62 then (.data, [t])
      else (.unquoted t, [])
  | .doubleQuoted t, b => if b == 34 then (.beforeAttrName t, []) else (.doubleQuoted t, [])
  | .singleQuoted t, b => if b == 39 then (.beforeAttrName t, []) else (.singleQuoted t, [])
  | .unquoted t, b =>
      if blank b then (.beforeAttrName t, [])
      else if b == 62 then (.data, [t])
      else (.unquoted t, [])
  | .selfClosing t, b => if b == 62 then (.data, [{ t with selfClosing := true }]) else inTag t b

/-- Read a text. -/
def scan : Mode → Bytes → Mode × List Tag
  | m, [] => (m, [])
  | m, b :: bs => ((scan (step m b).1 bs).1, (step m b).2 ++ (scan (step m b).1 bs).2)

theorem scan_append (m : Mode) (s t : Bytes) :
    scan m (s ++ t) = ((scan (scan m s).1 t).1, (scan m s).2 ++ (scan (scan m s).1 t).2) := by
  induction s generalizing m with
  | nil => simp [scan]
  | cons b s ih => simp only [List.cons_append, scan, ih, List.append_assoc]

/-- Text that does not move the tokenizer. -/
theorem scan_eq_self {m : Mode} {s : Bytes} (h : ∀ b ∈ s, step m b = (m, [])) :
    scan m s = (m, []) := by
  induction s with
  | nil => rfl
  | cons b s ih =>
    have hb := h b (List.mem_cons_self ..)
    have hs := ih fun b' hb' => h b' (List.mem_cons_of_mem _ hb')
    simp [scan, hb, hs]

/-- The tags of a page, which must not end within one. -/
def tags (page : Bytes) : Option (List Tag) :=
  if (scan .data page).1 = .data then some (scan .data page).2 else none

/-! ## Templates -/

/-- A part of a template: fixed text, a string without `<` and quotes, a string without quotes. -/
inductive Hole where
  | raw (s : Bytes)
  | escaped
  | quoted
deriving DecidableEq

/-- What may be filled in. -/
def Hole.Admits : Hole → Bytes → Prop
  | .raw s, t => t = s
  | .escaped, t => ∀ b ∈ t, b ≠ 60 ∧ b ≠ 34 ∧ b ≠ 39
  | .quoted, t => ∀ b ∈ t, b ≠ 34 ∧ b ≠ 39

/-- Where the tokenizer is after a hole, if the hole may be there. -/
def check : Mode → Hole → Option (Mode × List Tag)
  | m, .raw s => some (scan m s)
  | .data, .escaped => some (.data, [])
  | .doubleQuoted t, _ => some (.doubleQuoted t, [])
  | .singleQuoted t, _ => some (.singleQuoted t, [])
  | _, _ => none

def checkAll : Mode → List Hole → Option (Mode × List Tag)
  | m, [] => some (m, [])
  | m, h :: hs =>
      match check m h with
      | none => none
      | some r => (checkAll r.1 hs).map fun s => (s.1, r.2 ++ s.2)

theorem check_sound {m : Mode} {h : Hole} {r : Mode × List Tag} {t : Bytes}
    (hc : check m h = some r) (ht : h.Admits t) : scan m t = r := by
  cases h with
  | raw s =>
    rw [show t = s from ht]
    simpa [check] using hc
  | escaped =>
    cases m <;> simp only [check, Option.some.injEq, reduceCtorEq] at hc <;> subst hc <;>
      refine scan_eq_self fun b hb => ?_ <;> have hb := ht b hb <;> simp [step, hb]
  | quoted =>
    cases m <;> simp only [check, Option.some.injEq, reduceCtorEq] at hc <;> subst hc <;>
      refine scan_eq_self fun b hb => ?_ <;> have hb := ht b hb <;> simp [step, hb]

/-- **What is filled in does not show in the tags.** -/
theorem checkAll_sound {m : Mode} {hs : List Hole} {ts : List Bytes} {r : Mode × List Tag}
    (hc : checkAll m hs = some r) (ht : List.Forall₂ Hole.Admits hs ts) :
    scan m ts.flatten = r := by
  induction ht generalizing m r with
  | nil => simpa [checkAll, scan] using hc
  | @cons h t hs ts hadmit _ ih =>
    rw [checkAll] at hc
    cases hcheck : check m h with
    | none => simp [hcheck] at hc
    | some q =>
      simp only [hcheck, Option.map_eq_some_iff] at hc
      obtain ⟨s, hs, rfl⟩ := hc
      rw [List.flatten_cons, scan_append, check_sound hcheck hadmit, ih hs]

theorem checkAll_append {m m' m'' : Mode} {hs hs' : List Hole} {ts ts' : List Tag}
    (h : checkAll m hs = some (m', ts)) (h' : checkAll m' hs' = some (m'', ts')) :
    checkAll m (hs ++ hs') = some (m'', ts ++ ts') := by
  induction hs generalizing m ts with
  | nil =>
    obtain ⟨rfl, rfl⟩ : m = m' ∧ [] = ts := by simpa [checkAll] using h
    simpa using h'
  | cons a hs ih =>
    rw [checkAll] at h
    rw [List.cons_append, checkAll]
    cases hcheck : check m a with
    | none => simp [hcheck] at h
    | some q =>
      simp only [hcheck, Option.map_eq_some_iff] at h
      obtain ⟨⟨n, us⟩, hs, heq⟩ := h
      obtain ⟨rfl, rfl⟩ := Prod.mk.inj heq
      simp [ih hs]

/-! ## Nesting -/

/-- Elements that have no content and no end tag. -/
def voidElements : List Bytes :=
  ["area", "base", "br", "col", "embed", "hr", "img", "input", "link", "meta", "source", "track",
    "wbr"].map lit

/-- What a tag does to the stack of open elements. -/
def nest (stack : List Bytes) (t : Tag) : Option (List Bytes) :=
  if t.isEnd then
    match stack with
    | [] => none
    | top :: rest => if top = t.name then some rest else none
  else if t.name ∈ voidElements then some stack
  else some (t.name :: stack)

/-- Every element that is opened is closed again, and in the right order. -/
def WellNested (ts : List Tag) : Prop := ts.foldlM nest [] = some []

instance (ts : List Tag) : Decidable (WellNested ts) := inferInstanceAs (Decidable (_ = _))

/-- What a template that begins and ends in text does to the stack of open elements. -/
def effect (hs : List Hole) (stack : List Bytes) : Option (List Bytes) :=
  match checkAll .data hs with
  | some (.data, ts) => ts.foldlM nest stack
  | _ => none

theorem effect_eq_some_iff {hs : List Hole} {s s' : List Bytes} :
    effect hs s = some s' ↔
      ∃ ts, checkAll .data hs = some (.data, ts) ∧ ts.foldlM nest s = some s' := by
  unfold effect
  constructor
  · intro h
    split at h
    · next ts hc => exact ⟨ts, hc, h⟩
    · cases h
  · rintro ⟨ts, hc, h⟩
    rw [hc]
    exact h

theorem effect_append {hs hs' : List Hole} {s s' s'' : List Bytes} (h : effect hs s = some s')
    (h' : effect hs' s' = some s'') : effect (hs ++ hs') s = some s'' := by
  obtain ⟨ts, hc, hn⟩ := effect_eq_some_iff.mp h
  obtain ⟨ts', hc', hn'⟩ := effect_eq_some_iff.mp h'
  refine effect_eq_some_iff.mpr ⟨ts ++ ts', checkAll_append hc hc', ?_⟩
  rw [List.foldlM_append, hn]
  exact hn'

/-- **A template that closes what it opens gives well-nested pages**, and the same tags for
everything that is filled in. -/
theorem exists_tags {hs : List Hole} (h : effect hs [] = some []) :
    ∃ ts, WellNested ts ∧
      ∀ fills : List Bytes, List.Forall₂ Hole.Admits hs fills → tags fills.flatten = some ts := by
  obtain ⟨ts, hc, hn⟩ := effect_eq_some_iff.mp h
  refine ⟨ts, hn, fun fills hfills => ?_⟩
  rw [tags, checkAll_sound hc hfills]
  rfl

end Lib.Html
