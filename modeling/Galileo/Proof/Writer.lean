import Galileo.Model.Template

/-!
# What the template runtime writes

The runtime buffers, and callers do not see where a block ends. Everything rests on one equation:
writing a string is writing its bytes one at a time (`tpWrite_eq_each`). So writes compose
(`tpWrite_append`), for **any** callback and also when the callback fails half way, and a
generated function is one write of the text of its statements (`render_eq_tpWrite`).

`spill` is the closed form of where the block boundaries fall when the callback always succeeds.
-/

set_option autoImplicit false

namespace Galileo

open Lib

/-! ## One byte at a time -/

section Runtime

variable {σ : Type} (wr : Bytes → Prog σ Unit)

/-- A write of one byte: make room if there is none, then append. -/
def putc (b : UInt8) : TpM σ Unit := do
  let x ← Prog.get
  if x.1.avail = 0 then templateFlush wr
  Prog.modify fun x => (x.1.copy [b], x.2)

theorem Template.avail_clear (tp : Template) : 0 < tp.clear.avail := by
  simpa [avail, clear] using tp.cap_pos

theorem Template.copy_nil (tp : Template) : tp.copy [] = tp := by simp [copy]

theorem Template.copy_take (tp : Template) (str : Bytes) :
    tp.copy (str.take tp.avail) = tp.copy str := by
  simp [copy, List.take_take]

theorem Template.avail_copy (tp : Template) (str : Bytes) :
    (tp.copy str).avail = tp.avail - str.length := by
  simp only [avail, copy, List.length_append, List.length_take]
  omega

theorem Template.copy_copy {tp : Template} {s t : Bytes} (h : s.length ≤ tp.avail) :
    (tp.copy s).copy t = tp.copy (s ++ t) := by
  refine Template.ext ?_ rfl
  show tp.tpBuf ++ s.take tp.avail ++ t.take (tp.copy s).avail = tp.tpBuf ++ (s ++ t).take tp.avail
  rw [tp.avail_copy, List.take_append, List.take_of_length_le h, List.append_assoc]

theorem putc_of_avail {tp : Template} (h : 0 < tp.avail) (b : UInt8) (s : σ) :
    putc wr b (tp, s) = (some (), (tp.copy [b], s)) := by
  have h0 : ¬ tp.avail = 0 := by omega
  simp [putc, h0]

/-- As long as there is room, writing is copying. -/
theorem each_putc_of_le : ∀ (str : Bytes) (tp : Template) (s : σ), str.length ≤ tp.avail →
    Prog.each (putc wr) str (tp, s) = (some (), (tp.copy str, s))
  | [], tp, s, _ => by simp [Template.copy_nil]
  | b :: str, tp, s, h => by
    simp only [List.length_cons] at h
    have hrest : str.length ≤ (tp.copy [b]).avail := by
      rw [Template.avail_copy]
      simp only [List.length_singleton]
      omega
    rw [Prog.each_cons, Prog.bind_some (putc_of_avail wr (by omega) b s),
      each_putc_of_le str _ s hrest, Template.copy_copy (by simp; omega)]
    rfl

theorem each_putc_of_avail (str : Bytes) (tp : Template) (s : σ) :
    Prog.each (putc wr) str (tp, s)
      = Prog.each (putc wr) (str.drop tp.avail) (tp.copy str, s) := by
  conv_lhs => rw [← List.take_append_drop tp.avail str]
  rw [Prog.each_append, Prog.bind_some (each_putc_of_le wr _ tp s (List.length_take_le _ _)),
    Template.copy_take]

/-- The first byte makes room when there is none. -/
theorem each_putc_flush {tp : Template} (h : tp.avail = 0) (b : UInt8) (str : Bytes) (s : σ) :
    Prog.each (putc wr) (b :: str) (tp, s)
      = (templateFlush wr >>= fun _ => Prog.each (putc wr) (b :: str)) (tp, s) := by
  have hbuf : tp.tpBuf.isEmpty = false := by
    have := tp.cap_pos
    simp only [Template.avail] at h
    cases hb : tp.tpBuf with
    | nil => simp [hb] at h; omega
    | cons => rfl
  have hfull : putc wr b (tp, s)
      = (templateFlush wr >>= fun _ => Prog.modify fun x => (x.1.copy [b], x.2)) (tp, s) := by
    simp only [putc, Prog.get_bind, h, if_true]
  have hputc : putc wr b (tp, s) = (templateFlush wr >>= fun _ => putc wr b) (tp, s) := by
    rw [hfull]
    rcases hw : wr tp.tpBuf s with ⟨_ | u, s'⟩
    · have hfl : templateFlush wr (tp, s) = (none, (tp, s')) := by simp [templateFlush, hbuf, hw]
      rw [Prog.bind_none hfl, Prog.bind_none hfl]
    · have hfl : templateFlush wr (tp, s) = (some (), (tp.clear, s')) := by
        simp [templateFlush, hbuf, hw]
      rw [Prog.bind_some hfl, Prog.bind_some hfl, putc_of_avail wr tp.avail_clear]
      rfl
  rw [Prog.each_cons, Prog.bind_run, hputc, ← Prog.bind_run, bind_assoc]

theorem tpWriteLoop_eq_each : ∀ (n : Nat) (str : Bytes), str.length ≤ n →
    tpWriteLoop wr n str = Prog.each (putc wr) str
  | 0, str, h => by
    rw [List.length_eq_zero_iff.mp (Nat.le_zero.mp h)]
    rfl
  | n + 1, [], _ => rfl
  | n + 1, b :: str, h => by
    simp only [List.length_cons] at h
    -- after the flush there is room for at least one byte, so the rest is shorter
    have hcopy : ∀ (tp : Template) (s : σ), 0 < tp.avail →
        (Prog.get >>= fun x : Template × σ =>
          Prog.modify (fun x => (x.1.copy (b :: str), x.2)) >>= fun _ =>
            tpWriteLoop wr n ((b :: str).drop x.1.avail)) (tp, s)
          = Prog.each (putc wr) (b :: str) (tp, s) := by
      intro tp s hpos
      have hlen : ((b :: str).drop tp.avail).length ≤ n := by simp; omega
      rw [each_putc_of_avail, ← tpWriteLoop_eq_each n _ hlen]
      rfl
    funext x
    obtain ⟨tp, s⟩ := x
    by_cases h0 : tp.avail = 0
    · rw [each_putc_flush wr h0, tpWriteLoop]
      simp only [List.isEmpty_cons, Bool.false_eq_true, if_false, Prog.get_bind, h0, if_true]
      rw [Prog.bind_run, Prog.bind_run]
      rcases hf : templateFlush wr (tp, s) with ⟨_ | u, tp', s'⟩
      · rfl
      · refine hcopy tp' s' ?_
        have hcl : tp' = tp ∧ tp.tpBuf.isEmpty = true ∨ tp' = tp.clear := by
          simp only [templateFlush] at hf
          split at hf
          · exact .inl ⟨by simp_all, by assumption⟩
          · rcases hw : wr tp.tpBuf s with ⟨_ | _, _⟩ <;> rw [hw] at hf <;> simp_all
        rcases hcl with ⟨-, he⟩ | rfl
        · have := tp.cap_pos
          simp [Template.avail, List.isEmpty_iff.mp he] at h0
          omega
        · exact tp.avail_clear
    · rw [tpWriteLoop]
      simp only [List.isEmpty_cons, Bool.false_eq_true, if_false, Prog.get_bind, h0]
      exact hcopy tp s (by omega)

/-- **A write is the writes of its bytes.** -/
theorem tpWrite_eq_each (str : Bytes) : tpWrite wr str = Prog.each (putc wr) str :=
  tpWriteLoop_eq_each wr str.length str (Nat.le_refl _)

theorem tpWrite_append (s t : Bytes) :
    tpWrite wr (s ++ t) = tpWrite wr s >>= fun _ => tpWrite wr t := by
  simp only [tpWrite_eq_each, Prog.each_append]

@[simp] theorem tpWrite_nil : tpWrite wr [] = pure () := rfl

end Runtime

/-! ## The text of a page -/

/-- The text `tp_htmlescape` writes. -/
def htmlescape (str : Bytes) : Bytes := str.flatMap htmlescapeByte

/-- The text `tp_urlescape` writes. -/
def urlescape : Bytes → Bytes
  | [] => []
  | b :: str =>
      if urlUnsafe b then
        if (urlescapeTmp b).length ≥ 4 then [] else urlescapeTmp b ++ urlescape str
      else b :: urlescape str

/-- The text of one statement. -/
def Piece.text : Piece → Bytes
  | .raw s => s
  | .html s => htmlescape s
  | .url s => urlescape s

/-- The text of a generated function. -/
def pageText (ps : List Piece) : Bytes := ps.flatMap Piece.text

@[simp] theorem pageText_nil : pageText [] = [] := rfl

@[simp] theorem pageText_cons (p : Piece) (ps : List Piece) :
    pageText (p :: ps) = p.text ++ pageText ps := List.flatMap_cons ..

@[simp] theorem pageText_append (ps qs : List Piece) :
    pageText (ps ++ qs) = pageText ps ++ pageText qs := List.flatMap_append ..

section Runtime

variable {σ : Type} (wr : Bytes → Prog σ Unit)

theorem tpHtmlescape_eq_tpWrite (str : Bytes) :
    tpHtmlescape wr str = tpWrite wr (htmlescape str) := by
  induction str with
  | nil => rfl
  | cons b str ih =>
    show (tpWrite wr (htmlescapeByte b) >>= fun _ => tpHtmlescape wr str) = _
    rw [ih, ← tpWrite_append]
    rfl

theorem tpUrlescape_eq_tpWrite (str : Bytes) :
    tpUrlescape wr str = tpWrite wr (urlescape str) := by
  induction str with
  | nil => rfl
  | cons b str ih =>
    rw [tpUrlescape, urlescape]
    split
    · split
      · rfl
      · rw [ih, tpWrite_append]
    · rw [ih, ← tpWrite_append]
      rfl

theorem Piece.emit_eq_tpWrite (p : Piece) : p.emit wr = tpWrite wr p.text := by
  cases p with
  | raw s => rfl
  | html s => exact tpHtmlescape_eq_tpWrite wr s
  | url s => exact tpUrlescape_eq_tpWrite wr s

/-- **A generated function is one write of its text.** -/
theorem render_eq_tpWrite (ps : List Piece) : render wr ps = tpWrite wr (pageText ps) := by
  induction ps with
  | nil => rfl
  | cons p ps ih =>
    show (p.emit wr >>= fun _ => render wr ps) = _
    rw [ih, Piece.emit_eq_tpWrite, pageText_cons, tpWrite_append]

/-! ## What a write keeps -/

/-- A flush keeps what the callback keeps, and fails only with it. -/
theorem templateFlush_triple {P E : σ → Prop}
    (h : ∀ d, d ≠ [] → Prog.Triple P (wr d) (fun _ => P) E) :
    Prog.Triple (fun x => P x.2) (templateFlush wr) (fun _ x => P x.2) (fun x => E x.2) := by
  rintro ⟨tp, s⟩ hs
  by_cases hb : tp.tpBuf.isEmpty
  · simpa [templateFlush, hb] using hs
  · have hw := h tp.tpBuf (by simpa using hb) s hs
    rcases hr : wr tp.tpBuf s with ⟨_ | u, s'⟩ <;> rw [hr] at hw <;>
      simpa [templateFlush, hb, hr] using hw

/-- So does a write. -/
theorem tpWrite_triple {P E : σ → Prop}
    (h : ∀ d, d ≠ [] → Prog.Triple P (wr d) (fun _ => P) E) (str : Bytes) :
    Prog.Triple (fun x => P x.2) (tpWrite wr str) (fun _ x => P x.2) (fun x => E x.2) := by
  rw [tpWrite_eq_each]
  refine Prog.Triple.each fun b _ => Prog.Triple.get fun x₀ => ?_
  have hcopy : Prog.Triple (fun x : Template × σ => P x.2)
      (Prog.modify fun x => (x.1.copy [b], x.2)) (fun _ x => P x.2) (fun x => E x.2) :=
    Prog.Triple.modify fun _ hs => hs
  by_cases h0 : x₀.1.avail = 0
  · simp only [h0, if_true]
    exact ((templateFlush_triple wr h).bind fun _ => hcopy).mono (fun _ hs => hs.1)
      (fun _ _ hs => hs) fun _ hs => hs
  · simp only [h0, if_false]
    exact hcopy.mono (fun _ hs => hs.1) (fun _ _ hs => hs) fun _ hs => hs

end Runtime

/-! ## Where the blocks end -/

/-- With `pending` in a buffer of `cap` bytes, the bytes a write of `str` hands to the callback
and the bytes that are then pending: all the blocks that are full *and* have a byte behind
them. -/
def spill (cap : Nat) (pending str : Bytes) : Bytes × Bytes :=
  let n := if str.isEmpty then 0 else ((pending ++ str).length - 1) / cap * cap
  ((pending ++ str).take n, (pending ++ str).drop n)

theorem spill_append (cap : Nat) (pending str : Bytes) :
    (spill cap pending str).1 ++ (spill cap pending str).2 = pending ++ str :=
  List.take_append_drop _ _

@[simp] theorem spill_nil (cap : Nat) (pending : Bytes) : spill cap pending [] = ([], pending) := by
  simp [spill]

/-- A byte that fits stays pending. -/
theorem spill_cons_of_lt {cap : Nat} {pending : Bytes} (h : pending.length < cap) (b : UInt8)
    (str : Bytes) : spill cap pending (b :: str) = spill cap (pending ++ [b]) str := by
  cases str with
  | nil =>
    have h0 : (pending ++ [b]).length - 1 = pending.length := by simp
    simp only [spill, List.isEmpty_cons, Bool.false_eq_true, if_false, h0, Nat.div_eq_of_lt h]
    simp
  | cons c str => simp [spill]

/-- A byte that does not fit hands the whole block over. -/
theorem spill_cons_of_eq {cap : Nat} {pending : Bytes} (hcap : 0 < cap)
    (h : pending.length = cap) (b : UInt8) (str : Bytes) :
    spill cap pending (b :: str)
      = (pending ++ (spill cap [b] str).1, (spill cap [b] str).2) := by
  have hn : ((pending ++ b :: str).length - 1) / cap * cap
      = pending.length + if str.isEmpty then 0 else (([b] ++ str).length - 1) / cap * cap := by
    have hlen : (pending ++ b :: str).length - 1 = str.length + 1 * cap := by
      simp only [List.length_append, List.length_cons, h]
      omega
    rw [hlen, Nat.add_mul_div_right _ _ hcap, Nat.add_mul, h]
    cases str with
    | nil => simp
    | cons c str => simp; omega
  simp only [spill, List.isEmpty_cons, Bool.false_eq_true, if_false, hn,
    List.take_length_add_append, List.drop_length_add_append, List.singleton_append]

/-- What a callback does with a text: `H s text r` says that `r` is a result of handing `text` over
in the state `s`, in one call or in several. -/
structure Hands {σ : Type} (H : σ → Bytes → Option Unit × σ → Prop) : Prop where
  nil : ∀ s, H s [] (some (), s)
  append : ∀ {s s' a b r}, H s a (some (), s') → H s' b r → H s (a ++ b) r
  cut : ∀ {s s' a}, H s a (none, s') → ∀ b, H s (a ++ b) (none, s')

section Hands

variable {σ : Type} {wr : Bytes → Prog σ Unit} {H : σ → Bytes → Option Unit × σ → Prop}
  (hH : Hands H) (hwr : ∀ d s, H s d (wr d s))

include hH hwr

theorem templateFlush_hands (tp : Template) (s : σ) :
    let r := templateFlush wr (tp, s)
    H s tp.tpBuf (r.1, r.2.2) ∧
      (r.1 = some () → r.2.1.tpBuf = [] ∧ r.2.1.tpCap = tp.tpCap) := by
  intro r
  by_cases hempty : tp.tpBuf.isEmpty = true
  · have hr : r = (some (), (tp, s)) := by simp [r, templateFlush, hempty]
    have hnil := List.isEmpty_iff.mp hempty
    rw [hr, hnil]
    exact ⟨hH.nil s, fun _ => ⟨rfl, rfl⟩⟩
  · have hw := hwr tp.tpBuf s
    rcases hr : wr tp.tpBuf s with ⟨_ | u, s'⟩ <;> rw [hr] at hw
    · have hr' : r = (none, (tp, s')) := by simp [r, templateFlush, hempty, hr]
      rw [hr']
      exact ⟨hw, fun h => by cases h⟩
    · have hr' : r = (some (), (tp.clear, s')) := by simp [r, templateFlush, hempty, hr]
      rw [hr']
      exact ⟨hw, fun _ => ⟨rfl, rfl⟩⟩

/-- Handing over the whole block that is pending, and one more byte. -/
theorem putc_full {tp : Template} (hfull : tp.avail = 0) (b : UInt8) (s : σ) :
    let r := putc wr b (tp, s)
    H s tp.tpBuf (r.1, r.2.2) ∧ (r.1 = some () → r.2.1.tpBuf = [b] ∧ r.2.1.tpCap = tp.tpCap) := by
  intro r
  obtain ⟨hflush, hdone⟩ := templateFlush_hands hH hwr tp s
  have hr : r = (templateFlush wr >>= fun _ =>
      Prog.modify fun x => (x.1.copy [b], x.2)) (tp, s) := by
    simp only [r, putc, Prog.get_bind, hfull, if_true]
  rcases hf : templateFlush wr (tp, s) with ⟨_ | u, tp', s'⟩ <;> rw [hf] at hflush hdone
  · rw [hr, Prog.bind_none hf]
    exact ⟨hflush, fun h => by cases h⟩
  · obtain ⟨hbuf, hcap⟩ := hdone rfl
    rw [hr, Prog.bind_some hf]
    refine ⟨hflush, fun _ => ⟨?_, hcap⟩⟩
    have hpos := tp'.cap_pos
    dsimp only at hbuf
    show tp'.tpBuf ++ [b].take (tp'.tpCap - tp'.tpBuf.length) = [b]
    rw [hbuf, List.length_nil, Nat.sub_zero, List.take_of_length_le hpos]
    rfl

/-- **The blocks of a write**, whether or not a call of the callback fails: full blocks go out, the
rest is pending. -/
theorem tpWrite_hands (str : Bytes) (tp : Template) (s : σ) :
    let r := tpWrite wr str (tp, s)
    H s (spill tp.tpCap tp.tpBuf str).1 (r.1, r.2.2) ∧
      (r.1 = some () →
        r.2.1.tpBuf = (spill tp.tpCap tp.tpBuf str).2 ∧ r.2.1.tpCap = tp.tpCap) := by
  rw [tpWrite_eq_each]
  induction str generalizing tp s with
  | nil =>
    rw [spill_nil]
    exact ⟨hH.nil s, fun _ => ⟨rfl, rfl⟩⟩
  | cons b str ih =>
    have hle := tp.len_le
    intro r
    have hr : r = (putc wr b >>= fun _ => Prog.each (putc wr) str) (tp, s) := rfl
    by_cases hfull : tp.avail = 0
    · have hlen : tp.tpBuf.length = tp.tpCap := by
        simp only [Template.avail] at hfull
        omega
      rw [spill_cons_of_eq tp.cap_pos hlen]
      obtain ⟨hput, hok⟩ := putc_full hH hwr hfull b s
      rcases hp : putc wr b (tp, s) with ⟨_ | u, tp', s'⟩ <;> rw [hp] at hput hok
      · rw [hr, Prog.bind_none hp]
        exact ⟨hH.cut hput _, fun h => by cases h⟩
      · obtain ⟨hbuf, hcap⟩ := hok rfl
        dsimp only at hbuf hcap
        rw [hr, Prog.bind_some hp]
        obtain ⟨hrest, hdone⟩ := ih tp' s'
        rw [hbuf, hcap] at hrest hdone
        exact ⟨hH.append hput hrest, hdone⟩
    · have hlt : tp.tpBuf.length < tp.tpCap := by
        simp only [Template.avail] at hfull
        omega
      have hbuf : (tp.copy [b]).tpBuf = tp.tpBuf ++ [b] := by
        simp only [Template.copy]
        rw [List.take_of_length_le (by simp; omega)]
      have hrest := ih (tp.copy [b]) s
      rw [hbuf, show (tp.copy [b]).tpCap = tp.tpCap from rfl] at hrest
      rw [hr, Prog.bind_some (putc_of_avail _ (by omega) b s), spill_cons_of_lt hlt]
      exact hrest

end Hands

end Galileo
