import Galileo.Proof.Writer

/-!
# The buffer of a template is invisible

For a program that writes through a template there might as well be no buffer. The writer without
one is just the text written so far; a template in front of a callback stands for the blocks the
callback has taken, followed by what is pending (`Stands`). Every call of the runtime adds its text
to that, or ends with the flush that failed (`Stopped`): then nothing was lost and nothing was
written twice, and what is pending is what the callback refused.

The callback is any program with any state, and it may fail at any call.
-/

set_option autoImplicit false

namespace Galileo

open Lib

/-- A call of the runtime. -/
inductive TpCall where
  | write (str : Bytes)
  | writes (str : Bytes)
  | htmlescape (str : Bytes)
  | urlescape (str : Bytes)
  | flush
deriving DecidableEq

/-- All but `tp_write` get a C string. -/
def TpCall.run {σ : Type} (wr : Bytes → Prog σ Unit) : TpCall → TpM σ Unit
  | .write str => tpWrite wr str
  | .writes str => tpWrite wr (cstr str)
  | .htmlescape str => tpHtmlescape wr (cstr str)
  | .urlescape str => tpUrlescape wr (cstr str)
  | .flush => templateFlush wr

/-- What the call writes. -/
def TpCall.text : TpCall → Bytes
  | .write str => str
  | .writes str => cstr str
  | .htmlescape str => Galileo.htmlescape (cstr str)
  | .urlescape str => Galileo.urlescape (cstr str)
  | .flush => []

section Unbuffered

variable {σ : Type} (wr : Bytes → Prog σ Unit)

/-- The callback, with the blocks it has taken. -/
def logged (d : Bytes) : Prog (σ × List Bytes) Unit := fun s =>
  match wr d s.1 with
  | (none, s') => (none, (s', s.2))
  | (some _, s') => (some (), (s', s.2 ++ [d]))

/-- The template and the blocks stand for the text. -/
def Stands (siz : Nat) (text : Bytes) (x : Template × (σ × List Bytes)) : Prop :=
  x.1.tpCap = siz ∧ x.2.2.flatten ++ x.1.tpBuf = text

/-- A flush of what is pending has failed, `more` bytes behind the text. -/
def Stopped (siz : Nat) (text more : Bytes) (x : Template × (σ × List Bytes)) : Prop :=
  ∃ done, done <+: more ∧ Stands siz (text ++ done) x ∧ ∃ s, wr x.1.tpBuf s = (none, x.2.1)

variable {wr} {siz : Nat} {text : Bytes}

theorem Stopped.mono {more more' : Bytes} {x : Template × (σ × List Bytes)}
    (h : Stopped wr siz text more x) (hmore : more <+: more') : Stopped wr siz text more' x := by
  obtain ⟨done, hdone, hx⟩ := h
  exact ⟨done, hdone.trans hmore, hx⟩

/-- A flush hands the pending bytes over, or fails with them. -/
theorem templateFlush_stands :
    Prog.Triple (Stands siz text) (templateFlush (logged wr)) (fun _ => Stands siz text)
      (Stopped wr siz text []) := by
  rintro ⟨tp, s, ds⟩ ⟨hcap, htext⟩
  dsimp only at hcap htext
  unfold templateFlush logged
  by_cases hempty : tp.tpBuf.isEmpty
  · simp only [hempty, if_true]
    exact ⟨hcap, htext⟩
  · simp only [hempty]
    rcases hw : wr tp.tpBuf s with ⟨_ | u, s'⟩
    · refine ⟨[], List.prefix_refl _, ⟨hcap, ?_⟩, s, hw⟩
      rw [List.append_nil]
      exact htext
    · refine ⟨hcap, ?_⟩
      show (ds ++ [tp.tpBuf]).flatten ++ [] = text
      rw [List.append_nil, List.flatten_append, List.flatten_singleton]
      exact htext

theorem Stands.copy {tp : Template} {s : σ × List Bytes} (h : Stands siz text (tp, s))
    (hroom : 0 < tp.avail) (b : UInt8) : Stands siz (text ++ [b]) (tp.copy [b], s) := by
  refine ⟨h.1, ?_⟩
  show s.2.flatten ++ (tp.tpBuf ++ [b].take tp.avail) = text ++ [b]
  rw [List.take_of_length_le (show [b].length ≤ _ from hroom), ← List.append_assoc]
  exact congrArg (· ++ [b]) h.2

/-- A byte is appended; it makes room for itself when there is none. -/
theorem putc_stands (b : UInt8) :
    Prog.Triple (Stands siz text) (putc (logged wr) b) (fun _ => Stands siz (text ++ [b]))
      (Stopped wr siz text [b]) := by
  rintro ⟨tp, s⟩ hs
  by_cases hfull : tp.avail = 0
  · have hflush := @templateFlush_stands σ wr siz text (tp, s) hs
    have hclear : ∀ tp' s', templateFlush (logged wr) (tp, s) = (some (), (tp', s')) →
        0 < tp'.avail := by
      intro tp' s' hr
      have hne : tp.tpBuf.isEmpty = false := by
        have := tp.cap_pos
        rw [Template.avail] at hfull
        cases hb : tp.tpBuf with
        | nil => simp [hb] at hfull; omega
        | cons => rfl
      unfold templateFlush at hr
      simp only [hne] at hr
      rcases hw : logged wr tp.tpBuf s with ⟨_ | u, s''⟩ <;> rw [hw] at hr <;> cases hr
      exact tp.avail_clear
    unfold putc
    rw [Prog.get_bind]
    simp only [hfull, if_true]
    rw [Prog.bind_run]
    rcases hr : templateFlush (logged wr) (tp, s) with ⟨_ | u, tp', s'⟩ <;> rw [hr] at hflush
    · exact hflush.mono List.nil_prefix
    · exact hflush.copy (hclear tp' s' hr) b
  · rw [putc_of_avail _ (Nat.pos_of_ne_zero hfull)]
    exact hs.copy (Nat.pos_of_ne_zero hfull) b

theorem tpWrite_stands (str : Bytes) :
    Prog.Triple (Stands siz text) (tpWrite (logged wr) str)
      (fun _ => Stands siz (text ++ str)) (Stopped wr siz text str) := by
  rw [tpWrite_eq_each]
  induction str generalizing text with
  | nil =>
    refine Prog.Triple.pure fun x hx => ?_
    rw [List.append_nil]
    exact hx
  | cons b str ih =>
    refine Prog.Triple.bind (Q := fun _ => Stands siz (text ++ [b])) ?_ fun _ => ?_
    · exact (putc_stands b).mono (fun _ h => h) (fun _ _ h => h) fun _ h =>
        h.mono (by simp)
    · refine ih.mono (fun _ h => h) (fun _ x h => ?_) fun x h => ?_
      · rw [List.append_assoc] at h
        exact h
      · obtain ⟨done, hdone, hx, hfail⟩ := h
        rw [List.append_assoc] at hx
        exact ⟨b :: done, (List.prefix_append_right_inj [b]).mpr hdone, hx, hfail⟩

/-- **One call.** -/
theorem TpCall.run_stands (c : TpCall) :
    Prog.Triple (Stands siz text) (c.run (logged wr)) (fun _ => Stands siz (text ++ c.text))
      (Stopped wr siz text c.text) := by
  cases c with
  | write str => exact tpWrite_stands str
  | writes str => exact tpWrite_stands (cstr str)
  | htmlescape str =>
    rw [TpCall.run, tpHtmlescape_eq_tpWrite]
    exact tpWrite_stands _
  | urlescape str =>
    rw [TpCall.run, tpUrlescape_eq_tpWrite]
    exact tpWrite_stands _
  | flush =>
    refine templateFlush_stands.mono (fun _ h => h) (fun _ x h => ?_) fun _ h => h
    rw [TpCall.text, List.append_nil]
    exact h

/-- The calls of `cs` up to the one that fails, which is the last of `made`. -/
def StoppedAt (wr : Bytes → Prog σ Unit) (siz : Nat) (text : Bytes) (cs : List TpCall)
    (x : Template × (σ × List Bytes)) : Prop :=
  ∃ made c rest, cs = made ++ c :: rest ∧ Stopped wr siz (text ++ made.flatMap TpCall.text) c.text x

/-- **Any number of calls.** -/
theorem calls_stand (cs : List TpCall) :
    Prog.Triple (Stands siz text) (Prog.each (TpCall.run (logged wr)) cs)
      (fun _ => Stands siz (text ++ cs.flatMap TpCall.text)) (StoppedAt wr siz text cs) := by
  induction cs generalizing text with
  | nil =>
    refine Prog.Triple.pure fun x hx => ?_
    rw [List.flatMap_nil, List.append_nil]
    exact hx
  | cons c cs ih =>
    refine Prog.Triple.bind (Q := fun _ => Stands siz (text ++ c.text)) ?_ fun _ => ?_
    · refine (c.run_stands).mono (fun _ h => h) (fun _ _ h => h) fun x h => ?_
      refine ⟨[], c, cs, rfl, ?_⟩
      rw [List.flatMap_nil, List.append_nil]
      exact h
    · refine ih.mono (fun _ h => h) (fun _ x h => ?_) fun x h => ?_
      · rw [List.flatMap_cons, ← List.append_assoc]
        exact h
      · obtain ⟨made, d, rest, hcs, hx⟩ := h
        refine ⟨c :: made, d, rest, by rw [hcs]; rfl, ?_⟩
        rw [List.flatMap_cons, ← List.append_assoc]
        exact hx

end Unbuffered

/-- **The buffered writer refines an unbuffered one.** `tp_len` is never more than `tp_cap`, and the
loop of `tp_write` ends by itself. As long as the callback succeeds, the blocks it was passed and
the pending bytes are everything written; when it fails, during the call `c`, they are everything
that was written until then, and the pending bytes are those of the flush that failed. -/
theorem buffered_refines {σ : Type} (wr : Bytes → Prog σ Unit) (siz : Nat) (hsiz : 0 < siz) (s : σ)
    (cs : List TpCall) :
    let r := Prog.each (TpCall.run (logged wr)) cs (template siz hsiz, (s, []))
    (r.2.1.tpCap = siz ∧ r.2.1.tpBuf.length ≤ r.2.1.tpCap) ∧
      (∀ str n, str.length ≤ n → tpWriteLoop (logged wr) n str = tpWrite (logged wr) str) ∧
      (r.1 = some () → r.2.2.2.flatten ++ r.2.1.tpBuf = cs.flatMap TpCall.text) ∧
      (r.1 = none → ∃ made c rest done, cs = made ++ c :: rest ∧ done <+: c.text ∧
        r.2.2.2.flatten ++ r.2.1.tpBuf = made.flatMap TpCall.text ++ done ∧
        ∃ s', wr r.2.1.tpBuf s' = (none, r.2.2.1)) := by
  intro r
  have hstart : Stands siz [] (template siz hsiz, (s, [])) := ⟨rfl, rfl⟩
  have hrun := @calls_stand σ wr siz [] cs _ hstart
  rw [show Prog.each (TpCall.run (logged wr)) cs (template siz hsiz, (s, [])) = r from rfl] at hrun
  have hloop : ∀ str n, str.length ≤ n → tpWriteLoop (logged wr) n str = tpWrite (logged wr) str :=
    fun str n hn => (tpWriteLoop_eq_each _ n str hn).trans (tpWrite_eq_each _ str).symm
  generalize r = r' at hrun
  obtain ⟨_ | u, tp, s', ds⟩ := r'
  · obtain ⟨made, c, rest, hcs, done, hdone, ⟨hcap, htext⟩, hfail⟩ := hrun
    refine ⟨⟨hcap, tp.len_le⟩, hloop, (fun h => nomatch h), fun _ => ?_⟩
    exact ⟨made, c, rest, done, hcs, hdone, htext, hfail⟩
  · exact ⟨⟨hrun.1, tp.len_le⟩, hloop, fun _ => hrun.2, (fun h => nomatch h)⟩

/-- A callback that takes so many blocks and fails from then on. -/
def quota (_ : Bytes) : Prog Nat Unit
  | 0 => (none, 0)
  | n + 1 => (some (), n)

/-- Two blocks of a three byte buffer are taken, the third is refused: it is still pending. -/
theorem small_buffer_refines :
    let cs := [.writes (lit "<p>"), .htmlescape (lit "<hello>"), .flush]
    let r := Prog.each (TpCall.run (logged quota)) cs (template 3 (by decide), (2, []))
    (r.1 = none ∧ r.2.2.2 = [lit "<p>", lit "&lt"] ∧ r.2.1.tpBuf = lit ";he") ∧
      ∃ made c rest done, cs = made ++ c :: rest ∧ done <+: c.text ∧
        r.2.2.2.flatten ++ r.2.1.tpBuf = made.flatMap TpCall.text ++ done ∧
        ∃ s', quota r.2.1.tpBuf s' = (none, r.2.2.1) := by
  intro cs r
  have hrun : r.1 = none ∧ r.2.2.2 = [lit "<p>", lit "&lt"] ∧ r.2.1.tpBuf = lit ";he" := by decide
  exact ⟨hrun, (buffered_refines quota 3 (by decide) 2 cs).2.2.2 hrun.1⟩

end Galileo
