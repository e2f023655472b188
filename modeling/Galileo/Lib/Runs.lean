import Mathlib.Data.List.SplitBy

/-!
# Brackets around runs

A list is written out with brackets around each maximal run of neighbours that belong together. One
way is to group the list first (`List.splitBy`) and write the groups; another is to go through it
once, remembering only what is open, and to close and open where that changes. `stream_eq_grouped`
says that they write the same.

What belongs together is decided by a key: neighbours of one key share their brackets if that key
`joins` at all.
-/

set_option autoImplicit false

namespace Lib.Runs

section Runs

variable {α κ β : Type} [DecidableEq κ] (key : α → κ) (joins : κ → Bool) (opens closes : κ → List β)
  (body : α → List β)

/-- Neighbours that share their brackets. -/
def together (a a' : α) : Bool := key a = key a' && joins (key a)

/-- A group between its brackets. -/
def wrap : List α → List β
  | [] => []
  | a :: l => opens (key a) ++ (a :: l).flatMap body ++ closes (key a)

/-- The maximal runs, each between its brackets. -/
def grouped (l : List α) : List β :=
  (l.splitBy (together key joins)).flatMap (wrap key opens closes body)

/-- The list from an element on, when the brackets of `k` are open. -/
def stream (k : κ) : List α → List β
  | [] => closes k
  | a :: l =>
      (if key a = k && joins k then [] else closes k ++ opens (key a)) ++ body a ++ stream (key a) l

theorem splitBy_together {a a' : α} {l : List α} (h : together key joins a a' = true) :
    ∃ g gs, (a' :: l).splitBy (together key joins) = (a' :: g) :: gs ∧
      (a :: a' :: l).splitBy (together key joins) = (a :: a' :: g) :: gs := by
  obtain ⟨hflat, hnil, hchain, hbreaks⟩ :=
    List.splitBy_eq_iff.mp (rfl : (a' :: l).splitBy (together key joins) = _)
  generalize (a' :: l).splitBy (together key joins) = gs at *
  rcases gs with _ | ⟨_ | ⟨b, g⟩, gs⟩
  · cases hflat
  · simp at hnil
  · obtain ⟨rfl, hl⟩ := List.cons.inj hflat
    refine ⟨g, gs, rfl, List.splitBy_eq_iff.mpr ⟨by rw [hl]; rfl, ?_, ?_, ?_⟩⟩
    · simpa using hnil
    · intro m hm
      rcases List.mem_cons.mp hm with rfl | hm
      · exact List.isChain_cons_cons.mpr ⟨h, hchain _ List.mem_cons_self⟩
      · exact hchain m (List.mem_cons_of_mem _ hm)
    · -- a group that grows in front ends as it did
      cases gs with
      | nil => exact List.isChain_singleton _
      | cons g' gs =>
        obtain ⟨hbreak, hrest⟩ := List.isChain_cons_cons.mp hbreaks
        refine List.isChain_cons_cons.mpr ⟨?_, hrest⟩
        obtain ⟨_, hb, hlast⟩ := hbreak
        refine ⟨List.cons_ne_nil _ _, hb, ?_⟩
        rw [List.getLast_cons (List.cons_ne_nil _ _)]
        exact hlast

/-- **Behind an element**, when its brackets have been opened. -/
theorem opens_stream (a : α) (l : List α) :
    opens (key a) ++ body a ++ stream key joins opens closes body (key a) l
      = grouped key joins opens closes body (a :: l) := by
  induction l generalizing a with
  | nil =>
    have hone : [a].splitBy (together key joins) = [[a]] := rfl
    rw [grouped, hone]
    simp [wrap, stream]
  | cons a' l ih =>
    rw [stream, grouped]
    by_cases h : together key joins a a' = true
    · obtain ⟨hkey, hjoins⟩ : key a = key a' ∧ joins (key a) = true := by simpa [together] using h
      obtain ⟨g, gs, hsplit, hsplit'⟩ := splitBy_together key joins (l := l) h
      have hih := ih a'
      rw [grouped, hsplit, List.flatMap_cons, wrap] at hih
      simp only [List.append_assoc, List.flatMap_cons, List.append_cancel_left_eq] at hih
      have hsame : (decide (key a' = key a) && joins (key a)) = true := by
        rw [hjoins, hkey, decide_eq_true rfl]
        rfl
      rw [hsplit', if_pos hsame, List.flatMap_cons, wrap]
      simp only [List.nil_append, List.append_assoc, List.flatMap_cons, hih, hkey]
    · have hsplit : (a :: a' :: l).splitBy (together key joins)
          = [a] :: (a' :: l).splitBy (together key joins) :=
        List.splitBy_append_cons (l := [a]) l (by simpa using h)
      have hsep : ¬ (decide (key a' = key a) && joins (key a)) = true := by
        intro hsame
        rw [Bool.and_eq_true, decide_eq_true_eq] at hsame
        exact h (by rw [together, hsame.1, hsame.2, decide_eq_true rfl]; rfl)
      rw [hsplit, if_neg hsep, List.flatMap_cons, ← grouped, ← ih a']
      simp [wrap]

/-- **Streaming is grouping**, from a key that has no brackets. -/
theorem stream_eq_grouped {k : κ} (hjoins : joins k = false) (hcloses : closes k = [])
    (l : List α) :
    stream key joins opens closes body k l = grouped key joins opens closes body l := by
  cases l with
  | nil => rw [stream, hcloses]; rfl
  | cons a l =>
    rw [stream, hjoins, Bool.and_false, if_neg Bool.false_ne_true, hcloses, List.nil_append]
    exact opens_stream key joins opens closes body a l

end Runs

end Lib.Runs
