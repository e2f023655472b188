import Galileo.Model.Navigation

/-!
# The navigation bar restores the path

A byte is saved, a NUL is put in its place, the string in front of it is copied, the byte is put
back: done twice, at neighbouring places, and each time with the byte that was saved. What is copied
is the part of the path up to there, from its second byte on or from behind the tilde.
-/

set_option autoImplicit false

namespace Galileo

open Lib Lib.CString

/-- The two cuts, behind the slash and at the slash. -/
theorem navigationCut_eq {a u : Bytes} (hnul : 0 ∉ a ++ lit "/~" ++ u) (x : UInt8) (r : Bytes) :
    navigationCut (a ++ lit "/~" ++ u ++ 47 :: x :: r) a.length (a ++ lit "/~" ++ u).length =
      some (a ++ lit "/~" ++ u ++ 47 :: x :: r,
        strlcpy geminiMaxlen ((a ++ lit "/~" ++ u ++ [47]).drop 1), some (strlcpy 64 u)) := by
  have hdrop : (a ++ lit "/~" ++ u).drop (a.length + 2) = u := by
    rw [show a.length + 2 = (a ++ lit "/~").length from by rw [List.length_append]; rfl,
      List.drop_left]
  have hlong : a.length + 2 ≤ (a ++ lit "/~" ++ u).length := by
    rw [List.length_append, List.length_append]
    exact Nat.le_add_right _ _
  generalize a ++ lit "/~" ++ u = s at hnul hdrop hlong ⊢
  -- the memory, as the first cut sees it
  have hmem : s ++ 47 :: x :: r = (s ++ [47]) ++ x :: r := by
    rw [List.append_assoc]
    rfl
  have hlen : s.length + 1 = (s ++ [47]).length := by
    rw [List.length_append]
    rfl
  have hnul' : 0 ∉ s ++ [47] := by
    rw [List.mem_append, not_or]
    exact ⟨hnul, by decide⟩
  have hread : (s ++ 47 :: x :: r)[s.length + 1]? = some x := by
    rw [hmem, hlen, List.getElem?_append_right (Nat.le_refl _), Nat.sub_self]
    rfl
  have hread' : (s ++ 47 :: x :: r)[s.length]? = some 47 := by
    rw [List.getElem?_append_right (Nat.le_refl _), Nat.sub_self]
    rfl
  have hcut : poke (s ++ 47 :: x :: r) (s.length + 1) 0 = some ((s ++ [47]) ++ 0 :: r) := by
    rw [hmem, hlen, poke_append]
  have hback : poke ((s ++ [47]) ++ 0 :: r) (s.length + 1) x = some (s ++ 47 :: x :: r) := by
    rw [hlen, poke_append, hmem]
  have hhome : strAt ((s ++ [47]) ++ 0 :: r) 1 = some ((s ++ [47]).drop 1) :=
    strAt_append_zero hnul' r (by rw [← hlen]; omega)
  have husr : strAt (s ++ 0 :: x :: r) (a.length + 2) = some u := by
    rw [strAt_append_zero hnul _ hlong, hdrop]
  unfold navigationCut
  simp only [hread, hcut, hhome, hback, Nat.add_sub_cancel, hread', poke_append, husr,
    Option.bind_eq_bind, Option.bind_some, Option.pure_def]

section Home

variable {path : Bytes} (hnul : 0 ∉ path)

include hnul

/-- There is no `/~`. -/
theorem navigationHome_of_none (hfind : strstr (lit "/~") path = none) :
    navHome path = none ∧ navigationHome (path ++ [0]) = some (path ++ [0], [], none) := by
  have hstr : strAt (path ++ [0]) 0 = some path := strAt_append_zero hnul [] (Nat.zero_le _)
  constructor
  · rw [navHome, hfind]
  · unfold navigationHome
    simp only [hstr, Option.bind_eq_bind, Option.bind_some, hfind, Option.pure_def]

/-- There is one, at the end of `a`: what is done then with what is behind its slash. -/
theorem navigationHome_of_some {a f : Bytes} (hpath : path = a ++ (lit "/~" ++ f))
    (hfind : strstr (lit "/~") path = some (lit "/~" ++ f)) :
    navigationHome (path ++ [0]) = match strchr 47 (126 :: f) with
      | none => some (path ++ [0], [], none)
      | some found => navigationCut (path ++ [0]) a.length
          (a.length + 1 + ((126 :: f).length - found.length)) := by
  have htilde : path.length - (lit "/~" ++ f).length = a.length := by
    rw [hpath, List.length_append, Nat.add_sub_cancel]
  have hle : a.length + 1 ≤ path.length := by
    rw [hpath, List.length_append, List.length_append]
    show a.length + 1 ≤ a.length + (2 + f.length)
    omega
  have hrest : path.drop (a.length + 1) = 126 :: f := by
    rw [hpath, ← List.drop_drop, List.drop_left]
    rfl
  have hstr : strAt (path ++ [0]) 0 = some path := strAt_append_zero hnul [] (Nat.zero_le _)
  have hstr' : strAt (path ++ [0]) (a.length + 1) = some (126 :: f) := by
    rw [strAt_append_zero hnul [] hle, hrest]
  unfold navigationHome
  cases hslash : strchr 47 (126 :: f) <;>
    simp only [hstr, Option.bind_eq_bind, Option.bind_some, hfind, htilde, hstr', hslash,
      Option.pure_def]

end Home

/-- A slash behind any tilde is behind the first one. -/
theorem slash_mem_of_later {path a f a' b c : Bytes} (hpath : path = a ++ (lit "/~" ++ f))
    (hsplit : path = a' ++ lit "/~" ++ b ++ 47 :: c) (hlater : a.length ≤ a'.length) :
    47 ∈ (126 :: f : Bytes) := by
  have hrest : path.drop (a.length + 1) = 126 :: f := by
    rw [hpath, ← List.drop_drop, List.drop_left]
    rfl
  have hmem : (47 : UInt8) ∈ path.drop (a'.length + 2) := by
    rw [hsplit, List.append_assoc, List.append_assoc, ← List.drop_drop, List.drop_left]
    show 47 ∈ b ++ 47 :: c
    simp
  rw [← hrest]
  refine List.mem_of_mem_drop (i := a'.length + 1 - a.length) ?_
  rw [List.drop_drop, show a.length + 1 + (a'.length + 1 - a.length) = a'.length + 2 by omega]
  exact hmem

/-- What `Model.Fragments` finds in a path with a tilde segment. -/
theorem navHome_of_split {path a u c : Bytes} (hsplit : path = a ++ lit "/~" ++ u ++ 47 :: c)
    (hfind : strstr (lit "/~") path = some (lit "/~" ++ (u ++ 47 :: c)))
    (hslash : strchr 47 (126 :: (u ++ 47 :: c)) = some (47 :: c)) :
    navHome path = some (strlcpy geminiMaxlen ((a ++ lit "/~" ++ u ++ [47]).drop 1),
      strlcpy 64 u) := by
  have hpre : path = (a ++ lit "/~" ++ u ++ [47]) ++ c := by
    rw [hsplit, List.append_assoc _ [47]]
    rfl
  have hhome : path.take (path.length - (47 :: c).length + 1) = a ++ lit "/~" ++ u ++ [47] := by
    have hlen : path.length - (47 :: c).length + 1 = (a ++ lit "/~" ++ u ++ [47]).length := by
      rw [hpre]
      simp only [List.length_append, List.length_cons, List.length_nil]
      omega
    rw [hlen, hpre, List.take_left]
  have husr : ((lit "/~" ++ (u ++ 47 :: c)).take
      ((lit "/~" ++ (u ++ 47 :: c)).length - (47 :: c).length)).drop 2 = u := by
    rw [← List.append_assoc, List.length_append, Nat.add_sub_cancel, List.take_left]
    rfl
  unfold navHome
  simp only [hfind]
  rw [show (lit "/~" ++ (u ++ 47 :: c)).drop 1 = 126 :: (u ++ 47 :: c) from rfl, hslash]
  dsimp only
  rw [hhome, husr]

/-- There is no tilde segment, or there is a first one: what `home` and `usr` are then, here and in
`Model.Fragments`. -/
theorem navigationHome_cases {path : Bytes} (hnul : 0 ∉ path) :
    ((∀ a b c, path ≠ a ++ lit "/~" ++ b ++ 47 :: c) ∧ navHome path = none ∧
      navigationHome (path ++ [0]) = some (path ++ [0], [], none)) ∨
    ∃ a u c, path = a ++ lit "/~" ++ u ++ 47 :: c ∧
      (∀ a' b', path = a' ++ lit "/~" ++ b' → a.length ≤ a'.length) ∧ 47 ∉ u ∧
      navHome path = some (strlcpy geminiMaxlen ((a ++ lit "/~" ++ u ++ [47]).drop 1),
        strlcpy 64 u) ∧
      navigationHome (path ++ [0]) = some (path ++ [0],
        strlcpy geminiMaxlen ((a ++ lit "/~" ++ u ++ [47]).drop 1), some (strlcpy 64 u)) := by
  cases hfind : strstr (lit "/~") path with
  | none =>
    refine .inl ⟨fun a b c hsplit => ?_, navigationHome_of_none hnul hfind⟩
    refine strstr_eq_none hfind a (b ++ 47 :: c) ?_
    rw [← List.append_assoc]
    exact hsplit
  | some found =>
    obtain ⟨a, hpath, ⟨f, rfl⟩, hfirst⟩ := strstr_eq_some hfind
    have hrun := navigationHome_of_some hnul hpath hfind
    cases hslash : strchr 47 (126 :: f) with
    | none =>
      rw [hslash] at hrun
      refine .inl ⟨fun a' b c hsplit => ?_, ?_, hrun⟩
      · refine not_mem_of_strchr hslash (slash_mem_of_later hpath hsplit ?_)
        refine hfirst a' (b ++ 47 :: c) ?_
        rw [← List.append_assoc]
        exact hsplit
      · unfold navHome
        simp only [hfind]
        rw [show (lit "/~" ++ f).drop 1 = 126 :: f from rfl, hslash]
    | some found =>
      obtain ⟨v, c, hv, rfl, hno⟩ := strchr_eq_some hslash
      -- the tilde is the first byte in front of the slash
      obtain _ | ⟨b, u⟩ := v
      · cases hv
      have hf : f = u ++ 47 :: c := (List.cons.inj hv).2
      subst hf
      rw [List.mem_cons, not_or] at hno
      have hsplit : path = a ++ lit "/~" ++ u ++ 47 :: c := by
        rw [hpath, List.append_assoc, List.append_assoc]
      refine .inr ⟨a, u, c, hsplit, hfirst, hno.2, navHome_of_split hsplit hfind hslash, ?_⟩
      rw [hrun, hslash]
      have hnul' : 0 ∉ a ++ lit "/~" ++ u := by
        intro hmem
        refine hnul ?_
        rw [hsplit]
        exact List.mem_append_left _ hmem
      have ht : a.length + 1 + ((126 :: (u ++ 47 :: c)).length - (47 :: c).length) =
          (a ++ lit "/~" ++ u).length := by
        simp only [List.length_cons, List.length_append]
        show _ = a.length + 2 + u.length
        omega
      -- behind the slash there is a byte of the path, or the terminator
      obtain ⟨x, r, hxr⟩ : ∃ x r, c ++ [0] = x :: r := by
        cases c with
        | nil => exact ⟨0, [], rfl⟩
        | cons x c => exact ⟨x, c ++ [0], rfl⟩
      dsimp only
      rw [ht, hsplit, List.append_assoc _ (47 :: c), List.cons_append, hxr]
      exact navigationCut_eq hnul' x r

/-- `Model.Fragments` has the same `home` and `usr`. -/
theorem navigationAt_eq {path : Bytes} (hnul : 0 ∉ path) (hne : path ≠ []) :
    navigationAt (path ++ [0]) = some ⟨path ++ [0], ((navHome path).map Prod.fst).getD [],
      (navHome path).map Prod.snd, strlcpy geminiMaxlen (path.drop 1)⟩ := by
  have hup : strAt (path ++ [0]) 1 = some (path.drop 1) :=
    strAt_append_zero hnul [] (List.length_pos_iff.mpr hne)
  unfold navigationAt
  rcases navigationHome_cases hnul with ⟨-, hnone, hrun⟩ | ⟨a, u, c, -, -, -, hsome, hrun⟩
  · rw [hrun, hnone]
    simp only [Option.bind_eq_bind, Option.bind_some, hup]
    rfl
  · rw [hrun, hsome]
    simp only [Option.bind_eq_bind, Option.bind_some, hup]
    rfl

/-- A slash separates the same things wherever it is the first one. -/
theorem append_slash_inj {u u' c c' : Bytes} (hu : 47 ∉ u) (hu' : 47 ∉ u')
    (h : u ++ 47 :: c = u' ++ 47 :: c') : u = u' := by
  have htake : ∀ v d : Bytes, 47 ∉ v → (v ++ 47 :: d).takeWhile (· != 47) = v := by
    intro v d hv
    have hall : ∀ b ∈ v, (b != 47) = true := fun b hb => bne_iff_ne.mpr fun he => hv (he ▸ hb)
    rw [List.takeWhile_append_of_pos hall]
    exact List.append_nil v
  rw [← htake u c hu, h, htake u' c' hu']

/-- **The navigation bar leaves the path as it was.** The home link is there when the path has a
`/~` and a slash behind it, and it has the part of the path up to that slash, and the name in front
of it. -/
theorem navigation_restores (path : Bytes) (hslash : path.head? = some 47) (hnul : 0 ∉ path) :
    ∃ r, navigationAt (path ++ [0]) = some r ∧ r.path = path ++ [0] ∧
      (r.home ≠ [] ↔ ∃ a b c, path = a ++ lit "/~" ++ b ++ 47 :: c) ∧
      ∀ a u c, path = a ++ lit "/~" ++ u ++ 47 :: c →
        (∀ a' b', path = a' ++ lit "/~" ++ b' → a.length ≤ a'.length) → 47 ∉ u →
        (((a ++ lit "/~" ++ u ++ [47]).drop 1).length < geminiMaxlen →
          r.home = (a ++ lit "/~" ++ u ++ [47]).drop 1) ∧
        (u.length < 64 → r.usr = some u) := by
  have hne : path ≠ [] := by
    rintro rfl
    cases hslash
  refine ⟨_, navigationAt_eq hnul hne, rfl, ?_⟩
  rcases navigationHome_cases hnul with ⟨hno, hnone, -⟩ | ⟨a, u, c, hsplit, hfirst, hu, hsome, -⟩
  · rw [hnone]
    refine ⟨⟨fun h => absurd rfl h, fun ⟨a, b, c, h⟩ => absurd h (hno a b c)⟩, fun a u c h => ?_⟩
    exact absurd h (hno a u c)
  · rw [hsome]
    refine ⟨⟨fun _ => ⟨a, u, c, hsplit⟩, fun _ hnil => ?_⟩, fun a' u' c' hsplit' hfirst' hu' => ?_⟩
    · -- there are at least the tilde and the slash to copy
      have hlen := congrArg List.length hnil
      simp only [Option.map_some, Option.getD_some, strlcpy, List.length_take, List.length_drop,
        List.length_append, List.length_singleton, List.length_nil, geminiMaxlen] at hlen
      have htwo : (lit "/~").length = 2 := rfl
      omega
    · have hlen : a.length = a'.length := by
        refine Nat.le_antisymm (hfirst a' (u' ++ 47 :: c') ?_) (hfirst' a (u ++ 47 :: c) ?_)
        · rw [← List.append_assoc]
          exact hsplit'
        · rw [← List.append_assoc]
          exact hsplit
      have hsame := hsplit.symm.trans hsplit'
      rw [List.append_assoc, List.append_assoc, List.append_assoc, List.append_assoc] at hsame
      obtain ⟨rfl, hrest⟩ := List.append_inj hsame hlen
      obtain rfl := append_slash_inj hu hu' (List.append_cancel_left hrest)
      constructor
      · intro hfits
        exact List.take_of_length_le (Nat.le_sub_one_of_lt hfits)
      · intro hfits
        exact congrArg some (List.take_of_length_le (Nat.le_sub_one_of_lt hfits))

theorem user_page_restores :
    ∃ r, navigationAt (lit "/~u/x" ++ [0]) = some r ∧ r.path = lit "/~u/x" ++ [0] ∧
      r.home = lit "~u/" ∧ r.usr = some (lit "u") := by
  obtain ⟨r, hr, hpath, -, hslices⟩ := navigation_restores (lit "/~u/x") rfl (by decide)
  obtain ⟨hhome, husr⟩ :=
    hslices [] (lit "u") (lit "x") rfl (fun _ _ _ => Nat.zero_le _) (by decide)
  exact ⟨r, hr, hpath, hhome (by decide), husr (by decide)⟩

end Galileo
