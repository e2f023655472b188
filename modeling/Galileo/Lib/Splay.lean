import Mathlib.Data.List.Basic
import Mathlib.Data.List.Nodup
import Mathlib.Data.List.Perm.Basic

/-!
# Splay trees

The top-down splay trees of `sys/tree.h`, over any type of elements and with any comparison. A
search is given by `c`, which says for every element on which side of it the one that is looked for
belongs: in front (negative), behind (positive), or that this is it.

Splaying never changes the order of the elements from left to right, whatever `c` says. What it
brings to the top is right only if `c` changes sign once along that order (`Descends`): then the
elements on the left of the new root are in front of the one looked for and those on the right
behind it, which is all that insertion and removal rely on. A comparison that is an order on the
elements (`OrderOn`) gives such searches in a sorted tree.
-/

set_option autoImplicit false

namespace Lib

inductive Splay (α : Type) where
  | nil
  | node (left : Splay α) (elm : α) (right : Splay α)
deriving DecidableEq

namespace Splay

variable {α : Type} {c : α → Int} {L : List (Splay α × α)} {R : List (α × Splay α)} {t : Splay α}
  {x : α} {l r : List α} {p : α → Prop} {elm : α}

/-- From left to right. -/
def toList : Splay α → List α
  | nil => []
  | node l x r => l.toList ++ x :: r.toList

/-! ## Splaying -/

/-- The tree that is collected on the left: every new node is hung on the right of the last one. The
last one is in front. -/
def hangLeft : List (Splay α × α) → Splay α → Splay α
  | [], t => t
  | (l, x) :: L, t => hangLeft L (node l x t)

def hangRight : List (α × Splay α) → Splay α → Splay α
  | [], t => t
  | (x, r) :: R, t => hangRight R (node t x r)

/-- `SPLAY_ASSEMBLE`. -/
def assemble (L : List (Splay α × α)) (R : List (α × Splay α)) (l : Splay α) (x : α)
    (r : Splay α) : Splay α :=
  node (hangLeft L l) x (hangRight R r)

/-- The loop of `SPLAY`, and of `SPLAY_MINMAX` with a constant `c`; `L` and `R` are what was linked
to the left and to the right. -/
def splayLoop (c : α → Int) :
    Splay α → List (Splay α × α) → List (α × Splay α) → Splay α
  | nil, _, _ => nil
  | node l x r, L, R =>
      if c x < 0 then
        match l with
        | nil => assemble L R nil x r
        | node ll y lr =>
            if c y < 0 then
              -- `SPLAY_ROTATE_RIGHT`
              match ll with
              | nil => assemble L R nil y (node lr x r)
              | node a z b => splayLoop c (node a z b) L ((y, node lr x r) :: R)
            else splayLoop c (node ll y lr) L ((x, r) :: R)
      else if 0 < c x then
        match r with
        | nil => assemble L R l x nil
        | node rl y rr =>
            if 0 < c y then
              -- `SPLAY_ROTATE_LEFT`
              match rr with
              | nil => assemble L R (node l x rl) y nil
              | node a z b => splayLoop c (node a z b) ((node l x rl, y) :: L) R
            else splayLoop c (node rl y rr) ((l, x) :: L) R
      else assemble L R l x r

def splay (c : α → Int) (t : Splay α) : Splay α := splayLoop c t [] []

/-- `SPLAY_MIN`: the tree afterwards has it on top. -/
def splayMin (t : Splay α) : Splay α := splay (fun _ => -1) t

def root? : Splay α → Option α
  | nil => none
  | node _ x _ => some x

section Compare

variable (cmp : α → α → Int)

/-- `SPLAY_INSERT`. Nothing is inserted when there is an equal element. -/
def insert (elm : α) (t : Splay α) : Splay α :=
  match splay (cmp elm) t with
  | nil => node nil elm nil
  | node l x r =>
      if cmp elm x < 0 then node l elm (node nil x r)
      else if 0 < cmp elm x then node (node l x nil) elm r
      else node l x r

/-- `SPLAY_REMOVE`. The right side of what is left of the root is overwritten. -/
def remove (elm : α) (t : Splay α) : Splay α :=
  match splay (cmp elm) t with
  | nil => nil
  | node l x r =>
      if cmp elm x = 0 then
        match splay (cmp elm) l with
        | nil => r
        | node l' x' _ => node l' x' r
      else node l x r

end Compare

/-! ## The order of the elements -/

/-- What was linked to the left, from left to right. -/
def leftList : List (Splay α × α) → List α
  | [] => []
  | (l, x) :: L => leftList L ++ (l.toList ++ [x])

def rightList : List (α × Splay α) → List α
  | [] => []
  | (x, r) :: R => x :: r.toList ++ rightList R

theorem toList_hangLeft (L : List (Splay α × α)) (t : Splay α) :
    (hangLeft L t).toList = leftList L ++ t.toList := by
  induction L generalizing t with
  | nil => rfl
  | cons p L ih =>
    obtain ⟨l, x⟩ := p
    rw [hangLeft, ih, leftList, toList]
    simp

theorem toList_hangRight (R : List (α × Splay α)) (t : Splay α) :
    (hangRight R t).toList = t.toList ++ rightList R := by
  induction R generalizing t with
  | nil => simp [hangRight, rightList]
  | cons p R ih =>
    obtain ⟨x, r⟩ := p
    rw [hangRight, ih, rightList, toList]
    simp

/-- Along the list the element looked for is behind everything, up to a point from which on it is in
front of everything. -/
def Descends (c : α → Int) (l : List α) : Prop := l.Pairwise fun a b => 0 < c a ∨ c b < 0

/-- What a search leaves: the elements in their order, and those on the two sides of the root on
their side of the one looked for. -/
def Split (c : α → Int) (l : List α) (t : Splay α) : Prop :=
  ∃ tl x tr, t = node tl x tr ∧ tl.toList ++ x :: tr.toList = l ∧
    (∀ a ∈ tl.toList, 0 < c a) ∧ ∀ b ∈ tr.toList, c b < 0

theorem split_assemble (hL : ∀ a ∈ leftList L, 0 < c a) (hR : ∀ b ∈ rightList R, c b < 0)
    {l r : Splay α} (hl : ∀ a ∈ l.toList, 0 < c a) (hr : ∀ b ∈ r.toList, c b < 0) :
    Split c (leftList L ++ (l.toList ++ x :: r.toList) ++ rightList R) (assemble L R l x r) := by
  refine ⟨_, _, _, rfl, ?_, fun a ha => ?_, fun b hb => ?_⟩
  · rw [toList_hangLeft, toList_hangRight]
    simp
  · rw [toList_hangLeft, List.mem_append] at ha
    exact ha.elim (hL a) (hl a)
  · rw [toList_hangRight, List.mem_append] at hb
    exact hb.elim (hr b) (hR b)

theorem Descends.front (h : Descends c (l ++ x :: r)) (hx : 0 ≤ c x) : ∀ a ∈ l, 0 < c a := by
  intro a ha
  rcases (List.pairwise_append.mp h).2.2 a ha x List.mem_cons_self with hpos | hneg
  · exact hpos
  · omega

theorem Descends.behind (h : Descends c (l ++ x :: r)) (hx : c x ≤ 0) : ∀ b ∈ r, c b < 0 := by
  intro b hb
  rcases (List.pairwise_cons.mp (List.pairwise_append.mp h).2.1).1 b hb with hpos | hneg
  · omega
  · exact hneg

theorem Descends.left (h : Descends c (l ++ x :: r)) : Descends c l :=
  (List.pairwise_append.mp h).1

theorem Descends.right (h : Descends c (l ++ x :: r)) : Descends c r :=
  (List.pairwise_cons.mp (List.pairwise_append.mp h).2.1).2

/-- More is linked to a side. -/
theorem forall_mem_left {l : Splay α} (hL : ∀ a ∈ leftList L, p a) (hl : ∀ a ∈ l.toList, p a)
    (hx : p x) :
    ∀ a ∈ leftList ((l, x) :: L), p a := by
  intro a ha
  rw [leftList, List.mem_append, List.mem_append, List.mem_singleton] at ha
  rcases ha with ha | ha | rfl
  · exact hL a ha
  · exact hl a ha
  · exact hx

theorem forall_mem_right {r : Splay α} (hx : p x) (hr : ∀ b ∈ r.toList, p b)
    (hR : ∀ b ∈ rightList R, p b) :
    ∀ b ∈ rightList ((x, r) :: R), p b := by
  intro b hb
  rw [rightList, List.mem_append, List.mem_cons] at hb
  rcases hb with (rfl | hb) | hb
  · exact hx
  · exact hr b hb
  · exact hR b hb

/-- The elements of a node, all of them on one side. -/
theorem forall_mem_node {l r : Splay α} (hl : ∀ a ∈ l.toList, p a) (hx : p x)
    (hr : ∀ b ∈ r.toList, p b) : ∀ a ∈ (node l x r).toList, p a := by
  intro a ha
  rw [toList, List.mem_append, List.mem_cons] at ha
  rcases ha with ha | rfl | ha
  · exact hl a ha
  · exact hx
  · exact hr a ha

theorem splayLoop_split (ht : t ≠ nil) (hL : ∀ a ∈ leftList L, 0 < c a)
    (hR : ∀ b ∈ rightList R, c b < 0) (hd : Descends c t.toList) :
    Split c (leftList L ++ t.toList ++ rightList R) (splayLoop c t L R) := by
  fun_induction splayLoop c t L R with
  | case1 => exact absurd rfl ht
  | case2 x r L R hx =>
    exact split_assemble hL hR (fun _ h => nomatch h) (hd.behind (by omega))
  | case3 x r L R hx y lr hy =>
    have hout : ∀ b ∈ r.toList, c b < 0 := hd.behind (by omega)
    have hin : ∀ b ∈ lr.toList, c b < 0 := hd.left.behind (l := []) (by omega)
    have h := split_assemble hL hR (l := nil) (r := node lr x r) (x := y) (fun _ h => nomatch h)
      (forall_mem_node hin hx hout)
    simpa [toList] using h
  | case4 x r L R hx y lr hy a z b ih =>
    have hout : ∀ b ∈ r.toList, c b < 0 := hd.behind (by omega)
    have hin : ∀ b ∈ lr.toList, c b < 0 := hd.left.behind (by omega)
    have h := ih (by simp) hL (forall_mem_right hy (forall_mem_node hin hx hout) hR) hd.left.left
    simpa [toList, rightList] using h
  | case5 x r L R hx ll y lr hy ih =>
    have hout : ∀ b ∈ r.toList, c b < 0 := hd.behind (by omega)
    have h := ih (by simp) hL (forall_mem_right hx hout hR) hd.left
    simpa [toList, rightList] using h
  | case6 l x L R hx hx' =>
    exact split_assemble hL hR (hd.front (by omega)) (fun _ h => nomatch h)
  | case7 l x L R hx hx' rl y hy =>
    have hout : ∀ a ∈ l.toList, 0 < c a := hd.front (by omega)
    have hin : ∀ a ∈ rl.toList, 0 < c a := hd.right.front (by omega)
    have h := split_assemble hL hR (l := node l x rl) (r := nil) (x := y)
      (forall_mem_node hout hx' hin) (fun _ h => nomatch h)
    simpa [toList] using h
  | case8 l x L R hx hx' rl y hy a z b ih =>
    have hout : ∀ a ∈ l.toList, 0 < c a := hd.front (by omega)
    have hin : ∀ a ∈ rl.toList, 0 < c a := hd.right.front (by omega)
    have h := ih (by simp) (forall_mem_left hL (forall_mem_node hout hx' hin) hy) hR hd.right.right
    simpa [toList, leftList] using h
  | case9 l x L R hx hx' rl y rr hy ih =>
    have hout : ∀ a ∈ l.toList, 0 < c a := hd.front (by omega)
    have h := ih (by simp) (forall_mem_left hL hout hx') hR hd.right
    simpa [toList, leftList] using h
  | case10 l x r L R hx hx' =>
    exact split_assemble hL hR (hd.front (by omega)) (hd.behind (by omega))

/-- **A search splits the tree.** -/
theorem splay_split (ht : t ≠ nil) (hd : Descends c t.toList) : Split c t.toList (splay c t) := by
  have h := splayLoop_split ht (L := []) (R := []) (fun _ h => nomatch h) (fun _ h => nomatch h) hd
  rw [splay]
  simpa [leftList, rightList] using h

/-- The minimum is the first element. -/
theorem splayMin_eq (ht : t ≠ nil) :
    ∃ x r, splayMin t = node nil x r ∧ x :: r.toList = t.toList := by
  have hd : Descends (fun _ => -1) t.toList :=
    List.pairwise_of_forall fun _ _ => .inr (show (-1 : Int) < 0 by decide)
  obtain ⟨tl, x, tr, hsplay, hlist, hl, -⟩ := splay_split ht hd
  cases tl with
  | nil => exact ⟨x, tr, hsplay, hlist⟩
  | node l y r =>
    have hpos : (0 : Int) < -1 :=
      hl y (by rw [toList, List.mem_append]; exact .inr List.mem_cons_self)
    omega

/-! ## Comparisons -/

section Order

variable (cmp : α → α → Int)

/-- The comparison is an order on these elements. -/
structure OrderOn (S : α → Prop) : Prop where
  eq : ∀ a b, S a → S b → (cmp a b = 0 ↔ a = b)
  antisymm : ∀ a b, S a → S b → (cmp a b < 0 ↔ 0 < cmp b a)
  trans : ∀ a b d, S a → S b → S d → cmp a b < 0 → cmp b d < 0 → cmp a d < 0

def Sorted (l : List α) : Prop := l.Pairwise fun a b => cmp a b < 0

variable {cmp} {S : α → Prop}

/-- A search for an element of the order, in a sorted list. -/
theorem OrderOn.descends (h : OrderOn cmp S) {l : List α} (hl : Sorted cmp l) (hS : ∀ a ∈ l, S a)
    (he : S elm) : Descends (cmp elm) l := by
  refine List.Pairwise.imp_of_mem (fun {a b} ha hb hab => ?_) hl
  by_contra hno
  rw [not_or, Int.not_lt, Int.not_lt] at hno
  rcases Int.lt_or_eq_of_le hno.1 with hlt | heq
  · have htrans := h.trans elm a b he (hS a ha) (hS b hb) hlt hab
    omega
  · rw [(h.eq elm a he (hS a ha)).mp heq] at hno
    omega

/-- **Insertion adds the element, in its place.** -/
theorem insert_spec (h : OrderOn cmp S) (ht : Sorted cmp t.toList) (hS : ∀ a ∈ t.toList, S a)
    (he : S elm) (hnew : elm ∉ t.toList) :
    Sorted cmp (insert cmp elm t).toList ∧ (insert cmp elm t).toList.Perm (elm :: t.toList) := by
  by_cases hnil : t = nil
  · rw [hnil]
    exact ⟨List.pairwise_singleton _ _, List.Perm.refl _⟩
  obtain ⟨l, x, r, hsplay, hlist, hl, hr⟩ := splay_split hnil (h.descends ht hS he)
  have hx : x ∈ t.toList := by
    rw [← hlist, List.mem_append]
    exact .inr List.mem_cons_self
  have hlS : ∀ a ∈ l.toList, S a :=
    fun a ha => hS a (by rw [← hlist]; exact List.mem_append_left _ ha)
  have hrS : ∀ b ∈ r.toList, S b := fun b hb =>
    hS b (by rw [← hlist]; exact List.mem_append_right _ (List.mem_cons_of_mem _ hb))
  have hne : cmp elm x ≠ 0 := fun h0 => hnew (((h.eq elm x he (hS x hx)).mp h0) ▸ hx)
  unfold insert
  rw [hsplay]
  dsimp only
  rw [Sorted, ← hlist, List.pairwise_append, List.pairwise_cons] at ht
  obtain ⟨hsl, ⟨hxr, hsr⟩, hlx⟩ := ht
  have hfront : ∀ a ∈ l.toList, cmp a elm < 0 :=
    fun a ha => (h.antisymm a elm (hlS a ha) he).mpr (hl a ha)
  split_ifs with hlt hgt
  · -- in front of the root
    constructor
    · show (l.toList ++ elm :: ([] ++ x :: r.toList)).Pairwise _
      rw [List.nil_append, List.pairwise_append, List.pairwise_cons, List.pairwise_cons]
      refine ⟨hsl, ⟨fun b hb => ?_, hxr, hsr⟩, fun a ha b hb => ?_⟩
      · rcases List.mem_cons.mp hb with rfl | hb
        · exact hlt
        · exact hr b hb
      · rcases List.mem_cons.mp hb with rfl | hb
        · exact hfront a ha
        · exact hlx a ha b hb
    · show (l.toList ++ elm :: ([] ++ x :: r.toList)).Perm _
      rw [← hlist]
      exact List.perm_middle
  · -- behind it
    constructor
    · show ((l.toList ++ x :: []) ++ elm :: r.toList).Pairwise _
      rw [List.append_assoc, List.singleton_append, List.pairwise_append, List.pairwise_cons,
        List.pairwise_cons]
      have hxe : cmp x elm < 0 := (h.antisymm x elm (hS x hx) he).mpr hgt
      refine ⟨hsl, ⟨fun b hb => ?_, hr, hsr⟩, fun a ha b hb => ?_⟩
      · rcases List.mem_cons.mp hb with rfl | hb
        · exact hxe
        · exact hxr b hb
      · rcases List.mem_cons.mp hb with rfl | hb
        · exact hlx a ha _ List.mem_cons_self
        · rcases List.mem_cons.mp hb with rfl | hb
          · exact hfront a ha
          · exact hlx a ha b (List.mem_cons_of_mem _ hb)
    · show ((l.toList ++ x :: []) ++ elm :: r.toList).Perm _
      rw [← hlist]
      refine List.perm_middle.trans ?_
      rw [List.append_assoc]
      exact List.Perm.refl _
  · omega

/-- **Removal takes out the element.** -/
theorem remove_spec [DecidableEq α] (h : OrderOn cmp S) (ht : Sorted cmp t.toList)
    (hS : ∀ a ∈ t.toList, S a) (hmem : elm ∈ t.toList) :
    (remove cmp elm t).toList = t.toList.erase elm := by
  have he := hS elm hmem
  have hself : cmp elm elm = 0 := (h.eq elm elm he he).mpr rfl
  have hnil : t ≠ nil := by
    rintro rfl
    cases hmem
  obtain ⟨l, x, r, hsplay, hlist, hl, hr⟩ := splay_split hnil (h.descends ht hS he)
  have hnl : elm ∉ l.toList := by
    intro hin
    have hpos := hl elm hin
    omega
  have hnr : elm ∉ r.toList := by
    intro hin
    have hneg := hr elm hin
    omega
  -- it is at the root
  have hroot : x = elm := by
    rw [← hlist, List.mem_append, List.mem_cons] at hmem
    rcases hmem with hin | heq | hin
    · exact absurd hin hnl
    · exact heq.symm
    · exact absurd hin hnr
  subst hroot
  have herase : t.toList.erase x = l.toList ++ r.toList := by
    rw [← hlist, List.erase_append_right _ hnl, List.erase_cons_head]
  unfold remove
  rw [hsplay, herase]
  dsimp only
  rw [if_pos hself]
  by_cases hlnil : l = nil
  · rw [hlnil]
    rfl
  · -- everything on the left is in front, so there is nothing to be overwritten
    have hsub : Descends (cmp x) l.toList := by
      have hd := h.descends ht hS he
      rw [← hlist] at hd
      exact hd.left
    obtain ⟨l', x', r', hsplay', hlist', -, hr'⟩ := splay_split hlnil hsub
    have hempty : r'.toList = [] := by
      refine List.eq_nil_iff_forall_not_mem.mpr fun b hb => ?_
      have hneg := hr' b hb
      have hpos :=
        hl b (by rw [← hlist']; exact List.mem_append_right _ (List.mem_cons_of_mem _ hb))
      omega
    rw [hsplay', ← hlist', hempty]
    show l'.toList ++ x' :: r.toList = _
    rw [List.append_assoc]
    rfl

end Order

end Splay

end Lib
