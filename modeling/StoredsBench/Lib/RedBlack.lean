/-
Module: StoredsBench.Lib.RedBlack
Layer: Lib
Purpose: Red-black trees that are rebalanced from the new node upwards.  A place in a tree is a
  subtree together with the frames above it, innermost first; `locate` finds the place of a key and
  `fixUp` recolours and rotates along the frames.  `build` names the children of a node by side, so
  that the mirrored cases are one.  Nodes carry labels, which rebalancing keeps with their entries.
Trusted boundary: human-reviewed spec
Main exports: Tree, Frame, plug, locate, fixUp, upsert, Balanced, Balanced.upsert, entries_upsert
-/
import StoredsBench.Lib.SortedAssoc
import Mathlib.Algebra.Group.Nat.Defs
import Mathlib.Data.Nat.Log

namespace StoredsBench.Lib.RedBlack

open SortedAssoc

inductive Color where
  | red
  | black
deriving DecidableEq

inductive Side where
  | left
  | right
deriving DecidableEq

def Side.other : Side → Side
  | .left => .right
  | .right => .left

@[simp] theorem Side.other_other (side : Side) : side.other.other = side := by
  cases side <;> rfl

theorem Side.other_ne (side : Side) : side.other ≠ side := by
  cases side <;> simp [Side.other]

theorem Side.eq_other_of_ne {side other : Side} (different : side ≠ other) : side = other.other := by
  cases side <;> cases other <;> simp_all [Side.other]

/-- Binary search trees with coloured, labelled nodes. -/
inductive Tree (L E : Type) where
  | leaf
  | node (color : Color) (label : L) (entry : E) (left right : Tree L E)

variable {L E K V : Type}

namespace Tree

/-- The node whose child on `side` is `near`, and whose other child is `far`. -/
def build (side : Side) (color : Color) (label : L) (entry : E) (near far : Tree L E) : Tree L E :=
  match side with
  | .left => .node color label entry near far
  | .right => .node color label entry far near

def rootColor : Tree L E → Color
  | .leaf => .black
  | .node color _ _ _ _ => color

def blacken : Tree L E → Tree L E
  | .leaf => .leaf
  | .node _ label entry left right => .node .black label entry left right

/-- Labels and entries from left to right. -/
def inorder : Tree L E → List (L × E)
  | .leaf => []
  | .node _ label entry left right => left.inorder ++ (label, entry) :: right.inorder

def labels (tree : Tree L E) : List L := tree.inorder.map Prod.fst

def entries (tree : Tree L E) : List E := tree.inorder.map Prod.snd

/-- Number of nodes on a longest path from the root. -/
def height : Tree L E → Nat
  | .leaf => 0
  | .node _ _ _ left right => max left.height right.height + 1

/-- The colours along every path from the root to a missing child. -/
def paths : Tree L E → List (List Color)
  | .leaf => [[]]
  | .node color _ _ left right => (left.paths ++ right.paths).map (color :: ·)

/-- No red node has a red child. -/
def NoRedRed : Tree L E → Prop
  | .leaf => True
  | .node color _ _ left right =>
      (color = .red → left.rootColor = .black ∧ right.rootColor = .black) ∧
        left.NoRedRed ∧ right.NoRedRed

end Tree

open Tree

/-- A node above a place: the side the place is on, and the child on the other side. -/
structure Frame (L E : Type) where
  side : Side
  color : Color
  label : L
  entry : E
  sibling : Tree L E

namespace Frame

def around (frame : Frame L E) (tree : Tree L E) : Tree L E :=
  build frame.side frame.color frame.label frame.entry tree frame.sibling

/-- What a frame adds to the left of its place. -/
def before (frame : Frame L E) : List (L × E) :=
  match frame.side with
  | .left => []
  | .right => frame.sibling.inorder ++ [(frame.label, frame.entry)]

/-- What a frame adds to the right of its place. -/
def after (frame : Frame L E) : List (L × E) :=
  match frame.side with
  | .left => (frame.label, frame.entry) :: frame.sibling.inorder
  | .right => []

end Frame

/-- Put a subtree at its place. -/
def plug : List (Frame L E) → Tree L E → Tree L E
  | [], tree => tree
  | frame :: above, tree => plug above (frame.around tree)

def before : List (Frame L E) → List (L × E)
  | [] => []
  | frame :: above => before above ++ frame.before

def after : List (Frame L E) → List (L × E)
  | [] => []
  | frame :: above => frame.after ++ after above

/-! ### Rebalancing -/

/-- The grandparent's subtree with a red grandparent, a black parent and a black uncle. -/
def recolored (tree : Tree L E) (parent grandparent : Frame L E) : Tree L E :=
  build grandparent.side .red grandparent.label grandparent.entry
    (build parent.side .black parent.label parent.entry tree parent.sibling)
    (blacken grandparent.sibling)

/-- The parent rotated above the grandparent; the two exchange their colours. -/
def raised (tree : Tree L E) (parent grandparent : Frame L E) : Tree L E :=
  build grandparent.side grandparent.color parent.label parent.entry tree
    (build grandparent.side parent.color grandparent.label grandparent.entry parent.sibling
      grandparent.sibling)

/-- The root of the subtree rotated above the parent, which becomes the place. -/
def turned (parent : Frame L E) : Tree L E → Tree L E × Frame L E
  | .leaf => (.leaf, parent)
  | .node color label entry left right =>
      match parent.side with
      | .left =>
          (.node parent.color parent.label parent.entry right parent.sibling,
            ⟨.right, color, label, entry, left⟩)
      | .right =>
          (.node parent.color parent.label parent.entry parent.sibling left,
            ⟨.left, color, label, entry, right⟩)

/-- An inner place is turned outwards before the parent is raised. -/
def rotated (tree : Tree L E) (parent grandparent : Frame L E) : Tree L E :=
  if parent.side = grandparent.side then raised tree parent grandparent
  else raised (turned parent tree).1 (turned parent tree).2 grandparent

/-- Remove a conflict between a red root of the subtree and a red parent, going upwards as long as
there is one. -/
def fixUp : Tree L E → List (Frame L E) → Tree L E
  | tree, parent :: grandparent :: above =>
      if tree.rootColor = .red ∧ parent.color = .red then
        if grandparent.sibling.rootColor = .red then
          fixUp (recolored tree parent grandparent) above
        else fixUp (rotated tree parent grandparent) above
      else plug (parent :: grandparent :: above) tree
  | tree, above => plug above tree

section Search

variable [LinearOrder K]

/-- Go down to the node of a key, or to where it would be attached. -/
def locate (key : K) :
    Tree L (K × V) → List (Frame L (K × V)) → Tree L (K × V) × List (Frame L (K × V))
  | .leaf, above => (.leaf, above)
  | .node color label entry left right, above =>
      if key = entry.1 then (.node color label entry left right, above)
      else if key < entry.1 then locate key left (⟨.left, color, label, entry, right⟩ :: above)
      else locate key right (⟨.right, color, label, entry, left⟩ :: above)

/-- Overwrite the value of a key, or attach a red node labelled `fresh` and rebalance. -/
def upsert (fresh : L) (key : K) (value : V) (tree : Tree L (K × V)) : Tree L (K × V) :=
  match locate key tree [] with
  | (.leaf, above) => blacken (fixUp (.node .red fresh (key, value) .leaf .leaf) above)
  | (.node color label _ left right, above) =>
      plug above (.node color label (key, value) left right)

end Search

/-! ### Order -/

@[simp] theorem inorder_around (frame : Frame L E) (tree : Tree L E) :
    (frame.around tree).inorder = frame.before ++ (tree.inorder ++ frame.after) := by
  obtain ⟨side, color, label, entry, sibling⟩ := frame
  cases side <;> simp [Frame.around, Frame.before, Frame.after, build, inorder]

@[simp] theorem inorder_plug (above : List (Frame L E)) (tree : Tree L E) :
    (plug above tree).inorder = before above ++ (tree.inorder ++ after above) := by
  induction above generalizing tree with
  | nil => simp [plug, before, after]
  | cons frame above inductionHypothesis =>
      rw [plug, inductionHypothesis]
      simp [before, after]

/-- The entries around the node at a place. -/
theorem entries_plug_node (above : List (Frame L E)) (color : Color) (label : L) (entry : E)
    (left right : Tree L E) :
    (plug above (.node color label entry left right)).entries =
      (before above ++ left.inorder).map Prod.snd ++
        entry :: (right.inorder ++ after above).map Prod.snd := by
  simp [entries, inorder]

@[simp] theorem inorder_blacken (tree : Tree L E) : (blacken tree).inorder = tree.inorder := by
  cases tree <;> rfl

theorem inorder_recolored (tree : Tree L E) (parent grandparent : Frame L E) :
    (recolored tree parent grandparent).inorder =
      (grandparent.around (parent.around tree)).inorder := by
  obtain ⟨side, color, label, entry, sibling⟩ := parent
  obtain ⟨otherSide, otherColor, otherLabel, otherEntry, uncle⟩ := grandparent
  cases side <;> cases otherSide <;> simp [recolored, Frame.before, Frame.after, build, inorder]

theorem inorder_raised (tree : Tree L E) {parent grandparent : Frame L E}
    (outer : parent.side = grandparent.side) :
    (raised tree parent grandparent).inorder =
      (grandparent.around (parent.around tree)).inorder := by
  obtain ⟨side, color, label, entry, sibling⟩ := parent
  obtain ⟨otherSide, otherColor, otherLabel, otherEntry, uncle⟩ := grandparent
  obtain rfl : side = otherSide := outer
  cases side <;> simp [raised, Frame.before, Frame.after, build, inorder]

/-- Turning moves the place to the other side of its parent. -/
theorem turned_side {parent : Frame L E} {tree : Tree L E} (red : tree.rootColor = .red) :
    (turned parent tree).2.side = parent.side.other := by
  obtain ⟨side, color, label, entry, sibling⟩ := parent
  cases tree with
  | leaf => cases red
  | node => cases side <;> rfl

theorem turned_color {parent : Frame L E} {tree : Tree L E} (red : tree.rootColor = .red) :
    (turned parent tree).2.color = .red := by
  obtain ⟨side, color, label, entry, sibling⟩ := parent
  cases tree with
  | leaf => cases red
  | node => cases side <;> exact red

@[simp] theorem rootColor_build (side : Side) (color : Color) (label : L) (entry : E)
    (near far : Tree L E) : (build side color label entry near far).rootColor = color := by
  cases side <;> rfl

theorem inorder_turned (parent : Frame L E) (tree : Tree L E) :
    ((turned parent tree).2.around (turned parent tree).1).inorder =
      (parent.around tree).inorder := by
  obtain ⟨side, color, label, entry, sibling⟩ := parent
  cases tree <;> cases side <;> simp [turned, Frame.before, Frame.after, inorder]

theorem inorder_rotated {tree : Tree L E} (red : tree.rootColor = .red)
    (parent grandparent : Frame L E) :
    (rotated tree parent grandparent).inorder =
      (grandparent.around (parent.around tree)).inorder := by
  rw [rotated]
  split
  · rename_i outer
    exact inorder_raised tree outer
  · rename_i inner
    have nowOuter : (turned parent tree).2.side = grandparent.side := by
      rw [turned_side red, Side.eq_other_of_ne inner, Side.other_other]
    rw [inorder_raised _ nowOuter, inorder_around, inorder_turned, inorder_around grandparent]

/-- Below a black root there is nothing to repair. -/
theorem fixUp_of_black {tree : Tree L E} (black : tree.rootColor = .black)
    (above : List (Frame L E)) : fixUp tree above = plug above tree := by
  fun_cases fixUp tree above with
  | case1 tree parent grandparent above conflict =>
      rw [black] at conflict
      cases conflict.1
  | case2 tree parent grandparent above conflict =>
      rw [black] at conflict
      cases conflict.1
  | case3 => rfl
  | case4 => rfl

/-- Rebalancing keeps every entry, its label, and their order. -/
theorem inorder_fixUp (tree : Tree L E) (above : List (Frame L E)) :
    (fixUp tree above).inorder = (plug above tree).inorder := by
  fun_induction fixUp tree above with
  | case1 tree parent grandparent above conflict redUncle inductionHypothesis =>
      rw [inductionHypothesis, inorder_plug, inorder_recolored, plug, plug, inorder_plug]
  | case2 tree parent grandparent above conflict blackUncle inductionHypothesis =>
      rw [inductionHypothesis, inorder_plug, inorder_rotated conflict.1, plug, plug, inorder_plug]
  | case3 => rfl
  | case4 => rfl

/-! ### Balance -/

/-- The tree has the root colour and the black height, and no red node has a red child. -/
inductive Balanced : Tree L E → Color → Nat → Prop where
  | leaf : Balanced .leaf .black 0
  | red {label entry left right n} : Balanced left .black n → Balanced right .black n →
      Balanced (.node .red label entry left right) .red n
  | black {label entry left right first second n} : Balanced left first n →
      Balanced right second n → Balanced (.node .black label entry left right) .black (n + 1)

/-- The place takes a balanced subtree with the root colour and the black height. -/
inductive Fits : List (Frame L E) → Color → Nat → Prop where
  | root {n} : Fits [] .black n
  | red {side label entry sibling above n} : Balanced sibling .black n → Fits above .red n →
      Fits (⟨side, .red, label, entry, sibling⟩ :: above) .black n
  | black {side label entry sibling above color other n} : Balanced sibling other n →
      Fits above .black (n + 1) → Fits (⟨side, .black, label, entry, sibling⟩ :: above) color n

namespace Balanced

variable {tree : Tree L E} {color : Color} {n : Nat}

theorem rootColor_eq (balanced : Balanced tree color n) : tree.rootColor = color := by
  cases balanced <;> rfl

theorem build_red {near far : Tree L E} (side : Side) (label : L) (entry : E)
    (nearBalanced : Balanced near .black n) (farBalanced : Balanced far .black n) :
    Balanced (build side .red label entry near far) .red n := by
  cases side with
  | left => exact .red nearBalanced farBalanced
  | right => exact .red farBalanced nearBalanced

theorem build_black {near far : Tree L E} {first second : Color} (side : Side) (label : L)
    (entry : E) (nearBalanced : Balanced near first n) (farBalanced : Balanced far second n) :
    Balanced (build side .black label entry near far) .black (n + 1) := by
  cases side with
  | left => exact .black nearBalanced farBalanced
  | right => exact .black farBalanced nearBalanced

theorem blacken (balanced : Balanced tree color n) : ∃ m, Balanced tree.blacken .black m := by
  cases balanced with
  | leaf => exact ⟨0, .leaf⟩
  | red left right => exact ⟨n + 1, .black left right⟩
  | black left right => exact ⟨_, .black left right⟩

theorem blacken_red (balanced : Balanced tree .red n) : Balanced tree.blacken .black (n + 1) := by
  cases balanced with
  | red left right => exact .black left right

/-- A balanced tree at a place that takes it makes a balanced tree. -/
theorem plug {above : List (Frame L E)} (balanced : Balanced tree color n)
    (fits : Fits above color n) : ∃ m, Balanced (RedBlack.plug above tree) .black m := by
  induction fits generalizing tree with
  | root => exact ⟨_, balanced⟩
  | red siblingBalanced _ inductionHypothesis =>
      exact inductionHypothesis (build_red _ _ _ balanced siblingBalanced)
  | black siblingBalanced _ inductionHypothesis =>
      exact inductionHypothesis (build_black _ _ _ balanced siblingBalanced)

theorem recolored {parent grandparent : Frame L E} (balanced : Balanced tree .red n)
    (parentSibling : Balanced parent.sibling .black n)
    (uncle : Balanced grandparent.sibling .red n) :
    Balanced (recolored tree parent grandparent) .red (n + 1) :=
  build_red _ _ _ (build_black _ _ _ balanced parentSibling) uncle.blacken_red

/-- Both shapes of a rotation end in a black node with two red children. -/
theorem rotated {parent grandparent : Frame L E} (balanced : Balanced tree .red n)
    (redParent : parent.color = .red) (blackGrandparent : grandparent.color = .black)
    (parentSibling : Balanced parent.sibling .black n)
    (uncle : Balanced grandparent.sibling .black n) :
    Balanced (rotated tree parent grandparent) .black (n + 1) := by
  rw [RedBlack.rotated]
  split
  · rw [raised, redParent, blackGrandparent]
    exact build_black _ _ _ balanced (build_red _ _ _ parentSibling uncle)
  · cases balanced with
    | red left right =>
        obtain ⟨side, color, label, entry, sibling⟩ := parent
        obtain rfl : color = .red := redParent
        cases side with
        | left =>
            simp only [turned, raised, blackGrandparent]
            exact build_black _ _ _ (.red right parentSibling) (build_red _ _ _ left uncle)
        | right =>
            simp only [turned, raised, blackGrandparent]
            exact build_black _ _ _ (.red parentSibling left) (build_red _ _ _ right uncle)

end Balanced

/-- Above a red parent there is a black grandparent. -/
theorem Fits.conflict {parent grandparent : Frame L E} {above : List (Frame L E)} {color : Color}
    {n : Nat} (fits : Fits (parent :: grandparent :: above) color n) (red : parent.color = .red) :
    grandparent.color = .black ∧ Balanced parent.sibling .black n ∧
      ∃ uncle, Balanced grandparent.sibling uncle n ∧ Fits above .black (n + 1) := by
  cases fits with
  | black => cases red
  | red siblingBalanced aboveFits =>
      cases aboveFits with
      | black uncleBalanced aboveFits => exact ⟨rfl, siblingBalanced, _, uncleBalanced, aboveFits⟩

/-- The child of the root has a black parent. -/
theorem Fits.single {parent : Frame L E} {color : Color} {n : Nat} (fits : Fits [parent] color n) :
    parent.color = .black := by
  cases fits with
  | black => rfl
  | red _ aboveFits => cases aboveFits

/-- A place below a black parent takes a root of any colour. -/
theorem Fits.any {parent : Frame L E} {above : List (Frame L E)} {color : Color} {n : Nat}
    (fits : Fits (parent :: above) color n) (black : parent.color = .black) (other : Color) :
    Fits (parent :: above) other n := by
  cases fits with
  | black siblingBalanced aboveFits => exact .black siblingBalanced aboveFits
  | red => cases black

theorem eq_black_of_not_red {color : Color} (calm : ¬ color = .red) : color = .black := by
  cases color with
  | red => exact absurd rfl calm
  | black => rfl

namespace Balanced

variable {tree : Tree L E} {color : Color} {n : Nat}

/-- Where there is no conflict, rebalancing is over. -/
theorem plug_calm {parent : Frame L E} {above : List (Frame L E)} (balanced : Balanced tree color n)
    (fits : Fits (parent :: above) .black n) (calm : ¬ (tree.rootColor = .red ∧ parent.color = .red)) :
    ∃ m, Balanced (RedBlack.plug (parent :: above) tree).blacken .black m := by
  have whole : ∃ m, Balanced (RedBlack.plug (parent :: above) tree) .black m := by
    by_cases red : parent.color = .red
    · have black : color = .black := by
        rw [← balanced.rootColor_eq]
        exact eq_black_of_not_red fun redRoot => calm ⟨redRoot, red⟩
      subst black
      exact balanced.plug fits
    · exact balanced.plug (fits.any (eq_black_of_not_red red) color)
  obtain ⟨m, whole⟩ := whole
  exact whole.blacken

/-- Rebalancing repairs a red root below a red parent. -/
theorem fixUp {above : List (Frame L E)} (balanced : Balanced tree color n)
    (fits : Fits above .black n) : ∃ m, Balanced (RedBlack.fixUp tree above).blacken .black m := by
  fun_induction RedBlack.fixUp tree above generalizing color n with
  | case1 tree parent grandparent above conflict redUncle inductionHypothesis =>
      obtain rfl : color = .red := balanced.rootColor_eq.symm.trans conflict.1
      obtain ⟨_, siblingBalanced, uncle, uncleBalanced, aboveFits⟩ := fits.conflict conflict.2
      obtain rfl : uncle = .red := uncleBalanced.rootColor_eq.symm.trans redUncle
      exact inductionHypothesis (balanced.recolored siblingBalanced uncleBalanced) aboveFits
  | case2 tree parent grandparent above conflict blackUncle inductionHypothesis =>
      obtain rfl : color = .red := balanced.rootColor_eq.symm.trans conflict.1
      obtain ⟨black, siblingBalanced, uncle, uncleBalanced, aboveFits⟩ := fits.conflict conflict.2
      obtain rfl : uncle = .black := by
        rw [← uncleBalanced.rootColor_eq]
        exact eq_black_of_not_red blackUncle
      exact inductionHypothesis (balanced.rotated conflict.2 black siblingBalanced uncleBalanced)
        aboveFits
  | case3 tree parent grandparent above calm => exact balanced.plug_calm fits calm
  | case4 tree above short =>
      cases above with
      | nil => exact balanced.blacken
      | cons parent above =>
          cases above with
          | nil =>
              apply balanced.plug_calm fits
              rintro ⟨_, red⟩
              rw [fits.single] at red
              cases red
          | cons grandparent above => exact absurd rfl (short parent grandparent above)

/-! ### What balance means -/

theorem noRedRed (balanced : Balanced tree color n) : NoRedRed tree := by
  induction balanced with
  | leaf => trivial
  | red left right leftCalm rightCalm =>
      exact ⟨fun _ => ⟨left.rootColor_eq, right.rootColor_eq⟩, leftCalm, rightCalm⟩
  | black left right leftCalm rightCalm =>
      exact ⟨fun red => (by cases red), leftCalm, rightCalm⟩

theorem count_black (balanced : Balanced tree color n) :
    ∀ path ∈ tree.paths, path.count .black = n := by
  induction balanced with
  | leaf => simp [paths]
  | red left right leftCount rightCount =>
      intro path member
      obtain ⟨rest, restMember, rfl⟩ := List.mem_map.mp member
      rw [List.count_cons_of_ne (by decide)]
      rcases List.mem_append.mp restMember with inLeft | inRight
      · exact leftCount rest inLeft
      · exact rightCount rest inRight
  | black left right leftCount rightCount =>
      intro path member
      obtain ⟨rest, restMember, rfl⟩ := List.mem_map.mp member
      rw [List.count_cons_self]
      rcases List.mem_append.mp restMember with inLeft | inRight
      · rw [leftCount rest inLeft]
      · rw [rightCount rest inRight]

/-- At most every second node of a path is red. -/
theorem height_le (balanced : Balanced tree color n) :
    height tree ≤ 2 * n + (if color = .red then 1 else 0) := by
  induction balanced with
  | leaf => exact Nat.le_refl 0
  | red left right leftBound rightBound =>
      simp only [height, reduceCtorEq, if_false, if_true] at leftBound rightBound ⊢
      omega
  | @black label entry left right first second n _ _ leftBound rightBound =>
      have leftBound : left.height ≤ 2 * n + 1 := leftBound.trans (by split <;> omega)
      have rightBound : right.height ≤ 2 * n + 1 := rightBound.trans (by split <;> omega)
      simp only [height]
      omega

theorem length_ge (balanced : Balanced tree color n) : 2 ^ n ≤ (inorder tree).length + 1 := by
  induction balanced with
  | leaf => simp [inorder]
  | red left right leftSize rightSize =>
      simp only [inorder, List.length_append, List.length_cons]
      omega
  | black left right leftSize rightSize =>
      simp only [inorder, List.length_append, List.length_cons, Nat.pow_succ]
      omega

/-- A balanced tree with a black root is at most twice as high as its size requires. -/
theorem height_le_log (balanced : Balanced tree .black n) :
    height tree ≤ 2 * Nat.log 2 ((inorder tree).length + 1) := by
  have bound := balanced.height_le
  have height : n ≤ Nat.log 2 ((inorder tree).length + 1) :=
    Nat.le_log_of_pow_le (by decide) balanced.length_ge
  simp only [reduceCtorEq, if_false] at bound
  omega

end Balanced

/-- A part of a tree without red nodes below red ones is such a tree. -/
theorem Tree.NoRedRed.of_around {frame : Frame L E} {tree : Tree L E} (calm : NoRedRed (frame.around tree)) :
    NoRedRed tree ∧ (frame.color = .red → tree.rootColor = .black) := by
  obtain ⟨side, color, label, entry, sibling⟩ := frame
  cases side with
  | left => exact ⟨calm.2.1, fun red => (calm.1 red).1⟩
  | right => exact ⟨calm.2.2, fun red => (calm.1 red).2⟩

theorem Tree.NoRedRed.of_plug {above : List (Frame L E)} {tree : Tree L E} (calm : NoRedRed (plug above tree)) :
    NoRedRed tree := by
  induction above generalizing tree with
  | nil => exact calm
  | cons frame above inductionHypothesis => exact (inductionHypothesis calm).of_around.1

/-! ### Finding a key -/

section Search

variable [LinearOrder K]

theorem plug_locate (key : K) (tree : Tree L (K × V)) (above : List (Frame L (K × V))) :
    plug (locate key tree above).2 (locate key tree above).1 = plug above tree := by
  fun_induction locate key tree above with
  | case1 => rfl
  | case2 => rfl
  | case3 color label entry left right above _ below inductionHypothesis =>
      rw [inductionHypothesis]
      rfl
  | case4 color label entry left right above _ notBelow inductionHypothesis =>
      rw [inductionHypothesis]
      rfl

/-- Either the key has a node, or its place is empty. -/
theorem locate_cases (key : K) (tree : Tree L (K × V)) (above : List (Frame L (K × V))) :
    (locate key tree above).1 = .leaf ∨ ∃ color label value left right,
      (locate key tree above).1 = .node color label (key, value) left right := by
  fun_induction locate key tree above with
  | case1 => exact Or.inl rfl
  | case2 color label entry left right above same =>
      exact Or.inr ⟨color, label, entry.2, left, right, by rw [same]⟩
  | case3 => assumption
  | case4 => assumption

/-- The place of a key in a search tree lies between the smaller and the larger keys. -/
theorem locate_between (key : K) (tree : Tree L (K × V)) (above : List (Frame L (K × V)))
    (sorted : Sorted (plug above tree).entries)
    (below : ∀ pair ∈ before above, pair.2.1 < key) (beyond : ∀ pair ∈ after above, key < pair.2.1) :
    (∀ pair ∈ before (locate key tree above).2, pair.2.1 < key) ∧
      ∀ pair ∈ after (locate key tree above).2, key < pair.2.1 := by
  fun_induction locate key tree above with
  | case1 => exact ⟨below, beyond⟩
  | case2 => exact ⟨below, beyond⟩
  | case3 color label entry left right above _ less inductionHypothesis =>
      have ascending := sorted
      rw [entries_plug_node] at ascending
      have entryBelow := (sorted_cons.mp (sorted_append.mp ascending).2.1).1
      refine inductionHypothesis sorted ?_ ?_
      · simpa [before, Frame.before] using below
      · intro pair member
        simp only [after, Frame.after, List.cons_append, List.mem_cons] at member
        rcases member with rfl | later
        · exact less
        · exact less.trans (entryBelow pair.2 (List.mem_map_of_mem later))
  | case4 color label entry left right above different notLess inductionHypothesis =>
      have greater : entry.1 < key := lt_of_le_of_ne (not_lt.mp notLess) (Ne.symm different)
      have ascending := sorted
      rw [entries_plug_node] at ascending
      have belowEntry := (sorted_append.mp ascending).2.2
      refine inductionHypothesis sorted ?_ ?_
      · intro pair member
        simp only [before, Frame.before, ← List.append_assoc, List.mem_append,
          List.mem_singleton] at member
        rcases member with earlier | rfl
        · exact (belowEntry pair.2 (List.mem_map_of_mem (List.mem_append.mpr earlier)) entry
            List.mem_cons_self).trans greater
        · exact greater
      · simpa [after, Frame.after] using beyond

theorem Fits.locate (key : K) {tree : Tree L (K × V)} {above : List (Frame L (K × V))}
    {color : Color} {n : Nat} (fits : Fits above color n) (balanced : Balanced tree color n) :
    ∃ color m, Fits (locate key tree above).2 color m ∧
      Balanced (RedBlack.locate key tree above).1 color m := by
  fun_induction RedBlack.locate key tree above generalizing color n with
  | case1 => exact ⟨color, n, fits, balanced⟩
  | case2 => exact ⟨color, n, fits, balanced⟩
  | case3 _ label entry left right above _ _ inductionHypothesis =>
      cases balanced with
      | red leftBalanced rightBalanced =>
          exact inductionHypothesis (.red rightBalanced fits) leftBalanced
      | black leftBalanced rightBalanced =>
          exact inductionHypothesis (.black rightBalanced fits) leftBalanced
  | case4 _ label entry left right above _ _ inductionHypothesis =>
      cases balanced with
      | red leftBalanced rightBalanced =>
          exact inductionHypothesis (.red leftBalanced fits) rightBalanced
      | black leftBalanced rightBalanced =>
          exact inductionHypothesis (.black leftBalanced fits) rightBalanced

/-! ### Insertion -/

/-- The two outcomes of an insertion. -/
theorem upsert_cases (fresh : L) (key : K) (value : V) (tree : Tree L (K × V)) :
    (∃ above, locate key tree [] = (.leaf, above) ∧ plug above .leaf = tree ∧
      upsert fresh key value tree =
        blacken (fixUp (.node .red fresh (key, value) .leaf .leaf) above)) ∨
    ∃ above color label old left right,
      locate key tree [] = (.node color label (key, old) left right, above) ∧
      plug above (.node color label (key, old) left right) = tree ∧
      upsert fresh key value tree = plug above (.node color label (key, value) left right) := by
  have whole := plug_locate key tree []
  obtain ⟨place, above, located⟩ : ∃ place above, locate key tree [] = (place, above) :=
    ⟨_, _, rfl⟩
  have cases := locate_cases key tree []
  rw [located] at whole cases
  rcases cases with empty | ⟨color, label, old, left, right, found⟩
  · obtain rfl : place = .leaf := empty
    exact Or.inl ⟨above, located, whole, by rw [upsert, located]⟩
  · obtain rfl : place = .node color label (key, old) left right := found
    exact Or.inr ⟨above, color, label, old, left, right, located, whole, by rw [upsert, located]⟩

/-- An insertion keeps the tree balanced. -/
theorem Balanced.upsert {tree : Tree L (K × V)} {n : Nat} (balanced : Balanced tree .black n)
    (fresh : L) (key : K) (value : V) :
    ∃ m, Balanced (RedBlack.upsert fresh key value tree) .black m := by
  obtain ⟨color, m, fits, placeBalanced⟩ := Fits.locate key .root balanced
  rcases upsert_cases fresh key value tree with
    ⟨above, located, _, result⟩ | ⟨above, _, label, old, left, right, located, _, result⟩
  · rw [located] at fits placeBalanced
    rw [result]
    cases placeBalanced with
    | leaf => exact (Balanced.red .leaf .leaf).fixUp fits
  · rw [located] at fits placeBalanced
    rw [result]
    cases placeBalanced with
    | red leftBalanced rightBalanced => exact (Balanced.red leftBalanced rightBalanced).plug fits
    | black leftBalanced rightBalanced => exact (Balanced.black leftBalanced rightBalanced).plug fits

/-- An insertion adds a labelled entry or replaces one, in order. -/
theorem inorder_upsert {tree : Tree L (K × V)} (sorted : Sorted tree.entries) (fresh : L) (key : K)
    (value : V) :
    ∃ front back, (∀ pair ∈ front, pair.2.1 < key) ∧ (∀ pair ∈ back, key < pair.2.1) ∧
      ((tree.inorder = front ++ back ∧
          (upsert fresh key value tree).inorder = front ++ (fresh, (key, value)) :: back) ∨
        ∃ label old, tree.inorder = front ++ (label, (key, old)) :: back ∧
          (upsert fresh key value tree).inorder = front ++ (label, (key, value)) :: back) := by
  obtain ⟨below, beyond⟩ := locate_between key tree [] sorted (by simp [before]) (by simp [after])
  rcases upsert_cases fresh key value tree with
    ⟨above, located, whole, result⟩ | ⟨above, color, label, old, left, right, located, whole, result⟩
  · rw [located] at below beyond
    refine ⟨before above, after above, below, beyond, Or.inl ⟨?_, ?_⟩⟩
    · rw [← whole]
      simp [inorder]
    · rw [result, inorder_blacken, inorder_fixUp]
      simp [inorder]
  · rw [located] at below beyond
    rw [← whole, entries_plug_node] at sorted
    obtain ⟨_, restSorted, frontBelow⟩ := sorted_append.mp sorted
    refine ⟨before above ++ left.inorder, right.inorder ++ after above, ?_, ?_,
      Or.inr ⟨label, old, ?_, ?_⟩⟩
    · exact fun pair member => frontBelow pair.2 (List.mem_map_of_mem member) _ List.mem_cons_self
    · exact fun pair member => (sorted_cons.mp restSorted).1 pair.2 (List.mem_map_of_mem member)
    · rw [← whole]
      simp [inorder]
    · rw [result]
      simp [inorder]

/-- The entries of the tree are the abstract map. -/
theorem entries_upsert {tree : Tree L (K × V)} (sorted : Sorted tree.entries) (fresh : L) (key : K)
    (value : V) :
    (upsert fresh key value tree).entries = SortedAssoc.upsert key value tree.entries := by
  obtain ⟨front, back, below, beyond, cases⟩ := inorder_upsert sorted fresh key value
  have below : ∀ entry ∈ front.map Prod.snd, entry.1 < key := fun entry member => by
    obtain ⟨pair, inFront, rfl⟩ := List.mem_map.mp member
    exact below pair inFront
  have beyond : ∀ entry ∈ back.map Prod.snd, key < entry.1 := fun entry member => by
    obtain ⟨pair, inBack, rfl⟩ := List.mem_map.mp member
    exact beyond pair inBack
  rcases cases with ⟨old, new⟩ | ⟨label, oldValue, old, new⟩
  · rw [entries, entries, old, new, List.map_append, List.map_append, upsert_insert value below beyond]
    rfl
  · rw [entries, entries, old, new, List.map_append, List.map_append]
    exact (upsert_update oldValue value below).symm

end Search

end StoredsBench.Lib.RedBlack
