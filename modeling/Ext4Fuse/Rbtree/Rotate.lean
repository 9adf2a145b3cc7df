import Ext4Fuse.Rbtree.Node

/-! The rotations of `rbtree.c` and the stores around them, each with what it does to the tree that the memory holds. What the
source writes twice, for the left and for the right, is written once for a side. -/
namespace Ext4Fuse.Rbtree
open Library.RedBlack Library.Owned Library.Partial

/-- `if (child) rb_set_parent(child, parent)`. -/
def State.reparent (s : State) (child parent : Nat) : Option State :=
  if child = 0 then some s else s.store child (RbNode.setParent parent)

/-- What points to `old`, a node with the given parent, is made to point to `new`. -/
def State.repoint (s : State) (side : Side) (parent old new : Nat) : Option State :=
  if parent = 0 then some (s.setRoot new)
  else do
    let p ← s.node parent
    if old = p.child side then s.store parent (RbNode.setChild side new) else s.store parent (RbNode.setChild side.other new)

/-- `__rb_rotate_left` for the left side and `__rb_rotate_right` for the right one. -/
def rotate (side : Side) (s : State) (node : Nat) : Option State := do
  let n ← s.node node
  let right := n.child side.other
  let parent := n.parent
  let r ← s.node right
  let s ← s.store node (RbNode.setChild side.other (r.child side))
  let r' ← s.node right
  let s ← (if r.child side = 0 then some s else s.store (r'.child side) (RbNode.setParent node))
  let s ← s.store right (RbNode.setChild side node)
  let s ← s.store right (RbNode.setParent parent)
  let s ← s.repoint side parent node right
  s.store node (RbNode.setParent right)

def rbRotateLeft (s : State) (node : Nat) : Option State := rotate .left s node

def rbRotateRight (s : State) (node : Nat) : Option State := rotate .right s node

section Stores
variable {s : State} {ctx : Context Nat} {t near far : RbTree Nat} {side : Side} {c : Color} {a p q new first last : Nat} {r : RbNode}
variable {rest : Multiset (Nat × RbNode)}

theorem reparent_yields (owns : Owns s.node (cells p t + rest)) (aligned : p % 4 = 0) (aligned' : q % 4 = 0) :
    Yields (s.reparent (top t) q) fun s' => Owns s'.node (cells q t + rest) ∧ s'.root = s.root := by
  cases t with
  | nil => exact yields_some ⟨owns,rfl⟩
  | node c l a r =>
    rw [cells,add_assoc] at owns
    have placed := s.placed a _ owns.read
    rw [State.reparent,top,if_neg placed.1]
    refine (store_yields owns _).imp ?_
    rintro s' ⟨owns',root⟩
    rw [RbNode.setParent_of _ _ _ _ aligned aligned',← add_assoc] at owns'
    exact ⟨owns',root⟩

theorem top_mem_cells (some : t ≠ .nil) (p : Nat) : ∃ r, (top t,r) ∈ cells p t := by
  cases t with
  | nil => exact absurd rfl some
  | node c l a r => exact ⟨_,Multiset.mem_add.mpr (Or.inl (Multiset.mem_singleton_self _))⟩

theorem repoint_yields (owns : Owns s.node ({(a,r)} + (around ctx a + rest))) (root : s.root = ⟨rootOf ctx a,first,last⟩) (side : Side)
    (new : Nat) : Yields (s.repoint side (parentOf ctx) a new) fun s' =>
      Owns s'.node ({(a,r)} + (around ctx new + rest)) ∧ s'.root = ⟨rootOf ctx new,first,last⟩ := by
  cases ctx with
  | nil =>
    refine yields_some ⟨owns,?_⟩
    rw [State.setRoot,root]
    rfl
  | cons f ctx =>
    obtain ⟨fside,c,b,sibling⟩ := f
    have owned : Owns s.node ({(b,.of fside (parentOf ctx) c a (top sibling))} + ({(a,r)} + cells b sibling + around ctx b + rest)) := by
      refine owns.split ?_
      rw [around]
      abel
    have put (s' : State) (owns' : Owns s'.node
        ({(b,.of fside (parentOf ctx) c new (top sibling))} + ({(a,r)} + cells b sibling + around ctx b + rest))) :
        Owns s'.node ({(a,r)} + (around (⟨fside,c,b,sibling⟩::ctx) new + rest)) := by
      refine owns'.split ?_
      rw [around]
      abel
    have other : a ≠ top sibling := by
      rintro same
      by_cases none_ : sibling = .nil
      · subst none_
        exact (s.placed a r owns.read).1 same
      · obtain ⟨r',member⟩ := top_mem_cells none_ b
        refine owns.apart_from (s := r') ?_ same.symm
        rw [around]
        simp [member]
    rw [State.repoint,parentOf,if_neg (s.placed b _ owned.read).1]
    refine yields_bind owned.read ?_
    by_cases here : fside = side
    · subst here
      rw [if_pos (RbNode.child_of ..).symm]
      refine (store_yields owned _).imp ?_
      rintro s' ⟨owns',root'⟩
      rw [RbNode.setChild_of] at owns'
      exact ⟨put s' owns',root'.trans root⟩
    · have there : fside = side.other := by cases fside <;> cases side <;> first | rfl | exact absurd rfl here
      subst there
      have wrong : (RbNode.of side.other (parentOf ctx) c a (top sibling)).child side = top sibling := by
        rw [RbNode.of_other,RbNode.child_of]
      rw [if_neg (by rw [wrong]; exact other)]
      refine (store_yields owned _).imp ?_
      rintro s' ⟨owns',root'⟩
      rw [RbNode.setChild_of] at owns'
      exact ⟨put s' owns',root'.trans root⟩

/-- A rotation turns the far child of the node up in its place, and gives its near child to the node. -/
theorem rotate_yields {b : Nat} {d : Color} {inner : RbTree Nat} 
    (holds : Holds s (plug ctx (.make side c near a (.make side d inner b far))) first last rest) :
    Yields (rotate side s a) fun s' => Holds s' (plug ctx (.make side d (.make side c near a inner) b far)) first last rest := by
  have aligned := holds.parentOf
  have placed := holds.placed
  have placed' : b ≠ 0 ∧ b % 4 = 0 := by
    rw [plug_far] at holds
    exact holds.placed
  obtain ⟨owns,root⟩ := holds_plug.mp holds
  rw [cells_make,cells_make,top_make,top_make] at owns
  rw [top_make] at root
  have owned : Owns s.node ({(a,.of side (parentOf ctx) c (top near) b)} + ({(b,.of side a d (top inner) (top far))} +
      (cells b inner + (around ctx a + (cells a near + cells b far + rest))))) := owns.split (by abel)
  rw [rotate]
  refine yields_bind owned.read ?_
  rw [RbNode.child_other_of,RbNode.parent_of _ _ _ _ aligned]
  refine yields_bind (owned.split (add_left_comm ..)).read ?_
  rw [RbNode.child_of]
  refine (store_yields owned _).bind ?_
  rintro s₁ ⟨owned₁,root₁⟩
  rw [RbNode.setChild_other_of,add_left_comm] at owned₁
  refine yields_bind owned₁.read ?_
  rw [RbNode.child_of]
  have owned₁ : Owns s₁.node (cells b inner + ({(b,.of side a d (top inner) (top far))} +
      ({(a,.of side (parentOf ctx) c (top near) (top inner))} + (around ctx a + (cells a near + cells b far + rest))))) :=
    owned₁.split (by abel)
  refine (reparent_yields owned₁ placed'.2 placed.2).bind ?_
  rintro s₂ ⟨owned₂,root₂⟩
  have owned₂ : Owns s₂.node ({(b,.of side a d (top inner) (top far))} + ({(a,.of side (parentOf ctx) c (top near) (top inner))} +
      (around ctx a + (cells a inner + cells a near + cells b far + rest)))) := owned₂.split (by abel)
  refine (store_yields owned₂ _).bind ?_
  rintro s₃ ⟨owned₃,root₃⟩
  rw [RbNode.setChild_of] at owned₃
  refine (store_yields owned₃ _).bind ?_
  rintro s₄ ⟨owned₄,root₄⟩
  rw [RbNode.setParent_of _ _ _ _ placed.2 aligned] at owned₄
  have owned₄ : Owns s₄.node ({(a,.of side (parentOf ctx) c (top near) (top inner))} + (around ctx a +
      ({(b,.of side (parentOf ctx) d a (top far))} + cells a inner + cells a near + cells b far + rest))) := owned₄.split (by abel)
  have same : s₄.root = ⟨rootOf ctx a,first,last⟩ := root₄.trans (root₃.trans (root₂.trans (root₁.trans root)))
  refine (repoint_yields owned₄ same side b).bind ?_
  rintro s₅ ⟨owned₅,root₅⟩
  refine (store_yields owned₅ _).imp ?_
  rintro s₆ ⟨owned₆,root₆⟩
  rw [RbNode.setParent_of _ _ _ _ aligned placed'.2] at owned₆
  refine holds_plug.mpr ⟨owned₆.split ?_,?_⟩
  · rw [cells_make,cells_make,top_make,top_make]
    abel
  · rw [root₆,root₅,top_make]

theorem recolor_yields {c' : Color} {f : RbNode → RbNode} (holds : Holds s (plug ctx (.make side c near a far)) first last rest)
    (does : f (.of side (parentOf ctx) c (top near) (top far)) = .of side (parentOf ctx) c' (top near) (top far)) :
    Yields (s.store a f) fun s' => Holds s' (plug ctx (.make side c' near a far)) first last rest := by
  obtain ⟨owns,root⟩ := holds_plug.mp holds
  rw [cells_make,add_assoc,top_make] at owns
  refine (store_yields owns f).imp ?_
  rintro s' ⟨owns',root'⟩
  rw [does] at owns'
  refine holds_plug.mpr ⟨?_,?_⟩
  · rw [cells_make,add_assoc,top_make]
    exact owns'
  · rw [root',root,top_make,top_make]

theorem blacken_yields (holds : Holds s (plug ctx (.make side c near a far)) first last rest) :
    Yields (s.store a RbNode.setBlack) fun s' => Holds s' (plug ctx (.make side .black near a far)) first last rest :=
  recolor_yields holds (RbNode.setBlack_of _ _ _ _ holds.parentOf)

theorem redden_yields (holds : Holds s (plug ctx (.make side c near a far)) first last rest) :
    Yields (s.store a RbNode.setRed) fun s' => Holds s' (plug ctx (.make side .red near a far)) first last rest :=
  recolor_yields holds (RbNode.setRed_of _ _ _ _ holds.parentOf)

theorem setBlack_yields (holds : Holds s (plug ctx t) first last rest) (some : t ≠ .nil) :
    Yields (s.store (top t) RbNode.setBlack) fun s' => Holds s' (plug ctx t.setBlack) first last rest := by
  cases t with
  | nil => exact absurd rfl some
  | node c l a r => exact @blacken_yields s ctx l r .left c a first last rest holds

end Stores

end Ext4Fuse.Rbtree
