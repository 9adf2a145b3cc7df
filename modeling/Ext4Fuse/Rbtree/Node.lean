import Ext4Fuse.Library.Owned
import Ext4Fuse.Library.Partial
import Ext4Fuse.Library.RedBlackSearch

/-! `rbtree.h`: the nodes of a tree in memory, with the color packed into the pointer to the parent, and what it is for the
memory to hold a given tree. A pointer is its address; `NULL` is 0. -/
namespace Ext4Fuse.Rbtree
open Library.RedBlack Library.Owned Library.Partial

structure RbNode where
  rbParentColor : Nat
  rbRight : Nat
  rbLeft : Nat
  deriving DecidableEq

structure RbRoot where
  rbNode : Nat
  rbLeftmost : Nat
  rbRightmost : Nat
  deriving DecidableEq

namespace RbNode

def parent (r : RbNode) : Nat := r.rbParentColor / 4 * 4

def color (r : RbNode) : Nat := r.rbParentColor % 2

def isRed (r : RbNode) : Bool := r.color = 0

def setRed (r : RbNode) : RbNode := {r with rbParentColor := r.rbParentColor / 2 * 2}

def setBlack (r : RbNode) : RbNode := {r with rbParentColor := r.rbParentColor ||| 1}

def setParent (p : Nat) (r : RbNode) : RbNode := {r with rbParentColor := r.rbParentColor % 4 ||| p}

def setColor (color : Nat) (r : RbNode) : RbNode := {r with rbParentColor := r.rbParentColor / 2 * 2 ||| color}

def child (side : Side) (r : RbNode) : Nat :=
  match side with
  | .left => r.rbLeft
  | .right => r.rbRight

def setChild (side : Side) (p : Nat) (r : RbNode) : RbNode :=
  match side with
  | .left => {r with rbLeft := p}
  | .right => {r with rbRight := p}

end RbNode

/-- The nodes that are allocated, and the root. `malloc` hands out no address that is 0 or would clash with a color. -/
structure State where
  node : Nat → Option RbNode
  placed : ∀ a r, node a = some r → a ≠ 0 ∧ a % 4 = 0
  root : RbRoot

/-- A store through a pointer, which has no result when there is no node at it. -/
def State.store (s : State) (a : Nat) (f : RbNode → RbNode) : Option State :=
  if (s.node a).isSome then
    some {s with
      node := Function.update s.node a ((s.node a).map f)
      placed := by
        intro b r held
        by_cases same : b = a
        · subst same
          rw [Function.update_self] at held
          obtain ⟨r',there,_⟩ := Option.map_eq_some_iff.mp held
          exact s.placed b r' there
        · rw [Function.update_of_ne same] at held
          exact s.placed b r held}
  else none

def State.setRoot (s : State) (p : Nat) : State := {s with root := {s.root with rbNode := p}}

/-- `p && rb_is_red(p)`, the negation of which is `!p || rb_is_black(p)`. -/
def State.isRed (s : State) (p : Nat) : Option Bool := if p = 0 then some false else (s.node p).map RbNode.isRed

/-! The memory of a tree. -/

def bit : Color → Nat
  | .red => 0
  | .black => 1

def top : RbTree Nat → Nat
  | .nil => 0
  | .node _ _ a _ => a

def parentOf : Context Nat → Nat
  | [] => 0
  | f::_ => f.a

theorem parentOf_cons (f : Frame Nat) (ctx : Context Nat) : parentOf (f::ctx) = f.a := rfl

/-- A node with the child `near` on `side`, and `far` on the other one. -/
def RbNode.of (side : Side) (parent : Nat) (color : Color) (near far : Nat) : RbNode :=
  match side with
  | .left => ⟨parent + bit color,far,near⟩
  | .right => ⟨parent + bit color,near,far⟩

namespace RbNode

variable (side : Side) {p q : Nat} (c c' : Color) (near far : Nat)

theorem of_other : RbNode.of side.other p c near far = .of side p c far near := by cases side <;> rfl

@[simp] theorem child_of : (RbNode.of side p c near far).child side = near := by cases side <;> rfl

@[simp] theorem child_other_of : (RbNode.of side p c near far).child side.other = far := by cases side <;> rfl

@[simp] theorem setChild_of (near' : Nat) : (RbNode.of side p c near far).setChild side near' = .of side p c near' far := by
  cases side <;> rfl

@[simp] theorem setChild_other_of (far' : Nat) : (RbNode.of side p c near far).setChild side.other far' = .of side p c near far' := by
  cases side <;> rfl

theorem word_or {x : Nat} (small : x < 4) (aligned : p % 4 = 0) : x ||| p = p + x := by
  obtain ⟨k,rfl⟩ : ∃ k, p = 2 ^ 2 * k := ⟨p / 4,by omega⟩
  rw [Nat.or_comm,Nat.two_pow_add_eq_or_of_lt small]

theorem bit_lt : bit c < 2 := by cases c <;> decide

variable (aligned : p % 4 = 0)
include aligned

theorem parent_of : (RbNode.of side p c near far).parent = p := by
  have := bit_lt c
  cases side <;> simp only [RbNode.of,parent] <;> omega

theorem color_of : (RbNode.of side p c near far).color = bit c := by
  have := bit_lt c
  cases side <;> simp only [RbNode.of,color] <;> omega

theorem isRed_of : (RbNode.of side p c near far).isRed = decide (c = .red) := by
  rw [isRed,color_of side c near far aligned]
  cases c <;> rfl

theorem setParent_of (aligned' : q % 4 = 0) : (RbNode.of side p c near far).setParent q = .of side q c near far := by
  have := bit_lt c
  have low : (p + bit c) % 4 = bit c := by omega
  cases side <;> simp only [RbNode.of,setParent,low] <;> rw [word_or (by omega) aligned']

theorem setColor_of : (RbNode.of side p c near far).setColor (bit c') = .of side p c' near far := by
  have := bit_lt c
  have high : (p + bit c) / 2 * 2 = p := by omega
  have := bit_lt c'
  cases side <;> simp only [RbNode.of,setColor,high] <;> rw [Nat.or_comm,word_or (by omega) aligned]

theorem setRed_of : (RbNode.of side p c near far).setRed = .of side p .red near far := by
  have := bit_lt c
  have high : (p + bit c) / 2 * 2 = p := by omega
  cases side <;> simp only [RbNode.of,setRed,high] <;> rfl

theorem setBlack_of : (RbNode.of side p c near far).setBlack = .of side p .black near far := by
  have odd : p + bit c ||| 1 = p + 1 := by
    have := bit_lt c
    have whole : p + bit c ||| 1 = p ||| (bit c ||| 1) := by
      rw [← word_or (x := bit c) (by omega) aligned,Nat.or_comm (bit c) p,Nat.or_assoc]
    have one : bit c ||| 1 = 1 := by cases c <;> rfl
    rw [whole,one,Nat.or_comm,word_or (by omega) aligned]
  cases side <;> simp only [RbNode.of,setBlack,odd] <;> rfl

end RbNode

/-- The nodes of a tree whose top has the node at `parent` above it. -/
def cells (parent : Nat) : RbTree Nat → Multiset (Nat × RbNode)
  | .nil => 0
  | .node c l a r => {(a,.of .left parent c (top l) (top r))} + (cells a l + cells a r)

/-- The nodes of a context, the innermost of which points to `hole`. -/
def around : Context Nat → Nat → Multiset (Nat × RbNode)
  | [], _ => 0
  | f::ctx, hole => {(f.a,.of f.side (parentOf ctx) f.color hole (top f.sibling))} + cells f.a f.sibling + around ctx f.a

/-- What the root points to when the hole of a context is filled with a tree that has `hole` on top. -/
def rootOf : Context Nat → Nat → Nat
  | [], hole => hole
  | f::ctx, _ => rootOf ctx f.a

/-- The nodes of the tree are in memory and linked as in the tree, and `rest` is in memory beside them. -/
structure Holds (s : State) (t : RbTree Nat) (first last : Nat) (rest : Multiset (Nat × RbNode)) : Prop where
  owns : Owns s.node (cells 0 t + rest)
  root : s.root = ⟨top t,first,last⟩

@[simp] theorem top_make (side : Side) (c : Color) (near far : RbTree Nat) (a : Nat) : top (.make side c near a far) = a := by
  cases side <;> rfl

theorem cells_make (parent : Nat) (side : Side) (c : Color) (near far : RbTree Nat) (a : Nat) :
    cells parent (.make side c near a far) = {(a,.of side parent c (top near) (top far))} + (cells a near + cells a far) := by
  cases side with
  | left => rfl
  | right =>
    rw [RbTree.make,cells,add_comm (cells a far)]
    rfl

theorem cells_plug (ctx : Context Nat) (t : RbTree Nat) : cells 0 (plug ctx t) = cells (parentOf ctx) t + around ctx (top t) := by
  induction ctx generalizing t with
  | nil => exact (add_zero _).symm
  | cons f ctx ih =>
    rw [plug,ih,Frame.fill,cells_make,top_make,around,parentOf]
    abel

theorem top_plug (ctx : Context Nat) (t : RbTree Nat) : top (plug ctx t) = rootOf ctx (top t) := by
  induction ctx generalizing t with
  | nil => rfl
  | cons f ctx ih =>
    rw [plug,ih,Frame.fill,top_make]
    rfl

section Holds
variable {s : State} {ctx : Context Nat} {t : RbTree Nat} {side : Side} {c : Color} {near far : RbTree Nat} {a first last : Nat}
variable {rest : Multiset (Nat × RbNode)}

theorem holds_plug : Holds s (plug ctx t) first last rest ↔
    Owns s.node (cells (parentOf ctx) t + (around ctx (top t) + rest)) ∧ s.root = ⟨rootOf ctx (top t),first,last⟩ := by
  constructor
  · rintro ⟨owns,root⟩
    rw [cells_plug,add_assoc] at owns
    exact ⟨owns,top_plug ctx t ▸ root⟩
  · rintro ⟨owns,root⟩
    refine ⟨?_,(top_plug ctx t).symm ▸ root⟩
    rw [cells_plug,add_assoc]
    exact owns

theorem Holds.node (holds : Holds s (plug ctx (.make side c near a far)) first last rest) :
    s.node a = some (.of side (parentOf ctx) c (top near) (top far)) := by
  have owns := (holds_plug.mp holds).1
  rw [cells_make,add_assoc] at owns
  exact owns.read

theorem Holds.placed (holds : Holds s (plug ctx (.make side c near a far)) first last rest) : a ≠ 0 ∧ a % 4 = 0 :=
  s.placed a _ holds.node

theorem Holds.parentOf (holds : Holds s (plug ctx t) first last rest) : parentOf ctx % 4 = 0 := by
  cases ctx with
  | nil => rfl
  | cons f ctx => exact (@Holds.placed s ctx f.side f.color t f.sibling f.a _ _ _ holds).2

theorem Holds.top (holds : Holds s (plug ctx t) first last rest) : top t % 4 = 0 ∧ (top t = 0 ↔ t = .nil) := by
  cases t with
  | nil => exact ⟨rfl,fun _ => rfl,fun _ => rfl⟩
  | node c l a r =>
    have placed := @Holds.placed s ctx .left c l r a _ _ _ holds
    exact ⟨placed.2,fun zero => absurd zero placed.1,by rintro ⟨⟩⟩

/-- The nodes of a tree, the one at its top apart, may be looked at from each other: a context is entered at any child. -/
theorem plug_near : plug ctx (.make side c near a far) = plug (⟨side,c,a,far⟩::ctx) near := rfl

theorem plug_far : plug ctx (.make side c near a far) = plug (⟨side.other,c,a,near⟩::ctx) far := by
  rw [plug,Frame.fill,make_other]

theorem Holds.isRed (holds : Holds s (plug ctx t) first last rest) : s.isRed (Rbtree.top t) = some (decide (t.color = .red)) := by
  cases t with
  | nil => rfl
  | node c l a r =>
    have node := @Holds.node s ctx .left c l r a _ _ _ holds
    have placed := @Holds.placed s ctx .left c l r a _ _ _ holds
    rw [State.isRed,Rbtree.top,if_neg placed.1,node,Option.map_some,RbNode.isRed_of _ _ _ _ holds.parentOf]
    rfl

end Holds

/-- The first node from `side`, as the root keeps it. -/
def endOf (side : Side) (t : RbTree Nat) : Nat := (order side t.toList).head?.getD 0

/-- The memory holds a red-black tree, and the root knows its first and its last node. -/
structure Stored (s : State) (t : RbTree Nat) (rest : Multiset (Nat × RbNode)) : Prop where
  holds : Holds s t (endOf .left t) (endOf .right t) rest
  valid : Valid t

/-- How deep a tree of `n` nodes can be. -/
def deepest (n : Nat) : Nat := 2 * Nat.log 2 (n + 1)

theorem Stored.height_le {s : State} {t : RbTree Nat} {rest : Multiset (Nat × RbNode)} (stored : Stored s t rest) :
    t.height ≤ deepest t.toList.length := by
  rw [length_toList]
  exact stored.valid.height_le

/-- A store at an owned node. -/
theorem store_yields {s : State} {a : Nat} {r : RbNode} {rest : Multiset (Nat × RbNode)} (owns : Owns s.node ({(a,r)} + rest))
    (f : RbNode → RbNode) : Yields (s.store a f) fun s' => Owns s'.node ({(a,f r)} + rest) ∧ s'.root = s.root := by
  have held := owns.read
  refine ⟨_,if_pos (by rw [held]; rfl),?_,rfl⟩
  show Owns (Function.update s.node a ((s.node a).map f)) _
  rw [held]
  exact owns.write (f r)

end Ext4Fuse.Rbtree
