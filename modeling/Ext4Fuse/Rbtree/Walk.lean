import Ext4Fuse.Rbtree.Insert

/-! `rb_first`, `rb_last`, `rb_next` and `rb_prev`: the nodes in their order. Each is one of a pair, written once for the side
from which the nodes are read. -/
namespace Ext4Fuse.Rbtree
open Library.RedBlack Library.Owned Library.Partial

/-- `while (n->rb_left) n = n->rb_left`, and the same to the right, for fewer than `fuel` rounds. -/
def goDown (side : Side) (s : State) : Nat → Nat → Option Nat
  | 0, _ => none
  | fuel + 1, n => do
    let r ← s.node n
    if r.child side = 0 then some n else goDown side s fuel (r.child side)

def rbEnd (side : Side) (fuel : Nat) (s : State) : Option Nat :=
  if s.root.rbNode = 0 then some 0 else goDown side s fuel s.root.rbNode

def rbFirst (fuel : Nat) (s : State) : Option Nat := rbEnd .left fuel s

def rbLast (fuel : Nat) (s : State) : Option Nat := rbEnd .right fuel s

/-- `while ((parent = rb_parent(node)) && node == parent->rb_right) node = parent`, and the same to the left. -/
def goUp (side : Side) (s : State) : Nat → Nat → Option Nat
  | 0, _ => none
  | fuel + 1, node => do
    let n ← s.node node
    if n.parent = 0 then some 0
    else
      let p ← s.node n.parent
      if node = p.child side.other then goUp side s fuel n.parent else some n.parent

/-- The node that comes next when the tree is read from `side`. -/
def rbOnward (side : Side) (fuel : Nat) (s : State) (node : Nat) : Option Nat := do
  let n ← s.node node
  if n.parent = node then some 0
  else if n.child side.other ≠ 0 then goDown side s fuel (n.child side.other)
  else goUp side s fuel node

def rbNext (fuel : Nat) (s : State) (node : Nat) : Option Nat := rbOnward .left fuel s node

def rbPrev (fuel : Nat) (s : State) (node : Nat) : Option Nat := rbOnward .right fuel s node

section Walk
variable {s : State} {ctx : Context Nat} {t near far : RbTree Nat} {side : Side} {c : Color} {a first last fuel : Nat}
variable {rest : Multiset (Nat × RbNode)}

theorem goDown_eq (side : Side) (holds : Holds s (plug ctx t) first last rest) (some : t ≠ .nil) (enough : t.height ≤ fuel) :
    goDown side s fuel (top t) = .some (endOf side t) := by
  induction t using RbTree.inductionFrom side generalizing ctx fuel with
  | nil => exact absurd rfl some
  | make c near a far ih _ =>
    have node := holds.node
    have higher : (RbTree.make side c near a far).height = max near.height far.height + 1 := by
      cases side with
      | left => rfl
      | right => exact congrArg (· + 1) (Nat.max_comm ..)
    obtain ⟨fuel,rfl⟩ : ∃ k, fuel = k + 1 := ⟨fuel - 1,by omega⟩
    rw [plug_near] at holds
    rw [top_make,goDown,node]
    simp only [Option.bind_eq_bind,Option.bind_some,RbNode.child_of]
    by_cases none_ : near = .nil
    · subst none_
      have zero : top (.nil : RbTree Nat) = 0 := rfl
      rw [if_pos zero,endOf,order_make]
      cases side <;> rfl
    · rw [if_neg fun zero => none_ (holds.top.2.mp zero)]
      refine (ih holds none_ (by omega)).trans (congrArg Option.some ?_)
      obtain ⟨_,x,_,_,_,_,_,end_⟩ := extreme_spec side none_ []
      rw [endOf,endOf,order_make,List.head?_append,end_]
      rfl

theorem rbEnd_eq (side : Side) (holds : Holds s t first last rest) (enough : t.height ≤ fuel) : rbEnd side fuel s = some (endOf side t) := by
  rw [rbEnd,holds.root]
  by_cases empty : t = .nil
  · subst empty
    cases side <;> rfl
  · rw [if_neg fun zero => empty ((@Holds.top s [] t _ _ _ holds).2.mp zero)]
    exact @goDown_eq s [] t _ _ _ _ side holds empty enough

theorem goUp_eq (side : Side) (holds : Holds s (plug ctx t) first last rest) (exists_ : t ≠ .nil) (enough : ctx.length < fuel) :
    goUp side s fuel (top t) = some ((onward side ctx).head?.getD 0) := by
  obtain ⟨fuel,rfl⟩ : ∃ k, fuel = k + 1 := ⟨fuel - 1,by omega⟩
  induction ctx generalizing t fuel with
  | nil =>
    obtain ⟨n,held,parent⟩ := node_parent holds exists_
    have zero : n.parent = 0 := parent
    rw [goUp,held]
    simp only [Option.bind_eq_bind,Option.bind_some,if_pos zero]
    cases side <;> rfl
  | cons f ctx ih =>
    obtain ⟨n,held,parent⟩ := node_parent holds exists_
    have node := @Holds.node s ctx f.side f.color t f.sibling f.a _ _ _ holds
    have placed := @Holds.placed s ctx f.side f.color t f.sibling f.a _ _ _ holds
    rw [parentOf_cons] at parent
    rw [goUp,held]
    simp only [Option.bind_eq_bind,Option.bind_some,parent,node,if_neg placed.1]
    rw [onward_cons]
    by_cases here : f.side = side
    · subst here
      rw [RbNode.child_other_of,if_neg (sibling_ne holds exists_).symm,if_pos rfl]
      rfl
    · have there := other_side here
      rw [there,RbNode.child_of,if_pos rfl,if_neg (there ▸ here)]
      obtain ⟨fuel,rfl⟩ : ∃ k, fuel = k + 1 := ⟨fuel - 1,by simp only [List.length_cons] at enough; omega⟩
      have exists' : f.fill t ≠ .nil := by
        obtain ⟨fside,c,a,sibling⟩ := f
        cases fside <;> rintro ⟨⟩
      have above := @ih (f.fill t) holds exists' fuel (by simp only [List.length_cons] at enough; omega)
      rw [Frame.fill,top_make] at above
      exact above

theorem map_cells (parent : Nat) (t : RbTree Nat) : (cells parent t).map Prod.fst = (t.toList : Multiset Nat) := by
  induction t generalizing parent with
  | nil => rfl
  | node c l a r left right =>
    rw [cells,Multiset.map_add,Multiset.map_add,left,right,Multiset.map_singleton,RbTree.toList,Multiset.coe_add,Multiset.singleton_add,
      Multiset.cons_coe,Multiset.coe_eq_coe]
    exact List.perm_middle.symm

theorem mem_cells {t : RbTree Nat} {a : Nat} (member : a ∈ t.toList) (parent : Nat) : ∃ r, (a,r) ∈ cells parent t := by
  have there : a ∈ (cells parent t).map Prod.fst := by rwa [map_cells,Multiset.mem_coe]
  obtain ⟨⟨a,r⟩,cell,rfl⟩ := Multiset.mem_map.mp there
  exact ⟨r,cell⟩

theorem Holds.ne_zero (holds : Holds s t first last rest) (member : a ∈ t.toList) : a ≠ 0 := by
  obtain ⟨r,cell⟩ := mem_cells member 0
  exact (s.placed a r (holds.owns.left.held _ cell)).1

theorem Holds.nodup (holds : Holds s t first last rest) : t.toList.Nodup := by
  have apart := holds.owns.left.apart
  rw [map_cells,Multiset.coe_nodup] at apart
  exact apart

theorem parent_ne (holds : Holds s (plug ctx (.make side c near a far)) first last rest) : parentOf ctx ≠ a := by
  cases ctx with
  | nil => exact holds.placed.1.symm
  | cons f ctx =>
    have owns := (holds_plug.mp holds).1
    rw [cells_make,add_assoc,around] at owns
    refine owns.apart_from (s := .of f.side (parentOf ctx) f.color (top (.make side c near a far)) (top f.sibling)) ?_
    simp [parentOf_cons]

theorem rbOnward_eq (side : Side) (holds : Holds s (plug ctx (.make side.other c near a far)) first last rest)
    (enough : (plug ctx (.make side.other c near a far)).height < fuel) :
    rbOnward side fuel s a = some ((order side near.toList ++ onward side ctx).head?.getD 0) := by
  have deep := height_plug ctx (.make side.other c near a far)
  have node := holds.node
  have exists_ : RbTree.make side.other c near a far ≠ .nil := by cases side <;> rintro ⟨⟩
  rw [rbOnward,node]
  simp only [Option.bind_eq_bind,Option.bind_some,RbNode.parent_of _ _ _ _ holds.parentOf,if_neg (parent_ne holds),RbNode.child_of]
  by_cases none_ : near = .nil
  · subst none_
    have up := goUp_eq side holds exists_ (by omega : ctx.length < fuel)
    rw [top_make] at up
    have zero : ¬top (.nil : RbTree Nat) ≠ 0 := fun some => some rfl
    rw [if_neg zero,up]
    cases side <;> rfl
  · have higher : near.height < (RbTree.make side.other c near a far).height := by
      cases side <;> simp only [RbTree.make,Side.other,RbTree.height] <;> omega
    rw [plug_near] at holds
    rw [if_pos fun zero => none_ (holds.top.2.mp zero),goDown_eq side holds none_ (by omega)]
    obtain ⟨_,x,_,_,_,_,_,end_⟩ := extreme_spec side none_ []
    rw [endOf,List.head?_append,end_]
    rfl

theorem split_unique {xs ys xs' ys' : List Nat} (same : xs ++ a::ys = xs' ++ a::ys') (distinct : (xs ++ a::ys).Nodup) : ys = ys' := by
  induction xs generalizing xs' with
  | nil =>
    cases xs' with
    | nil => exact (List.cons.inj same).2
    | cons b xs' =>
      obtain ⟨rfl,rest⟩ := List.cons.inj same
      refine absurd ?_ (List.nodup_cons.mp distinct).1
      rw [rest]
      exact List.mem_append_right _ List.mem_cons_self
  | cons b xs ih =>
    cases xs' with
    | nil =>
      obtain ⟨rfl,rest⟩ := List.cons.inj same
      exact absurd (List.mem_append_right _ List.mem_cons_self) (List.nodup_cons.mp distinct).1
    | cons b' xs' => exact ih (List.cons.inj same).2 (List.nodup_cons.mp distinct).2

theorem mem_order (side : Side) {xs : List Nat} : a ∈ order side xs ↔ a ∈ xs := by
  cases side with
  | left => exact Iff.rfl
  | right => exact List.mem_reverse

/-- The node that comes after another one in the order of the tree. -/
theorem rbOnward_at (side : Side) (holds : Holds s t first last rest) (enough : t.height < fuel) {xs ys : List Nat}
    (split : order side t.toList = xs ++ a::ys) : rbOnward side fuel s a = some (ys.head?.getD 0) := by
  have distinct : (order side t.toList).Nodup := by
    cases side with
    | left => exact holds.nodup
    | right => exact List.nodup_reverse.mpr holds.nodup
  have member : a ∈ t.toList := (mem_order side).mp (split ▸ List.mem_append_right _ List.mem_cons_self)
  obtain ⟨ctx,c,l,r,rfl⟩ := exists_plug member
  cases side with
  | left =>
    have next := @rbOnward_eq s ctx r l c a first last fuel rest .left holds enough
    have list := toList_around ctx c l r a
    rw [← split_unique (list.symm.trans split) (list ▸ distinct)]
    exact next
  | right =>
    have next := @rbOnward_eq s ctx l r c a first last fuel rest .right holds enough
    have list : order .right (plug ctx (.node c l a r)).toList =
        (r.toList ++ after ctx).reverse ++ a::(l.toList.reverse ++ (before ctx).reverse) := by
      rw [order,toList_around]
      simp
    rw [← split_unique (list.symm.trans split) (list ▸ distinct)]
    exact next

/-- `for (node = rb_first(root); node; node = rb_next(node))` from `node` on, and the same with `rb_last` and `rb_prev`: the nodes
that it comes to in fewer than `rounds` rounds. -/
def visit (side : Side) (fuel : Nat) (s : State) : Nat → Nat → Option (List Nat)
  | 0, _ => none
  | rounds + 1, node =>
    if node = 0 then some []
    else do
      let next ← rbOnward side fuel s node
      let nodes ← visit side fuel s rounds next
      return node::nodes

theorem visit_at (side : Side) (holds : Holds s t first last rest) (enough : t.height < fuel) {xs ys : List Nat}
    (split : order side t.toList = xs ++ ys) {rounds : Nat} (long : ys.length < rounds) :
    visit side fuel s rounds (ys.head?.getD 0) = some ys := by
  obtain ⟨rounds,rfl⟩ : ∃ k, rounds = k + 1 := ⟨rounds - 1,by omega⟩
  induction ys generalizing xs rounds with
  | nil => rfl
  | cons a ys ih =>
    have member : a ∈ t.toList := (mem_order side).mp (split ▸ List.mem_append_right _ List.mem_cons_self)
    rw [List.length_cons] at long
    obtain ⟨rounds,rfl⟩ : ∃ k, rounds = k + 1 := ⟨rounds - 1,by omega⟩
    have later : order side t.toList = (xs ++ [a]) ++ ys := by
      rw [split,List.append_assoc]
      rfl
    have placed : ¬(a::ys).head?.getD 0 = 0 := holds.ne_zero member
    rw [visit,if_neg placed]
    have next : rbOnward side fuel s ((a::ys).head?.getD 0) = some (ys.head?.getD 0) := rbOnward_at side holds enough split
    rw [next]
    simp only [Option.bind_eq_bind,Option.bind_some,ih later rounds (by omega)]
    rfl

end Walk

end Ext4Fuse.Rbtree
