import Ext4Fuse.Rbtree.Walk

/-! `rb_replace_node`: another node takes the place of one, without any repair. The first and the last node that the root keeps
are not looked at. -/
namespace Ext4Fuse.Rbtree
open Library.RedBlack Library.Owned Library.Partial

def rbReplaceNode (s : State) (victim new : Nat) : Option State := do
  let v ← s.node victim
  let s ← s.repoint .left v.parent victim new
  let v ← s.node victim
  let s ← s.reparent v.rbLeft new
  let v ← s.node victim
  let s ← s.reparent v.rbRight new
  let v ← s.node victim
  s.store new fun _ => v

section Replace
variable {s : State} {ctx : Context Nat} {l r t : RbTree Nat} {c : Color} {a new first last : Nat} {o : RbNode}
variable {rest : Multiset (Nat × RbNode)}

theorem rbReplaceNode_yields (holds : Holds s (plug ctx (.node c l a r)) first last ({(new,o)} + rest)) :
    Yields (rbReplaceNode s a new) fun s' => ∃ o', Holds s' (plug ctx (.node c l new r)) first last ({(a,o')} + rest) := by
  obtain ⟨owns,root⟩ := holds_plug.mp holds
  have aligned := (@Holds.placed s ctx .left c l r a _ _ _ holds).2
  have parent := holds.parentOf
  rw [cells,add_assoc] at owns
  have node := owns.read
  have aligned' : new % 4 = 0 := by
    have own : Owns s.node ({(new,o)} + (({(a,.of .left (parentOf ctx) c (top l) (top r))} + (cells a l + cells a r)) +
        (around ctx a + rest))) := by
      refine owns.split ?_
      rw [top]
      abel
    exact (s.placed new o own.read).2
  refine yields_bind node ?_
  rw [RbNode.parent_of _ _ _ _ parent]
  -- the pointer from above
  have owned : Owns s.node ({(a,.of .left (parentOf ctx) c (top l) (top r))} + (around ctx a + (cells a l + (cells a r + ({(new,o)} + rest))))) := by
    refine owns.split ?_
    rw [top]
    abel
  refine (repoint_yields owned root .left new).bind ?_
  rintro s₁ ⟨owned₁,root₁⟩
  refine yields_bind owned₁.read ?_
  -- the pointers from below
  have owned₁ : Owns s₁.node (cells a l + ({(a,.of .left (parentOf ctx) c (top l) (top r))} + (around ctx new + (cells a r + ({(new,o)} + rest))))) :=
    owned₁.split (by abel)
  refine (reparent_yields owned₁ aligned aligned').bind ?_
  rintro s₂ ⟨owned₂,root₂⟩
  refine yields_bind (owned₂.split (add_left_comm ..)).read ?_
  have owned₂ : Owns s₂.node (cells a r + ({(a,.of .left (parentOf ctx) c (top l) (top r))} + (around ctx new + (cells new l + ({(new,o)} + rest))))) :=
    owned₂.split (by abel)
  refine (reparent_yields owned₂ aligned aligned').bind ?_
  rintro s₃ ⟨owned₃,root₃⟩
  refine yields_bind (owned₃.split (add_left_comm ..)).read ?_
  -- the node itself
  have owned₃ : Owns s₃.node ({(new,o)} + ({(a,.of .left (parentOf ctx) c (top l) (top r))} + (around ctx new + (cells new l + (cells new r + rest))))) :=
    owned₃.split (by abel)
  refine (store_yields owned₃ _).imp ?_
  rintro s₄ ⟨owned₄,root₄⟩
  refine ⟨.of .left (parentOf ctx) c (top l) (top r),holds_plug.mpr ⟨owned₄.split ?_,?_⟩⟩
  · rw [cells,top]
    abel
  · rw [root₄,root₃,root₂,root₁,top]

theorem renamed_valid (valid : Valid (plug ctx (.node c l a r))) (new : Nat) : Valid (plug ctx (.node c l new r)) := by
  obtain ⟨n,fits,balanced,black⟩ := valid_plug.mp valid
  refine valid_plug.mpr ⟨n,fits,?_,black⟩
  cases c <;> exact balanced

/-- The first node from a side is another one exactly when it has been replaced. -/
theorem head_renamed {xs ys : List Nat} (side : Side) (other : new ≠ a) (distinct : (xs ++ a::ys).Nodup) :
    (order side (xs ++ new::ys)).head?.getD 0 = (order side (xs ++ a::ys)).head?.getD 0 ↔ a ≠ (order side (xs ++ a::ys)).head?.getD 0 := by
  obtain ⟨_,tail,apart⟩ := List.nodup_append.mp distinct
  cases side with
  | left =>
    cases xs with
    | nil => simp [order,other]
    | cons x xs =>
      have before : x ≠ a := apart x List.mem_cons_self a List.mem_cons_self
      simp [order,before.symm]
  | right =>
    rcases List.eq_nil_or_concat ys with rfl | ⟨ys,y,rfl⟩
    · simp [order,other]
    · rw [List.concat_eq_append] at tail ⊢
      have after : a ≠ y := by
        rintro rfl
        exact (List.nodup_cons.mp tail).1 (List.mem_append_right _ List.mem_cons_self)
      simp [order,after]

/-- The new node has the place of the old one, in the order as in the tree. Only the root does not know of it: the tree is one with
its first and its last node known exactly when the old node is neither of them. -/
theorem rb_replace_node (stored : Stored s t ({(new,o)} + rest)) (member : a ∈ t.toList) :
    Yields (rbReplaceNode s a new) fun s' => ∃ t' o', Holds s' t' (endOf .left t) (endOf .right t) ({(a,o')} + rest) ∧ Valid t' ∧
      t'.toList = t.toList.map (fun b => if b = a then new else b) ∧
        (s'.root = ⟨top t',endOf .left t',endOf .right t'⟩ ↔ a ≠ endOf .left t ∧ a ≠ endOf .right t) := by
  have distinct := stored.holds.nodup
  have other : new ≠ a := by
    rintro rfl
    obtain ⟨r',cell⟩ := mem_cells member 0
    have owns : Owns s.node ({(new,o)} + (cells 0 t + rest)) := stored.holds.owns.split (add_left_comm ..)
    exact owns.apart_from (Multiset.mem_add.mpr (Or.inl cell)) rfl
  obtain ⟨ctx,c,l,r,rfl⟩ := exists_plug member
  refine (rbReplaceNode_yields stored.holds).imp ?_
  rintro s' ⟨o',holds⟩
  have list := toList_around ctx c l r a
  have list' := toList_around ctx c l r new
  have left := fun side => @head_renamed a new (before ctx ++ l.toList) (r.toList ++ after ctx) side other (list ▸ distinct)
  simp only [← list,← list'] at left
  refine ⟨_,o',holds,renamed_valid stored.valid new,?_,?_⟩
  · rw [list] at distinct ⊢
    rw [list']
    obtain ⟨_,tail,apart⟩ := List.nodup_append.mp distinct
    have front : (before ctx ++ l.toList).map (fun b => if b = a then new else b) = before ctx ++ l.toList :=
      (List.map_congr_left fun b early => if_neg (apart b early a List.mem_cons_self)).trans (List.map_id _)
    have back : (r.toList ++ after ctx).map (fun b => if b = a then new else b) = r.toList ++ after ctx :=
      (List.map_congr_left fun b late => if_neg fun (same : b = a) => (List.nodup_cons.mp tail).1 (same ▸ late)).trans (List.map_id _)
    rw [List.map_append,List.map_cons,front,back,if_pos rfl]
  · rw [holds.root]
    simp only [RbRoot.mk.injEq,true_and]
    exact and_congr (eq_comm.trans (left .left)) (eq_comm.trans (left .right))

end Replace

/-- Five nodes in a tree, and one at 96 beside it. -/
def six : List (Nat × RbNode) :=
  [(64,⟨1,80,32⟩),(32,⟨64,48,16⟩),(16,⟨33,0,0⟩),(48,⟨33,0,0⟩),(80,⟨65,0,0⟩),(96,⟨0,0,0⟩)]

def sixNodes : State where
  node a := (six.find? fun c => c.1 = a).map Prod.snd
  placed a r held := by
    obtain ⟨c,found,rfl⟩ := Option.map_eq_some_iff.mp held
    have inside : ∀ c ∈ six, c.1 ≠ 0 ∧ c.1 % 4 = 0 := by decide
    have same : c.1 = a := by simpa using List.find?_some found
    exact same ▸ inside c (List.mem_of_find?_eq_some found)
  root := ⟨64,16,80⟩

/-- The node at 32 is red, between its parent and two children. -/
def fiveTree : RbTree Nat :=
  .node .black (.node .red (.node .black .nil 16 .nil) 32 (.node .black .nil 48 .nil)) 64 (.node .black .nil 80 .nil)

theorem six_stored : Stored sixNodes fiveTree ({(96,⟨0,0,0⟩)} + 0) where
  holds := ⟨⟨by decide,by decide⟩,rfl⟩
  valid := ⟨rfl,2,1,rfl,⟨⟨rfl,0,rfl,rfl,rfl⟩,rfl,0,rfl,rfl,rfl⟩,0,rfl,rfl,rfl⟩

/-- A node that is neither the first nor the last one is replaced, and the root stays right. -/
theorem rb_replace_node_inner : Yields (rbReplaceNode sixNodes 32 96) fun s' =>
    s'.root = ⟨64,16,80⟩ ∧ s'.node 96 = some ⟨64,48,16⟩ ∧ ∃ t' : RbTree Nat, t'.toList = [16,96,48,64,80] ∧ Valid t' := by
  have ends : (rbReplaceNode sixNodes 32 96).map (fun s' => (s'.root,s'.node 96)) = some (⟨64,16,80⟩,some ⟨64,48,16⟩) := by decide
  obtain ⟨s',done,t',o',_,valid,list,_⟩ := rb_replace_node six_stored (by decide : 32 ∈ _)
  rw [done] at ends
  obtain ⟨root,node⟩ := Prod.mk.inj (Option.some.inj ends)
  exact ⟨s',done,root,node,t',list.trans (by decide),valid⟩

end Ext4Fuse.Rbtree
