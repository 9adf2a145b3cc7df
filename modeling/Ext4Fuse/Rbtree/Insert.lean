import Ext4Fuse.Rbtree.Rotate

/-! `rb_insert`: the way down to the place of the new node, and `rb_insert_color`, which repairs the colors above it. -/
namespace Ext4Fuse.Rbtree
open Library.RedBlack Library.Owned Library.Partial

def turnUp (side : Side) (s : State) (parent gparent : Nat) : Option State := do
  let s ← s.store parent RbNode.setBlack
  let s ← s.store gparent RbNode.setRed
  rotate side.other s gparent

/-- The end of a round of `rb_insert_color`, with the parent on `side` of the grandparent and no red uncle; the node to go on
with is returned with the state. -/
def insertRotate (side : Side) (s : State) (node parent gparent : Nat) : Option (State × Nat) := do
  let p ← s.node parent
  let (s,parent,node) ← (if p.child side.other = node then (rotate side s parent).map fun s => (s,node,parent) else some (s,parent,node))
  let s ← turnUp side s parent gparent
  return (s,node)

/-- The loop of `rb_insert_color` for at most `fuel` rounds, and the end of the function. -/
def rbInsertColor : Nat → State → Nat → Option State
  | 0, _, _ => none
  | fuel + 1, s, node => do
    let n ← s.node node
    let parent := n.parent
    if ← s.isRed parent then
      let p ← s.node parent
      let gparent := p.parent
      let g ← s.node gparent
      let side : Side := if parent = g.rbLeft then .left else .right
      let uncle := g.child side.other
      if ← s.isRed uncle then
        let s ← s.store uncle RbNode.setBlack
        let s ← s.store parent RbNode.setBlack
        let s ← s.store gparent RbNode.setRed
        rbInsertColor fuel s gparent
      else
        let (s,node) ← insertRotate side s node parent gparent
        rbInsertColor fuel s node
    else s.store s.root.rbNode RbNode.setBlack

/-- What `new` points to in `rb_insert`: the pointer to the root, or a child's pointer in a node. -/
inductive Link
  | root
  | child (side : Side) (p : Nat)

def State.follow (s : State) : Link → Option Nat
  | .root => some s.root.rbNode
  | .child side p => (s.node p).map (RbNode.child side)

def State.link (s : State) : Link → Nat → Option State
  | .root, p => some (s.setRoot p)
  | .child side q, p => s.store q (RbNode.setChild side p)

def rbLinkNode (s : State) (node parent : Nat) (link : Link) : Option State := do
  let s ← s.store node fun _ => ⟨parent,0,0⟩
  s.link link node

/-- The variables of the loop of `rb_insert`. -/
structure Place where
  new : Link
  parent : Nat
  leftmost : Bool
  rightmost : Bool

/-- The loop of `rb_insert` for at most `fuel` rounds; there is no place for a node that compares equal. -/
def findPlace (cmp : Nat → Nat → Int) (s : State) (node : Nat) : Nat → Place → Option (Option Place)
  | 0, _ => none
  | fuel + 1, place => do
    let p ← s.follow place.new
    if p = 0 then some (some place)
    else
      let result := cmp node p
      if result < 0 then findPlace cmp s node fuel {place with new := .child .left p,parent := p,rightmost := false}
      else if 0 < result then findPlace cmp s node fuel {place with new := .child .right p,parent := p,leftmost := false}
      else some none

def State.setEnds (s : State) (place : Place) (node : Nat) : State :=
  {s with root := {s.root with
    rbRightmost := if place.rightmost then node else s.root.rbRightmost
    rbLeftmost := if place.leftmost then node else s.root.rbLeftmost}}

def rbInsert (cmp : Nat → Nat → Int) (fuel : Nat) (s : State) (node : Nat) : Option State := do
  match ← findPlace cmp s node fuel ⟨.root,0,true,true⟩ with
  | none => some s
  | some place =>
    let s ← rbLinkNode (s.setEnds place node) node place.parent place.new
    rbInsertColor fuel s node

section Color
variable {s : State} {ctx : Context Nat} {t near far : RbTree Nat} {side : Side} {c : Color} {a first last : Nat}
variable {rest : Multiset (Nat × RbNode)}

theorem isRed_frame {f : Frame Nat} (holds : Holds s (plug (f::ctx) t) first last rest) :
    s.isRed f.a = some (decide (f.color = .red)) := by
  have red := @Holds.isRed s ctx (f.fill t) first last rest holds
  rw [Frame.fill,top_make,make_color] at red
  exact red

/-- The two children of a node are different ones. -/
theorem sibling_ne {f : Frame Nat} (holds : Holds s (plug (f::ctx) t) first last rest) (some : t ≠ .nil) : top f.sibling ≠ top t := by
  intro same
  have owns := (holds_plug.mp holds).1
  cases t with
  | nil => exact absurd rfl some
  | node c l a r =>
    rw [cells,add_assoc] at owns
    by_cases none_ : f.sibling = .nil
    · rw [none_] at same
      exact (s.placed a _ owns.read).1 same.symm
    · obtain ⟨r',member⟩ := top_mem_cells none_ f.a
      refine owns.apart_from (s := r') ?_ same
      rw [around]
      simp [member]

theorem side_eq {f : Frame Nat} {above : Nat} (holds : Holds s (plug (f::ctx) t) first last rest) (some : t ≠ .nil) :
    (if top t = (RbNode.of f.side above f.color (top t) (top f.sibling)).rbLeft then Side.left else .right) = f.side := by
  have other := sibling_ne holds some
  cases side : f.side with
  | left => exact if_pos rfl
  | right => exact if_neg other.symm

theorem red_make (side : Side) (red : t.color = .red) : ∃ near a far, t = .make side .red near a far := by
  cases t with
  | nil => cases red
  | node c l a r =>
    obtain rfl : c = .red := red
    exact ⟨_,a,_,node_make side ..⟩

theorem finish_yields (holds : Holds s t first last rest) (some : t ≠ .nil) :
    Yields (s.store s.root.rbNode RbNode.setBlack) fun s' => Holds s' t.setBlack first last rest := by
  rw [holds.root]
  exact @setBlack_yields s [] t first last rest holds some

theorem turnUp_yields {gc pc : Color} {x y uncle : RbTree Nat} {p g : Nat}
    (holds : Holds s (plug ctx (.make side gc (.make side pc x p y) g uncle)) first last rest) :
    Yields (turnUp side s p g) fun s' => Holds s' (plug ctx (.make side .black x p (.make side .red y g uncle))) first last rest := by
  rw [turnUp]
  refine (@blacken_yields s (⟨side,gc,g,uncle⟩::ctx) x y side pc p _ _ _ holds).bind fun s₁ holds₁ => ?_
  refine (@redden_yields s₁ ctx (.make side .black x p y) uncle side gc g _ _ _ holds₁).bind fun s₂ holds₂ => ?_
  rw [← make_other side .red,← make_other side .black] at holds₂
  refine (rotate_yields holds₂).imp fun s₃ holds₃ => ?_
  rw [make_other,make_other] at holds₃
  exact holds₃

theorem insertTurn_inner {p g : Frame Nat} (sides : p.side ≠ g.side) (c : Color) (near far : RbTree Nat) (a : Nat) :
    insertTurn p g (.make g.side c near a far) =
      .make g.side .black (.make g.side .red p.sibling p.a near) a (.make g.side .red far g.a g.sibling) := by
  unfold insertTurn
  rw [if_neg sides]
  cases g.side <;> rfl

theorem other_side {one two : Side} (sides : one ≠ two) : one = two.other := by
  cases one <;> cases two <;> first | rfl | exact absurd rfl sides

theorem insertRotate_yields {p g : Frame Nat} (holds : Holds s (plug (p::g::ctx) t) first last rest) (red : t.color = .red)
    (pred : p.color = .red) : Yields (insertRotate g.side s (top t) p.a g.a) fun out => ∃ f t', out.2 = top t' ∧ t' ≠ .nil ∧
      f.color = .black ∧ f.fill t' = insertTurn p g t ∧ Holds out.1 (plug (f::ctx) t') first last rest := by
  have parent := @Holds.node s (g::ctx) p.side p.color t p.sibling p.a _ _ _ holds
  obtain ⟨near,n,far,rfl⟩ := red_make g.side red
  have some : RbTree.make g.side .red near n far ≠ .nil := by cases g.side <;> rintro ⟨⟩
  rw [insertRotate]
  refine yields_bind parent ?_
  obtain ⟨pside,pc,pa,sibling⟩ := p
  obtain rfl : pc = .red := pred
  by_cases same : pside = g.side
  · subst same
    have outer := sibling_ne holds some
    have turn : insertTurn ⟨g.side,.red,pa,sibling⟩ g (.make g.side .red near n far) =
        .make g.side .black (.make g.side .red near n far) pa (.make g.side .red sibling g.a g.sibling) := if_pos rfl
    rw [RbNode.child_other_of,if_neg outer,turn]
    refine yields_bind rfl ?_
    dsimp only
    have whole : Holds s (plug ctx (.make g.side g.color (.make g.side .red (.make g.side .red near n far) pa sibling) g.a g.sibling))
      first last rest := holds
    refine (turnUp_yields whole).bind fun s₁ holds₁ => ?_
    exact yields_some ⟨⟨g.side,.black,pa,.make g.side .red sibling g.a g.sibling⟩,_,rfl,some,rfl,rfl,holds₁⟩
  · obtain rfl := other_side same
    have turned : plug (⟨g.side.other,.red,pa,sibling⟩::g::ctx) (.make g.side .red near n far) =
        plug (g::ctx) (.make g.side .red sibling pa (.make g.side .red near n far)) := by
      rw [plug,Frame.fill,make_other]
    rw [turned] at holds
    rw [RbNode.child_of,if_pos rfl,insertTurn_inner same,top_make]
    refine Yields.bind ((rotate_yields holds).map (Q := fun out => out.2.1 = n ∧ out.2.2 = pa ∧ Holds out.1 (plug (g::ctx)
      (.make g.side .red (.make g.side .red sibling pa near) n far)) first last rest) fun s₁ holds₁ => ⟨rfl,rfl,holds₁⟩) ?_
    rintro ⟨s₁,parent,node⟩ ⟨isNode,isParent,holds₁⟩
    dsimp only at isNode isParent holds₁ ⊢
    rw [isNode,isParent]
    have whole : Holds s₁ (plug ctx (.make g.side g.color (.make g.side .red (.make g.side .red sibling pa near) n far) g.a g.sibling))
      first last rest := holds₁
    refine (turnUp_yields whole).bind fun s₂ holds₂ => ?_
    refine yields_some ⟨⟨g.side,.black,n,.make g.side .red far g.a g.sibling⟩,.make g.side .red sibling pa near,?_,?_,rfl,rfl,holds₂⟩
    · exact (top_make ..).symm
    · cases g.side <;> rintro ⟨⟩

theorem node_parent (holds : Holds s (plug ctx t) first last rest) (some : t ≠ .nil) :
    ∃ n, s.node (top t) = .some n ∧ n.parent = parentOf ctx := by
  cases t with
  | nil => exact absurd rfl some
  | node c l a r =>
    have node := @Holds.node s ctx .left c l r a _ _ _ holds
    exact ⟨_,node,RbNode.parent_of _ _ _ _ holds.parentOf⟩

/-- At the top, or below a black node, the loop ends. -/
theorem rbInsertColor_ends (holds : Holds s (plug ctx t) first last rest) (some : t ≠ .nil) (black : ctx = [] ∨ rim ctx = .black)
    (fuel : Nat) : Yields (rbInsertColor (fuel + 1) s (top t)) fun s' => Holds s' (plug ctx t).setBlack first last rest := by
  obtain ⟨n,held,parent⟩ := node_parent holds some
  have notRed : s.isRed n.parent = .some false := by
    rw [parent]
    cases ctx with
    | nil => rfl
    | cons f ctx =>
      have color : f.color = .black := black.resolve_left (List.cons_ne_nil f ctx)
      rw [parentOf,isRed_frame holds,color]
      rfl
  have whole : plug ctx t ≠ .nil := by
    intro none_
    have empty := congrArg RbTree.toList none_
    cases t with
    | nil => exact some rfl
    | node => simp [toList_plug,RbTree.toList] at empty
  rw [rbInsertColor]
  refine yields_bind held (yields_bind notRed ?_)
  exact finish_yields holds whole

/-- What a round reads below a red parent. -/
theorem rbInsertColor_round {p g : Frame Nat} (holds : Holds s (plug (p::g::ctx) t) first last rest) (some : t ≠ .nil)
    (pred : p.color = .red) (fuel : Nat) : rbInsertColor (fuel + 1) s (top t) =
      (if g.sibling.color = .red then do
        let s ← s.store (top g.sibling) RbNode.setBlack
        let s ← s.store p.a RbNode.setBlack
        let s ← s.store g.a RbNode.setRed
        rbInsertColor fuel s g.a
      else do
        let out ← insertRotate g.side s (top t) p.a g.a
        rbInsertColor fuel out.1 out.2) := by
  obtain ⟨n,held,parent⟩ := node_parent holds some
  have above : Holds s (plug (g::ctx) (p.fill t)) first last rest := holds
  have exists_ : p.fill t ≠ .nil := by
    obtain ⟨side,c,a,sibling⟩ := p
    cases side <;> rintro ⟨⟩
  obtain ⟨n',held',gparent⟩ := node_parent above exists_
  have grand := @Holds.node s ctx g.side g.color (p.fill t) g.sibling g.a _ _ _ holds
  have side := @side_eq _ _ _ _ _ _ _ (parentOf ctx) above exists_
  have uncle : Holds s (plug (⟨g.side.other,g.color,g.a,p.fill t⟩::ctx) g.sibling) first last rest := by
    rw [← plug_far]
    exact above
  rw [Frame.fill,top_make] at held' grand side
  rw [rbInsertColor,held]
  simp only [Option.bind_eq_bind,Option.bind_some,parent,parentOf_cons,isRed_frame holds,pred,decide_true,if_true,held',gparent,grand,side,
    RbNode.child_other_of,uncle.isRed,decide_eq_true_eq]

theorem rbInsertColor_yields {n fuel : Nat} (holds : Holds s (plug ctx t) first last rest) (red : t.color = .red) (fits : Fits ctx n)
    (enough : ctx.length < fuel) : Yields (rbInsertColor fuel s (top t)) fun s' => Holds s' (insertFix t ctx) first last rest := by
  have exists_ {t : RbTree Nat} (red : t.color = .red) : t ≠ .nil := by
    rintro rfl
    cases red
  obtain ⟨fuel,rfl⟩ : ∃ k, fuel = k + 1 := ⟨fuel - 1,by omega⟩
  fun_induction insertFix t ctx generalizing n fuel s with
  | case1 t => exact rbInsertColor_ends holds (exists_ red) (Or.inl rfl) fuel
  | case2 t p =>
    refine rbInsertColor_ends holds (exists_ red) (Or.inr (color_ne_red.mp fun pred => ?_)) fuel
    exact absurd (fits_red fits pred).2.1 (by rintro ⟨⟩)
  | case3 t p g ctx black => exact rbInsertColor_ends holds (exists_ red) (Or.inr black) fuel
  | case4 t p g ctx pcolor uncle ih =>
    rw [rbInsertColor_round holds (exists_ red) (color_ne_black.mp pcolor),if_pos uncle]
    have grand : Holds s (plug ctx (.make g.side g.color (p.fill t) g.a g.sibling)) first last rest := holds
    rw [plug_far] at grand
    refine (setBlack_yields grand (exists_ uncle)).bind fun s₁ holds₁ => ?_
    rw [← plug_far] at holds₁
    have parent : Holds s₁ (plug (⟨g.side,g.color,g.a,g.sibling.setBlack⟩::ctx) (.make p.side p.color t p.a p.sibling)) first last rest :=
      holds₁
    refine (blacken_yields parent).bind fun s₂ holds₂ => ?_
    rw [← setBlack_make p.side p.color] at holds₂
    refine (redden_yields holds₂).bind fun s₃ holds₃ => ?_
    obtain ⟨psib,gcolor,fits⟩ := fits_red fits (color_ne_black.mp pcolor)
    obtain ⟨fuel,rfl⟩ : ∃ k, fuel = k + 1 := ⟨fuel - 1,by simp only [List.length_cons] at enough; omega⟩
    have next := ih holds₃ (make_color ..) (fits_black fits gcolor).2 fuel (by simp only [List.length_cons] at enough; omega)
    rw [top_make] at next
    exact next
  | case5 t p g ctx pcolor uncle =>
    rw [rbInsertColor_round holds (exists_ red) (color_ne_black.mp pcolor),if_neg uncle]
    refine (insertRotate_yields holds red (color_ne_black.mp pcolor)).bind ?_
    rintro ⟨s₁,node⟩ ⟨f,t',rfl,some,black,turned,holds₁⟩
    obtain ⟨fuel,rfl⟩ : ∃ k, fuel = k + 1 := ⟨fuel - 1,by simp only [List.length_cons] at enough; omega⟩
    have ends := rbInsertColor_ends holds₁ some (Or.inr black) fuel
    rw [plug,turned] at ends
    exact ends

end Color

section Place
variable {s : State} {ctx : Context Nat} {t : RbTree Nat} {node first last fuel : Nat} {r : RbNode}
variable {rest : Multiset (Nat × RbNode)}

/-- The pointer in which a context has its hole. -/
def linkOf : Context Nat → Link
  | [] => .root
  | f::_ => .child f.side f.a

/-- The variables of the loop at the hole of a context. -/
def placeOf (ctx : Context Nat) : Place := ⟨linkOf ctx,parentOf ctx,(before ctx).isEmpty,(after ctx).isEmpty⟩

def goes (cmp : Nat → Nat → Int) (node a : Nat) : Ordering :=
  if cmp node a < 0 then .lt else if 0 < cmp node a then .gt else .eq

def placeFound : RbTree Nat × Context Nat → Option Place
  | (.nil,ctx) => some (placeOf ctx)
  | (.node _ _ _ _,_) => none

theorem follow_linkOf (holds : Holds s (plug ctx t) first last rest) : s.follow (linkOf ctx) = some (top t) := by
  cases ctx with
  | nil => exact congrArg some (congrArg RbRoot.rbNode holds.root)
  | cons f ctx =>
    have node := @Holds.node s ctx f.side f.color t f.sibling f.a _ _ _ holds
    rw [linkOf,State.follow,node,Option.map_some,RbNode.child_of]

theorem findPlace_eq (cmp : Nat → Nat → Int) (node : Nat) (holds : Holds s (plug ctx t) first last rest) (enough : t.height < fuel) :
    findPlace cmp s node fuel (placeOf ctx) = some (placeFound (locate (goes cmp node) t ctx)) := by
  obtain ⟨fuel,rfl⟩ : ∃ k, fuel = k + 1 := ⟨fuel - 1,by omega⟩
  induction t generalizing ctx fuel with
  | nil =>
    have here : s.follow (placeOf ctx).new = some 0 := follow_linkOf holds
    rw [findPlace,here]
    rfl
  | node c l a r left right =>
    have here : s.follow (placeOf ctx).new = some a := follow_linkOf holds
    have placed := @Holds.placed s ctx .left c l r a _ _ _ holds
    rw [RbTree.height] at enough
    obtain ⟨fuel,rfl⟩ : ∃ k, fuel = k + 1 := ⟨fuel - 1,by omega⟩
    rw [findPlace,here,locate,goes]
    simp only [Option.bind_eq_bind,Option.bind_some,if_neg placed.1]
    have lefts : placeOf (⟨.left,c,a,r⟩::ctx) = {placeOf ctx with new := .child .left a,parent := a,rightmost := false} := by
      simp [placeOf,linkOf,parentOf,before,after,Frame.before,Frame.after]
    have rights : placeOf (⟨.right,c,a,l⟩::ctx) = {placeOf ctx with new := .child .right a,parent := a,leftmost := false} := by
      simp [placeOf,linkOf,parentOf,before,after,Frame.before,Frame.after]
    by_cases less : cmp node a < 0
    · rw [if_pos less,if_pos less,← lefts]
      exact left holds fuel (by omega)
    · rw [if_neg less,if_neg less]
      by_cases more : 0 < cmp node a
      · rw [if_pos more,if_pos more,← rights]
        refine right ?_ fuel (by omega)
        rw [plug,Frame.fill]
        exact holds
      · rw [if_neg more,if_neg more]
        rfl

theorem link_yields (owns : Owns s.node (around ctx 0 + rest)) (root : s.root = ⟨rootOf ctx 0,first,last⟩) (node : Nat) :
    Yields (s.link (linkOf ctx) node) fun s' => Owns s'.node (around ctx node + rest) ∧ s'.root = ⟨rootOf ctx node,first,last⟩ := by
  cases ctx with
  | nil =>
    refine yields_some ⟨owns,?_⟩
    rw [State.setRoot,root]
    rfl
  | cons f ctx =>
    rw [around,add_assoc,add_assoc] at owns
    refine (store_yields owns _).imp ?_
    rintro s' ⟨owns',root'⟩
    rw [RbNode.setChild_of,← add_assoc,← add_assoc] at owns'
    exact ⟨owns',root'.trans root⟩

/-- The new node is linked in as a red leaf. -/
theorem rbLinkNode_yields (holds : Holds s (plug ctx .nil) first last ({(node,r)} + rest)) :
    Yields (rbLinkNode s node (parentOf ctx) (linkOf ctx)) fun s' =>
      Holds s' (plug ctx (.node .red .nil node .nil)) first last rest := by
  obtain ⟨owns,root⟩ := holds_plug.mp holds
  have owned : Owns s.node ({(node,r)} + (around ctx 0 + rest)) := owns.split (by rw [cells,top]; abel)
  rw [rbLinkNode]
  refine (store_yields owned _).bind ?_
  rintro s₁ ⟨owns₁,root₁⟩
  have owned₁ : Owns s₁.node (around ctx 0 + ({(node,⟨parentOf ctx,0,0⟩)} + rest)) := owns₁.split (by abel)
  refine (link_yields owned₁ (root₁.trans root) node).imp ?_
  rintro s₂ ⟨owns₂,root₂⟩
  refine holds_plug.mpr ⟨owns₂.split ?_,root₂⟩
  have leaf : RbNode.of .left (parentOf ctx) .red 0 0 = ⟨parentOf ctx,0,0⟩ := rfl
  rw [cells,cells,top,leaf]
  simp only [top]
  abel

theorem endOf_insertAt (ctx : Context Nat) (node : Nat) :
    endOf .left (insertAt ctx node) = (if (before ctx).isEmpty then node else endOf .left (plug ctx .nil)) ∧
      endOf .right (insertAt ctx node) = if (after ctx).isEmpty then node else endOf .right (plug ctx .nil) := by
  have whole : (plug ctx (.nil : RbTree Nat)).toList = before ctx ++ after ctx := by
    rw [toList_plug]
    exact congrArg (· ++ after ctx) (List.append_nil _)
  simp only [endOf,order,toList_insertAt,whole]
  constructor
  · cases before ctx <;> simp
  · rcases (after ctx).eq_nil_or_concat with empty | ⟨init,x,last⟩
    · simp [empty]
    · simp [last]

theorem setEnds_holds {place : Place} (holds : Holds s t first last rest) (node : Nat) :
    Holds (s.setEnds place node) t (if place.leftmost then node else first) (if place.rightmost then node else last) rest :=
  ⟨holds.owns,by rw [State.setEnds,holds.root]⟩

theorem locate_toList {go : Nat → Ordering} (sorted : Sorted go t.toList) : 
    (∃ c l a r ctx, locate go t [] = (.node c l a r,ctx) ∧ a ∈ t.toList ∧ go a = .eq) ∨
      ∃ ctx, locate go t [] = (.nil,ctx) ∧ plug ctx .nil = t ∧ Between go ctx := by
  obtain ⟨t',ctx,found,whole,between,rfl | ⟨c,l,a,r,rfl,equal⟩⟩ := 
    @locate_spec _ _ _ [] sorted ⟨by rintro _ ⟨⟩,by rintro _ ⟨⟩⟩
  · exact Or.inr ⟨ctx,found,whole,between⟩
  · refine Or.inl ⟨c,l,a,r,ctx,found,?_,equal⟩
    have list := congrArg RbTree.toList whole
    rw [toList_plug,plug] at list
    rw [← list]
    simp [RbTree.toList]

/-- A node that compares equal to one of the tree is not put in. -/
theorem rbInsert_present {cmp : Nat → Nat → Int} (stored : Stored s t rest) (sorted : Sorted (goes cmp node) t.toList)
    (enough : t.height < fuel) (present : ∃ a ∈ t.toList, goes cmp node a = .eq) : rbInsert cmp fuel s node = some s := by
  have found := @findPlace_eq s [] t _ _ fuel rest cmp node stored.holds enough
  rcases locate_toList sorted with ⟨c,l,a,r,ctx,located,_⟩ | ⟨ctx,located,whole,between⟩
  · rw [located] at found
    have place : (⟨.root,0,true,true⟩ : Place) = placeOf [] := rfl
    rw [rbInsert,place,found]
    rfl
  · obtain ⟨a,member,equal⟩ := present
    rw [← whole] at member
    exact absurd equal (between.ne member)

/-- The node is put in between the nodes that it compares greater and less than. -/
theorem rbInsert_absent {cmp : Nat → Nat → Int} (stored : Stored s t ({(node,r)} + rest)) (sorted : Sorted (goes cmp node) t.toList)
    (enough : t.height < fuel) (absent : ∀ a ∈ t.toList, goes cmp node a ≠ .eq) :
    Yields (rbInsert cmp fuel s node) fun s' => ∃ t', Stored s' t' rest ∧ ∃ smaller larger, t.toList = smaller ++ larger ∧
      t'.toList = smaller ++ node::larger ∧ (∀ a ∈ smaller, goes cmp node a = .gt) ∧ ∀ a ∈ larger, goes cmp node a = .lt := by
  have found := @findPlace_eq s [] t _ _ fuel _ cmp node stored.holds enough
  rcases locate_toList sorted with ⟨c,l,a,r,ctx,_,member,equal⟩ | ⟨ctx,located,whole,between⟩
  · exact absurd equal (absent a member)
  rw [located] at found
  have place : (⟨.root,0,true,true⟩ : Place) = placeOf [] := rfl
  rw [rbInsert,place,found]
  refine yields_bind rfl ?_
  have deep := height_plug ctx (.nil : RbTree Nat)
  rw [whole] at deep
  have holds := @setEnds_holds s t _ _ _ (placeOf ctx) stored.holds node
  rw [← whole] at holds
  refine (rbLinkNode_yields holds).bind fun s₁ holds₁ => ?_
  have valid := stored.valid
  rw [← whole] at valid
  obtain ⟨n,fits,_⟩ := valid_plug.mp valid
  have repaired := @rbInsertColor_yields _ _ _ _ _ _ _ fuel holds₁ rfl fits (by simp only [RbTree.height] at deep; omega)
  refine repaired.imp fun s₂ holds₂ => ⟨insertAt ctx node,⟨?_,insertAt_valid valid node⟩,before ctx,after ctx,?_,toList_insertAt ..,
    between.before,between.after⟩
  · have ends := endOf_insertAt ctx node
    rw [ends.1,ends.2]
    exact holds₂
  · rw [← whole,toList_plug]
    simp [RbTree.toList]

end Place

end Ext4Fuse.Rbtree
