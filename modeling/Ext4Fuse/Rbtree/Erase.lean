import Ext4Fuse.Rbtree.Walk

/-! `rb_erase`: the node is unlinked, with the next node put in its place when it has two children, and `__rb_erase_color` makes
up for a black node that is gone. -/
namespace Ext4Fuse.Rbtree
open Library.RedBlack Library.Owned Library.Partial

/-- `(!a || rb_is_black(a)) && (!b || rb_is_black(b))`. -/
def State.bothBlack (s : State) (a b : Nat) : Option Bool := do
  if ← s.isRed a then some false
  else
    let red ← s.isRed b
    some !red

/-- A red sibling is turned up; the sibling is then another one. -/
def turnSibling (side : Side) (s : State) (parent other : Nat) : Option (State × Nat) := do
  let s ← s.store other RbNode.setBlack
  let s ← s.store parent RbNode.setRed
  let s ← rotate side s parent
  let p ← s.node parent
  return (s,p.child side.other)

/-- The near child of the sibling is the red one: it is turned up. -/
def turnNear (side : Side) (s : State) (parent other : Nat) : Option (State × Nat) := do
  let o ← s.node other
  let s ← s.store (o.child side) RbNode.setBlack
  let s ← s.store other RbNode.setRed
  let s ← rotate side.other s other
  let p ← s.node parent
  return (s,p.child side.other)

def turnParent (side : Side) (s : State) (parent other : Nat) : Option State := do
  let p ← s.node parent
  let s ← s.store other (RbNode.setColor p.color)
  let s ← s.store parent RbNode.setBlack
  let o ← s.node other
  let s ← s.store (o.child side.other) RbNode.setBlack
  rotate side s parent

/-- The end of `__rb_erase_color` for a sibling that has a red child. -/
def eraseRotate (side : Side) (s : State) (parent other : Nat) : Option State := do
  let o ← s.node other
  let farRed ← s.isRed (o.child side.other)
  let (s,other) ← (if farRed then some (s,other) else turnNear side s parent other)
  turnParent side s parent other

/-- The loop of `__rb_erase_color` for at most `fuel` rounds, and the end of the function. -/
def rbEraseColor : Nat → State → Nat → Nat → Option State
  | 0, _, _, _ => none
  | fuel + 1, s, node, parent => do
    let red ← s.isRed node
    if red ∨ node = s.root.rbNode then
      if node = 0 then some s else s.store node RbNode.setBlack
    else
      let p ← s.node parent
      let side : Side := if p.rbLeft = node then .left else .right
      let sibling := p.child side.other
      let o ← s.node sibling
      let (s,other) ← (if o.isRed then turnSibling side s parent sibling else some (s,sibling))
      let o ← s.node other
      if ← s.bothBlack o.rbLeft o.rbRight then
        let s ← s.store other RbNode.setRed
        let p ← s.node parent
        rbEraseColor fuel s parent p.parent
      else
        let s ← eraseRotate side s parent other
        if s.root.rbNode = 0 then some s else s.store s.root.rbNode RbNode.setBlack

/-- `__rb_erase` for a node with two children, which gives its place to the next node. -/
def replaceByNext (fuel : Nat) (s : State) (old : Nat) : Option State := do
  let o ← s.node old
  let node ← goDown .left s fuel o.rbRight
  let s ← s.repoint .left o.parent old node
  let n ← s.node node
  let child := n.rbRight
  let color := n.color
  let (s,parent) ← (if n.parent = old then some (s,node) else do
    let s ← s.reparent child n.parent
    let s ← s.store n.parent (RbNode.setChild .left child)
    let o ← s.node old
    let s ← s.store node (RbNode.setChild .right o.rbRight)
    let o ← s.node old
    let s ← s.store o.rbRight (RbNode.setParent node)
    some (s,n.parent))
  let o ← s.node old
  let s ← s.store node fun n => {n with rbParentColor := o.rbParentColor,rbLeft := o.rbLeft}
  let o ← s.node old
  let s ← s.store o.rbLeft (RbNode.setParent node)
  if color = 1 then rbEraseColor fuel s child parent else some s

/-- `__rb_erase`. -/
def rbEraseNode (fuel : Nat) (s : State) (node : Nat) : Option State := do
  let n ← s.node node
  if n.rbLeft ≠ 0 ∧ n.rbRight ≠ 0 then replaceByNext fuel s node
  else
    let child := if n.rbLeft = 0 then n.rbRight else n.rbLeft
    let parent := n.parent
    let color := n.color
    let s ← s.reparent child parent
    let s ← s.repoint .left parent node child
    if color = 1 then rbEraseColor fuel s child parent else some s

def State.setLeftmost (s : State) (p : Nat) : State := {s with root := {s.root with rbLeftmost := p}}

def State.setRightmost (s : State) (p : Nat) : State := {s with root := {s.root with rbRightmost := p}}

def rbErase (fuel : Nat) (s : State) (node : Nat) : Option State := do
  let s ← (if node = s.root.rbLeftmost then (rbNext fuel s node).map s.setLeftmost else some s)
  let s ← (if node = s.root.rbRightmost then (rbPrev fuel s node).map s.setRightmost else some s)
  rbEraseNode fuel s node

section Color
variable {s : State} {ctx : Context Nat} {t near far : RbTree Nat} {side : Side} {c pc : Color} {a b first last : Nat}
variable {rest : Multiset (Nat × RbNode)}

theorem bothBlack_eq {above : Nat} (nearRed : s.isRed (top near) = some (decide (near.color = .red)))
    (farRed : s.isRed (top far) = some (decide (far.color = .red))) :
    s.bothBlack (RbNode.of side above c (top near) (top far)).rbLeft (RbNode.of side above c (top near) (top far)).rbRight =
      some (decide (near.color = .black ∧ far.color = .black)) := by
  cases side <;> cases nearIs : near.color <;> cases farIs : far.color <;> simp_all [State.bothBlack,RbNode.of]

theorem turnSibling_yields (holds : Holds s (plug (⟨side,pc,a,.make side .red near b far⟩::ctx) t) first last rest) :
    Yields (turnSibling side s a b) fun out => out.2 = top near ∧
      Holds out.1 (plug (⟨side,.red,a,near⟩::⟨side,.black,b,far⟩::ctx) t) first last rest := by
  have parent : Holds s (plug ctx (.make side pc t a (.make side .red near b far))) first last rest := holds
  rw [plug_far] at parent
  rw [turnSibling]
  refine (blacken_yields parent).bind fun s₁ holds₁ => ?_
  rw [← plug_far] at holds₁
  refine (redden_yields holds₁).bind fun s₂ holds₂ => ?_
  refine (rotate_yields holds₂).bind fun s₃ holds₃ => ?_
  have node := @Holds.node s₃ (⟨side,.black,b,far⟩::ctx) side .red t near a _ _ _ holds₃
  refine yields_bind node (yields_some ⟨?_,holds₃⟩)
  exact RbNode.child_other_of ..

theorem turnNear_yields {n : Nat} {nearer inner : RbTree Nat} {nc : Color}
    (holds : Holds s (plug (⟨side,pc,a,.make side c (.make side nc nearer n inner) b far⟩::ctx) t) first last rest) :
    Yields (turnNear side s a b) fun out => out.2 = n ∧
      Holds out.1 (plug (⟨side,pc,a,.make side .black nearer n (.make side .red inner b far)⟩::ctx) t) first last rest := by
  have sibling : Holds s (plug ctx (.make side pc t a (.make side c (.make side nc nearer n inner) b far))) first last rest := holds
  rw [plug_far] at sibling
  rw [turnNear]
  refine yields_bind sibling.node ?_
  rw [RbNode.child_of,top_make]
  rw [plug_near] at sibling
  refine (blacken_yields sibling).bind fun s₁ holds₁ => ?_
  rw [← plug_near] at holds₁
  refine (redden_yields holds₁).bind fun s₂ holds₂ => ?_
  rw [← make_other side .red,← make_other side .black] at holds₂
  refine (rotate_yields holds₂).bind fun s₃ holds₃ => ?_
  rw [make_other,make_other,← plug_far] at holds₃
  refine yields_bind holds₃.node (yields_some ⟨?_,holds₃⟩)
  rw [RbNode.child_other_of,top_make]

theorem turnParent_yields {sc : Color} (holds : Holds s (plug ctx (.make side pc t a (.make side sc near b far))) first last rest)
    (exists_ : far ≠ .nil) : Yields (turnParent side s a b) fun s' =>
      Holds s' (plug ctx (.make side pc (.make side .black t a near) b far.setBlack)) first last rest := by
  rw [turnParent]
  refine yields_bind holds.node ?_
  rw [RbNode.color_of _ _ _ _ holds.parentOf]
  rw [plug_far] at holds
  refine (recolor_yields holds (RbNode.setColor_of _ _ _ _ _ holds.parentOf)).bind fun s₁ holds₁ => ?_
  rw [← plug_far] at holds₁
  refine (blacken_yields holds₁).bind fun s₂ holds₂ => ?_
  rw [plug_far] at holds₂
  refine yields_bind holds₂.node ?_
  rw [RbNode.child_other_of]
  rw [plug_far] at holds₂
  refine (setBlack_yields holds₂ exists_).bind fun s₃ holds₃ => ?_
  rw [← plug_far,← plug_far] at holds₃
  exact rotate_yields holds₃

/-- The rotation that ends the loop, for a sibling of which a child is red. -/
theorem eraseRotate_yields (holds : Holds s (plug (⟨side,pc,a,.make side .black near b far⟩::ctx) t) first last rest)
    (one : ¬(near.color = .black ∧ far.color = .black)) :
    Yields (eraseRotate side s a b) fun s' => ∃ t', eraseRound ⟨side,pc,a,.make side .black near b far⟩ t = .done t' ∧
      Holds s' (plug ctx t') first last rest := by
  have sibling : Holds s (plug ctx (.make side pc t a (.make side .black near b far))) first last rest := holds
  rw [plug_far] at sibling
  have farRed : s.isRed (top far) = some (decide (far.color = .red)) := by
    rw [plug_far] at sibling
    exact sibling.isRed
  rw [eraseRotate]
  refine yields_bind sibling.node ?_
  rw [RbNode.child_other_of]
  refine yields_bind farRed ?_
  by_cases red : far.color = .red
  · rw [if_pos (decide_eq_true red)]
    refine yields_bind rfl ?_
    refine (turnParent_yields holds ?_).imp fun s₁ holds₁ => ⟨_,eraseRound_far _ _ _ _ _ _ _ _ red,holds₁⟩
    rintro rfl
    cases red
  · rw [if_neg (by simp [red])]
    have farBlack := color_ne_red.mp red
    obtain ⟨nearer,n,inner,rfl⟩ := red_make side (color_ne_black.mp fun black => one ⟨black,farBlack⟩)
    refine (turnNear_yields holds).bind ?_
    rintro ⟨s₁,other⟩ ⟨isOther,holds₁⟩
    dsimp only at isOther holds₁ ⊢
    rw [isOther]
    refine (turnParent_yields holds₁ ?_).imp fun s₂ holds₂ => ⟨_,eraseRound_near _ _ _ _ _ _ _ _ _ _ farBlack,?_⟩
    · cases side <;> rintro ⟨⟩
    · rw [setBlack_make] at holds₂
      exact holds₂

theorem rootOf_mem (f : Frame Nat) (ctx : Context Nat) (hole : Nat) : rootOf (f::ctx) hole ∈ before (f::ctx) ++ after (f::ctx) := by
  induction ctx generalizing f hole with
  | nil =>
    obtain ⟨side,c,a,sibling⟩ := f
    cases side <;> simp [rootOf,before,after,Frame.before,Frame.after]
  | cons g ctx ih =>
    have above := ih g f.a
    rw [rootOf]
    simp only [before,after,List.mem_append] at above ⊢
    tauto

/-- Only the tree at the top is pointed to by the root. -/
theorem root_ne {f : Frame Nat} (holds : Holds s (plug (f::ctx) t) first last rest) : top t ≠ s.root.rbNode := by
  rw [holds.root,top_plug]
  intro (same : top t = rootOf (f::ctx) (top t))
  have above := rootOf_mem f ctx (top t)
  rw [← same] at above
  cases t with
  | nil =>
    have none_ := (@Holds.top s [] (plug (f::ctx) .nil) _ _ _ holds).2.mp (by rw [top_plug,← same]; rfl)
    have list := congrArg RbTree.toList none_
    rw [toList_plug] at list
    simp only [RbTree.toList,List.append_nil] at list
    rw [list] at above
    cases above
  | node c l a r =>
    have apart := holds.nodup
    rw [toList_plug,List.append_assoc] at apart
    have inner : a ∈ (RbTree.node c l a r).toList := by simp [RbTree.toList]
    obtain ⟨_,right,disjoint⟩ := List.nodup_append.mp apart
    rcases List.mem_append.mp above with before_ | after_
    · exact disjoint a before_ a (List.mem_append.mpr (Or.inl inner)) rfl
    · exact (List.nodup_append.mp right).2.2 a inner a after_ rfl

theorem rbEraseColor_ends (holds : Holds s (plug ctx t) first last rest) (ends : t.color = .red ∨ ctx = []) (parent fuel : Nat) :
    Yields (rbEraseColor (fuel + 1) s (top t) parent) fun s' => Holds s' (plug ctx t.setBlack) first last rest := by
  have stops : (decide (t.color = .red) : Bool) = true ∨ top t = s.root.rbNode := by
    refine ends.imp decide_eq_true fun empty => ?_
    subst empty
    exact (congrArg RbRoot.rbNode holds.root).symm
  rw [rbEraseColor]
  refine yields_bind holds.isRed ?_
  rw [if_pos stops]
  by_cases none_ : t = .nil
  · subst none_
    exact yields_some holds
  · rw [if_neg fun zero => none_ (holds.top.2.mp zero)]
    exact setBlack_yields holds none_

/-- What a round reads for a black node that is not the root. -/
theorem rbEraseColor_round {p : Frame Nat} (holds : Holds s (plug (p::ctx) t) first last rest) (black : t.color = .black)
    (some : p.sibling ≠ .nil) (fuel : Nat) : rbEraseColor (fuel + 1) s (top t) p.a = (do
      let out ← (if p.sibling.color = .red then turnSibling p.side s p.a (top p.sibling) else .some (s,top p.sibling))
      let o ← out.1.node out.2
      if ← out.1.bothBlack o.rbLeft o.rbRight then
        let s ← out.1.store out.2 RbNode.setRed
        let p' ← s.node p.a
        rbEraseColor fuel s p.a p'.parent
      else
        let s ← eraseRotate p.side out.1 p.a out.2
        if s.root.rbNode = 0 then .some s else s.store s.root.rbNode RbNode.setBlack) := by
  have goes_on : ¬(t.color = .red ∨ top t = s.root.rbNode) := by
    rintro (red | root)
    · exact absurd (red.symm.trans black) (by rintro ⟨⟩)
    · exact root_ne holds root
  have node := @Holds.node s ctx p.side p.color t p.sibling p.a _ _ _ holds
  have sibling : Holds s (plug (⟨p.side.other,p.color,p.a,t⟩::ctx) p.sibling) first last rest := by
    rw [← plug_far]
    exact holds
  have side : (if (RbNode.of p.side (parentOf ctx) p.color (top t) (top p.sibling)).rbLeft = top t then Side.left else .right) = p.side := by
    cases at_ : p.side with
    | left => exact if_pos rfl
    | right => exact if_neg (sibling_ne sibling some).symm
  obtain ⟨n,held,_⟩ := node_parent sibling some
  have color : n.isRed = decide (p.sibling.color = .red) := by
    have red := sibling.isRed
    rw [State.isRed,if_neg fun zero => some (sibling.top.2.mp zero),held] at red
    exact Option.some.inj red
  rw [rbEraseColor,holds.isRed]
  simp only [Option.bind_eq_bind,Option.bind_some,decide_eq_true_eq,if_neg goes_on,node,side,RbNode.child_other_of,held,color]

theorem turned_yields {p : Frame Nat} (holds : Holds s (plug (p::ctx) t) first last rest) :
    Yields (if p.sibling.color = .red then turnSibling p.side s p.a (top p.sibling) else some (s,top p.sibling)) fun out =>
      out.2 = top (eraseTurn p).1.sibling ∧ Holds out.1 (plug ((eraseTurn p).1::((eraseTurn p).2 ++ ctx)) t) first last rest := by
  obtain ⟨side,pc,a,sibling⟩ := p
  by_cases red : sibling.color = .red
  · obtain ⟨near,b,far,rfl⟩ := red_make side red
    rw [if_pos red,eraseTurn_red,top_make]
    exact turnSibling_yields holds
  · have black := eraseTurn_black (p := ⟨side,pc,a,sibling⟩) (color_ne_red.mp red)
    rw [if_neg red,black]
    exact yields_some ⟨rfl,holds⟩

theorem eraseTurn_same (p : Frame Nat) : (eraseTurn p).1.side = p.side ∧ (eraseTurn p).1.a = p.a := by
  obtain ⟨side,pc,a,sibling⟩ := p
  rcases sibling with _ | ⟨_ | _,l,b,r⟩ <;> exact ⟨rfl,rfl⟩

/-- The rest of a round, with a black sibling. -/
theorem eraseRound_yields {n fuel : Nat} {p : Frame Nat} {Q : State → Prop} (holds : Holds s (plug (p::ctx) t) first last rest)
    (black : p.sibling.color = .black) (balanced : Balanced p.sibling (n + 1))
    (up : ∀ s' t', eraseRound p t = .up t' → top t' = p.a → Holds s' (plug ctx t') first last rest →
      Yields (rbEraseColor fuel s' p.a (parentOf ctx)) Q)
    (done : ∀ s' t', eraseRound p t = .done t' → Holds s' (plug ctx t').setBlack first last rest → Q s') :
    Yields (do
      let o ← s.node (top p.sibling)
      if ← s.bothBlack o.rbLeft o.rbRight then
        let s ← s.store (top p.sibling) RbNode.setRed
        let p' ← s.node p.a
        rbEraseColor fuel s p.a p'.parent
      else
        let s ← eraseRotate p.side s p.a (top p.sibling)
        if s.root.rbNode = 0 then some s else s.store s.root.rbNode RbNode.setBlack) Q := by
  obtain ⟨side,pc,a,sibling⟩ := p
  obtain ⟨near,b,far,rfl⟩ : ∃ near b far, sibling = .make side .black near b far := by
    cases sibling with
    | nil => cases balanced
    | node c l b r =>
      obtain rfl : c = .black := black
      exact ⟨_,b,_,node_make side ..⟩
  have inside : Holds s (plug ctx (.make side pc t a (.make side .black near b far))) first last rest := holds
  rw [plug_far] at inside
  have farRed := inside
  rw [plug_far] at farRed
  have nearRed := inside
  rw [plug_near] at nearRed
  rw [top_make]
  refine yields_bind inside.node (yields_bind (bothBlack_eq nearRed.isRed farRed.isRed) ?_)
  by_cases both : near.color = .black ∧ far.color = .black
  · rw [if_pos (decide_eq_true both)]
    refine (redden_yields inside).bind fun s₁ holds₁ => ?_
    rw [← plug_far] at holds₁
    refine yields_bind holds₁.node ?_
    rw [RbNode.parent_of _ _ _ _ holds₁.parentOf]
    exact up s₁ _ (eraseRound_up _ _ _ _ _ _ _ _ both) (top_make ..) holds₁
  · rw [if_neg (by simpa using both)]
    refine (eraseRotate_yields holds both).bind ?_
    rintro s₁ ⟨t',rounded,holds₁⟩
    have exists_ : plug ctx t' ≠ .nil := by
      intro empty
      have same := toList_plug_congr ctx (toList_eraseRound ⟨side,pc,a,.make side .black near b far⟩ t)
      rw [rounded,Round.tree,empty,toList_plug,Frame.fill] at same
      have : (RbTree.make side pc t a (.make side .black near b far)).toList = [] := by
        simp only [RbTree.toList] at same
        exact (List.append_eq_nil_iff.mp (List.append_eq_nil_iff.mp same.symm).1).2
      cases side <;> simp [RbTree.make,RbTree.toList] at this
    have top_ := (@Holds.top s₁ [] (plug ctx t') _ _ _ holds₁).2
    rw [if_neg (by rw [holds₁.root]; exact fun zero => exists_ (top_.mp zero))]
    exact (finish_yields holds₁ exists_).imp fun s₂ holds₂ => done s₂ t' rounded holds₂

theorem rbEraseColor_yields {n fuel : Nat} (holds : Holds s (plug ctx t) first last rest) (short : Short t n) (fits : Fits ctx (n + 1))
    (enough : ctx.length + 1 < fuel) : Yields (rbEraseColor fuel s (top t) (parentOf ctx)) fun s' =>
      Holds s' (eraseFix t ctx) first last rest := by
  obtain ⟨fuel,rfl⟩ : ∃ k, fuel = k + 2 := ⟨fuel - 2,by omega⟩
  induction ctx generalizing t n fuel s with
  | nil =>
    rw [eraseFix]
    exact rbEraseColor_ends holds (Or.inr rfl) _ (fuel + 1)
  | cons p ctx ih =>
    by_cases red : t.color = .red
    · rw [eraseFix,if_pos red]
      exact rbEraseColor_ends holds (Or.inl red) _ (fuel + 1)
    · obtain ⟨black,balanced⟩ | ⟨red',_⟩ := short
      · have some : p.sibling ≠ .nil := by
          intro none_
          have balanced := fits.1
          rw [none_] at balanced
          cases balanced
        obtain ⟨sibBlack,fits',redTurn⟩ := eraseTurn_fits fits
        obtain ⟨sameSide,sameNode⟩ := eraseTurn_same p
        have first_ := turned_yields holds
        rw [parentOf_cons,rbEraseColor_round holds black some]
        rcases turned : eraseTurn p with ⟨p',above⟩
        rw [turned] at sibBlack fits' redTurn sameSide sameNode first_
        dsimp only at sibBlack fits' redTurn sameSide sameNode first_
        have round := eraseRound_balanced balanced sibBlack fits'.1
        refine first_.bind ?_
        rintro ⟨s₁,other⟩ ⟨isOther,holds₁⟩
        dsimp only at isOther holds₁ ⊢
        rw [isOther,← sameSide,← sameNode]
        refine eraseRound_yields holds₁ sibBlack fits'.1 (fun s₂ t' rounded top_ holds₂ => ?_) fun s₂ t' rounded holds₂ => ?_
        · have next : eraseFix t (p::ctx) = if above = [] then eraseFix t' ctx else plug (above ++ ctx) t'.setBlack := by
            rw [eraseFix,if_neg red,turned]
            simp only [rounded]
          rw [next,← top_]
          by_cases none_ : above = []
          · subst none_
            obtain ⟨fuel,rfl⟩ : ∃ k, fuel = k + 1 := ⟨fuel - 1,by simp only [List.length_cons] at enough; omega⟩
            rw [if_pos rfl]
            refine ih holds₂ (round.2 t' rounded).2 ?_ fuel (by simp only [List.length_cons] at enough; omega)
            have onto := fits'.2.2
            cases color : p'.color <;> rw [color] at onto <;> exact onto
          · rw [if_neg none_]
            exact rbEraseColor_ends holds₂ (Or.inl ((round.2 t' rounded).1.trans (redTurn none_))) _ fuel
        · have next : eraseFix t (p::ctx) = (plug (above ++ ctx) t').setBlack := by
            rw [eraseFix,if_neg red,turned]
            simp only [rounded]
          rw [next]
          exact holds₂
      · exact absurd red' red

end Color

section Unlink
variable {s : State} {ctx : Context Nat} {t l r : RbTree Nat} {side : Side} {c : Color} {a p q first last fuel : Nat}
variable {rest : Multiset (Nat × RbNode)}

/-- What is left to do when `t` has come into the place of a node of color `c`. -/
theorem unlinked_yields (holds : Holds s (plug ctx t) first last rest) (short : c = .black → ∃ n, Short t n ∧ Fits ctx (n + 1))
    (enough : ctx.length + 1 < fuel) :
    Yields (if bit c = 1 then rbEraseColor fuel s (top t) (parentOf ctx) else some s) fun s' =>
      Holds s' (unlink ctx c t) first last rest := by
  cases c with
  | red => exact yields_some holds
  | black =>
    obtain ⟨n,short,fits⟩ := short rfl
    exact rbEraseColor_yields holds short fits enough

/-- A node with no child on one side is unlinked. -/
theorem unlinkOne_yields (holds : Holds s (plug ctx (.make side c .nil a t)) first last rest) :
    Yields (do
      let s ← s.reparent (top t) (parentOf ctx)
      s.repoint .left (parentOf ctx) a (top t)) fun s' => ∃ r, Holds s' (plug ctx t) first last ({(a,r)} + rest) := by
  have placed := holds.placed
  obtain ⟨owns,root⟩ := holds_plug.mp holds
  rw [cells_make,top_make] at owns
  rw [top_make] at root
  have owned : Owns s.node (cells a t + ({(a,.of side (parentOf ctx) c (top .nil) (top t))} + (around ctx a + rest))) := by
    refine owns.split ?_
    rw [cells]
    abel
  refine (reparent_yields owned placed.2 holds.parentOf).bind ?_
  rintro s₁ ⟨owned₁,root₁⟩
  have owned₁ : Owns s₁.node ({(a,.of side (parentOf ctx) c (top .nil) (top t))} +
      (around ctx a + (cells (parentOf ctx) t + rest))) := owned₁.split (by abel)
  refine (repoint_yields owned₁ (root₁.trans root) .left (top t)).imp ?_
  rintro s₂ ⟨owned₂,root₂⟩
  exact ⟨_,holds_plug.mpr ⟨owned₂.split (by abel),root₂⟩⟩

/-- The cells of a tree with a hole below a node of its own. -/
theorem cells_hole (p : Nat) (f : Frame Nat) (spine : Context Nat) : ∃ above others, ∀ t,
    cells p (plug (f::spine) t) = {(f.a,.of f.side above f.color (top t) (top f.sibling))} + (cells f.a t + others) := by
  induction spine generalizing f with
  | nil => exact ⟨p,cells f.a f.sibling,fun t => cells_make ..⟩
  | cons g spine ih =>
    obtain ⟨above,others,split⟩ := ih g
    refine ⟨g.a,cells f.a f.sibling + ({(g.a,.of g.side above g.color f.a (top g.sibling))} + others),fun t => ?_⟩
    rw [plug,split,Frame.fill,top_make,cells_make]
    abel

theorem setParent_yields (owns : Owns s.node (cells p t + rest)) (some : t ≠ .nil) (aligned : p % 4 = 0) (aligned' : q % 4 = 0) :
    Yields (s.store (top t) (RbNode.setParent q)) fun s' => Owns s'.node (cells q t + rest) ∧ s'.root = s.root := by
  have zero : top t ≠ 0 := by
    cases t with
    | nil => exact absurd rfl some
    | node c l a r =>
      rw [cells,add_assoc] at owns
      exact (s.placed a _ owns.read).1
  have yields := reparent_yields owns aligned aligned'
  rw [State.reparent,if_neg zero] at yields
  exact yields

/-- The next node leaves its place to its child, and takes over the right subtree of `old`. -/
theorem takeRight_yields {old y : Nat} {c' : Color} {o : RbNode} {r' : RbTree Nat} {spine : Context Nat} (next : First r c' y r' spine)
    (owns : Owns s.node ({(old,o)} + (cells old r + rest))) (right : o.rbRight = top r) (outer : Frame Nat) (place : outer.a = y) :
    ∃ n, s.node y = some n ∧ n.rbRight = top r' ∧ n.color = bit c' ∧
      Yields (if n.parent = old then some (s,y) else do
        let s ← s.reparent (top r') n.parent
        let s ← s.store n.parent (RbNode.setChild .left (top r'))
        let o ← s.node old
        let s ← s.store y (RbNode.setChild .right o.rbRight)
        let o ← s.node old
        let s ← s.store o.rbRight (RbNode.setParent y)
        some (s,n.parent)) fun out => out.2 = parentOf (spine ++ [outer]) ∧ out.1.root = s.root ∧
          ∃ q, Owns out.1.node ({(old,o)} + ({(y,.of .left q c' 0 (top (plug spine r')))} + (cells y (plug spine r') + rest))) := by
  have aligned := (s.placed old o owns.read).2
  cases spine with
  | nil =>
    have whole : .node c' .nil y r' = r := next.plugged
    rw [← whole,cells] at owns
    have owned : Owns s.node ({(y,.of .left old c' (top .nil) (top r'))} + (cells y r' + ({(old,o)} + rest))) := by
      refine owns.split ?_
      rw [cells]
      abel
    refine ⟨_,owned.read,rfl,RbNode.color_of _ _ _ _ aligned,?_⟩
    rw [RbNode.parent_of _ _ _ _ aligned,if_pos rfl]
    exact yields_some ⟨place.symm,rfl,old,owned.split (by rw [plug,top]; abel)⟩
  | cons f spine =>
    obtain ⟨above,others,hole⟩ := cells_hole old f spine
    have left : f.side = .left := next.sides f List.mem_cons_self
    rw [left] at hole
    have same : top (plug (f::spine) r') = top r := by rw [← next.plugged,top_plug,top_plug,rootOf,rootOf]
    have exists_ : plug (f::spine) r' ≠ .nil := by
      intro none_
      have list := congrArg RbTree.toList none_
      rw [toList_plug,before,after,Frame.after,left] at list
      simp [RbTree.toList] at list
    have topIs : top (.node c' .nil y r') = y := rfl
    rw [← next.plugged,hole,topIs] at owns
    have owned : Owns s.node ({(y,.of .left f.a c' (top .nil) (top r'))} + ({(f.a,.of .left above f.color y (top f.sibling))} +
        (cells y r' + ({(old,o)} + (others + rest))))) := by
      refine owns.split ?_
      rw [cells,cells,top]
      abel
    have placed := s.placed y _ owned.read
    have owned_f := owned.split (add_left_comm ..)
    have aligned_f := (s.placed f.a _ owned_f.read).2
    have other : f.a ≠ old := by
      refine owns.apart_from (s := .of .left above f.color y (top f.sibling)) ?_
      simp
    refine ⟨_,owned.read,rfl,RbNode.color_of _ _ _ _ aligned_f,?_⟩
    rw [RbNode.parent_of _ _ _ _ aligned_f,if_neg other]
    have owned : Owns s.node (cells y r' + ({(f.a,.of .left above f.color y (top f.sibling))} +
        ({(y,.of .left f.a c' (top .nil) (top r'))} + ({(old,o)} + (others + rest))))) := owned.split (by abel)
    refine (reparent_yields owned placed.2 aligned_f).bind ?_
    rintro s₁ ⟨owned₁,root₁⟩
    refine (store_yields (owned₁.split (add_left_comm ..)) _).bind ?_
    rintro s₂ ⟨owned₂,root₂⟩
    rw [RbNode.setChild_of] at owned₂
    have owned₂ : Owns s₂.node ({(old,o)} + ({(y,.of .left f.a c' (top .nil) (top r'))} + (cells old (plug (f::spine) r') + rest))) := by
      refine owned₂.split ?_
      rw [hole]
      abel
    refine yields_bind owned₂.read ?_
    refine (store_yields (owned₂.split (add_left_comm ..)) _).bind ?_
    rintro s₃ ⟨owned₃,root₃⟩
    have taken : (RbNode.of .left f.a c' (top .nil) (top r')).setChild .right o.rbRight =
        .of .left f.a c' 0 (top (plug (f::spine) r')) := by
      rw [right,same]
      rfl
    rw [taken] at owned₃
    refine yields_bind (owned₃.split (add_left_comm ..)).read ?_
    rw [right,← same]
    have owned₃ : Owns s₃.node (cells old (plug (f::spine) r') + ({(old,o)} +
        ({(y,.of .left f.a c' 0 (top (plug (f::spine) r')))} + rest))) := owned₃.split (by abel)
    refine (setParent_yields owned₃ exists_ aligned placed.2).bind ?_
    rintro s₄ ⟨owned₄,root₄⟩
    refine yields_some ⟨rfl,root₄.trans (root₃.trans (root₂.trans root₁)),f.a,owned₄.split (by abel)⟩

theorem parentOf_append (inner outer : Context Nat) (f : Frame Nat) : parentOf (inner ++ f::outer) = parentOf (inner ++ [f]) := by
  cases inner <;> rfl

theorem replaceByNext_yields {y : Nat} {c' : Color} {r' : RbTree Nat} {spine : Context Nat}
    (holds : Holds s (plug ctx (.node c l a r)) first last rest) (valid : Valid (plug ctx (.node c l a r))) (left : l ≠ .nil)
    (right : r ≠ .nil) (next : First r c' y r' spine) (enough : (plug ctx (.node c l a r)).height < fuel) :
    Yields (replaceByNext fuel s a) fun s' => ∃ o, Holds s' (unlink (spine ++ ⟨.right,c,y,l⟩::ctx) c' r') first last ({(a,o)} + rest) := by
  have deep := height_plug ctx (.node c l a r)
  have deep' := height_plug (spine ++ ⟨.right,c,a,l⟩::ctx) (.node c' .nil y r')
  have whole : plug (spine ++ ⟨.right,c,a,l⟩::ctx) (.node c' .nil y r') = plug ctx (.node c l a r) := by
    rw [plug_append,next.plugged]
    rfl
  rw [whole] at deep'
  rw [RbTree.height] at deep deep'
  simp only [List.length_append,List.length_cons] at deep'
  have aligned := holds.parentOf
  have node := @Holds.node s ctx .left c l r a _ _ _ holds
  have placed := @Holds.placed s ctx .left c l r a _ _ _ holds
  have down : goDown .left s fuel (top r) = some y := by
    have holds' : Holds s (plug (⟨.right,c,a,l⟩::ctx) r) first last rest := holds
    rw [goDown_eq .left holds' right (by omega),endOf,order,next.first]
    rfl
  obtain ⟨owns,root⟩ := holds_plug.mp holds
  have owned : Owns s.node ({(a,.of .left (parentOf ctx) c (top l) (top r))} + (around ctx a + (cells a l + cells a r + rest))) := by
    refine owns.split ?_
    rw [cells,top]
    abel
  rw [replaceByNext]
  refine yields_bind node ?_
  refine yields_bind down ?_
  rw [RbNode.parent_of _ _ _ _ aligned]
  refine (repoint_yields owned root .left y).bind ?_
  rintro s₁ ⟨owned₁,root₁⟩
  have owned₁ : Owns s₁.node ({(a,.of .left (parentOf ctx) c (top l) (top r))} + (cells a r + (around ctx y + (cells a l + rest)))) :=
    owned₁.split (by abel)
  obtain ⟨n,held,child,color,taken⟩ := takeRight_yields next owned₁ rfl ⟨.right,c,y,l⟩ rfl
  refine yields_bind held ?_
  rw [child,color]
  refine taken.bind ?_
  rintro ⟨s₂,parent⟩ ⟨isParent,root₂,q,owned₂⟩
  dsimp only at isParent root₂ owned₂ ⊢
  refine yields_bind owned₂.read ?_
  have owned₂ := owned₂.split (add_left_comm ..)
  have placed_y := s₂.placed y _ owned₂.read
  refine (store_yields owned₂ _).bind ?_
  rintro s₃ ⟨owned₃,root₃⟩
  refine yields_bind (owned₃.split (add_left_comm ..)).read ?_
  have owned₃ : Owns s₃.node (cells a l + ({(y,.of .left (parentOf ctx) c (top l) (top (plug spine r')))} +
      ({(a,.of .left (parentOf ctx) c (top l) (top r))} + (cells y (plug spine r') + (around ctx y + rest))))) := by
    refine owned₃.split ?_
    have put (q : Nat) : {RbNode.of .left q c' 0 (top (plug spine r')) with
        rbParentColor := (RbNode.of .left (parentOf ctx) c (top l) (top r)).rbParentColor
        rbLeft := (RbNode.of .left (parentOf ctx) c (top l) (top r)).rbLeft} = RbNode.of .left (parentOf ctx) c (top l) (top (plug spine r')) :=
      rfl
    rw [put]
    abel
  refine (setParent_yields owned₃ left placed.2 placed_y.2).bind ?_
  rintro s₄ ⟨owned₄,root₄⟩
  have holds₄ : Holds s₄ (plug (spine ++ ⟨.right,c,y,l⟩::ctx) r') first last
      ({(a,.of .left (parentOf ctx) c (top l) (top r))} + rest) := by
    rw [plug_append]
    refine (@holds_plug s₄ ctx (.node c l y (plug spine r')) first last _).mpr ⟨owned₄.split ?_,?_⟩
    · rw [cells,top]
      abel
    · exact root₄.trans (root₃.trans (root₂.trans root₁))
  have outer := parentOf_append spine ctx ⟨.right,c,y,l⟩
  rw [isParent,← outer]
  refine (unlinked_yields holds₄ (fun black => ?_) ?_).imp fun s₅ holds₅ => ⟨_,holds₅⟩
  · have replaced := replaced_valid next.plugged valid
    rw [black] at replaced
    exact @unlink_short _ _ .left y r' replaced
  · simp only [List.length_append,List.length_cons]
    omega

theorem rbEraseNode_yields (holds : Holds s (plug ctx (.node c l a r)) first last rest) (valid : Valid (plug ctx (.node c l a r)))
    (enough : (plug ctx (.node c l a r)).height < fuel) :
    Yields (rbEraseNode fuel s a) fun s' => ∃ o, Holds s' (remove ctx (.node c l a r)) first last ({(a,o)} + rest) := by
  have deep := height_plug ctx (.node c l a r)
  rw [RbTree.height] at deep
  have node := @Holds.node s ctx .left c l r a _ _ _ holds
  have aligned := holds.parentOf
  have lefts : Holds s (plug (⟨.left,c,a,r⟩::ctx) l) first last rest := holds
  have rights : Holds s (plug (⟨.right,c,a,l⟩::ctx) r) first last rest := holds
  have one {side : Side} {t : RbTree Nat} (same : RbTree.node c l a r = .make side c .nil a t) :
      Yields (do
        let s ← s.reparent (top t) (parentOf ctx)
        let s ← s.repoint .left (parentOf ctx) a (top t)
        if bit c = 1 then rbEraseColor fuel s (top t) (parentOf ctx) else some s) fun s' =>
          ∃ o, Holds s' (unlink ctx c t) first last ({(a,o)} + rest) := by
    rw [same] at holds valid
    have unlinked := (unlinkOne_yields holds).bind (f := fun s => if bit c = 1 then rbEraseColor fuel s (top t) (parentOf ctx) else some s)
      (Q := fun s' => ∃ o, Holds s' (unlink ctx c t) first last ({(a,o)} + rest)) fun s₁ result => by
        obtain ⟨o,holds₁⟩ := result
        refine (unlinked_yields holds₁ (fun black => ?_) (by omega)).imp fun s₂ holds₂ => ⟨o,holds₂⟩
        rw [black] at valid
        exact unlink_short valid
    simpa only [bind_assoc] using unlinked
  rw [rbEraseNode]
  refine yields_bind node ?_
  have leftIs : (RbNode.of .left (parentOf ctx) c (top l) (top r)).rbLeft = top l := rfl
  have rightIs : (RbNode.of .left (parentOf ctx) c (top l) (top r)).rbRight = top r := rfl
  rw [leftIs,rightIs,RbNode.parent_of _ _ _ _ aligned,RbNode.color_of _ _ _ _ aligned]
  obtain ⟨none_,removed⟩ | ⟨some,none_,removed⟩ | ⟨left,right,c',y,r',spine,next,removed⟩ := remove_cases ctx c l r a
  · have zero := lefts.top.2.mpr none_
    rw [removed,if_neg fun both => both.1 zero,if_pos zero]
    exact @one .left r (by rw [none_]; rfl)
  · have zero := rights.top.2.mpr none_
    rw [removed,if_neg fun both => both.2 zero,if_neg fun zero' => some (lefts.top.2.mp zero')]
    exact @one .right l (by rw [none_]; rfl)
  · rw [removed,if_pos ⟨fun zero => left (lefts.top.2.mp zero),fun zero => right (rights.top.2.mp zero)⟩]
    exact replaceByNext_yields holds valid left right next enough

/-- The end of a list when an element is taken out of it. -/
theorem head_taken {xs ys : List Nat} {a : Nat} (distinct : (xs ++ a::ys).Nodup) :
    (if a = (xs ++ a::ys).head?.getD 0 then ys.head?.getD 0 else (xs ++ a::ys).head?.getD 0) = (xs ++ ys).head?.getD 0 := by
  cases xs with
  | nil => exact if_pos rfl
  | cons x xs =>
    have other : a ≠ x := by
      rintro rfl
      simp at distinct
    exact if_neg other

theorem setLeftmost_holds (holds : Holds s t first last rest) (p : Nat) : Holds (s.setLeftmost p) t p last rest :=
  ⟨holds.owns,by rw [State.setLeftmost,holds.root]⟩

theorem setRightmost_holds (holds : Holds s t first last rest) (p : Nat) : Holds (s.setRightmost p) t first p rest :=
  ⟨holds.owns,by rw [State.setRightmost,holds.root]⟩

/-- `rb_erase` takes the node out of the tree, and gives it back. -/
theorem rbErase_yields (stored : Stored s t rest) (member : a ∈ t.toList) (enough : t.height < fuel) :
    Yields (rbErase fuel s a) fun s' => ∃ t' o, Stored s' t' ({(a,o)} + rest) ∧ t'.toList = t.toList.erase a := by
  obtain ⟨ctx,c,l,r,rfl⟩ := exists_plug member
  have list := toList_around ctx c l r a
  have distinct := stored.holds.nodup
  rw [list] at distinct
  have backward : ((r.toList ++ after ctx).reverse ++ a::(before ctx ++ l.toList).reverse).Nodup := by
    have reversed := List.nodup_reverse.mpr distinct
    simpa using reversed
  have root := stored.holds.root
  have gone := toList_remove ctx c l r a
  have firstIs : endOf .left (plug ctx (.node c l a r)) = ((before ctx ++ l.toList) ++ a::(r.toList ++ after ctx)).head?.getD 0 := by
    rw [endOf,order,list]
  have lastIs : endOf .right (plug ctx (.node c l a r)) =
      ((r.toList ++ after ctx).reverse ++ a::(before ctx ++ l.toList).reverse).head?.getD 0 := by
    rw [endOf,order,list]
    simp
  have first' : (if a = endOf .left (plug ctx (.node c l a r)) then (r.toList ++ after ctx).head?.getD 0
      else endOf .left (plug ctx (.node c l a r))) = endOf .left (remove ctx (.node c l a r)) := by
    rw [firstIs,head_taken distinct,endOf,order,gone]
    simp
  have last' : (if a = endOf .right (plug ctx (.node c l a r)) then (before ctx ++ l.toList).reverse.head?.getD 0
      else endOf .right (plug ctx (.node c l a r))) = endOf .right (remove ctx (.node c l a r)) := by
    rw [lastIs,head_taken backward,endOf,order,gone]
    simp
  have next {s : State} {first last : Nat} (holds : Holds s (plug ctx (.node c l a r)) first last rest) :
      rbNext fuel s a = some ((r.toList ++ after ctx).head?.getD 0) := @rbOnward_eq s ctx r l c a _ _ fuel _ .left holds enough
  have prev {s : State} {first last : Nat} (holds : Holds s (plug ctx (.node c l a r)) first last rest) :
      rbPrev fuel s a = some ((before ctx ++ l.toList).reverse.head?.getD 0) := by
    have onward := @rbOnward_eq s ctx l r c a _ _ fuel _ .right holds enough
    rw [rbPrev,onward,List.reverse_append]
    rfl
  rw [rbErase,root]
  refine Yields.bind (P := fun s₁ => Holds s₁ (plug ctx (.node c l a r)) (endOf .left (remove ctx (.node c l a r)))
    (endOf .right (plug ctx (.node c l a r))) rest) ?_ fun s₁ holds₁ => ?_
  · rw [← first']
    refine yields_ite (fun here => ?_) fun other => ?_
    · rw [next stored.holds,if_pos here]
      exact yields_some (setLeftmost_holds stored.holds _)
    · rw [if_neg other]
      exact yields_some stored.holds
  refine Yields.bind (P := fun s₂ => Holds s₂ (plug ctx (.node c l a r)) (endOf .left (remove ctx (.node c l a r)))
    (endOf .right (remove ctx (.node c l a r))) rest) ?_ fun s₂ holds₂ => ?_
  · rw [← last',holds₁.root]
    refine yields_ite (fun here => ?_) fun other => ?_
    · rw [prev holds₁,if_pos here]
      exact yields_some (setRightmost_holds holds₁ _)
    · rw [if_neg other]
      exact yields_some holds₁
  · refine (rbEraseNode_yields holds₂ stored.valid enough).imp ?_
    rintro s₃ ⟨o,holds₃⟩
    refine ⟨_,o,⟨holds₃,remove_valid stored.valid⟩,?_⟩
    have fresh : a ∉ before ctx ++ l.toList := fun early =>
      (List.nodup_append.mp distinct).2.2 a early a List.mem_cons_self rfl
    rw [gone,list,List.erase_append_right _ fresh,List.erase_cons_head]
    simp

end Unlink

end Ext4Fuse.Rbtree
