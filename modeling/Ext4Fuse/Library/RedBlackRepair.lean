import Ext4Fuse.Library.RedBlack

/-! Putting a node into a red-black tree and taking one out, with the repairs bottom-up: what was changed is in a context, and
each round of a repair works on the innermost frames and hands the rest on. -/
namespace Ext4Fuse.Library.RedBlack

variable {α : Type}

def RbTree.child : Side → RbTree α → RbTree α
  | _, .nil => .nil
  | .left, .node _ l _ _ => l
  | .right, .node _ _ _ r => r

@[simp] theorem other_other (side : Side) : side.other.other = side := by cases side <;> rfl

theorem node_make (side : Side) (c : Color) (l r : RbTree α) (a : α) :
    .node c l a r = RbTree.make side c (RbTree.child side (.node c l a r)) a (RbTree.child side.other (.node c l a r)) := by
  cases side <;> rfl

theorem make_other (side : Side) (c : Color) (near far : RbTree α) (a : α) :
    RbTree.make side.other c near a far = .make side c far a near := by
  cases side <;> rfl

/-! Putting in. -/

/-- The red nodes `p` and below it `t` are turned under the black node of `g`. -/
def insertTurn (p g : Frame α) (t : RbTree α) : RbTree α :=
  if p.side = g.side then .make g.side .black t p.a (.make g.side .red p.sibling g.a g.sibling)
  else
    match t with
    | .nil => .nil
    | .node c l n r => .make g.side .black (.make g.side .red p.sibling p.a (RbTree.child g.side (.node c l n r))) n
        (.make g.side .red (RbTree.child g.side.other (.node c l n r)) g.a g.sibling)

/-- `t` is red, and so may the node above it be. -/
def insertFix : RbTree α → Context α → RbTree α
  | t, [] => t.setBlack
  | t, [p] => (p.fill t).setBlack
  | t, p::g::ctx =>
    if p.color = .black then (plug (p::g::ctx) t).setBlack
    else if g.sibling.color = .red then insertFix (.make g.side .red (p.fill t).setBlack g.a g.sibling.setBlack) ctx
    else (plug ctx (insertTurn p g t)).setBlack

theorem toList_make_congr {side : Side} {c c' : Color} {near near' far far' : RbTree α} {a : α} (nears : near'.toList = near.toList)
    (fars : far'.toList = far.toList) : (RbTree.make side c' near' a far').toList = (RbTree.make side c near a far).toList := by
  cases side <;> simp only [RbTree.make,RbTree.toList,nears,fars]

theorem toList_insertTurn (p g : Frame α) {t : RbTree α} (red : t.color = .red) :
    (insertTurn p g t).toList = (g.fill (p.fill t)).toList := by
  obtain ⟨pside,pc,pa,psib⟩ := p
  obtain ⟨gside,gc,ga,gsib⟩ := g
  cases t with
  | nil => cases red
  | node c l n r => cases pside <;> cases gside <;> simp [insertTurn,Frame.fill,RbTree.make,RbTree.toList,RbTree.child,Side.other]

theorem toList_insertFix (t : RbTree α) (ctx : Context α) (red : t.color = .red) :
    (insertFix t ctx).toList = (plug ctx t).toList := by
  fun_induction insertFix t ctx with
  | case1 t => exact toList_setBlack t
  | case2 t p => exact toList_setBlack _
  | case3 t p g ctx black => exact toList_setBlack _
  | case4 t p g ctx black uncle ih =>
    rw [ih (make_color ..)]
    exact toList_plug_congr ctx (toList_make_congr (toList_setBlack _) (toList_setBlack _))
  | case5 t p g ctx black uncle =>
    rw [toList_setBlack]
    exact toList_plug_congr ctx (toList_insertTurn p g red)

theorem color_ne_red {c : Color} : c ≠ .red ↔ c = .black := by cases c <;> simp

theorem color_ne_black {c : Color} : c ≠ .black ↔ c = .red := by cases c <;> simp

/-- The turned nodes have no red node below a red one any more. -/
theorem balanced_insertTurn {p g : Frame α} {t : RbTree α} {n : Nat} (red : t.color = .red) (balanced : Balanced t n)
    (psib : p.sibling.color = .black ∧ Balanced p.sibling n) (gsib : g.sibling.color = .black ∧ Balanced g.sibling n) :
    (insertTurn p g t).color = .black ∧ Balanced (insertTurn p g t) (n + 1) := by
  unfold insertTurn
  split
  · exact ⟨make_color ..,balanced_make_black.mpr ⟨balanced,balanced_make_red.mpr ⟨psib,gsib⟩⟩⟩
  · cases t with
    | nil => cases red
    | node c l a r =>
      obtain rfl : c = .red := red
      rw [node_make g.side,balanced_make_red] at balanced
      refine ⟨make_color ..,balanced_make_black.mpr ⟨?_,?_⟩⟩
      · exact balanced_make_red.mpr ⟨psib,balanced.1⟩
      · exact balanced_make_red.mpr ⟨balanced.2,gsib⟩

theorem setBlack_make (side : Side) (c : Color) (near far : RbTree α) (a : α) :
    (RbTree.make side c near a far).setBlack = .make side .black near a far := by
  cases side <;> rfl

theorem fits_red {p : Frame α} {ctx : Context α} {n : Nat} (fits : Fits (p::ctx) n) (red : p.color = .red) :
    (p.sibling.color = .black ∧ Balanced p.sibling n) ∧ rim ctx = .black ∧ Fits ctx n := by
  obtain ⟨sib,colors,fits⟩ := fits
  rw [red] at fits
  exact ⟨⟨(colors red).1,sib⟩,(colors red).2,fits⟩

theorem fits_black {p : Frame α} {ctx : Context α} {n : Nat} (fits : Fits (p::ctx) n) (black : p.color = .black) :
    Balanced p.sibling n ∧ Fits ctx (n + 1) := by
  obtain ⟨sib,_,fits⟩ := fits
  rw [black] at fits
  exact ⟨sib,fits⟩

theorem valid_below_black {p : Frame α} {ctx : Context α} {t : RbTree α} {n : Nat} (black : p.color = .black)
    (balanced : Balanced t n) (fits : Fits (p::ctx) n) : Valid (plug (p::ctx) t).setBlack := by
  have valid : Valid (plug (p::ctx) t) :=
    valid_plug.mpr ⟨n,fits,balanced,fun above => absurd (black.symm.trans above) (by rintro ⟨⟩)⟩
  rw [valid.setBlack]
  exact valid

theorem insertFix_valid {t : RbTree α} {ctx : Context α} {n : Nat} (red : t.color = .red) (balanced : Balanced t n)
    (fits : Fits ctx n) : Valid (insertFix t ctx) := by
  fun_induction insertFix t ctx generalizing n with
  | case1 t => exact ⟨setBlack_color t,n + 1,balanced_setBlack balanced red⟩
  | case2 t p =>
    refine valid_below_black (color_ne_red.mp fun pred => ?_) balanced fits
    exact absurd (fits_red fits pred).2.1 (by rintro ⟨⟩)
  | case3 t p g ctx black => exact valid_below_black black balanced fits
  | case4 t p g ctx pcolor uncle ih =>
    obtain ⟨psib,gcolor,fits⟩ := fits_red fits (color_ne_black.mp pcolor)
    obtain ⟨gsib,fits⟩ := fits_black fits gcolor
    refine ih (make_color ..) (balanced_make_red.mpr ⟨⟨setBlack_color _,?_⟩,setBlack_color _,?_⟩) fits
    · rw [Frame.fill,setBlack_make]
      exact balanced_make_black.mpr ⟨balanced,psib.2⟩
    · exact balanced_setBlack gsib uncle
  | case5 t p g ctx pcolor uncle =>
    obtain ⟨psib,gcolor,fits⟩ := fits_red fits (color_ne_black.mp pcolor)
    obtain ⟨gsib,fits⟩ := fits_black fits gcolor
    obtain ⟨black,turned⟩ := balanced_insertTurn red balanced psib ⟨color_ne_red.mp uncle,gsib⟩
    have valid : Valid (plug ctx (insertTurn p g t)) := valid_plug.mpr ⟨n + 1,fits,turned,fun _ => black⟩
    rw [valid.setBlack]
    exact valid

/-! Taking out. -/

/-- A red sibling is turned up, so that the frame of the hole has a black one. -/
def eraseTurn (p : Frame α) : Frame α × Context α :=
  match p.sibling with
  | .node .red l b r => (⟨p.side,.red,p.a,RbTree.child p.side (.node .red l b r)⟩,
      [⟨p.side,.black,b,RbTree.child p.side.other (.node .red l b r)⟩])
  | _ => (p,[])

inductive Round (α : Type)
  | up (t : RbTree α)
  | done (t : RbTree α)

def Round.tree : Round α → RbTree α
  | .up t => t
  | .done t => t

/-- `t` is a black node short, and the frame's sibling is black. -/
def eraseRound (p : Frame α) (t : RbTree α) : Round α :=
  match p.sibling with
  | .nil => .done (p.fill t)
  | .node _ l b r =>
    let near := RbTree.child p.side (.node .black l b r)
    let far := RbTree.child p.side.other (.node .black l b r)
    if near.color = .black ∧ far.color = .black then .up (.make p.side p.color t p.a (.node .red l b r))
    else if far.color = .black then
      match near with
      | .nil => .done (p.fill t)
      | .node c nl n nr => .done (.make p.side p.color (.make p.side .black t p.a (RbTree.child p.side (.node c nl n nr))) n
          (.make p.side .black (RbTree.child p.side.other (.node c nl n nr)) b far))
    else .done (.make p.side p.color (.make p.side .black t p.a near) b far.setBlack)

theorem color_node (c : Color) (l r : RbTree α) (a : α) : (RbTree.node c l a r).color = c := rfl

section Round
variable (side : Side) (pc c nc : Color) (t near nearer inner far : RbTree α) (a b n : α)

theorem eraseRound_up (both : near.color = .black ∧ far.color = .black) :
    eraseRound ⟨side,pc,a,.make side c near b far⟩ t = .up (.make side pc t a (.make side .red near b far)) := by
  cases side <;> exact if_pos both

theorem eraseRound_near (farBlack : far.color = .black) :
    eraseRound ⟨side,pc,a,.make side c (.make side .red nearer n inner) b far⟩ t =
      .done (.make side pc (.make side .black t a nearer) n (.make side .black inner b far)) := by
  cases side <;> simp [eraseRound,RbTree.make,RbTree.child,Side.other,farBlack,color_node]

theorem eraseRound_far (farRed : far.color = .red) : eraseRound ⟨side,pc,a,.make side c near b far⟩ t =
    .done (.make side pc (.make side .black t a near) b far.setBlack) := by
  cases side <;> simp [eraseRound,RbTree.make,RbTree.child,Side.other,farRed]

theorem eraseTurn_red : eraseTurn ⟨side,pc,a,.make side .red near b far⟩ = (⟨side,.red,a,near⟩,[⟨side,.black,b,far⟩]) := by
  cases side <;> rfl

theorem eraseTurn_black {p : Frame α} (black : p.sibling.color = .black) : eraseTurn p = (p,[]) := by
  obtain ⟨side,pc,a,sibling⟩ := p
  rcases sibling with _ | ⟨_ | _,l,b,r⟩
  · rfl
  · cases black
  · rfl

end Round

/-- `t` is a black node short. -/
def eraseFix : RbTree α → Context α → RbTree α
  | t, [] => t.setBlack
  | t, p::ctx =>
    if t.color = .red then plug (p::ctx) t.setBlack
    else
      match eraseTurn p with
      | (p,above) =>
        match eraseRound p t with
        | .done t => (plug (above ++ ctx) t).setBlack
        | .up t => if above = [] then eraseFix t ctx else plug (above ++ ctx) t.setBlack

theorem toList_eraseTurn (p : Frame α) (t : RbTree α) :
    (plug (eraseTurn p).2 ((eraseTurn p).1.fill t)).toList = (p.fill t).toList := by
  obtain ⟨side,c,a,sib⟩ := p
  rcases sib with _ | ⟨_ | _,l,b,r⟩ <;> cases side <;> simp [eraseTurn,Frame.fill,RbTree.make,RbTree.toList,RbTree.child,Side.other,plug]

theorem toList_eraseRound (p : Frame α) (t : RbTree α) : (eraseRound p t).tree.toList = (p.fill t).toList := by
  obtain ⟨side,c,a,sib⟩ := p
  unfold eraseRound
  rcases sib with _ | ⟨sc,l,b,r⟩
  · rfl
  · dsimp only
    split_ifs
    · exact toList_make_congr rfl rfl
    · split
      · rfl
      · rename_i inner
        cases side <;> simp_all [Round.tree,Frame.fill,RbTree.make,RbTree.toList,RbTree.child,Side.other]
    · cases side <;> simp [Round.tree,Frame.fill,RbTree.make,RbTree.toList,RbTree.child,Side.other]

theorem toList_eraseFix (t : RbTree α) (ctx : Context α) : (eraseFix t ctx).toList = (plug ctx t).toList := by
  have round {p p' : Frame α} {above ctx : Context α} {t t' : RbTree α} (turned : eraseTurn p = (p',above))
      (rounded : (eraseRound p' t).tree = t') : (plug (above ++ ctx) t').toList = (plug (p::ctx) t).toList := by
    rw [plug_append]
    refine toList_plug_congr ctx ?_
    have moved := toList_eraseTurn p t
    rw [turned] at moved
    exact (toList_plug_congr above (rounded ▸ toList_eraseRound p' t)).trans moved
  fun_induction eraseFix t ctx with
  | case1 t => exact toList_setBlack t
  | case2 t p ctx red => exact toList_plug_congr _ (toList_setBlack t)
  | case3 t p ctx black p' above turned t' rounded => 
    rw [toList_setBlack]
    exact round turned (congrArg Round.tree rounded)
  | case4 t p ctx black p' t' rounded turned ih => exact ih.trans (round turned (congrArg Round.tree rounded))
  | case5 t p ctx black p' above turned t' rounded some =>
    exact (toList_plug_congr _ (toList_setBlack t')).trans (round turned (congrArg Round.tree rounded))

/-- `t` lacks a black node of the `n + 1` that its place asks for, and has a color to make up for it, or is to get it from above. -/
def Short (t : RbTree α) (n : Nat) : Prop := (t.color = .black ∧ Balanced t n) ∨ (t.color = .red ∧ Balanced t.setBlack (n + 1))

theorem Balanced.short {t : RbTree α} {n : Nat} (balanced : Balanced t n) : Short t n := by
  cases color : t.color with
  | black => exact Or.inl ⟨color,balanced⟩
  | red => exact Or.inr ⟨color,balanced_setBlack balanced color⟩

theorem balanced_make {side : Side} {c : Color} {near far : RbTree α} {a : α} {n : Nat} (nears : Balanced near n) (fars : Balanced far n)
    (colors : near.color = .black ∧ far.color = .black) : Balanced (.make side c near a far) (c.onto n) := by
  cases c with
  | red => exact balanced_make_red.mpr ⟨⟨colors.1,nears⟩,colors.2,fars⟩
  | black => exact balanced_make_black.mpr ⟨nears,fars⟩

theorem eraseTurn_fits {p : Frame α} {ctx : Context α} {n : Nat} (fits : Fits (p::ctx) n) :
    (eraseTurn p).1.sibling.color = .black ∧ Fits ((eraseTurn p).1::((eraseTurn p).2 ++ ctx)) n ∧
      ((eraseTurn p).2 ≠ [] → (eraseTurn p).1.color = .red) := by
  obtain ⟨side,c,a,sib⟩ := p
  rcases sib with _ | ⟨_ | _,l,b,r⟩
  · exact ⟨rfl,fits,fun some => absurd rfl some⟩
  · have black : c = .black := by
      refine color_ne_red.mp fun red => ?_
      exact absurd (fits_red fits red).1.1 (by rintro ⟨⟩)
    subst black
    obtain ⟨sib,fits⟩ := fits_black fits rfl
    rw [node_make side,balanced_make_red] at sib
    exact ⟨sib.1.1,⟨sib.1.2,fun _ => ⟨sib.1.1,rfl⟩,sib.2.2,by rintro ⟨⟩,fits⟩,fun _ => rfl⟩
  · exact ⟨rfl,fits,fun some => absurd rfl some⟩

/-- What a round does for a tree that is a black node short: it is done, or the node above is in the same way short. -/
theorem eraseRound_balanced {p : Frame α} {t : RbTree α} {n : Nat} (balanced : Balanced t n)
    (sibBlack : p.sibling.color = .black) (sib : Balanced p.sibling (n + 1)) :
    (∀ t', eraseRound p t = .done t' → t'.color = p.color ∧ Balanced t' (p.color.onto (n + 1))) ∧
      ∀ t', eraseRound p t = .up t' → t'.color = p.color ∧ Short t' (p.color.onto n) := by
  obtain ⟨side,c,a,sibling⟩ := p
  rcases sibling with _ | ⟨sc,l,b,r⟩
  · cases sib
  obtain rfl : sc = .black := sibBlack
  rw [node_make side,balanced_make_black] at sib
  obtain ⟨near,far⟩ := sib
  by_cases both : (RbTree.child side (.node .black l b r)).color = .black ∧ (RbTree.child side.other (.node .black l b r)).color = .black
  · have up : eraseRound ⟨side,c,a,.node .black l b r⟩ t = .up (.make side c t a (.node .red l b r)) := if_pos both
    rw [up]
    refine ⟨by rintro _ ⟨⟩,?_⟩
    rintro _ ⟨⟩
    refine ⟨make_color ..,?_⟩
    have red : Balanced (.node .red l b r) n := by
      rw [node_make side]
      cases side <;> exact balanced_make_red.mpr ⟨⟨both.1,near⟩,both.2,far⟩
    cases c with
    | red =>
      refine Or.inr ⟨make_color ..,?_⟩
      rw [setBlack_make]
      exact balanced_make_black.mpr ⟨balanced,red⟩
    | black => exact Or.inl ⟨make_color ..,balanced_make_black.mpr ⟨balanced,red⟩⟩
  refine ⟨?_,?_⟩ <;> unfold eraseRound <;> dsimp only <;> rw [if_neg both]
  · by_cases farBlack : (RbTree.child side.other (.node .black l b r)).color = .black
    · rw [if_pos farBlack]
      rcases nearIs : RbTree.child side (.node .black l b r) with _ | ⟨nc,nl,b',nr⟩
      · exact absurd ⟨congrArg RbTree.color nearIs,farBlack⟩ both
      rintro _ ⟨⟩
      have red : nc = .red := color_ne_black.mp fun black => both ⟨(congrArg RbTree.color nearIs).trans black,farBlack⟩
      subst red
      rw [nearIs,node_make side,balanced_make_red] at near
      refine ⟨make_color ..,balanced_make (balanced_make_black.mpr ⟨balanced,near.1.2⟩) ?_ ⟨make_color ..,make_color ..⟩⟩
      exact balanced_make_black.mpr ⟨near.2.2,far⟩
    · rw [if_neg farBlack]
      rintro _ ⟨⟩
      refine ⟨make_color ..,balanced_make (balanced_make_black.mpr ⟨balanced,near⟩) ?_ ⟨make_color ..,setBlack_color _⟩⟩
      exact balanced_setBlack far (color_ne_black.mp farBlack)
  · split_ifs
    · split <;> rintro _ ⟨⟩
    · rintro _ ⟨⟩

theorem eraseFix_valid {t : RbTree α} {ctx : Context α} {n : Nat} (short : Short t n) (fits : Fits ctx (n + 1)) :
    Valid (eraseFix t ctx) := by
  have blackened {t : RbTree α} {ctx : Context α} {n : Nat} (red : t.color = .red) (short : Short t n) (fits : Fits ctx (n + 1)) :
      Valid (plug ctx t.setBlack) := by
    rcases short with ⟨black,_⟩ | ⟨_,balanced⟩
    · exact absurd (red.symm.trans black) (by rintro ⟨⟩)
    · exact valid_plug.mpr ⟨n + 1,fits,balanced,fun _ => setBlack_color t⟩
  have onto {p : Frame α} {ctx : Context α} {n : Nat} (fits : Fits (p::ctx) (n + 1)) : Fits ctx (p.color.onto n + 1) := by
    have := fits.2.2
    cases color : p.color <;> rw [color] at this <;> exact this
  fun_induction eraseFix t ctx generalizing n with
  | case1 t =>
    rcases short with ⟨black,balanced⟩ | ⟨_,balanced⟩
    · exact ⟨setBlack_color t,n,(setBlack_of_black black).symm ▸ balanced⟩
    · exact ⟨setBlack_color t,n + 1,balanced⟩
  | case2 t p ctx red => exact blackened red short fits
  | case3 t p ctx black p' above turned t' rounded =>
    obtain ⟨_,balanced⟩ | ⟨red,_⟩ := short
    · have turn := eraseTurn_fits fits
      rw [turned] at turn
      obtain ⟨sibBlack,fits,_⟩ := turn
      have round := (eraseRound_balanced balanced sibBlack fits.1).1 t' rounded
      have valid : Valid (plug (above ++ ctx) t') := by
        refine valid_plug.mpr ⟨_,fits.2.2,round.2,fun red => ?_⟩
        refine round.1.trans (color_ne_red.mp fun pred => ?_)
        exact absurd (red.symm.trans (fits_red fits pred).2.1) (by rintro ⟨⟩)
      rw [valid.setBlack]
      exact valid
    · exact absurd red black
  | case4 t p ctx black p' t' rounded turned ih =>
    obtain ⟨_,balanced⟩ | ⟨red,_⟩ := short
    · have turn := eraseTurn_fits fits
      rw [turned] at turn
      obtain ⟨sibBlack,fits,_⟩ := turn
      have round := (eraseRound_balanced balanced sibBlack fits.1).2 t' rounded
      exact ih round.2 (onto fits)
    · exact absurd red black
  | case5 t p ctx black p' above turned t' rounded some =>
    obtain ⟨_,balanced⟩ | ⟨red,_⟩ := short
    · have turn := eraseTurn_fits fits
      rw [turned] at turn
      obtain ⟨sibBlack,fits,red⟩ := turn
      have round := (eraseRound_balanced balanced sibBlack fits.1).2 t' rounded
      exact blackened (round.1.trans (red some)) round.2 (onto fits)
    · exact absurd red black

end Ext4Fuse.Library.RedBlack
