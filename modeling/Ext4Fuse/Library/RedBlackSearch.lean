import Ext4Fuse.Library.RedBlackRepair

/-! The ways through a tree: down to the place of a node, to the first or last node of a subtree, and up to the next one. What
takes a node out finds the one to put in its place this way. -/
namespace Ext4Fuse.Library.RedBlack

variable {α : Type}

/-! Reading a list from either end. -/

def order : Side → List α → List α
  | .left, xs => xs
  | .right, xs => xs.reverse

/-- What is read after the hole of a context, and everything in it, when one reads from `side`. -/
def onward (side : Side) (ctx : Context α) : List α :=
  match side with
  | .left => after ctx
  | .right => (before ctx).reverse

/-- The way from a node to the first one of its subtree from `side`. -/
def extreme : Side → RbTree α → Context α → RbTree α × Context α
  | _, .nil, ctx => (.nil,ctx)
  | .left, .node c .nil a r, ctx => (.node c .nil a r,ctx)
  | .right, .node c l a .nil, ctx => (.node c l a .nil,ctx)
  | .left, .node c (.node c' l' a' r') a r, ctx => extreme .left (.node c' l' a' r') (⟨.left,c,a,r⟩::ctx)
  | .right, .node c l a (.node c' l' a' r'), ctx => extreme .right (.node c' l' a' r') (⟨.right,c,a,l⟩::ctx)

/-- Induction on a tree that is read from `side`. -/
@[elab_as_elim] theorem RbTree.inductionFrom (side : Side) {motive : RbTree α → Prop} (nil : motive .nil)
    (make : ∀ c near a far, motive near → motive far → motive (.make side c near a far)) (t : RbTree α) : motive t := by
  induction t with
  | nil => exact nil
  | node c l a r left right =>
    cases side with
    | left => exact make c l a r left right
    | right => exact make c r a l right left

theorem extreme_stop (side : Side) (c : Color) (far : RbTree α) (a : α) (ctx : Context α) :
    extreme side (.make side c .nil a far) ctx = (.make side c .nil a far,ctx) := by
  cases side <;> simp [RbTree.make,extreme]

theorem extreme_go {side : Side} {near : RbTree α} (exists_ : near ≠ .nil) (c : Color) (far : RbTree α) (a : α) (ctx : Context α) :
    extreme side (.make side c near a far) ctx = extreme side near (⟨side,c,a,far⟩::ctx) := by
  cases near with
  | nil => exact absurd rfl exists_
  | node => cases side <;> simp [RbTree.make,extreme]

theorem order_make (side : Side) (c : Color) (near far : RbTree α) (a : α) :
    order side (RbTree.make side c near a far).toList = order side near.toList ++ a::order side far.toList := by
  cases side <;> simp [order,RbTree.make,RbTree.toList]

/-- The first node from `side` has no child there, and is reached through frames of that side. -/
theorem extreme_spec (side : Side) {t : RbTree α} (exists_ : t ≠ .nil) (ctx : Context α) :
    ∃ c a far spine, extreme side t ctx = (.make side c .nil a far,spine ++ ctx) ∧ plug spine (.make side c .nil a far) = t ∧
      (∀ f ∈ spine, f.side = side) ∧ (order side t.toList).head? = some a := by
  induction t using RbTree.inductionFrom side generalizing ctx with
  | nil => exact absurd rfl exists_
  | make c near a far ih _ =>
    by_cases end_ : near = .nil
    · subst end_
      refine ⟨c,a,far,[],extreme_stop ..,rfl,by rintro _ ⟨⟩,?_⟩
      rw [order_make]
      cases side <;> rfl
    · obtain ⟨c',a',far',spine,found,plugged,sides,first⟩ := ih end_ (⟨side,c,a,far⟩::ctx)
      refine ⟨c',a',far',spine ++ [⟨side,c,a,far⟩],?_,?_,fun f member => ?_,?_⟩
      · rw [extreme_go end_,found,List.append_assoc]
        rfl
      · rw [plug_append,plugged]
        rfl
      · rcases List.mem_append.mp member with inner | last
        · exact sides f inner
        · rw [List.mem_singleton.mp last]
      · rw [order_make,List.head?_append,first]
        rfl

theorem onward_cons (side : Side) (f : Frame α) (ctx : Context α) :
    onward side (f::ctx) = (if f.side = side then f.a::order side f.sibling.toList else []) ++ onward side ctx := by
  obtain ⟨fside,c,a,sibling⟩ := f
  cases side <;> cases fside <;> simp [onward,after,before,Frame.after,Frame.before,order]

/-- Every node of a tree is at the top of a subtree of it. -/
theorem exists_plug {t : RbTree α} {a : α} (member : a ∈ t.toList) : ∃ ctx c l r, plug ctx (.node c l a r) = t := by
  have inside (t : RbTree α) (member : a ∈ t.toList) (ctx : Context α) :
      ∃ inner c l r, plug (inner ++ ctx) (.node c l a r) = plug ctx t := by
    induction t generalizing ctx with
    | nil => cases member
    | node c l b r left right =>
      rcases List.mem_append.mp member with there | there
      · obtain ⟨inner,c',l',r',found⟩ := left there (⟨.left,c,b,r⟩::ctx)
        exact ⟨inner ++ [⟨.left,c,b,r⟩],c',l',r',by rw [List.append_assoc]; exact found⟩
      · rcases List.mem_cons.mp there with rfl | there
        · exact ⟨[],c,l,r,rfl⟩
        · obtain ⟨inner,c',l',r',found⟩ := right there (⟨.right,c,b,l⟩::ctx)
          exact ⟨inner ++ [⟨.right,c,b,l⟩],c',l',r',by rw [List.append_assoc]; exact found⟩
  obtain ⟨inner,c,l,r,found⟩ := inside t member []
  exact ⟨inner,c,l,r,List.append_nil inner ▸ found⟩

theorem toList_around (ctx : Context α) (c : Color) (l r : RbTree α) (a : α) :
    (plug ctx (.node c l a r)).toList = (before ctx ++ l.toList) ++ a::(r.toList ++ after ctx) := by
  rw [toList_plug]
  simp [RbTree.toList]

/-! Taking a node out. -/

/-- `t` comes in the place of a node of color `c`. -/
def unlink (ctx : Context α) (c : Color) (t : RbTree α) : RbTree α := if c = .black then eraseFix t ctx else plug ctx t

/-- The top node goes; when it has both children, the first node to its right takes its place and color. -/
def remove (ctx : Context α) : RbTree α → RbTree α
  | .nil => plug ctx .nil
  | .node c .nil _ r => unlink ctx c r
  | .node c l _ .nil => unlink ctx c l
  | .node c l _ r =>
    match extreme .left r [] with
    | (.nil,_) => plug ctx .nil
    | (.node c' _ y r',spine) => unlink (spine ++ ⟨.right,c,y,l⟩::ctx) c' r'

theorem toList_unlink (ctx : Context α) (c : Color) (t : RbTree α) : (unlink ctx c t).toList = (plug ctx t).toList := by
  unfold unlink
  split
  · exact toList_eraseFix t ctx
  · rfl

/-- The other child of a black node with no child on one side is a black node short in its place. -/
theorem unlink_short {ctx : Context α} {side : Side} {a : α} {t : RbTree α} (valid : Valid (plug ctx (.make side .black .nil a t))) :
    ∃ n, Short t n ∧ Fits ctx (n + 1) := by
  obtain ⟨n,fits,balanced,_⟩ := valid_plug.mp valid
  cases n with
  | zero =>
    have none_ : ¬Balanced (.make side .black .nil a t) 0 := by cases side <;> exact fun ⟨_,zero,_⟩ => by cases zero
    exact absurd balanced none_
  | succ n => exact ⟨n,(balanced_make_black.mp balanced).2.short,fits⟩

/-- A node with no child on one side may give its place to the other child. -/
theorem unlink_valid {ctx : Context α} {side : Side} {c : Color} {a : α} {t : RbTree α} (valid : Valid (plug ctx (.make side c .nil a t))) :
    Valid (unlink ctx c t) := by
  cases c with
  | red =>
    obtain ⟨n,fits,balanced,_⟩ := valid_plug.mp valid
    obtain ⟨_,black,far⟩ := balanced_make_red.mp balanced
    exact valid_plug.mpr ⟨n,fits,far,fun _ => black⟩
  | black =>
    obtain ⟨n,short,fits⟩ := unlink_short valid
    exact eraseFix_valid short fits

theorem before_append (inner outer : Context α) : before (inner ++ outer) = before outer ++ before inner := by
  induction inner with
  | nil => exact (List.append_nil _).symm
  | cons f inner ih => simp only [List.cons_append,before,ih,List.append_assoc]

theorem after_append (inner outer : Context α) : after (inner ++ outer) = after inner ++ after outer := by
  induction inner with
  | nil => rfl
  | cons f inner ih => simp only [List.cons_append,after,ih,List.append_assoc]

theorem before_left {ctx : Context α} (sides : ∀ f ∈ ctx, f.side = .left) : before ctx = [] := by
  induction ctx with
  | nil => rfl
  | cons f ctx ih =>
    rw [before,ih fun g member => sides g (List.mem_cons_of_mem f member),Frame.before,sides f List.mem_cons_self]
    rfl

/-- A node is the first one of a tree, and is reached through the frames of a spine. -/
structure First (t : RbTree α) (c : Color) (a : α) (far : RbTree α) (spine : Context α) : Prop where
  plugged : plug spine (.node c .nil a far) = t
  sides : ∀ f ∈ spine, f.side = .left
  first : t.toList.head? = some a

theorem node_extreme {r : RbTree α} (exists_ : r ≠ .nil) :
    ∃ c a far spine, extreme .left r [] = (.node c .nil a far,spine) ∧ First r c a far spine := by
  obtain ⟨c,a,far,spine,found,plugged,sides,first⟩ := extreme_spec .left exists_ []
  exact ⟨c,a,far,spine,List.append_nil spine ▸ found,plugged,sides,first⟩

/-- What a case of `remove` needs to be told. -/
theorem remove_cases (ctx : Context α) (c : Color) (l r : RbTree α) (a : α) :
    (l = .nil ∧ remove ctx (.node c l a r) = unlink ctx c r) ∨ (l ≠ .nil ∧ r = .nil ∧ remove ctx (.node c l a r) = unlink ctx c l) ∨
      (l ≠ .nil ∧ r ≠ .nil ∧ ∃ c' y r' spine, First r c' y r' spine ∧
        remove ctx (.node c l a r) = unlink (spine ++ ⟨.right,c,y,l⟩::ctx) c' r') := by
  cases l with
  | nil => exact Or.inl ⟨rfl,rfl⟩
  | node lc ll la lr =>
    cases r with
    | nil => exact Or.inr (Or.inl ⟨by rintro ⟨⟩,rfl,rfl⟩)
    | node rc rl ra rr =>
      obtain ⟨c',y,r',spine,found,first⟩ := @node_extreme _ (.node rc rl ra rr) (by rintro ⟨⟩)
      refine Or.inr (Or.inr ⟨by rintro ⟨⟩,by rintro ⟨⟩,c',y,r',spine,first,?_⟩)
      rw [remove,found]
      · rintro ⟨⟩
      · rintro ⟨⟩

theorem toList_remove (ctx : Context α) (c : Color) (l r : RbTree α) (a : α) :
    (remove ctx (.node c l a r)).toList = before ctx ++ (l.toList ++ r.toList) ++ after ctx := by
  obtain ⟨rfl,removed⟩ | ⟨_,rfl,removed⟩ | ⟨_,_,c',y,r',spine,next,removed⟩ := remove_cases ctx c l r a
  · rw [removed,toList_unlink,toList_plug]
    rfl
  · rw [removed,toList_unlink,toList_plug]
    simp [RbTree.toList]
  · rw [removed,toList_unlink,toList_plug,← next.plugged,toList_plug,before_append,after_append,before_left next.sides]
    simp [before,after,Frame.before,Frame.after,RbTree.toList]

/-- With the next node in the place of the one that goes, and still in its own place too, the tree is balanced. -/
theorem replaced_valid {ctx spine : Context α} {c c' : Color} {l r r' : RbTree α} {a y : α}
    (plugged : plug spine (.node c' .nil y r') = r) (valid : Valid (plug ctx (.node c l a r))) :
    Valid (plug (spine ++ ⟨.right,c,y,l⟩::ctx) (.node c' .nil y r')) := by
  have whole : plug ctx (.node c l a r) = plug (spine ++ ⟨.right,c,a,l⟩::ctx) (.node c' .nil y r') := by
    rw [plug_append,plugged]
    rfl
  rw [whole] at valid
  obtain ⟨n,fits,balanced,black⟩ := valid_plug.mp valid
  refine valid_plug.mpr ⟨n,@fits_relabel _ _ _ ⟨.right,c,a,l⟩ _ _ rfl rfl fits,balanced,?_⟩
  cases spine with
  | nil => exact black
  | cons => exact black

theorem remove_valid {ctx : Context α} {c : Color} {l r : RbTree α} {a : α} (valid : Valid (plug ctx (.node c l a r))) :
    Valid (remove ctx (.node c l a r)) := by
  obtain ⟨rfl,removed⟩ | ⟨_,rfl,removed⟩ | ⟨_,_,c',y,r',spine,next,removed⟩ := remove_cases ctx c l r a
  · rw [removed]
    exact @unlink_valid _ ctx .left c a r valid
  · rw [removed]
    exact @unlink_valid _ ctx .right c a l valid
  · rw [removed]
    exact @unlink_valid _ _ .left c' y r' (replaced_valid next.plugged valid)

/-! Finding the place of a node. -/

/-- Down to the place of what is looked for; `go a` says how that compares with `a`. -/
def locate (go : α → Ordering) : RbTree α → Context α → RbTree α × Context α
  | .nil, ctx => (.nil,ctx)
  | .node c l a r, ctx =>
    match go a with
    | .lt => locate go l (⟨.left,c,a,r⟩::ctx)
    | .eq => (.node c l a r,ctx)
    | .gt => locate go r (⟨.right,c,a,l⟩::ctx)

/-- First what is less than what is looked for, at most one that is equal, and then what is greater. -/
def Sorted (go : α → Ordering) (xs : List α) : Prop := xs.Pairwise fun x y => go x = .gt ∨ go y = .lt

/-- The context separates what is less from what is greater. -/
structure Between (go : α → Ordering) (ctx : Context α) : Prop where
  before : ∀ x ∈ before ctx, go x = .gt
  after : ∀ y ∈ after ctx, go y = .lt

/-- What the context of an empty place holds is not what is looked for. -/
theorem Between.ne {go : α → Ordering} {ctx : Context α} {a : α} (between : Between go ctx) (member : a ∈ (plug ctx .nil).toList) :
    go a ≠ .eq := by
  rw [toList_plug] at member
  simp only [RbTree.toList,List.append_nil,List.mem_append] at member
  rcases member with less | more
  · rw [between.before a less]
    rintro ⟨⟩
  · rw [between.after a more]
    rintro ⟨⟩

theorem locate_spec {go : α → Ordering} {t : RbTree α} {ctx : Context α} (sorted : Sorted go t.toList) (between : Between go ctx) :
    ∃ t' ctx', locate go t ctx = (t',ctx') ∧ plug ctx' t' = plug ctx t ∧ Between go ctx' ∧
      (t' = .nil ∨ ∃ c l a r, t' = .node c l a r ∧ go a = .eq) := by
  induction t generalizing ctx with
  | nil => exact ⟨.nil,ctx,rfl,rfl,between,Or.inl rfl⟩
  | node c l a r left right =>
    obtain ⟨lefts,others,apart⟩ := List.pairwise_append.mp sorted
    obtain ⟨later,rights⟩ := List.pairwise_cons.mp others
    rw [locate]
    cases at_ : go a with
    | lt =>
      refine left lefts ⟨fun x member => ?_,fun y member => ?_⟩
      · exact between.before x (by simpa [before,Frame.before] using member)
      · simp only [after,Frame.after,List.cons_append,List.mem_cons,List.mem_append] at member
        rcases member with rfl | inside | beyond
        · exact at_
        · exact (later y inside).resolve_left (by rw [at_]; rintro ⟨⟩)
        · exact between.after y beyond
    | eq => exact ⟨_,ctx,rfl,rfl,between,Or.inr ⟨c,l,a,r,rfl,at_⟩⟩
    | gt =>
      refine right rights ⟨fun x member => ?_,fun y member => ?_⟩
      · simp only [before,Frame.before,List.mem_cons,List.mem_append,List.not_mem_nil,or_false] at member
        rcases member with beyond | inside | rfl
        · exact between.before x beyond
        · exact (apart x inside a List.mem_cons_self).resolve_right (by rw [at_]; rintro ⟨⟩)
        · exact at_
      · exact between.after y (by simpa [after,Frame.after] using member)

/-- A new red node at the bottom of a context, and the repair. -/
def insertAt (ctx : Context α) (a : α) : RbTree α := insertFix (.node .red .nil a .nil) ctx

theorem toList_insertAt (ctx : Context α) (a : α) : (insertAt ctx a).toList = before ctx ++ a::after ctx := by
  rw [insertAt,toList_insertFix _ _ rfl,toList_plug]
  simp [RbTree.toList]

theorem insertAt_valid {ctx : Context α} (valid : Valid (plug ctx .nil)) (a : α) : Valid (insertAt ctx a) := by
  obtain ⟨n,fits,zero,_⟩ := valid_plug.mp valid
  exact insertFix_valid rfl ⟨⟨rfl,zero⟩,rfl,zero⟩ fits

end Ext4Fuse.Library.RedBlack
