import Mathlib.Algebra.Group.Nat.Defs
import Mathlib.Data.List.Basic
import Mathlib.Data.Nat.Log

/-! Red-black trees that are repaired from the inside out. A tree is the subtree at hand and the context around it: the nodes
above, from the inside out, each with its other child. -/
namespace Ext4Fuse.Library.RedBlack

inductive Color
  | red
  | black
  deriving DecidableEq

inductive Side
  | left
  | right
  deriving DecidableEq

/-- How many black nodes are on the ways down from a node of the color, when there are `n` below it. -/
def Color.onto : Color → Nat → Nat
  | .red, n => n
  | .black, n => n + 1

def Side.other : Side → Side
  | .left => .right
  | .right => .left

inductive RbTree (α : Type)
  | nil
  | node (color : Color) (left : RbTree α) (a : α) (right : RbTree α)
  deriving DecidableEq

structure Frame (α : Type) where
  side : Side
  color : Color
  a : α
  sibling : RbTree α

abbrev Context (α : Type) := List (Frame α)

variable {α : Type}

/-- A node whose child on `side` is `near`. -/
def RbTree.make (side : Side) (color : Color) (near : RbTree α) (a : α) (far : RbTree α) : RbTree α :=
  match side with
  | .left => .node color near a far
  | .right => .node color far a near

def RbTree.color : RbTree α → Color
  | .nil => .black
  | .node color _ _ _ => color

def RbTree.setBlack : RbTree α → RbTree α
  | .nil => .nil
  | .node _ l a r => .node .black l a r

def RbTree.toList : RbTree α → List α
  | .nil => []
  | .node _ l a r => l.toList ++ a::r.toList

def RbTree.size : RbTree α → Nat
  | .nil => 0
  | .node _ l _ r => l.size + r.size + 1

def RbTree.height : RbTree α → Nat
  | .nil => 0
  | .node _ l _ r => max l.height r.height + 1

def Frame.fill (f : Frame α) (t : RbTree α) : RbTree α := .make f.side f.color t f.a f.sibling

def plug : Context α → RbTree α → RbTree α
  | [], t => t
  | f::ctx, t => plug ctx (f.fill t)

def Frame.before (f : Frame α) : List α :=
  match f.side with
  | .left => []
  | .right => f.sibling.toList ++ [f.a]

def Frame.after (f : Frame α) : List α :=
  match f.side with
  | .left => f.a::f.sibling.toList
  | .right => []

def before : Context α → List α
  | [] => []
  | f::ctx => before ctx ++ f.before

def after : Context α → List α
  | [] => []
  | f::ctx => f.after ++ after ctx

@[simp] theorem toList_setBlack (t : RbTree α) : t.setBlack.toList = t.toList := by cases t <;> rfl

theorem setBlack_color (t : RbTree α) : t.setBlack.color = .black := by cases t <;> rfl

theorem length_toList (t : RbTree α) : t.toList.length = t.size := by
  induction t with
  | nil => rfl
  | node c l a r left right =>
    rw [RbTree.toList,List.length_append,List.length_cons,left,right]
    rfl

theorem toList_fill (f : Frame α) (t : RbTree α) : (f.fill t).toList = f.before ++ t.toList ++ f.after := by
  obtain ⟨side,color,a,sibling⟩ := f
  cases side <;> simp [Frame.fill,RbTree.make,Frame.before,Frame.after,RbTree.toList]

theorem toList_plug (ctx : Context α) (t : RbTree α) : (plug ctx t).toList = before ctx ++ t.toList ++ after ctx := by
  induction ctx generalizing t with
  | nil => simp [plug,before,after]
  | cons f ctx ih =>
    rw [plug,ih,toList_fill]
    simp [before,after]

/-- Repairs inside a context keep the order. -/
theorem toList_plug_congr {t t' : RbTree α} (ctx : Context α) (same : t'.toList = t.toList) :
    (plug ctx t').toList = (plug ctx t).toList := by
  rw [toList_plug,toList_plug,same]

theorem plug_append (inner outer : Context α) (t : RbTree α) : plug (inner ++ outer) t = plug outer (plug inner t) := by
  induction inner generalizing t with
  | nil => rfl
  | cons f inner ih => exact ih (f.fill t)

/-! Balance. -/

/-- No red node has a red child, and every way down passes `n` black nodes. -/
def Balanced : RbTree α → Nat → Prop
  | .nil, n => n = 0
  | .node .red l _ r, n => (l.color = .black ∧ Balanced l n) ∧ r.color = .black ∧ Balanced r n
  | .node .black l _ r, n => ∃ m, n = m + 1 ∧ Balanced l m ∧ Balanced r m

/-- The color above a context's hole; the root itself is to be black. -/
def rim : Context α → Color
  | [] => .red
  | f::_ => f.color

/-- What the context asks of the tree in its hole is that every way down passes `n` black nodes. -/
def Fits : Context α → Nat → Prop
  | [], _ => True
  | f::ctx, n => Balanced f.sibling n ∧ (f.color = .red → f.sibling.color = .black ∧ rim ctx = .black) ∧
      Fits ctx (f.color.onto n)

/-- A red-black tree. -/
def Valid (t : RbTree α) : Prop := t.color = .black ∧ ∃ n, Balanced t n

theorem balanced_make_red {side : Side} {near far : RbTree α} {a : α} {n : Nat} : Balanced (.make side .red near a far) n ↔
    (near.color = .black ∧ Balanced near n) ∧ far.color = .black ∧ Balanced far n := by
  cases side with
  | left => exact Iff.rfl
  | right => exact and_comm.trans (and_assoc.trans Iff.rfl) |>.trans (by tauto)

theorem balanced_make_black {side : Side} {near far : RbTree α} {a : α} {n : Nat} : Balanced (.make side .black near a far) (n + 1) ↔
    Balanced near n ∧ Balanced far n := by
  have both (l r : RbTree α) : Balanced (.node .black l a r) (n + 1) ↔ Balanced l n ∧ Balanced r n := by
    constructor
    · rintro ⟨m,equal,kids⟩
      exact Nat.succ.inj equal ▸ kids
    · exact fun kids => ⟨n,rfl,kids⟩
  cases side with
  | left => exact both near far
  | right => exact (both far near).trans and_comm

theorem make_color (side : Side) (color : Color) (near far : RbTree α) (a : α) : (RbTree.make side color near a far).color = color := by
  cases side <;> rfl

theorem balanced_setBlack {t : RbTree α} {n : Nat} (balanced : Balanced t n) (red : t.color = .red) : Balanced t.setBlack (n + 1) := by
  cases t with
  | nil => cases red
  | node c l a r =>
    obtain rfl : c = .red := red
    exact ⟨n,rfl,balanced.1.2,balanced.2.2⟩

theorem setBlack_of_black {t : RbTree α} (black : t.color = .black) : t.setBlack = t := by
  cases t with
  | nil => rfl
  | node c l a r =>
    obtain rfl : c = .black := black
    rfl

/-- One frame of a context, filled: the tree in the hole is balanced exactly when the frame's node is. -/
theorem fits_cons {f : Frame α} {ctx : Context α} {t : RbTree α} :
    (∃ n, Fits (f::ctx) n ∧ Balanced t n ∧ (f.color = .red → t.color = .black)) ↔
      ∃ n, Fits ctx n ∧ Balanced (f.fill t) n ∧ (rim ctx = .red → (f.fill t).color = .black) := by
  obtain ⟨side,color,a,sibling⟩ := f
  rw [Frame.fill,make_color]
  cases color with
  | red =>
    constructor
    · rintro ⟨n,⟨sib,black,fits⟩,balanced,rest⟩
      refine ⟨n,fits,balanced_make_red.mpr ⟨⟨rest rfl,balanced⟩,(black rfl).1,sib⟩,fun red => ?_⟩
      exact absurd ((black rfl).2.symm.trans red) (by decide)
    · rintro ⟨n,fits,balanced,rest⟩
      obtain ⟨⟨black,near⟩,sibBlack,sib⟩ := balanced_make_red.mp balanced
      refine ⟨n,⟨sib,fun _ => ⟨sibBlack,?_⟩,fits⟩,near,fun _ => black⟩
      cases above : rim ctx with
      | red => exact absurd (rest above) (by rintro ⟨⟩)
      | black => rfl
  | black =>
    constructor
    · rintro ⟨n,⟨sib,_,fits⟩,balanced,_⟩
      exact ⟨n + 1,fits,balanced_make_black.mpr ⟨balanced,sib⟩,fun _ => rfl⟩
    · rintro ⟨n,fits,balanced,_⟩
      cases n with
      | zero => 
        have no : ¬Balanced (.make side .black t a sibling) 0 := by
          cases side <;> exact fun ⟨_,zero,_⟩ => by cases zero
        exact absurd balanced no
      | succ n =>
        obtain ⟨near,sib⟩ := balanced_make_black.mp balanced
        exact ⟨n,⟨sib,by rintro ⟨⟩,fits⟩,near,by rintro ⟨⟩⟩

theorem valid_plug {ctx : Context α} {t : RbTree α} : Valid (plug ctx t) ↔
    ∃ n, Fits ctx n ∧ Balanced t n ∧ (rim ctx = .red → t.color = .black) := by
  induction ctx generalizing t with
  | nil =>
    constructor
    · rintro ⟨black,n,balanced⟩
      exact ⟨n,trivial,balanced,fun _ => black⟩
    · rintro ⟨n,_,balanced,black⟩
      exact ⟨black rfl,n,balanced⟩
  | cons f ctx ih => exact ih.trans fits_cons.symm

theorem Valid.setBlack {t : RbTree α} (valid : Valid t) : t.setBlack = t := setBlack_of_black valid.1

/-- The frames of a context ask for nothing that depends on what their nodes hold. -/
theorem fits_relabel {inner outer : Context α} {f g : Frame α} {n : Nat} (color : g.color = f.color) (sibling : g.sibling = f.sibling)
    (fits : Fits (inner ++ f::outer) n) : Fits (inner ++ g::outer) n := by
  have same : rim (g::outer) = rim (f::outer) := color
  induction inner generalizing n with
  | nil =>
    rw [List.nil_append,Fits,color,sibling]
    exact fits
  | cons h inner ih =>
    obtain ⟨sib,black,fits⟩ := fits
    refine ⟨sib,fun red => ⟨(black red).1,?_⟩,ih fits⟩
    cases inner with
    | nil => exact same.trans (black red).2
    | cons => exact (black red).2

/-! The depth of a balanced tree. -/

theorem size_balanced {t : RbTree α} {n : Nat} (balanced : Balanced t n) : 2 ^ n ≤ t.size + 1 := by
  induction t generalizing n with
  | nil =>
    obtain rfl : n = 0 := balanced
    exact Nat.le_refl 1
  | node c l a r left right =>
    cases c with
    | red =>
      have := left balanced.1.2
      rw [RbTree.size]
      omega
    | black =>
      obtain ⟨m,rfl,near,far⟩ := balanced
      have := left near
      have := right far
      rw [RbTree.size,Nat.pow_succ]
      omega

theorem height_balanced {t : RbTree α} {n : Nat} (balanced : Balanced t n) :
    t.height ≤ 2 * n + if t.color = .red then 1 else 0 := by
  induction t generalizing n with
  | nil => exact Nat.zero_le _
  | node c l a r left right =>
    cases c with
    | red =>
      obtain ⟨⟨nearBlack,near⟩,farBlack,far⟩ := balanced
      have one := left near
      have two := right far
      rw [if_neg (by rw [nearBlack]; decide)] at one
      rw [if_neg (by rw [farBlack]; decide)] at two
      have red : (RbTree.node .red l a r).color = .red := rfl
      rw [RbTree.height,if_pos red]
      omega
    | black =>
      obtain ⟨m,rfl,near,far⟩ := balanced
      have one := left near
      have two := right far
      have few (c : Color) : (if c = .red then 1 else 0) ≤ 1 := by split <;> omega
      have := few l.color
      have := few r.color
      rw [RbTree.height]
      omega

/-- No way down a red-black tree is longer than twice the logarithm of its size. -/
theorem Valid.height_le {t : RbTree α} (valid : Valid t) : t.height ≤ 2 * Nat.log 2 (t.size + 1) := by
  obtain ⟨black,n,balanced⟩ := valid
  have deep := height_balanced balanced
  rw [if_neg (by rw [black]; decide)] at deep
  have := Nat.le_log_of_pow_le (by decide) (size_balanced balanced)
  omega

theorem height_plug (ctx : Context α) (t : RbTree α) : ctx.length + t.height ≤ (plug ctx t).height := by
  induction ctx generalizing t with
  | nil => exact Nat.le_of_eq (Nat.zero_add _)
  | cons f ctx ih =>
    refine Nat.le_trans ?_ (ih (f.fill t))
    have deeper : t.height + 1 ≤ (f.fill t).height := by
      obtain ⟨side,color,a,sibling⟩ := f
      cases side <;> simp only [Frame.fill,RbTree.make,RbTree.height] <;> omega
    rw [List.length_cons]
    omega

end Ext4Fuse.Library.RedBlack
