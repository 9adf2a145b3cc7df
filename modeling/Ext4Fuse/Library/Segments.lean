import Mathlib.Order.Basic

/-! Lists whose items occupy intervals one after another, with the intervals given by
a relation so that an item may itself hold such a list. -/
namespace Ext4Fuse.Library.Segments

variable {α γ β : Type} [Preorder β] {occupies : α → β → β → Prop} {occupies' : γ → β → β → Prop} {lo lo' hi hi' : β}

/-- The items lie in order between the two bounds, and none begins before the one in front of it ends. -/
def Tiled (occupies : α → β → β → Prop) : β → List α → β → Prop
  | lo, [], hi => lo ≤ hi
  | lo, x::xs, hi => ∃ a b, lo ≤ a ∧ occupies x a b ∧ Tiled occupies b xs hi

theorem Tiled.widen {xs : List α} (tiled : Tiled occupies lo xs hi) (low : lo' ≤ lo) (high : hi ≤ hi') :
    Tiled occupies lo' xs hi' := by
  induction xs generalizing lo lo' with
  | nil => exact le_trans low (le_trans tiled high)
  | cons x xs ih =>
    obtain ⟨a,b,start,item,rest⟩ := tiled
    exact ⟨a,b,le_trans low start,item,ih rest le_rfl⟩

theorem tiled_append (xs ys : List α) :
    Tiled occupies lo (xs ++ ys) hi ↔ ∃ m, Tiled occupies lo xs m ∧ Tiled occupies m ys hi := by
  induction xs generalizing lo with
  | nil =>
    constructor
    · exact fun tiled => ⟨lo,le_refl lo,tiled⟩
    · exact fun ⟨m,low,tiled⟩ => tiled.widen low le_rfl
  | cons x xs ih =>
    constructor
    · rintro ⟨a,b,start,item,rest⟩
      obtain ⟨m,front,back⟩ := ih.mp rest
      exact ⟨m,⟨a,b,start,item,front⟩,back⟩
    · rintro ⟨m,⟨a,b,start,item,front⟩,back⟩
      exact ⟨a,b,start,item,ih.mpr ⟨m,front,back⟩⟩

/-- An item in the middle parts the list at the ends of its interval. -/
theorem tiled_middle (xs ys : List α) (x : α) :
    Tiled occupies lo (xs ++ x::ys) hi ↔
      ∃ a b, Tiled occupies lo xs a ∧ occupies x a b ∧ Tiled occupies b ys hi := by
  rw [tiled_append]
  constructor
  · rintro ⟨m,front,a,b,start,item,back⟩
    exact ⟨a,b,front.widen le_rfl start,item,back⟩
  · rintro ⟨a,b,front,item,back⟩
    exact ⟨a,front,a,b,le_rfl,item,back⟩

theorem Tiled.le {xs : List α} (forward : ∀ x a b, occupies x a b → a ≤ b) (tiled : Tiled occupies lo xs hi) :
    lo ≤ hi := by
  induction xs generalizing lo with
  | nil => exact tiled
  | cons x xs ih =>
    obtain ⟨a,b,start,item,rest⟩ := tiled
    exact le_trans start (le_trans (forward x a b item) (ih rest))

theorem Tiled.bounds {xs : List α} (forward : ∀ x a b, occupies x a b → a ≤ b) (tiled : Tiled occupies lo xs hi)
    {x : α} (member : x ∈ xs) : ∃ a b, lo ≤ a ∧ occupies x a b ∧ b ≤ hi := by
  obtain ⟨front,back,rfl⟩ := List.append_of_mem member
  obtain ⟨a,b,before,item,after⟩ := (tiled_middle front back x).mp tiled
  exact ⟨a,b,before.le forward,item,after.le forward⟩

theorem Tiled.sublist {xs ys : List α} (forward : ∀ x a b, occupies x a b → a ≤ b) (sub : ys.Sublist xs)
    (tiled : Tiled occupies lo xs hi) : Tiled occupies lo ys hi := by
  induction sub generalizing lo with
  | slnil => exact tiled
  | cons x _ ih =>
    obtain ⟨a,b,start,item,rest⟩ := tiled
    exact (ih rest).widen (le_trans start (forward x a b item)) le_rfl
  | cons_cons x _ ih =>
    obtain ⟨a,b,start,item,rest⟩ := tiled
    exact ⟨a,b,start,item,ih rest⟩

/-- Items that hold lists of smaller items, each inside its holder. -/
theorem Tiled.flatMap {xs : List α} {parts : α → List γ}
    (inside : ∀ x ∈ xs, ∀ a b, occupies x a b → Tiled occupies' a (parts x) b) (tiled : Tiled occupies lo xs hi) :
    Tiled occupies' lo (xs.flatMap parts) hi := by
  induction xs generalizing lo with
  | nil => exact tiled
  | cons x xs ih =>
    obtain ⟨a,b,start,item,rest⟩ := tiled
    rw [List.flatMap_cons,tiled_append]
    exact ⟨b,(inside x List.mem_cons_self a b item).widen start le_rfl,
      ih (fun y member => inside y (List.mem_cons_of_mem x member)) rest⟩

theorem Tiled.imp {xs : List α} {other : α → β → β → Prop} (tiled : Tiled occupies lo xs hi)
    (weaker : ∀ x ∈ xs, ∀ a b, occupies x a b → other x a b) : Tiled other lo xs hi := by
  induction xs generalizing lo with
  | nil => exact tiled
  | cons x xs ih =>
    obtain ⟨a,b,start,item,rest⟩ := tiled
    exact ⟨a,b,start,weaker x List.mem_cons_self a b item,
      ih rest fun y member => weaker y (List.mem_cons_of_mem x member)⟩

/-- The items begin in order. -/
theorem Tiled.sorted {xs : List α} {key : α → β} (starts : ∀ x a b, occupies x a b → key x = a)
    (forward : ∀ x a b, occupies x a b → a ≤ b) (tiled : Tiled occupies lo xs hi) :
    xs.Pairwise fun x y => key x ≤ key y := by
  induction xs generalizing lo with
  | nil => exact List.Pairwise.nil
  | cons x xs ih =>
    obtain ⟨a,b,start,item,rest⟩ := tiled
    refine List.pairwise_cons.mpr ⟨fun y member => ?_,ih rest⟩
    obtain ⟨a',b',after,item',_⟩ := rest.bounds forward member
    rw [starts x a b item,starts y a' b' item']
    exact le_trans (forward x a b item) after

/-- Each item ends before the ones behind it begin. -/
theorem Tiled.apart {xs : List α} {first last : α → β} (spans : ∀ x a b, occupies x a b → first x = a ∧ last x = b)
    (forward : ∀ x a b, occupies x a b → a ≤ b) (tiled : Tiled occupies lo xs hi) :
    xs.Pairwise fun x y => last x ≤ first y := by
  induction xs generalizing lo with
  | nil => exact List.Pairwise.nil
  | cons x xs ih =>
    obtain ⟨a,b,start,item,rest⟩ := tiled
    refine List.pairwise_cons.mpr ⟨fun y member => ?_,ih rest⟩
    obtain ⟨a',b',after,item',_⟩ := rest.bounds forward member
    rw [(spans x a b item).2,(spans y a' b' item').1]
    exact after

/-- One more item, in a place where it meets none of the others. -/
theorem Tiled.insert {xs ys : List α} {x : α} {a b : β} (tiled : Tiled occupies lo (xs ++ ys) hi) (item : occupies x a b)
    (low : lo ≤ a) (high : b ≤ hi) (before : ∀ y ∈ xs, ∀ c d, occupies y c d → d ≤ a)
    (after : ∀ y ∈ ys, ∀ c d, occupies y c d → b ≤ c) : Tiled occupies lo (xs ++ x::ys) hi := by
  induction xs generalizing lo with
  | nil =>
    refine ⟨a,b,low,item,?_⟩
    cases ys with
    | nil => exact high
    | cons y ys =>
      obtain ⟨c,d,_,next,rest⟩ := tiled
      exact ⟨c,d,after y List.mem_cons_self c d next,next,rest⟩
  | cons y xs ih =>
    obtain ⟨c,d,start,first,rest⟩ := tiled
    exact ⟨c,d,start,first,ih rest (before y List.mem_cons_self c d first) fun z member => before z (List.mem_cons_of_mem _ member)⟩

/-- Two lists side by side meet where the second begins. -/
theorem Tiled.cut {xs ys : List α} {y : α} {key : α → β} (starts : ∀ x a b, occupies x a b → key x = a)
    (tiled : Tiled occupies lo (xs ++ y::ys) hi) : Tiled occupies lo xs (key y) ∧ Tiled occupies (key y) (y::ys) hi := by
  obtain ⟨a,b,left,item,right⟩ := (tiled_middle xs ys y).mp tiled
  rw [starts y a b item]
  exact ⟨left,a,b,le_rfl,item,right⟩

end Ext4Fuse.Library.Segments
