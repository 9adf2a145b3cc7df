import Ext4Fuse.Rbtree.Erase

/-! The tree of the buffers of a device in memory: the comparison of two buffers, the search for a block, and what
`rb_insert` and `rb_erase` do to a tree that is in the order of the blocks. A buffer is known by the address of its
`b_rb_node`; `block` is its `b_blocknr`. -/
namespace Ext4Fuse.BufferRoot
open Rbtree Library.RedBlack Library.Owned Library.Partial

/-- The difference of two `uint64_t` as an `int64_t`. -/
def difference (a b : Nat) : Int := Int.bmod ((a : Int) - b) (2 ^ 64)

def bufferBlocknrCmp (block : Nat → Nat) (a b : Nat) : Int :=
  if difference (block a) (block b) < 0 then -1
  else if 0 < difference (block a) (block b) then 1
  else 0

/-- The loop of `__buffer_search` for fewer than `fuel` rounds. -/
def searchFrom (block : Nat → Nat) (s : State) (blocknr : Nat) : Nat → Nat → Option Nat
  | 0, _ => none
  | fuel + 1, new =>
    if new = 0 then some 0
    else do
      let n ← s.node new
      let result := difference blocknr (block new)
      if result < 0 then searchFrom block s blocknr fuel n.rbLeft
      else if 0 < result then searchFrom block s blocknr fuel n.rbRight
      else some new

/-- `__buffer_search`. -/
def bufferSearch (block : Nat → Nat) (fuel : Nat) (s : State) (blocknr : Nat) : Option Nat :=
  searchFrom block s blocknr fuel s.root.rbNode

/-- A node that `malloc` hands out and `memset` clears; no other one is at its address. -/
def alloc (s : State) (a : Nat) : Option State :=
  if fresh : (a ≠ 0 ∧ a % 4 = 0) ∧ s.node a = none then
    some {s with
      node := Function.update s.node a (some ⟨0,0,0⟩)
      placed := by
        intro b r held
        by_cases same : b = a
        · exact same ▸ fresh.1
        · rw [Function.update_of_ne same] at held
          exact s.placed b r held}
  else none

def free (s : State) (a : Nat) : State :=
  {s with
    node := Function.update s.node a none
    placed := by
      intro b r held
      by_cases same : b = a
      · rw [same,Function.update_self] at held
        cases held
      · rw [Function.update_of_ne same] at held
        exact s.placed b r held}

/-- The nodes are in the order of their blocks, none of which is so large that a difference would wrap. -/
structure Ordered (block : Nat → Nat) (nodes : List Nat) : Prop where
  order : nodes.Pairwise fun a b => block a < block b
  small : ∀ a ∈ nodes, block a < 2 ^ 63

theorem difference_eq {a b : Nat} (small : a < 2 ^ 63) (small' : b < 2 ^ 63) : difference a b = (a : Int) - b := by
  rw [difference,Int.bmod_eq_of_le] <;> omega

/-- How a block compares with that of a node. -/
def towards (block : Nat → Nat) (blocknr a : Nat) : Ordering := compare blocknr (block a)

theorem goes_towards {block : Nat → Nat} {node a : Nat} (small : block node < 2 ^ 63) (small' : block a < 2 ^ 63) :
    goes (bufferBlocknrCmp block) node a = towards block (block node) a := by
  unfold goes bufferBlocknrCmp towards
  rw [difference_eq small small']
  rcases Nat.lt_trichotomy (block node) (block a) with less | same | more
  · have negative : (block node : Int) - block a < 0 := by omega
    rw [Nat.compare_eq_lt.mpr less]
    simp [negative]
  · rw [Nat.compare_eq_eq.mpr same]
    simp [same]
  · have positive : 0 < (block node : Int) - block a := by omega
    rw [Nat.compare_eq_gt.mpr more]
    rw [if_neg (Int.not_lt.mpr (Int.le_of_lt positive)),if_pos positive]
    rfl

theorem Ordered.sorted {block : Nat → Nat} {nodes : List Nat} (ordered : Ordered block nodes) (blocknr : Nat) :
    Sorted (towards block blocknr) nodes := by
  refine ordered.order.imp fun {a b} less => ?_
  unfold towards
  rcases Nat.lt_or_ge (block a) blocknr with before | after
  · exact Or.inl (Nat.compare_eq_gt.mpr before)
  · exact Or.inr (Nat.compare_eq_lt.mpr (Nat.lt_of_le_of_lt after less))

/-- The nodes are in the order of `buffer_blocknr_cmp`. -/
theorem Ordered.sortedCmp {block : Nat → Nat} {nodes : List Nat} {node : Nat} (ordered : Ordered block nodes) (small : block node < 2 ^ 63) :
    Sorted (goes (bufferBlocknrCmp block) node) nodes := by
  refine List.Pairwise.imp_of_mem (fun {a b} member member' apart => ?_) (ordered.sorted (block node))
  rw [goes_towards small (ordered.small a member),goes_towards small (ordered.small b member')]
  exact apart

section Search
variable {block : Nat → Nat} {s : State} {ctx : Context Nat} {t : RbTree Nat} {blocknr first last fuel : Nat}
variable {rest : Multiset (Nat × RbNode)}

theorem searchFrom_eq (holds : Holds s (plug ctx t) first last rest) (small : blocknr < 2 ^ 63) (smalls : ∀ a ∈ t.toList, block a < 2 ^ 63)
    (enough : t.height < fuel) :
    searchFrom block s blocknr fuel (top t) = some (top (locate (towards block blocknr) t ctx).1) := by
  obtain ⟨fuel,rfl⟩ : ∃ k, fuel = k + 1 := ⟨fuel - 1,by omega⟩
  induction t generalizing ctx fuel with
  | nil => rfl
  | node c l a r left right =>
    have node := @Holds.node s ctx .left c l r a _ _ _ holds
    have placed := @Holds.placed s ctx .left c l r a _ _ _ holds
    have here : block a < 2 ^ 63 := smalls a (by simp [RbTree.toList])
    rw [RbTree.height] at enough
    obtain ⟨fuel,rfl⟩ : ∃ k, fuel = k + 1 := ⟨fuel - 1,by omega⟩
    rw [top,searchFrom,if_neg placed.1,node,difference_eq small here,locate]
    simp only [Option.bind_eq_bind,Option.bind_some]
    unfold towards
    rcases Nat.lt_trichotomy blocknr (block a) with less | same | more
    · rw [if_pos (by omega),Nat.compare_eq_lt.mpr less]
      exact left holds (fun b member => smalls b (by simp [RbTree.toList,member])) fuel (by omega)
    · rw [if_neg (by omega),if_neg (by omega),Nat.compare_eq_eq.mpr same]
      rfl
    · rw [if_neg (by omega),if_pos (by omega),Nat.compare_eq_gt.mpr more]
      exact right holds (fun b member => smalls b (by simp [RbTree.toList,member])) fuel (by omega)

end Search

/-- The buffer that a tree with these nodes holds for a block. -/
def mapOf (block : Nat → Nat) (nodes : List Nat) (blocknr : Nat) : Option Nat := nodes.find? fun a => block a = blocknr

section Maps
variable {block : Nat → Nat} {nodes : List Nat} {a b blocknr : Nat}

theorem Ordered.nodup (ordered : Ordered block nodes) : nodes.Nodup :=
  (List.Nodup.of_map block (List.pairwise_map.mpr (ordered.order.imp fun less => Nat.ne_of_lt less)))

theorem Ordered.injective (ordered : Ordered block nodes) (member : a ∈ nodes) (member' : b ∈ nodes) (same : block a = block b) :
    a = b := by
  have distinct : (nodes.map block).Nodup := List.pairwise_map.mpr (ordered.order.imp fun less => Nat.ne_of_lt less)
  exact List.inj_on_of_nodup_map distinct member member' same

theorem mapOf_eq_some (ordered : Ordered block nodes) : mapOf block nodes blocknr = some a ↔ a ∈ nodes ∧ block a = blocknr := by
  have sound {b blocknr : Nat} (found : mapOf block nodes blocknr = some b) : b ∈ nodes ∧ block b = blocknr :=
    ⟨List.mem_of_find?_eq_some found,of_decide_eq_true (List.find?_some (p := fun a => decide (block a = blocknr)) found)⟩
  constructor
  · exact sound
  · rintro ⟨member,rfl⟩
    cases found : mapOf block nodes (block a) with
    | none => exact absurd (decide_eq_true rfl) (List.find?_eq_none.mp found a member)
    | some b => rw [ordered.injective (sound found).1 member (sound found).2]

theorem mapOf_eq_none : mapOf block nodes blocknr = none ↔ ∀ a ∈ nodes, block a ≠ blocknr := by
  rw [mapOf,List.find?_eq_none]
  simp

theorem towards_eq : towards block blocknr a = .eq ↔ block a = blocknr := Nat.compare_eq_eq.trans eq_comm

/-- Putting in a node whose block is not there yet, between the nodes of lesser and of greater blocks. -/
theorem Ordered.put {smaller larger : List Nat} {node : Nat} (ordered : Ordered block (smaller ++ larger)) (small : block node < 2 ^ 63)
    (less : ∀ a ∈ smaller, block a < block node) (more : ∀ a ∈ larger, block node < block a) :
    Ordered block (smaller ++ node::larger) where
  order := by
    obtain ⟨one,two,apart⟩ := List.pairwise_append.mp ordered.order
    refine List.pairwise_append.mpr ⟨one,List.pairwise_cons.mpr ⟨more,two⟩,fun a early b late => ?_⟩
    rcases List.mem_cons.mp late with rfl | later
    · exact less a early
    · exact apart a early b later
  small a member := by
    rcases List.mem_append.mp member with early | late
    · exact ordered.small a (List.mem_append_left _ early)
    · rcases List.mem_cons.mp late with rfl | later
      · exact small
      · exact ordered.small a (List.mem_append_right _ later)

theorem Ordered.erase (ordered : Ordered block nodes) (a : Nat) : Ordered block (nodes.erase a) :=
  ⟨ordered.order.sublist List.erase_sublist,fun b member => ordered.small b (List.mem_of_mem_erase member)⟩

theorem Ordered.congr {block' : Nat → Nat} (ordered : Ordered block nodes) (same : ∀ a ∈ nodes, block' a = block a) : Ordered block' nodes where
  order := ordered.order.imp_of_mem fun {a b} member member' less => by rwa [same a member,same b member']
  small a member := same a member ▸ ordered.small a member

theorem mapOf_congr {block' : Nat → Nat} (same : ∀ a ∈ nodes, block' a = block a) (blocknr : Nat) :
    mapOf block' nodes blocknr = mapOf block nodes blocknr := by
  induction nodes with
  | nil => rfl
  | cons a nodes ih =>
    have later := ih fun b member => same b (List.mem_cons_of_mem _ member)
    rw [mapOf] at later ⊢
    rw [mapOf,List.find?_cons,List.find?_cons,same a List.mem_cons_self,later,← mapOf]

theorem mapOf_put {nodes' : List Nat} (ordered : Ordered block nodes) (ordered' : Ordered block nodes') (perm : nodes'.Perm (a::nodes))
    (blocknr : Nat) : mapOf block nodes' blocknr = if blocknr = block a then some a else mapOf block nodes blocknr := by
  refine Option.ext fun b => ?_
  split
  · rename_i here
    rw [mapOf_eq_some ordered',perm.mem_iff,Option.some_inj]
    constructor
    · rintro ⟨member,same⟩
      exact ordered'.injective (perm.mem_iff.mpr List.mem_cons_self) (perm.mem_iff.mpr member) (here ▸ same.symm)
    · rintro rfl
      exact ⟨List.mem_cons_self,here.symm⟩
  · rename_i there
    rw [mapOf_eq_some ordered',mapOf_eq_some ordered,perm.mem_iff,List.mem_cons]
    constructor
    · rintro ⟨rfl | member,same⟩
      · exact absurd same.symm there
      · exact ⟨member,same⟩
    · exact fun found => ⟨Or.inr found.1,found.2⟩

theorem mapOf_erase (ordered : Ordered block nodes) (member : a ∈ nodes) (blocknr : Nat) :
    mapOf block (nodes.erase a) blocknr = if blocknr = block a then none else mapOf block nodes blocknr := by
  refine Option.ext fun b => ?_
  rw [mapOf_eq_some (ordered.erase a),ordered.nodup.mem_erase_iff]
  split
  · rename_i here
    refine ⟨fun found => absurd ?_ found.1.1,nofun⟩
    exact ordered.injective found.1.2 member (found.2.trans here)
  · rename_i there
    rw [mapOf_eq_some ordered]
    refine ⟨fun found => ⟨found.1.2,found.2⟩,fun found => ⟨⟨?_,found.1⟩,found.2⟩⟩
    rintro rfl
    exact there found.2.symm

end Maps

section Memory
variable {s : State} {t : RbTree Nat} {a : Nat} {r : RbNode} {rest : Multiset (Nat × RbNode)}

theorem alloc_stored (stored : Stored s t rest) (usable : (a ≠ 0 ∧ a % 4 = 0) ∧ s.node a = none) :
    Yields (alloc s a) fun s' => Stored s' t ({(a,⟨0,0,0⟩)} + rest) := by
  refine ⟨_,dif_pos usable,⟨?_,stored.holds.root⟩,stored.valid⟩
  have fresh (r : RbNode) : (a,r) ∉ cells 0 t + rest := fun member => by
    have held := stored.holds.owns.held _ member
    rw [usable.2] at held
    cases held
  exact (stored.holds.owns.alloc fresh ⟨0,0,0⟩).split (add_left_comm ..)

theorem free_stored (stored : Stored s t ({(a,r)} + rest)) : Stored (free s a) t rest :=
  ⟨⟨(stored.holds.owns.split (add_left_comm ..)).free,stored.holds.root⟩,stored.valid⟩

end Memory

section Calls
variable {block : Nat → Nat} {s : State} {t : RbTree Nat} {blocknr node fuel : Nat} {r : RbNode}
variable {rest : Multiset (Nat × RbNode)}

/-- `__buffer_search` finds the buffer of a block if the tree has one, and goes down at most to the deepest place of the tree. -/
theorem bufferSearch_eq (stored : Stored s t rest) (ordered : Ordered block t.toList) (small : blocknr < 2 ^ 63)
    (enough : deepest t.toList.length < fuel) :
    bufferSearch block fuel s blocknr = some ((mapOf block t.toList blocknr).getD 0) := by
  have found := @searchFrom_eq block s [] t blocknr _ _ fuel rest stored.holds small ordered.small
    (Nat.lt_of_le_of_lt stored.height_le enough)
  rw [bufferSearch,stored.holds.root,found]
  rcases locate_toList (ordered.sorted blocknr) with ⟨c,l,a,r,ctx,located,member,equal⟩ | ⟨ctx,located,whole,between⟩
  · rw [located,(mapOf_eq_some ordered).mpr ⟨member,towards_eq.mp equal⟩]
    rfl
  · have absent : mapOf block t.toList blocknr = none := by
      refine mapOf_eq_none.mpr fun a member same => ?_
      rw [← whole] at member
      exact between.ne member (towards_eq.mpr same)
    rw [located,absent]
    rfl

/-- `buffer_insert`: the tree takes in a buffer of a block that it does not hold, at its place. -/
theorem bufferInsert_absent (stored : Stored s t ({(node,r)} + rest)) (ordered : Ordered block t.toList) (small : block node < 2 ^ 63)
    (enough : deepest t.toList.length < fuel) (absent : mapOf block t.toList (block node) = none) :
    Yields (rbInsert (bufferBlocknrCmp block) fuel s node) fun s' => ∃ t', Stored s' t' rest ∧ Ordered block t'.toList ∧
      t'.toList.Perm (node::t.toList) := by
  have same (a : Nat) (member : a ∈ t.toList) := goes_towards small (ordered.small a member)
  have sorted := ordered.sortedCmp small
  have fresh (a : Nat) (member : a ∈ t.toList) : goes (bufferBlocknrCmp block) node a ≠ .eq := by
    rw [same a member]
    exact fun equal => mapOf_eq_none.mp absent a member (towards_eq.mp equal)
  refine (rbInsert_absent stored sorted (Nat.lt_of_le_of_lt stored.height_le enough) fresh).imp ?_
  rintro s' ⟨t',stored',smaller,larger,list,list',less,more⟩
  rw [list] at ordered same
  refine ⟨t',stored',?_,?_⟩
  · rw [list']
    refine ordered.put small (fun a member => ?_) fun a member => ?_
    · have greater := less a member
      rw [same a (List.mem_append_left _ member)] at greater
      exact Nat.compare_eq_gt.mp greater
    · have lesser := more a member
      rw [same a (List.mem_append_right _ member)] at lesser
      exact Nat.compare_eq_lt.mp lesser
  · rw [list,list']
    exact List.perm_middle

/-- `buffer_insert` of a second buffer of a block does nothing. -/
theorem bufferInsert_present (stored : Stored s t rest) (ordered : Ordered block t.toList) (small : block node < 2 ^ 63)
    (enough : deepest t.toList.length < fuel) (present : mapOf block t.toList (block node) ≠ none) :
    rbInsert (bufferBlocknrCmp block) fuel s node = some s := by
  have same (a : Nat) (member : a ∈ t.toList) := goes_towards small (ordered.small a member)
  have sorted := ordered.sortedCmp small
  obtain ⟨a,found⟩ := Option.ne_none_iff_exists'.mp present
  obtain ⟨member,equal⟩ := (mapOf_eq_some ordered).mp found
  refine rbInsert_present stored sorted (Nat.lt_of_le_of_lt stored.height_le enough) ⟨a,member,?_⟩
  rw [same a member]
  exact towards_eq.mpr equal

end Calls

end Ext4Fuse.BufferRoot
