import Ext4Fuse.Rbtree.Replace
import Ext4Fuse.Rbtree.Erase

/-! Runs of `rb_insert` and `rb_erase` on one root, against a list that is kept in order. -/
namespace Ext4Fuse.Rbtree
open Library.RedBlack Library.Owned Library.Partial

inductive Change
  | insert (node : Nat)
  | erase (node : Nat)

def Change.node : Change → Nat
  | .insert node => node
  | .erase node => node

def change (cmp : Nat → Nat → Int) (fuel : Nat) (s : State) : Change → Option State
  | .insert node => rbInsert cmp fuel s node
  | .erase node => rbErase fuel s node

/-- What the change is to do to the nodes in their order. -/
def Change.apply (cmp : Nat → Nat → Int) (xs : List Nat) : Change → List Nat
  | .insert node =>
    if ∃ a ∈ xs, cmp node a = 0 then xs
    else (xs.takeWhile fun a => 0 < cmp node a) ++ node::xs.dropWhile fun a => 0 < cmp node a
  | .erase node => xs.erase node

/-- Nodes of the pool that are not in the tree may be inserted, and nodes of the tree erased. -/
def Change.Fair (pool xs : List Nat) : Change → Prop
  | .insert node => node ∈ pool ∧ node ∉ xs
  | .erase node => node ∈ xs

instance (pool xs : List Nat) : (c : Change) → Decidable (c.Fair pool xs)
  | .insert node => inferInstanceAs (Decidable (node ∈ pool ∧ node ∉ xs))
  | .erase node => inferInstanceAs (Decidable (node ∈ xs))

/-- Every change of a row is fair where it comes. -/
def Fair (cmp : Nat → Nat → Int) (pool : List Nat) : List Nat → List Change → Prop
  | _, [] => True
  | xs, c::changes => c.Fair pool xs ∧ Fair cmp pool (c.apply cmp xs) changes

/-- The comparison is that of a key. -/
def Compares {β : Type} [LinearOrder β] (cmp : Nat → Nat → Int) (key : Nat → β) : Prop :=
  ∀ a b, (cmp a b < 0 ↔ key a < key b) ∧ (0 < cmp a b ↔ key b < key a)

/-- The memory holds the nodes of the pool, and a tree of some of them in the order of their keys. -/
structure Kept {β : Type} [LinearOrder β] (key : Nat → β) (pool : List Nat) (s : State) (xs : List Nat) (t : RbTree Nat)
    (rest : Multiset (Nat × RbNode)) : Prop where
  stored : Stored s t rest
  list : t.toList = xs
  order : xs.Pairwise fun a b => key a < key b
  pool : (xs : Multiset Nat) + rest.map Prod.fst = pool

section Run
variable {β : Type} [LinearOrder β] {key : Nat → β} {cmp : Nat → Nat → Int} {pool xs : List Nat} {s : State} {t : RbTree Nat} {fuel : Nat}
variable {rest : Multiset (Nat × RbNode)}

theorem goes_eq (compares : Compares cmp key) (a b : Nat) : goes cmp a b = if key a < key b then .lt else if key b < key a then .gt else .eq := by
  unfold goes
  simp only [(compares a b).1,(compares a b).2]

theorem Kept.few (kept : Kept key pool s xs t rest) : t.toList.length ≤ pool.length := by
  have count := congrArg Multiset.card kept.pool
  rw [Multiset.card_add,Multiset.coe_card,Multiset.coe_card] at count
  rw [kept.list]
  omega

theorem Kept.deep (kept : Kept key pool s xs t rest) (enough : deepest pool.length < fuel) : t.height < fuel :=
  Nat.lt_of_le_of_lt (Nat.le_trans kept.stored.height_le
    (Nat.mul_le_mul_left 2 (Nat.log_mono_right (Nat.succ_le_succ kept.few)))) enough

theorem Kept.sorted (kept : Kept key pool s xs t rest) (compares : Compares cmp key) (node : Nat) : Sorted (goes cmp node) t.toList := by
  rw [kept.list]
  refine kept.order.imp fun {a b} less => ?_
  rw [goes_eq compares,goes_eq compares]
  rcases lt_or_ge (key a) (key node) with before | after
  · left
    rw [if_neg (not_lt.mpr before.le),if_pos before]
  · right
    rw [if_pos (lt_of_le_of_lt after less)]

theorem goes_nil (compares : Compares cmp key) {node a : Nat} : goes cmp node a = .eq ↔ cmp node a = 0 := by
  have both := compares node a
  unfold goes
  split
  · simp only [reduceCtorEq,false_iff]
    omega
  · split
    · simp only [reduceCtorEq,false_iff]
      omega
    · simp only [true_iff]
      omega

theorem goes_gt {node a : Nat} (greater : goes cmp node a = .gt) : 0 < cmp node a := by
  unfold goes at greater
  split at greater
  · cases greater
  · split at greater
    · assumption
    · cases greater

theorem goes_lt {node a : Nat} (less : goes cmp node a = .lt) : cmp node a < 0 := by
  unfold goes at less
  split at less
  · assumption
  · split at less <;> cases less

theorem takeWhile_split {smaller larger : List Nat} {p : Nat → Bool} (early : ∀ a ∈ smaller, p a = true) (late : ∀ a ∈ larger, p a = false) :
    (smaller ++ larger).takeWhile p = smaller ∧ (smaller ++ larger).dropWhile p = larger := by
  rw [List.takeWhile_append_of_pos early,List.dropWhile_append_of_pos early]
  cases larger with
  | nil => exact ⟨List.append_nil _,rfl⟩
  | cons a larger =>
    have no : ¬p a = true := by
      rw [late a List.mem_cons_self]
      exact Bool.false_ne_true
    exact ⟨by rw [List.takeWhile_cons_of_neg no,List.append_nil],List.dropWhile_cons_of_neg no⟩

theorem insert_kept (kept : Kept key pool s xs t rest) (compares : Compares cmp key) {node : Nat} (member : node ∈ pool) (absent : node ∉ xs)
    (enough : deepest pool.length < fuel) : Yields (rbInsert cmp fuel s node) fun s' => ∃ t' rest',
      Kept key pool s' ((Change.insert node).apply cmp xs) t' rest' := by
  have sorted := kept.sorted compares node
  have deep := kept.deep enough
  by_cases equal : ∃ a ∈ xs, cmp node a = 0
  · obtain ⟨a,inside,same⟩ := equal
    refine ⟨s,rbInsert_present kept.stored sorted deep ⟨a,kept.list ▸ inside,(goes_nil compares).mpr same⟩,t,rest,?_⟩
    rw [Change.apply,if_pos ⟨a,inside,same⟩]
    exact kept
  rw [Change.apply,if_neg equal]
  have beside : node ∈ rest.map Prod.fst := by
    have whole : node ∈ (xs : Multiset Nat) + rest.map Prod.fst := by rwa [kept.pool,Multiset.mem_coe]
    exact (Multiset.mem_add.mp whole).resolve_left absent
  obtain ⟨⟨a,r⟩,cell,same⟩ := Multiset.mem_map.mp beside
  obtain rfl : a = node := same
  obtain ⟨rest,rfl⟩ := Multiset.exists_cons_of_mem cell
  have fresh (b : Nat) (inside : b ∈ t.toList) : goes cmp a b ≠ .eq := fun same =>
    equal ⟨b,kept.list ▸ inside,(goes_nil compares).mp same⟩
  refine (rbInsert_absent kept.stored sorted deep fresh).imp ?_
  rintro s' ⟨t',stored,smaller,larger,list,list',less,more⟩
  have halves := @takeWhile_split smaller larger (fun b => 0 < cmp a b) (fun b early => decide_eq_true (goes_gt (less b early)))
    fun b late => decide_eq_false (Int.not_lt.mpr (goes_lt (more b late)).le)
  have whole := kept.list
  rw [list] at whole
  subst whole
  refine ⟨t',rest,stored,?_,?_,?_⟩
  · rw [list',halves.1,halves.2]
  · rw [halves.1,halves.2]
    obtain ⟨one,two,apart⟩ := List.pairwise_append.mp kept.order
    refine List.pairwise_append.mpr ⟨one,List.pairwise_cons.mpr ⟨fun b late => ?_,two⟩,fun b early b' late => ?_⟩
    · exact (compares a b).1.mp (goes_lt (more b late))
    · rcases List.mem_cons.mp late with rfl | later
      · exact (compares _ b).2.mp (goes_gt (less b early))
      · exact apart b early b' later
  · rw [halves.1,halves.2,← kept.pool,Multiset.map_cons,Multiset.add_cons,← Multiset.cons_add,Multiset.cons_coe]
    congr 1
    exact Multiset.coe_eq_coe.mpr List.perm_middle

theorem erase_kept (kept : Kept key pool s xs t rest) {node : Nat} (member : node ∈ xs) (enough : deepest pool.length < fuel) :
    Yields (rbErase fuel s node) fun s' => ∃ t' rest', Kept key pool s' (xs.erase node) t' rest' := by
  refine (rbErase_yields kept.stored (kept.list ▸ member) (kept.deep enough)).imp ?_
  rintro s' ⟨t',o,stored,list⟩
  refine ⟨t',_,stored,by rw [list,kept.list],kept.order.sublist List.erase_sublist,?_⟩
  rw [Multiset.map_add,Multiset.map_singleton,← kept.pool,← add_assoc]
  congr 1
  rw [← Multiset.coe_erase,add_comm]
  exact Multiset.cons_erase (Multiset.mem_coe.mpr member)

theorem change_kept (kept : Kept key pool s xs t rest) (compares : Compares cmp key) {c : Change} (fair : c.Fair pool xs)
    (enough : deepest pool.length < fuel) : Yields (change cmp fuel s c) fun s' => ∃ t' rest', Kept key pool s' (c.apply cmp xs) t' rest' := by
  cases c with
  | insert node => exact insert_kept kept compares fair.1 fair.2 enough
  | erase node => exact erase_kept kept fair enough

theorem changes_kept (kept : Kept key pool s xs t rest) (compares : Compares cmp key) {changes : List Change}
    (fair : Fair cmp pool xs changes) (enough : deepest pool.length < fuel) : Yields (changes.foldlM (change cmp fuel) s) fun s' =>
      ∃ t' rest', Kept key pool s' (changes.foldl (Change.apply cmp) xs) t' rest' := by
  induction changes generalizing s xs t rest with
  | nil => exact yields_some ⟨t,rest,kept⟩
  | cons c changes ih =>
    refine (change_kept kept compares fair.1 enough).bind ?_
    rintro s' ⟨t',rest',kept'⟩
    exact ih kept' fair.2

/-- The nodes of the pool are in memory beside an empty tree. -/
theorem start_kept (distinct : pool.Nodup) (allocated : ∀ a ∈ pool, s.node a ≠ none) (empty : s.root = ⟨0,0,0⟩) :
    ∃ rest, Kept key pool s [] .nil rest := by
  have held : ∃ rest : Multiset (Nat × RbNode), rest.map Prod.fst = pool ∧ Owns s.node rest := by
    clear empty
    induction pool with
    | nil => exact ⟨0,rfl,Multiset.nodup_zero,by rintro c ⟨⟩⟩
    | cons a pool ih =>
      obtain ⟨rest,nodes,owns⟩ := ih (List.nodup_cons.mp distinct).2 fun b member => allocated b (List.mem_cons_of_mem a member)
      obtain ⟨r,here⟩ := Option.ne_none_iff_exists'.mp (allocated a List.mem_cons_self)
      refine ⟨_,?_,owns.take here fun r' member => ?_⟩
      · rw [Multiset.map_add,nodes]
        rfl
      · have inside := Multiset.mem_map_of_mem Prod.fst member
        rw [nodes] at inside
        exact (List.nodup_cons.mp distinct).1 inside
  obtain ⟨rest,nodes,owns⟩ := held
  exact ⟨rest,⟨⟨owns.split (zero_add _).symm,empty⟩,rfl,0,rfl⟩,rfl,List.Pairwise.nil,(zero_add _).trans nodes⟩

/-- Whatever nodes are inserted and erased, in whatever order, the tree stays a red-black tree of the nodes that are in it, in the
order of their keys and no deeper than twice the logarithm of their number, and the root keeps its first and its last node. -/
theorem rb_changes (compares : Compares cmp key) (distinct : pool.Nodup) (allocated : ∀ a ∈ pool, s.node a ≠ none)
    (empty : s.root = ⟨0,0,0⟩) {changes : List Change} (fair : Fair cmp pool [] changes) :
    Yields (changes.foldlM (change cmp (deepest pool.length + 1)) s) fun s' => ∃ t rest, Stored s' t rest ∧
      t.toList = changes.foldl (Change.apply cmp) [] ∧ t.toList.Pairwise (fun a b => key a < key b) ∧
        t.height ≤ deepest t.toList.length := by
  obtain ⟨rest,kept⟩ := @start_kept _ _ key _ _ distinct allocated empty
  refine (changes_kept kept compares fair (Nat.lt_succ_self _)).imp ?_
  rintro s' ⟨t,rest',kept'⟩
  exact ⟨t,rest',kept'.stored,kept'.list,kept'.list.symm ▸ kept'.order,kept'.stored.height_le⟩

end Run

/-- Three nodes and an empty tree. -/
def three : State where
  node a := if a ∈ [16,32,48] then some ⟨0,0,0⟩ else none
  placed a r held := by
    split at held
    · rename_i member
      simp only [List.mem_cons,List.not_mem_nil,or_false] at member
      omega
    · cases held
  root := ⟨0,0,0⟩

/-- The nodes are compared by their addresses. -/
def byAddress (a b : Nat) : Int := (a : Int) - b

theorem byAddress_compares : Compares byAddress id := by
  intro a b
  simp only [byAddress,id]
  omega

theorem three_allocated (a : Nat) (member : a ∈ [16,32,48]) : three.node a ≠ none := by
  have held : three.node a = some ⟨0,0,0⟩ := if_pos member
  rw [held]
  exact Option.some_ne_none _

theorem rb_changes_three : Yields ([Change.insert 32,.insert 48,.insert 16,.erase 32].foldlM (change byAddress 5) three) fun s' =>
    ∃ t rest, Stored s' t rest ∧ t.toList = [16,48] := by
  have fair : Fair byAddress [16,32,48] [] [.insert 32,.insert 48,.insert 16,.erase 32] :=
    ⟨by decide,by decide,by decide,by decide,trivial⟩
  refine (rb_changes byAddress_compares (by decide) three_allocated rfl fair).imp ?_
  rintro s' ⟨t,rest,stored,list,_⟩
  exact ⟨t,rest,stored,list.trans (by decide)⟩

/-- `rb_first_fast`. -/
def rbFirstFast (s : State) : Nat := s.root.rbLeftmost

/-- `rb_last_fast`. -/
def rbLastFast (s : State) : Nat := s.root.rbRightmost

theorem stored_walks {s : State} {t : RbTree Nat} {rest : Multiset (Nat × RbNode)} {fuel : Nat} (stored : Stored s t rest)
    (deep : t.height < fuel) : rbFirst fuel s = some (rbFirstFast s) ∧ rbLast fuel s = some (rbLastFast s) ∧
      visit .left fuel s (t.toList.length + 1) (rbFirstFast s) = some t.toList ∧
        visit .right fuel s (t.toList.length + 1) (rbLastFast s) = some t.toList.reverse := by
  have holds := stored.holds
  have leftmost : rbFirstFast s = endOf .left t := congrArg RbRoot.rbLeftmost holds.root
  have rightmost : rbLastFast s = endOf .right t := congrArg RbRoot.rbRightmost holds.root
  rw [leftmost,rightmost]
  have whole (side : Side) : order side t.toList = [] ++ order side t.toList := rfl
  refine ⟨rbEnd_eq .left holds deep.le,rbEnd_eq .right holds deep.le,?_,?_⟩
  · exact visit_at .left holds deep (whole .left) (Nat.lt_succ_self _)
  · exact visit_at .right holds deep (whole .right) (Nat.lt_succ_of_le (List.length_reverse ..).le)

/-- After any such run the first and the last node that the root keeps are those that `rb_first` and `rb_last` find, and from them
`rb_next` and `rb_prev` come to every node of the tree once, in its order and against it. -/
theorem rb_walks {β : Type} [LinearOrder β] {key : Nat → β} {cmp : Nat → Nat → Int} {pool : List Nat} {s : State} {changes : List Change}
    (compares : Compares cmp key) (distinct : pool.Nodup) (allocated : ∀ a ∈ pool, s.node a ≠ none) (empty : s.root = ⟨0,0,0⟩)
    (fair : Fair cmp pool [] changes) : Yields (changes.foldlM (change cmp (deepest pool.length + 1)) s) fun s' =>
      ∃ xs, changes.foldl (Change.apply cmp) [] = xs ∧ xs.Nodup ∧
        rbFirst (deepest pool.length + 1) s' = some (rbFirstFast s') ∧ rbLast (deepest pool.length + 1) s' = some (rbLastFast s') ∧
          visit .left (deepest pool.length + 1) s' (xs.length + 1) (rbFirstFast s') = some xs ∧
            visit .right (deepest pool.length + 1) s' (xs.length + 1) (rbLastFast s') = some xs.reverse := by
  obtain ⟨rest,kept⟩ := @start_kept _ _ key _ _ distinct allocated empty
  refine (changes_kept kept compares fair (Nat.lt_succ_self _)).imp ?_
  rintro s' ⟨t,rest',kept'⟩
  have list := kept'.list
  have walks := stored_walks kept'.stored (kept'.deep (Nat.lt_succ_self _))
  have once := kept'.stored.holds.nodup
  rw [list] at walks once
  exact ⟨_,rfl,once,walks⟩

theorem rb_walks_three : Yields ([Change.insert 32,.insert 48,.insert 16].foldlM (change byAddress 5) three) fun s' =>
    s'.root = ⟨32,16,48⟩ ∧ rbLast 5 s' = some 48 ∧ visit .left 5 s' 4 16 = some [16,32,48] ∧ visit .right 5 s' 4 48 = some [48,32,16] := by
  have ends : ([Change.insert 32,.insert 48,.insert 16].foldlM (change byAddress 5) three).map State.root = some ⟨32,16,48⟩ := by decide
  have fair : Fair byAddress [16,32,48] [] [.insert 32,.insert 48,.insert 16] := ⟨by decide,by decide,by decide,trivial⟩
  obtain ⟨s',done,xs,rfl,_,_,last,forward,back⟩ := rb_walks byAddress_compares (by decide) three_allocated rfl fair
  rw [show deepest [16,32,48].length + 1 = 5 by decide] at done last forward back
  rw [done] at ends
  have root := Option.some.inj ends
  have first_ : rbFirstFast s' = 16 := congrArg RbRoot.rbLeftmost root
  have last_ : rbLastFast s' = 48 := congrArg RbRoot.rbRightmost root
  rw [first_] at forward
  rw [last_] at last back
  exact ⟨s',done,root,last,forward.trans (by decide),back.trans (by decide)⟩

end Ext4Fuse.Rbtree
