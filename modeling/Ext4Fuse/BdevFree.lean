import Ext4Fuse.BufferMachine

/-! The end of `bdev_free`: what is left of the tree and of the free list, and which buffers are freed. -/
namespace Ext4Fuse.BufferMemory
open Rbtree BufferRoot BufferLists BufferCache BufferSections Library.RedBlack Library.Partial Library.Steps

variable {α : Type}

/-- `wait_on_buffer` comes back at once when `b_event` is posted; a wait for a completion has no result here. -/
def waitOnBuffer (bEvent : Nat → Bool) (bh : Nat) : Option Unit := if bEvent bh then some () else none

/-- The loop of `bdev_free` for fewer than `fuel` rounds; the buffers are given in the order in which they are freed. -/
def Memory.bdevFree (depth : Nat) (bEvent : Nat → Bool) : Nat → Memory → Option (List Nat × Memory)
  | 0, _ => none
  | fuel + 1, m => do
    let node ← rbFirst depth m.tree
    if node = 0 then return ([],m)
    else
      waitOnBuffer bEvent node
      let empty ← m.bFreelistEmpty node
      let m ← m.detachBhFromFreelist node empty
      let m ← m.bufferRemove depth node
      let (freed,m) ← bdevFree depth bEvent fuel (m.bufferFree node)
      return (node::freed,m)

section Loop
variable {m : Memory} {t : RbTree Nat} {rest : Multiset (Nat × RbNode)} {xs : List Nat} {depth fuel : Nat} {bEvent : Nat → Bool}

theorem erase_filter {a : Nat} {as : List Nat} (distinct : xs.Nodup) :
    (xs.erase a).filter (fun b => b ∉ as) = xs.filter fun b => b ∉ a::as := by
  rw [distinct.erase_eq_filter,List.filter_filter]
  refine List.filter_congr fun b _ => ?_
  simp only [List.mem_cons,not_or,Bool.decide_and,decide_not]
  rw [Bool.and_comm]
  rfl

theorem first_eq {first last : Nat} (holds : Holds m.tree t first last rest) (enough : deepest t.toList.length < depth) (valid : Valid t) :
    rbFirst depth m.tree = some (t.toList.head?.getD 0) := by
  have low : t.height ≤ depth := by
    have := valid.height_le
    rw [← length_toList] at this
    exact Nat.le_of_lt (Nat.lt_of_le_of_lt this enough)
  exact rbEnd_eq .left holds low

theorem detach_yields {live : Nat → Prop} {a : Nat} (lists : m.bdBhFree.Lists xs live) (here : live a) :
    Yields (m.bFreelistEmpty a >>= m.detachBhFromFreelist a) fun m' => m'.tree = m.tree ∧ m'.bdBhFree.Lists (xs.erase a) live :=
  yields_bind (empty_eq lists here) ((takeOut_lists lists here (empty_eq lists here)).map fun _ lists' => ⟨rfl,lists'⟩)

theorem remove_yields {a : Nat} (stored : Stored m.tree t rest) (member : a ∈ t.toList) (enough : deepest t.toList.length < depth) :
    Yields (m.bufferRemove depth a) fun m' => m'.bdBhFree = m.bdBhFree ∧
      ∃ t' o, Stored m'.tree t' ({(a,o)} + rest) ∧ t'.toList = t.toList.erase a :=
  (rbErase_yields stored member (Nat.lt_of_le_of_lt stored.height_le enough)).map fun _ erased => ⟨rfl,erased⟩

/-- The buffers of the tree are freed in the order of their blocks, each of them once. -/
theorem bdevFree_yields (stored : Stored m.tree t rest) (lists : m.bdBhFree.Lists xs fun a => a ∈ t.toList)
    (posted : ∀ a ∈ t.toList, bEvent a = true) (enough : deepest t.toList.length < depth) (rounds : t.toList.length < fuel) :
    Yields (m.bdevFree depth bEvent fuel) fun r =>
      r.1 = t.toList ∧ Stored r.2.tree .nil rest ∧ r.2.bdBhFree.Lists (xs.filter fun a => a ∉ t.toList) fun _ => False := by
  have first := first_eq stored.holds enough stored.valid
  have distinct := stored.holds.nodup
  obtain ⟨nodes,list⟩ : ∃ nodes, t.toList = nodes := ⟨_,rfl⟩
  obtain ⟨fuel,rfl⟩ : ∃ k, fuel = k + 1 := ⟨fuel - 1,by omega⟩
  induction nodes generalizing m t xs fuel with
  | nil =>
    obtain rfl : t = .nil := by
      cases t with
      | nil => rfl
      | node c l a r => simp [RbTree.toList] at list
    refine yields_bind first (yields_some ⟨rfl,stored,?_⟩)
    have all : (xs.filter fun a => a ∉ (.nil : RbTree Nat).toList) = xs := List.filter_eq_self.mpr fun a _ => rfl
    rw [all]
    exact lists.fewer fun a => False.elim
  | cons a as ih =>
    have member : a ∈ t.toList := list ▸ List.mem_cons_self
    rw [list,List.length_cons] at rounds
    rw [list] at first distinct
    obtain ⟨fuel,rfl⟩ : ∃ k, fuel = k + 1 := ⟨fuel - 1,by omega⟩
    refine yields_bind first ?_
    rw [if_neg (show ¬(a::as).head?.getD 0 = 0 from stored.holds.ne_zero member)]
    refine yields_bind (if_pos (posted a member)) ?_
    rw [← bind_assoc]
    refine (detach_yields lists member).bind ?_
    rintro m₁ ⟨tree,lists₁⟩
    refine (remove_yields (tree ▸ stored) member enough).bind ?_
    rintro m₂ ⟨free,t',o,stored₂,erased⟩
    have list' : t'.toList = as := by rw [erased,list,List.erase_cons_head]
    have fewer (b : Nat) (later : b ∈ t'.toList) : b ≠ a ∧ b ∈ t.toList := by
      rw [list'] at later
      rw [list]
      exact ⟨fun same => (List.nodup_cons.mp distinct).1 (same ▸ later),List.mem_cons_of_mem a later⟩
    have lists₂ : (m₂.bufferFree a).bdBhFree.Lists (xs.erase a) fun b => b ∈ t'.toList := by
      rw [← free] at lists₁
      exact (free_lists lists₁ lists.nodup.not_mem_erase).fewer fewer
    have stored₃ : Stored (m₂.bufferFree a).tree t' rest := free_stored stored₂
    have enough' : deepest t'.toList.length < depth := by
      refine Nat.lt_of_le_of_lt (Nat.mul_le_mul_left 2 (Nat.log_mono_right ?_)) enough
      rw [list,list',List.length_cons]
      omega
    have posted' (b : Nat) (later : b ∈ t'.toList) : bEvent b = true := posted b (fewer b later).2
    refine (ih stored₃ lists₂ posted' enough' (first_eq stored₃.holds enough' stored₃.valid) stored₃.holds.nodup list' fuel (by rw [list']; omega)).bind ?_
    rintro ⟨freed,m₃⟩ ⟨order,stored₄,lists₃⟩
    refine yields_some ⟨?_,stored₄,?_⟩
    · have freed_eq : freed = as := order.trans list'
      rw [list,freed_eq]
      rfl
    · rw [list,← erase_filter lists.nodup,← list']
      exact lists₃

end Loop

section Shows
variable {m : Memory} {addr : Nat → Nat} {c : Cache α} {depth fuel : Nat} {bEvent : Nat → Bool}

/-- What the tree holds is freed, and the free list keeps what the tree did not hold. -/
theorem Shows.bdevFree (shows : Shows m addr c) (posted : ∀ a, Live addr c.buffer a → bEvent a = true) (enough : deepest c.next < depth)
    (rounds : c.next < fuel) : Yields (m.bdevFree depth bEvent fuel) fun r => (∀ a, a ∈ r.1 ↔ ∃ b i, c.root b = some i ∧ addr i = a) ∧
      r.1.Pairwise (fun a b => m.bBlocknr a < m.bBlocknr b) ∧ r.2.tree.root = ⟨0,0,0⟩ ∧
        r.2.bdBhFree.Lists ((c.bdBhFree.map addr).filter fun a => a ∉ r.1) fun _ => False := by
  obtain ⟨t,rest,rooted⟩ := shows.tree
  have few := rooted.few_nodes shows.fresh
  have deep := Nat.lt_of_le_of_lt (rooted.few shows.fresh) enough
  have lists := shows.free.fewer fun a member => rooted.nodes a member
  refine (bdevFree_yields rooted.stored lists (fun a member => posted a (rooted.nodes a member)) deep (Nat.lt_of_le_of_lt few rounds)).imp ?_
  rintro ⟨freed,m'⟩ ⟨order,stored,left⟩
  obtain rfl : freed = t.toList := order
  refine ⟨fun a => ?_,rooted.ordered.order,stored.holds.root,left⟩
  constructor
  · intro member
    obtain ⟨i,live,rfl⟩ := rooted.nodes a member
    have found := (mapOf_eq_some rooted.ordered).mpr ⟨member,rfl⟩
    rw [← rooted.maps] at found
    obtain ⟨j,root,same⟩ := Option.map_eq_some_iff.mp found
    exact ⟨_,j,root,same⟩
  · rintro ⟨b,i,root,rfl⟩
    have found := rooted.maps b
    rw [root,Option.map_some] at found
    exact ((mapOf_eq_some rooted.ordered).mp found.symm).1

end Shows

/-- `b_event` is posted in all buffers but those with a request in flight. -/
def Machine.bEvent (x : Machine α) (a : Nat) : Bool :=
  (List.range x.threads.cache.next).all fun i => x.addr i ≠ a || (x.threads.cache.buffer i).all fun bh => bh.io.isNone

/-- After any such run, when no request is in flight, `bdev_free` frees every buffer that is left, once and in the order of their
blocks, and leaves an empty tree and an empty free list. -/
theorem bdev_free_empties (device : Nat → α) (threads : Nat) {x : Machine α}
    (reached : Reaches Machine.step Machine.allowed (Machine.init device threads) x)
    (quiet : ∀ i bh, x.threads.cache.buffer i = some bh → bh.io = none) :
    Yields (x.memory.bdevFree x.rounds x.bEvent (x.threads.cache.next + 1)) fun r =>
      (∀ a, a ∈ r.1 ↔ Live x.addr x.threads.cache.buffer a) ∧ r.1.Pairwise (fun a b => x.memory.bBlocknr a < x.memory.bBlocknr b) ∧
        r.2.tree.root = ⟨0,0,0⟩ ∧ ListHead.listEmpty r.2.bdBhFree.heads none = some true ∧ r.2.bdBhFree.count = 0 := by
  obtain ⟨_,mapped,shows⟩ := reaches_refines reached
  have live (a : Nat) : (∃ b i, x.threads.cache.root b = some i ∧ x.addr i = a) ↔ Live x.addr x.threads.cache.buffer a := by
    constructor
    · rintro ⟨b,i,root,rfl⟩
      obtain ⟨bh,held,_⟩ := mapped.back b i root
      exact ⟨i,live_some held,rfl⟩
    · rintro ⟨i,live,rfl⟩
      obtain ⟨bh,held⟩ := Option.ne_none_iff_exists'.mp live
      exact ⟨bh.bBlocknr,i,mapped.rooted i bh held,rfl⟩
  have posted (a : Nat) (_ : Live x.addr x.threads.cache.buffer a) : x.bEvent a = true := by
    refine List.all_eq_true.mpr fun i _ => ?_
    cases held : x.threads.cache.buffer i with
    | none => simp
    | some bh => simp [quiet i bh held]
  have deep : deepest x.threads.cache.next < x.rounds :=
    Nat.lt_succ_of_le (Nat.mul_le_mul_left 2 (Nat.log_mono_right (Nat.le_succ _)))
  refine (shows.bdevFree posted deep (Nat.lt_succ_self _)).imp ?_
  rintro r ⟨freed,order,root,lists⟩
  have none_ : (x.threads.cache.bdBhFree.map x.addr).filter (fun a => a ∉ r.1) = [] := by
    refine List.filter_eq_nil_iff.mpr fun a member => ?_
    obtain ⟨i,inside,rfl⟩ := List.mem_map.mp member
    have there := (freed _).mpr ((live _).mpr ⟨i,shows.freeLive i inside,rfl⟩)
    simp [there]
  rw [none_] at lists
  exact ⟨fun a => (freed a).trans (live a),order,root,ListHead.listEmpty_eq (lists.owns.split (add_zero _).symm),lists.count⟩

/-- Blocks 7 and 5 are in the cache, in this order of their allocation. -/
theorem bdev_free_empties_two : ∃ x, run Machine.step Machine.allowed (Machine.init (fun _ => 0) 2) twoBlocks = some x ∧
    Yields (x.memory.bdevFree x.rounds x.bEvent (x.threads.cache.next + 1)) fun r => r.1 = [32,16] ∧
      ListHead.listEmpty r.2.bdBhFree.heads none = some true ∧ r.2.bdBhFree.count = 0 := by
  have ends : (run Machine.step Machine.allowed (Machine.init (fun _ => 0) 2) twoBlocks).bind
      (fun x => (x.memory.bdevFree x.rounds x.bEvent (x.threads.cache.next + 1)).map fun r => (r.1,(List.range x.threads.cache.next).all
        fun i => (x.threads.cache.buffer i).all fun bh => bh.io.isNone)) = some ([32,16],true) := by decide
  obtain ⟨x,result,freed⟩ := Option.bind_eq_some_iff.mp ends
  obtain ⟨r,done,values⟩ := Option.map_eq_some_iff.mp freed
  obtain ⟨order,idle⟩ := Prod.mk.inj values
  have reached := Reaches.start.run result
  have quiet (i : Nat) (bh : BufferHead Nat) (held : x.threads.cache.buffer i = some bh) : bh.io = none := by
    rcases Nat.lt_or_ge i x.threads.cache.next with known | beyond
    · have alone := List.all_eq_true.mp idle i (List.mem_range.mpr known)
      rw [held] at alone
      exact Option.isNone_iff_eq_none.mp alone
    · rw [(reaches_refines reached).shows.fresh i beyond] at held
      cases held
  obtain ⟨r',done',_,_,_,empty,count⟩ := bdev_free_empties (fun _ => 0) 2 reached quiet
  obtain rfl := Option.some.inj (done.symm.trans done')
  exact ⟨x,result,r,done,order,empty,count⟩

end Ext4Fuse.BufferMemory
