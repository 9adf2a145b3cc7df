import Ext4Fuse.BufferMemory
import Ext4Fuse.BufferTree

/-! Runs of the buffer cache on its memory. A section of a call touches the tree or the lists once; what it reads there decides
where the call goes on, and is to be what `BufferSections` has decided on. The test of a buffer's entry in the free list, which the
code makes before it takes the lock, is a step of its own. -/
namespace Ext4Fuse.BufferMemory
open Rbtree BufferLists BufferCache BufferSections Library.Partial Library.Steps

variable {α : Type}

/-- What a section does to the tree and the lists; buffers are given by their numbers. -/
inductive Touch (α : Type)
  | nothing
  | search (b : Nat)
  | insert (b : Nat) (heap : α)
  | attach (i : Nat)
  | detach (i : Nat)
  | move (i : Nat)
  | unlist (i : Nat)
  | look
  | pop
  | erase (j : Nat)
  | take

def callTouches (i : Nat) : Call → Touch α
  | .found _ => .detach i
  | .detached _ => .unlist i
  | .moving => .move i
  | .dropping => .look
  | .popping => .pop
  | .erasing j => .erase j
  | .reclaimed => .attach i
  | _ => .nothing

/-- Who goes on in a call: a thread, or the completion of the request of buffer `i`. -/
inductive Caller
  | thread (k : Nat)
  | sync (i : Nat)
  deriving DecidableEq

/-- What the next section of the call touches. -/
def pending (t : Threads α) : Caller → Touch α
  | .thread k =>
    match t.pcs[k]? with
    | some (.on i call) => callTouches i call
    | _ => .nothing
  | .sync i =>
    match t.ending i with
    | some .synced => .unlist i
    | some .cleaned => .attach i
    | _ => .nothing

def touches (t : Threads α) : BufferSections.Action α → Touch α
  | .search _ b _ => .search b
  | .insert k heap =>
    match t.pcs[k]? with
    | some (.missed b _) => .insert b heap
    | _ => .nothing
  | .resume k _ => pending t (.thread k)
  | .take _ => .take
  | .submitRead i => if (t.cache.buffer i).any BufferHead.uptodate then .nothing else .unlist i
  | .resumeSync i => pending t (.sync i)
  | _ => .nothing

/-- Whose call goes on with the section. -/
def caller : BufferSections.Action α → Option Caller
  | .resume k _ => some (.thread k)
  | .resumeSync i => some (.sync i)
  | _ => none

/-- The buffer whose entry in the free list is tested in front of the section. -/
def Touch.tests : Touch α → Option Nat
  | .attach i => some i
  | .detach i => some i
  | _ => none

/-- What a section reads: the buffer that a search has found, or 0; whether there are too many free buffers; the first entry. -/
inductive Answer
  | nothing
  | found (bh : Nat)
  | many (more : Bool)
  | first (bh : Option Nat)
  deriving DecidableEq

/-- The section carried out on the memory; `new` is what `malloc` returns in it, and `tested` what the test in front of it read. -/
def Memory.perform (fuel : Nat) (m : Memory) (addr : Nat → Nat) (new : Nat) (tested : Option Bool) : Touch α → Option (Answer × Memory)
  | .nothing => some (.nothing,m)
  | .search b => (m.bufferSearch fuel b).map fun bh => (.found bh,m)
  | .insert b _ => (m.bufferAlloc new b >>= fun m => m.bufferInsert fuel new).map fun m => (.nothing,m)
  | .attach i => tested.bind fun empty => (m.attachBhToFreelist (addr i) empty).map fun m => (.nothing,m)
  | .detach i => tested.bind fun empty => (m.detachBhFromFreelist (addr i) empty).map fun m => (.nothing,m)
  | .move i => (m.moveBufferToWriteback (addr i)).map fun m => (.nothing,m)
  | .unlist i => (m.removeBufferFromWriteback (addr i)).map fun m => (.nothing,m)
  | .look => some (.many (decide ((bufferFreeThreshold : Int) < m.bdBhFree.count)),m)
  | .pop => m.firstBhFromFreelist.map fun r => (.first r.1,r.2)
  | .erase j => (m.bufferRemove fuel (addr j)).map fun m => (.nothing,m.bufferFree (addr j))
  | .take => m.removeFirstBufferFromWriteback.map fun r => (.first r.1,r.2)

/-- What the section reads in a cache. -/
def Touch.reads (c : Cache α) (addr : Nat → Nat) : Touch α → Answer
  | .search b => .found (((c.root b).map addr).getD 0)
  | .look => .many (decide (bufferFreeThreshold < c.bdBhFree.length))
  | .pop => .first (c.bdBhFree.head?.map addr)
  | .take => .first (c.bdBhDirty.head?.map addr)
  | _ => .nothing

/-- What it makes of the cache. -/
def Touch.effect (c : Cache α) : Touch α → Cache α
  | .insert b heap => Cache.set {c with next := c.next + 1,root := insertRoot c b c.next} c.next (bufferAlloc b heap)
  | .attach i => attachBhToFreelist c i
  | .detach i => detachBhFromFreelist c i
  | .move i => moveBufferToWriteback c i
  | .unlist i => removeBufferFromWriteback c i
  | .pop => {c with bdBhFree := c.bdBhFree.tail}
  | .erase j => (eraseBuffer c j fun _ => none).getD c
  | .take => {c with bdBhDirty := c.bdBhDirty.tail}
  | _ => c

/-- What it needs. -/
def Touch.Needs (c : Cache α) : Touch α → Prop
  | .search b => b < 2 ^ 63
  | .insert b _ => b < 2 ^ 63
  | .attach i => c.buffer i ≠ none
  | .detach i => c.buffer i ≠ none
  | .move i => c.buffer i ≠ none
  | .unlist i => c.buffer i ≠ none
  | .erase j => (∃ bh, c.buffer j = some bh ∧ c.root bh.bBlocknr = some j) ∧ j ∉ c.bdBhFree ∧ j ∉ c.bdBhDirty
  | _ => True

/-- Where the buffers are afterwards. -/
def Touch.place (c : Cache α) (addr : Nat → Nat) (new : Nat) : Touch α → Nat → Nat
  | .insert _ _ => Function.update addr c.next new
  | _ => addr

theorem eraseBuffer_held {c : Cache α} {j : Nat} {bh : BufferHead α} {lost : Nat → Option Nat} (held : c.buffer j = some bh)
    (here : c.root bh.bBlocknr = some j) : eraseBuffer c j lost =
      some {c with buffer := Function.update c.buffer j none,root := Function.update c.root bh.bBlocknr none} := by
  rw [eraseBuffer,held,Option.bind_eq_bind,Option.bind_some,if_pos here]
  rfl

section Perform
variable {m : Memory} {addr : Nat → Nat} {c c' : Cache α} {i new b fuel : Nat} {bh : BufferHead α}

theorem insert_shows (shows : Shows m addr c) (usable : Usable m new) (small : b < 2 ^ 63) (heap : α) (enough : deepest (c.next + 1) < fuel) :
    Yields (m.bufferAlloc new b >>= fun m => m.bufferInsert fuel new) fun m' =>
      Shows m' (Function.update addr c.next new) ((Touch.insert b heap).effect c) := by
  have fresh : (BufferSections.bufferAlloc b heap : BufferHead α).bBlocknr < 2 ^ 63 := small
  refine (shows.alloc usable fresh).bind fun m₁ shows₁ => ?_
  have here : Function.update addr c.next new c.next = new := Function.update_self ..
  have inserted := shows₁.insert (i := c.next) (Function.update_self ..) enough
  rw [here] at inserted
  exact inserted

theorem perform_shows (shows : Shows m addr c) {touch : Touch α} {tested : Option Bool} (needs : touch.Needs c)
    (usable : ∀ b heap, touch = .insert b heap → Usable m new)
    (right : ∀ i, touch.tests = some i → tested ≠ none ∧ tested = m.bFreelistEmpty (addr i)) (enough : deepest (c.next + 1) < fuel) :
    Yields (m.perform fuel addr new tested touch) fun r =>
      r.1 = touch.reads c addr ∧ Shows r.2 (touch.place c addr new) (touch.effect c) := by
  have enough' : deepest c.next < fuel :=
    Nat.lt_of_le_of_lt (Nat.mul_le_mul_left 2 (Nat.log_mono_right (Nat.le_succ _))) enough
  cases touch with
  | nothing => exact yields_some ⟨rfl,shows⟩
  | search b =>
    rw [Memory.perform,shows.search needs enough']
    exact yields_some ⟨rfl,shows⟩
  | insert b heap => exact (insert_shows shows (usable b heap rfl) needs heap enough).map fun m' shows' => ⟨rfl,shows'⟩
  | attach i =>
    obtain ⟨some_,now⟩ := right i rfl
    obtain ⟨empty,rfl⟩ := Option.ne_none_iff_exists'.mp some_
    exact (shows.attach needs now.symm).map fun m' shows' => ⟨rfl,shows'⟩
  | detach i =>
    obtain ⟨some_,now⟩ := right i rfl
    obtain ⟨empty,rfl⟩ := Option.ne_none_iff_exists'.mp some_
    exact (shows.detach needs now.symm).map fun m' shows' => ⟨rfl,shows'⟩
  | move i => exact (shows.move needs).map fun m' shows' => ⟨rfl,shows'⟩
  | unlist i => exact (shows.unlist needs).map fun m' shows' => ⟨rfl,shows'⟩
  | look =>
    refine yields_some ⟨?_,shows⟩
    rw [shows.free.count,List.length_map]
    simp only [Touch.reads,Int.ofNat_lt]
  | pop => exact shows.pop.map fun r popped => ⟨congrArg Answer.first popped.1,popped.2⟩
  | erase j =>
    obtain ⟨⟨bh,held,here⟩,notFree,notDirty⟩ := needs
    rw [Touch.effect,eraseBuffer_held held here]
    exact (shows.erase held here notFree notDirty enough').map fun m' shows' => ⟨rfl,shows'⟩
  | take => exact shows.take.map fun r taken => ⟨congrArg Answer.first taken.1,taken.2⟩

end Perform

/-! The steps of the sections. -/

section Sections
variable {c c' : Cache α} {i k : Nat} {bh bh' : BufferHead α} {t t' : Threads α}

theorem unmoved_same (next : c'.next = c.next) (root : c'.root = c.root) (buffer : c'.buffer = c.buffer) (free : c'.bdBhFree = c.bdBhFree)
    (dirty : c'.bdBhDirty = c.bdBhDirty) : Unmoved c c' := ⟨next,root,fun i => by rw [buffer],free,dirty⟩

/-- Buffer `i` is another one, of the same block. -/
theorem unmoved_set (held : c.buffer i = some bh) (buffer : c'.buffer = Function.update c.buffer i (some bh'))
    (block : bh'.bBlocknr = bh.bBlocknr) (next : c'.next = c.next) (root : c'.root = c.root) (free : c'.bdBhFree = c.bdBhFree)
    (dirty : c'.bdBhDirty = c.bdBhDirty) : Unmoved c c' := by
  refine ⟨next,root,fun j => ?_,free,dirty⟩
  rw [buffer]
  by_cases here : j = i
  · rw [here,Function.update_self,held,Option.map_some,Option.map_some,block]
  · rw [Function.update_of_ne here]

theorem syncDirtyBuffer_unmoved (synced : syncDirtyBuffer c i = some c') : Unmoved c c' := by
  obtain ⟨bh,held,synced⟩ := Option.bind_eq_some_iff.mp synced
  split at synced
  · exact Option.some.inj synced ▸ unmoved_set held rfl rfl rfl rfl rfl rfl
  · exact Option.some.inj synced ▸ unmoved_same rfl rfl rfl rfl rfl

/-- A resumed call changes what it is to touch, and nothing else that the memory shows. -/
theorem resume_effect {lost : Nat → Option Nat} {call : Call} (held : t.cache.buffer i = some bh)
    (rooted : ∀ j bh, call = .erasing j → t.cache.buffer j = some bh → t.cache.root bh.bBlocknr = some j)
    (resumed : resume t k i bh lost call = some t') : Unmoved ((callTouches i call).effect t.cache) t'.cache := by
  cases call with
  | found phase => exact Option.some.inj resumed ▸ unmoved_same rfl rfl rfl rfl rfl
  | detached phase => exact Option.some.inj resumed ▸ unmoved_same rfl rfl rfl rfl rfl
  | unlisted phase => exact Option.some.inj resumed ▸ unmoved_set held rfl rfl rfl rfl rfl rfl
  | inserted phase => exact Option.some.inj resumed ▸ unmoved_set held rfl rfl rfl rfl rfl rfl
  | put => exact Option.some.inj resumed ▸ unmoved_same rfl rfl rfl rfl rfl
  | moving => exact Option.some.inj resumed ▸ unmoved_same rfl rfl rfl rfl rfl
  | dropping => exact Option.some.inj resumed ▸ unmoved_same rfl rfl rfl rfl rfl
  | popping =>
    rw [resume] at resumed
    unfold popFree at resumed
    cases free : t.cache.bdBhFree with
    | nil =>
      simp only [free] at resumed
      refine Option.some.inj resumed ▸ ⟨rfl,rfl,fun _ => rfl,?_,rfl⟩
      show t.cache.bdBhFree = t.cache.bdBhFree.tail
      rw [free,List.tail_nil]
    | cons j rest =>
      simp only [free] at resumed
      refine Option.some.inj resumed ▸ ⟨rfl,rfl,fun _ => rfl,?_,rfl⟩
      show rest = t.cache.bdBhFree.tail
      rw [free,List.tail_cons]
  | erasing j =>
    obtain ⟨c,erased,rfl⟩ := Option.map_eq_some_iff.mp resumed
    obtain ⟨bh',held',_⟩ := Option.bind_eq_some_iff.mp erased
    have here := rooted j bh' rfl held'
    rw [eraseBuffer_held held' here] at erased
    rw [callTouches,Touch.effect,eraseBuffer_held held' here,← Option.some.inj erased]
    exact unmoved_same rfl rfl rfl rfl rfl
  | reclaimed => exact Option.some.inj resumed ▸ unmoved_same rfl rfl rfl rfl rfl
  | taken =>
    obtain ⟨c,synced,rfl⟩ := Option.map_eq_some_iff.mp resumed
    exact syncDirtyBuffer_unmoved synced

theorem submitRead_effect (submitted : whole t (.breadSubmit i) = some t') :
    Unmoved ((touches t (.submitRead i)).effect t.cache) t'.cache := by
  obtain ⟨c,stepped,rfl⟩ := Option.map_eq_some_iff.mp submitted
  obtain ⟨c₁,moved,stepped⟩ := Option.bind_eq_some_iff.mp stepped
  obtain ⟨_,rfl⟩ := advance_eq moved
  obtain ⟨bh,held,stepped⟩ := Option.bind_eq_some_iff.mp stepped
  have held : t.cache.buffer i = some bh := held
  rw [touches,held,Option.any_some]
  split at stepped
  · cases stepped
  split at stepped
  · rename_i valid
    rw [if_pos valid]
    exact Option.some.inj stepped ▸ unmoved_same rfl rfl rfl rfl rfl
  · rename_i invalid
    rw [if_neg invalid]
    exact Option.some.inj stepped ▸ unmoved_set held rfl rfl rfl rfl rfl rfl

theorem complete_unmoved (completed : complete t i = some t') : Unmoved t.cache t'.cache := by
  obtain ⟨bh,held,completed⟩ := Option.bind_eq_some_iff.mp completed
  split at completed
  · exact Option.some.inj completed ▸ unmoved_set held rfl rfl rfl rfl rfl rfl
  · split at completed
    · exact Option.some.inj completed ▸ unmoved_set held rfl rfl rfl rfl rfl rfl
    · cases completed
  · cases completed

theorem resumeSync_effect (resumed : resumeSync t i = some t') : Unmoved ((touches t (.resumeSync i)).effect t.cache) t'.cache := by
  obtain ⟨bh,held,resumed⟩ := Option.bind_eq_some_iff.mp resumed
  rw [touches,pending]
  split at resumed
  · rename_i stage
    rw [stage]
    exact Option.some.inj resumed ▸ unmoved_same rfl rfl rfl rfl rfl
  · rename_i stage
    rw [stage]
    exact Option.some.inj resumed ▸ unmoved_set held rfl rfl rfl rfl rfl rfl
  · rename_i stage
    rw [stage]
    exact Option.some.inj resumed ▸ unmoved_same rfl rfl rfl rfl rfl
  · rename_i stage
    rw [stage]
    exact Option.some.inj resumed ▸ unmoved_set held rfl rfl rfl rfl rfl rfl
  · cases resumed

theorem step_effect {a : BufferSections.Action α} (mapped : Mapped t) (result : BufferSections.step t a = some t') :
    Unmoved ((touches t a).effect t.cache) t'.cache := by
  cases a with
  | search k b phase =>
    rw [BufferSections.step] at result
    split at result
    · exact Option.some.inj result ▸ unmoved_same rfl rfl rfl rfl rfl
    · cases result
  | insert k heap =>
    rw [BufferSections.step] at result
    split at result
    · rename_i b phase here
      rw [touches,here]
      exact Option.some.inj result ▸ unmoved_same rfl rfl rfl rfl rfl
    · cases result
  | resume k lost =>
    rw [BufferSections.step] at result
    split at result
    · rename_i i call here
      rw [touches,pending,here]
      obtain ⟨bh,held,resumed⟩ := Option.bind_eq_some_iff.mp result
      exact resume_effect held (fun j bh' _ held' => mapped.rooted j bh' held') resumed
    · cases result
  | put k i =>
    rw [BufferSections.step] at result
    split at result
    · obtain ⟨bh,held,put⟩ := Option.bind_eq_some_iff.mp result
      have kept : Unmoved t.cache ((t.cache.set i {bh with bCount := bh.bCount - 1}).setUsers i
          ((t.cache.users i).erase ⟨.holding,false⟩)) := unmoved_set held rfl rfl rfl rfl rfl rfl
      dsimp only at put
      split at put
      · exact Option.some.inj put ▸ kept
      · split at put
        · cases put
        · exact Option.some.inj put ▸ kept
    · cases result
  | take k =>
    rw [BufferSections.step] at result
    split at result
    · rw [takeFromWriteback] at result
      cases dirty : t.cache.bdBhDirty with
      | nil => simp [dirty] at result
      | cons i rest =>
        simp only [dirty] at result
        refine Option.some.inj result ▸ ⟨rfl,rfl,fun _ => rfl,rfl,?_⟩
        show rest = t.cache.bdBhDirty.tail
        rw [dirty,List.tail_cons]
    · cases result
  | submitRead i => exact submitRead_effect result
  | breadReturn i =>
    obtain ⟨c,stepped,rfl⟩ := Option.map_eq_some_iff.mp result
    obtain ⟨bh,held,stepped⟩ := Option.bind_eq_some_iff.mp stepped
    split at stepped
    · cases stepped
    · obtain ⟨_,rfl⟩ := advance_eq stepped
      exact unmoved_same rfl rfl rfl rfl rfl
  | modify i user content =>
    obtain ⟨c,stepped,rfl⟩ := Option.map_eq_some_iff.mp result
    obtain ⟨bh,held,stepped⟩ := Option.bind_eq_some_iff.mp stepped
    split at stepped
    · cases stepped
    obtain ⟨c₁,moved,stepped⟩ := Option.bind_eq_some_iff.mp stepped
    obtain ⟨_,rfl⟩ := advance_eq moved
    exact Option.some.inj stepped ▸ unmoved_set held rfl rfl rfl rfl rfl rfl
  | markDirty i user =>
    obtain ⟨c,stepped,rfl⟩ := Option.map_eq_some_iff.mp result
    obtain ⟨bh,held,stepped⟩ := Option.bind_eq_some_iff.mp stepped
    split at stepped
    · cases stepped
    obtain ⟨c₁,moved,stepped⟩ := Option.bind_eq_some_iff.mp stepped
    obtain ⟨_,rfl⟩ := advance_eq moved
    exact Option.some.inj stepped ▸ unmoved_set held rfl rfl rfl rfl rfl rfl
  | arrive i =>
    obtain ⟨c,stepped,rfl⟩ := Option.map_eq_some_iff.mp result
    obtain ⟨bh,held,stepped⟩ := Option.bind_eq_some_iff.mp stepped
    split at stepped
    · exact Option.some.inj stepped ▸ unmoved_set held rfl rfl rfl rfl rfl rfl
    · cases stepped
  | complete i => exact complete_unmoved result
  | resumeSync i => exact resumeSync_effect result

end Sections

/-- The blocks that are looked up are not so large that a difference of two would wrap. -/
def small (t : Threads α) (a : BufferSections.Action α) : Bool :=
  match touches t a with
  | .search b => b < 2 ^ 63
  | .insert b _ => b < 2 ^ 63
  | _ => true

section Needs
variable {t t' : Threads α} {i k : Nat} {bh : BufferHead α}

theorem resume_needs {lost : Nat → Option Nat} {call : Call} (sound : Sound t) (mapped : Mapped t) (here : t.pcs[k]? = some (.on i call))
    (held : t.cache.buffer i = some bh) (resumed : resume t k i bh lost call = some t') : (callTouches i call).Needs t.cache := by
  cases call with
  | found phase => exact live_some held
  | detached phase => exact live_some held
  | moving => exact live_some held
  | reclaimed => exact live_some held
  | erasing j =>
    obtain ⟨c,erased,rfl⟩ := Option.map_eq_some_iff.mp resumed
    -- a buffer that is being freed is clean and on no list
    have busy : 0 < t.erasing j := Library.Threads.count_pos here (by simp [Pc.isErasing])
    obtain ⟨bh',held'⟩ := Option.ne_none_iff_exists'.mp (sound.live j (Or.inr busy))
    have fit := sound.fits j bh' held'
    obtain ⟨_,_,clean,unfree⟩ := fit.erasing busy
    refine ⟨⟨bh',held',mapped.rooted j bh' held'⟩,unfree,fun listed => ?_⟩
    have dirty := fit.listed listed
    rw [clean] at dirty
    cases dirty
  | _ => trivial

theorem step_needs {a : BufferSections.Action α} (sound : Sound t) (mapped : Mapped t) (bounded : small t a = true)
    (result : BufferSections.step t a = some t') : (touches t a).Needs t.cache := by
  cases a with
  | search k b phase =>
    have less : b < 2 ^ 63 := of_decide_eq_true bounded
    exact less
  | insert k heap =>
    rw [BufferSections.step] at result
    split at result
    · rename_i b phase here
      rw [small,touches,here] at bounded
      have less : b < 2 ^ 63 := of_decide_eq_true bounded
      rw [touches,here]
      exact less
    · cases result
  | resume k lost =>
    rw [BufferSections.step] at result
    split at result
    · rename_i i call here
      rw [touches,pending,here]
      obtain ⟨bh,held,resumed⟩ := Option.bind_eq_some_iff.mp result
      exact resume_needs sound mapped here held resumed
    · cases result
  | submitRead i =>
    obtain ⟨c,stepped,rfl⟩ := Option.map_eq_some_iff.mp result
    obtain ⟨c₁,moved,stepped⟩ := Option.bind_eq_some_iff.mp stepped
    obtain ⟨_,rfl⟩ := advance_eq moved
    obtain ⟨bh,held,_⟩ := Option.bind_eq_some_iff.mp stepped
    rw [touches]
    split
    · trivial
    · exact live_some held
  | resumeSync i =>
    obtain ⟨bh,held,_⟩ := Option.bind_eq_some_iff.mp result
    rw [touches,pending]
    split
    · exact live_some held
    · exact live_some held
    · trivial
  | _ => trivial

end Needs

/-! Runs. -/

/-- `tested` is what each call's test of an entry in the free list has read, if it is on its way to the lock. -/
structure Machine (α : Type) where
  threads : Threads α
  memory : Memory
  addr : Nat → Nat
  tested : Caller → Option Bool

def Machine.init (device : Nat → α) (threads : Nat) : Machine α where
  threads := Threads.init device threads
  memory := Memory.init
  addr := fun _ => 0
  tested := fun _ => none

/-- As deep as a tree of the buffers so far can be; no loop over the tree goes on for longer. -/
def Machine.rounds (x : Machine α) : Nat := deepest (x.threads.cache.next + 1) + 1

/-- The test in front of a call's next section, or a section, in which `malloc` returns `new`. -/
inductive Event (α : Type)
  | test (who : Caller)
  | section_ (a : BufferSections.Action α) (new : Nat)

def Machine.testedBy (x : Machine α) (a : BufferSections.Action α) : Option Bool := (caller a).bind x.tested

/-- Behind its section a call has to test anew. -/
def forget (tested : Caller → Option Bool) : Option Caller → Caller → Option Bool
  | some who => Function.update tested who none
  | none => tested

/-- There is no next state when the step goes through a pointer to no node, goes on for too long, or reads something else than
`BufferSections` has it go on with. -/
def Machine.step (x : Machine α) : Event α → Option (Machine α)
  | .test who => do
    let i ← (pending x.threads who).tests
    let empty ← x.memory.bFreelistEmpty (x.addr i)
    return {x with tested := Function.update x.tested who (some empty)}
  | .section_ a new => do
    let t ← BufferSections.step x.threads a
    let touch := touches x.threads a
    let (answer,m) ← x.memory.perform x.rounds x.addr new (x.testedBy a) touch
    if answer = touch.reads x.threads.cache x.addr then some ⟨t,m,touch.place x.threads.cache x.addr new,forget x.tested (caller a)⟩ else none

/-- Nobody has put the buffer on the free list or taken it off since the test. -/
def Machine.current (x : Machine α) (a : BufferSections.Action α) : Bool :=
  match (touches x.threads a).tests with
  | some i => x.testedBy a ≠ none ∧ x.testedBy a = x.memory.bFreelistEmpty (x.addr i)
  | none => true

/-- Getting a buffer and releasing it stay apart, no buffer is made twice for a block and none is freed that is in use, block numbers
are small, a test still holds in the section behind it, and `malloc` returns memory that is not in use. -/
def Machine.allowed (x : Machine α) : Event α → Bool
  | .test _ => true
  | .section_ a new => apart x.threads a && exclusive x.threads a && small x.threads a && x.current a &&
    match touches x.threads a with
    | .insert _ _ => decide (Usable x.memory new)
    | _ => true

structure Machine.Refines (x : Machine α) : Prop where
  sound : Sound x.threads
  mapped : Mapped x.threads
  shows : Shows x.memory x.addr x.threads.cache

section Runs
variable {x : Machine α} {a : BufferSections.Action α} {new : Nat} {t : Threads α}

theorem Machine.Refines.section_ (refines : x.Refines) (allowed : x.allowed (.section_ a new) = true)
    (result : BufferSections.step x.threads a = some t) : Yields (x.step (.section_ a new)) fun x' => x'.threads = t ∧ x'.Refines := by
  rw [Machine.allowed,Bool.and_eq_true,Bool.and_eq_true,Bool.and_eq_true,Bool.and_eq_true] at allowed
  obtain ⟨⟨⟨⟨apart,exclusive⟩,small⟩,current⟩,malloc⟩ := allowed
  have usable (b : Nat) (heap : α) (insert : touches x.threads a = .insert b heap) : Usable x.memory new := by
    rw [insert] at malloc
    exact of_decide_eq_true malloc
  have right (i : Nat) (tests : (touches x.threads a).tests = some i) :
      x.testedBy a ≠ none ∧ x.testedBy a = x.memory.bFreelistEmpty (x.addr i) := by
    rw [Machine.current,tests] at current
    exact of_decide_eq_true current
  have sound := BufferSections.step_sound x.threads a t refines.sound apart result
  have mapped := step_mapped x.threads a t refines.mapped exclusive result
  have needs := step_needs refines.sound refines.mapped small result
  refine yields_bind result ?_
  refine (perform_shows refines.shows needs usable right (Nat.lt_succ_self _)).bind ?_
  rintro ⟨answer,m⟩ ⟨same,shows⟩
  exact ⟨_,if_pos same,rfl,sound,mapped,shows.unmoved (step_effect refines.mapped result)⟩

/-- A call that can go on with a section behind a test finds its way through the test. -/
theorem Machine.Refines.test (refines : x.Refines) {who : Caller} {i : Nat} (mine : caller a = some who)
    (tests : (touches x.threads a).tests = some i) (result : BufferSections.step x.threads a = some t) :
    Yields (x.step (.test who)) fun x' => x'.threads = x.threads := by
  have touched : touches x.threads a = pending x.threads who := by
    cases a <;> cases mine <;> rfl
  have bounded : small x.threads a = true := by
    unfold small
    split
    · rename_i searched
      rw [searched] at tests
      cases tests
    · rename_i inserted
      rw [inserted] at tests
      cases tests
    · rfl
  have needs := step_needs refines.sound refines.mapped bounded result
  have live : x.threads.cache.buffer i ≠ none := by
    generalize touches x.threads a = touch at tests needs
    cases touch <;> cases tests <;> exact needs
  rw [touched] at tests
  obtain ⟨empty,tested,_⟩ := refines.shows.tested live
  exact yields_bind tests (yields_bind tested (yields_some rfl))

theorem Machine.Refines.step {e : Event α} {x' : Machine α} (refines : x.Refines) (allowed : x.allowed e = true)
    (result : x.step e = some x') : x'.Refines := by
  cases e with
  | test who =>
    obtain ⟨i,_,result⟩ := Option.bind_eq_some_iff.mp result
    obtain ⟨empty,_,result⟩ := Option.bind_eq_some_iff.mp result
    rw [← Option.some.inj result]
    exact ⟨refines.sound,refines.mapped,refines.shows⟩
  | section_ a new =>
    obtain ⟨t,stepped,_⟩ := Option.bind_eq_some_iff.mp result
    obtain ⟨x'',done,_,refines'⟩ := refines.section_ allowed stepped
    exact Option.some.inj (done.symm.trans result) ▸ refines'

theorem reaches_refines {device : Nat → α} {threads : Nat}
    (reached : Reaches Machine.step Machine.allowed (Machine.init device threads) x) : x.Refines :=
  reached.invariant (P := Machine.Refines)
    ⟨BufferSections.init_sound device threads,init_mapped device threads,init_shows device _⟩ fun _ _ _ refines => refines.step

end Runs

/-- Two threads get blocks 7 and 5, and the first one releases its buffer. -/
def twoBlocks : List (Event Nat) := [.section_ (.search 0 7 .holding) 0,.section_ (.insert 0 0) 16,.section_ (.search 1 5 .holding) 0,
  .section_ (.insert 1 0) 32,.section_ (.resume 0) 0,.section_ (.resume 1) 0,.section_ (.put 0 0) 0,.section_ (.resume 0) 0,
  .section_ (.resume 0) 0,.test (.thread 0),.section_ (.resume 0) 0]

/-- Two threads that find the free buffer of block 7 both test it before either takes it off the free list, and count it twice. -/
example : ((run Machine.step (fun _ _ => true) (Machine.init (fun _ => 0) 2)
      ([.section_ (.search 0 7 .holding) 0,.section_ (.insert 0 0) 16,.section_ (.resume 0) 0,.section_ (.put 0 0) 0,.section_ (.resume 0) 0,
        .section_ (.resume 0) 0,.test (.thread 0),.section_ (.resume 0) 0,.section_ (.search 0 7 .holding) 0,
        .section_ (.search 1 7 .holding) 0] ++ [.test (.thread 0),.test (.thread 1),.section_ (.resume 0) 0,.section_ (.resume 1) 0])).map
      fun x => x.memory.bdBhFree.count) = some (-1) := by decide

end Ext4Fuse.BufferMemory
