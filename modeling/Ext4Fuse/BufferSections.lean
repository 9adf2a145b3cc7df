import Ext4Fuse.BufferCache
import Ext4Fuse.Library.Threads

/-! The buffer cache with every section of its calls a step of its own: what a call does
under one mutex, or by one atomic operation, is one step, and the steps of any number of
threads come in any order. A call that is a single section is a step of `BufferCache`. -/
namespace Ext4Fuse.BufferSections
open BufferCache Library.Steps Library.Threads

variable {α : Type}

/-- Between two sections of a call on a buffer: `__getblk` that is to end in `phase`, `brelse`
that has dropped the last reference, and the writeback thread. -/
inductive Call
  | found (phase : Phase)
  | detached (phase : Phase)
  | unlisted (phase : Phase)
  | inserted (phase : Phase)
  | put
  | moving
  | dropping
  | popping
  | erasing (j : Nat)
  | reclaimed
  | taken
  deriving DecidableEq

/-- Where a thread is; `missed` is `__getblk` whose search has found nothing. -/
inductive Pc
  | idle
  | missed (b : Nat) (phase : Phase)
  | on (i : Nat) (call : Call)
  deriving DecidableEq

/-- Where `after_buffer_sync` is, which holds `b_lock`. -/
inductive Stage
  | synced
  | unlisted
  | cleaned
  | attached
  deriving DecidableEq

structure Threads (α : Type) where
  cache : Cache α
  pcs : List Pc
  ending : Nat → Option Stage

def Threads.init (device : Nat → α) (threads : Nat) : Threads α where
  cache := Cache.init device
  pcs := List.replicate threads .idle
  ending := fun _ => none

/-- Thread `k` goes on at `pc`. -/
def Threads.move (t : Threads α) (k : Nat) (cache : Cache α) (pc : Pc) : Threads α :=
  {t with cache := cache,pcs := t.pcs.set k pc}

def bufferSearch (t : Threads α) (k b : Nat) (phase : Phase) : Threads α :=
  t.move k t.cache (match t.cache.root b with
    | some i => .on i (.found phase)
    | none => .missed b phase)

/-- `buffer_alloc`; `heap` is what `malloc` leaves in the data. -/
def bufferAlloc (b : Nat) (heap : α) : BufferHead α where
  bBlocknr := b
  bData := heap
  uptodate := false
  dirty := false
  bCount := 0
  io := none
  lastIo := none

/-- `buffer_insert` into a tree: `rb_insert` leaves one that holds the block already as it is. -/
def insertRoot (c : Cache α) (b i : Nat) : Nat → Option Nat :=
  if c.root b = none then Function.update c.root b (some i) else c.root

def bufferInsert (t : Threads α) (k b : Nat) (phase : Phase) (heap : α) : Threads α :=
  let c := t.cache
  let i := c.next
  t.move k (Cache.set {c with next := i + 1,root := insertRoot c b i} i (bufferAlloc b heap)) (.on i (.inserted phase))

def getBh (c : Cache α) (i : Nat) (bh : BufferHead α) (phase : Phase) : Cache α :=
  (c.set i {bh with bCount := bh.bCount + 1}).setUsers i (⟨phase,false⟩::c.users i)

/-- The first lock of `remove_first_bh_from_freelist`: which buffer it takes off the list. -/
def popFree (c : Cache α) : Option (Nat × Cache α) :=
  match c.bdBhFree with
  | [] => none
  | j::rest => some (j,{c with bdBhFree := rest})

/-- Its second lock, and `buffer_free`. When the tree does not hold the buffer `rb_erase` leaves `lost` of it: nothing after a
buffer that `rb_insert` has not linked, whose node has no parent, and anything after one of a tree that has been lost so. -/
def eraseBuffer (c : Cache α) (j : Nat) (lost : Nat → Option Nat) : Option (Cache α) := do
  let bh ← c.buffer j
  let root := if c.root bh.bBlocknr = some j then Function.update c.root bh.bBlocknr none else lost
  return {c with buffer := Function.update c.buffer j none,root := root}

/-- The next section of a call on buffer `i`. -/
def resume (t : Threads α) (k i : Nat) (bh : BufferHead α) (lost : Nat → Option Nat) : Call → Option (Threads α)
  | .found phase => some (t.move k (detachBhFromFreelist t.cache i) (.on i (.detached phase)))
  | .detached phase => some (t.move k (removeBufferFromWriteback t.cache i) (.on i (.unlisted phase)))
  | .unlisted phase => some (t.move k (getBh t.cache i bh phase) .idle)
  | .inserted phase => some (t.move k (getBh t.cache i bh phase) .idle)
  | .put => some (t.move k t.cache (.on i (if bh.dirty then .moving else .dropping)))
  | .moving => some (t.move k (moveBufferToWriteback t.cache i) .idle)
  | .dropping => some (t.move k t.cache (.on i (if bufferFreeThreshold < t.cache.bdBhFree.length then .popping else .reclaimed)))
  | .popping =>
    match popFree t.cache with
    | some (j,c) => some (t.move k c (.on i (.erasing j)))
    | none => some (t.move k t.cache (.on i .dropping))
  | .erasing j => (eraseBuffer t.cache j lost).map fun c => t.move k c (.on i .dropping)
  | .reclaimed => some (t.move k (attachBhToFreelist t.cache i) .idle)
  | .taken => (syncDirtyBuffer t.cache i).map fun c => t.move k c .idle

/-- `put_bh_and_read` at the start of `brelse`. -/
def putBhAndRead (t : Threads α) (k i : Nat) : Option (Threads α) := do
  let bh ← t.cache.buffer i
  let refcount := bh.bCount - 1
  let c := (t.cache.set i {bh with bCount := refcount}).setUsers i ((t.cache.users i).erase ⟨.holding,false⟩)
  if 1 ≤ refcount then some (t.move k c .idle)
  else if refcount ≠ 0 then none
  else some (t.move k c (.on i .put))

/-- `remove_first_buffer_from_writeback`. -/
def takeFromWriteback (t : Threads α) (k : Nat) : Option (Threads α) :=
  match t.cache.bdBhDirty with
  | [] => none
  | i::rest => some (t.move k {t.cache with bdBhDirty := rest} (.on i .taken))

/-- The completion of a request: `after_submit_read`, or the beginning of `after_buffer_sync`. -/
def complete (t : Threads α) (i : Nat) : Option (Threads α) := do
  let bh ← t.cache.buffer i
  match bh.io with
  | some .arrived => some {t with cache := afterSubmitRead t.cache i bh}
  | some (.write content) =>
    if t.ending i = none then
      let c := {t.cache with device := Function.update t.cache.device bh.bBlocknr content}
      some {t with cache := c.set i {bh with uptodate := true,bCount := bh.bCount - 1},
                   ending := Function.update t.ending i (some .synced)}
    else none
  | _ => none

/-- The next section of `after_buffer_sync`. -/
def resumeSync (t : Threads α) (i : Nat) : Option (Threads α) := do
  let bh ← t.cache.buffer i
  match t.ending i with
  | some .synced =>
    some {t with cache := removeBufferFromWriteback t.cache i,ending := Function.update t.ending i (some .unlisted)}
  | some .unlisted =>
    some {t with cache := t.cache.set i {bh with dirty := false},ending := Function.update t.ending i (some .cleaned)}
  | some .cleaned => some {t with cache := attachBhToFreelist t.cache i,ending := Function.update t.ending i (some .attached)}
  | some .attached => some {t with cache := t.cache.set i {bh with io := none},ending := Function.update t.ending i none}
  | none => none

inductive Action (α : Type)
  | search (k b : Nat) (phase : Phase)
  | insert (k : Nat) (heap : α)
  | resume (k : Nat) (lost : Nat → Option Nat := fun _ => none)
  | put (k i : Nat)
  | take (k : Nat)
  | submitRead (i : Nat)
  | breadReturn (i : Nat)
  | modify (i : Nat) (user : User) (content : α)
  | markDirty (i : Nat) (user : User)
  | arrive (i : Nat)
  | complete (i : Nat)
  | resumeSync (i : Nat)

/-- A call of one section. -/
def whole (t : Threads α) (a : BufferCache.Action α) : Option (Threads α) :=
  (BufferCache.step t.cache a).map fun c => {t with cache := c}

def step (t : Threads α) : Action α → Option (Threads α)
  | .search k b phase => if t.pcs[k]? = some .idle then some (bufferSearch t k b phase) else none
  | .insert k heap =>
    match t.pcs[k]? with
    | some (.missed b phase) => some (bufferInsert t k b phase heap)
    | _ => none
  | .resume k lost =>
    match t.pcs[k]? with
    | some (.on i call) => (t.cache.buffer i).bind fun bh => resume t k i bh lost call
    | _ => none
  | .put k i => if t.pcs[k]? = some .idle ∧ ⟨.holding,false⟩ ∈ t.cache.users i then putBhAndRead t k i else none
  | .take k => if t.pcs[k]? = some .idle then takeFromWriteback t k else none
  | .submitRead i => whole t (.breadSubmit i)
  | .breadReturn i => whole t (.breadReturn i)
  | .modify i user content => whole t (.modify i user content)
  | .markDirty i user => whole t (.markDirty i user)
  | .arrive i => whole t (.arrive i)
  | .complete i => complete t i
  | .resumeSync i => resumeSync t i

/-! Where threads are. -/

def Call.acquires : Call → Bool
  | .detached _ => true
  | .unlisted _ => true
  | .inserted _ => true
  | _ => false

def Call.puts : Call → Bool
  | .put => true
  | _ => false

def Call.moves : Call → Bool
  | .moving => true
  | _ => false

def Call.reclaims : Call → Bool
  | .dropping => true
  | .popping => true
  | .erasing _ => true
  | .reclaimed => true
  | _ => false

def Pc.isOn (i : Nat) (p : Call → Bool) : Pc → Bool
  | .on j call => j == i && p call
  | _ => false

def Pc.isErasing (j : Nat) : Pc → Bool
  | .on _ (.erasing j') => j' == j
  | _ => false

/-- How many calls on buffer `i` are where `p` says. -/
def Threads.calls (t : Threads α) (i : Nat) (p : Call → Bool) : Nat := count (Pc.isOn i p) t.pcs

/-- How many calls have taken buffer `j` off the free list to free it. -/
def Threads.erasing (t : Threads α) (j : Nat) : Nat := count (Pc.isErasing j) t.pcs

section Move
variable {t : Threads α} {k : Nat} {old : Pc}

@[simp] theorem move_cache (t : Threads α) (k : Nat) (c : Cache α) (pc : Pc) : (t.move k c pc).cache = c := rfl

@[simp] theorem move_ending (t : Threads α) (k : Nat) (c : Cache α) (pc : Pc) : (t.move k c pc).ending = t.ending := rfl

theorem calls_move (here : t.pcs[k]? = some old) (c : Cache α) (new : Pc) (j : Nat) (p : Call → Bool) :
    (t.move k c new).calls j p = t.calls j p + (new.isOn j p).toNat - (old.isOn j p).toNat :=
  Nat.eq_sub_of_add_eq (count_move here _ new)

theorem erasing_move (here : t.pcs[k]? = some old) (c : Cache α) (new : Pc) (j : Nat) :
    (t.move k c new).erasing j = t.erasing j + (new.isErasing j).toNat - (old.isErasing j).toNat :=
  Nat.eq_sub_of_add_eq (count_move here _ new)

@[simp] theorem isOn_self (i : Nat) (call : Call) (p : Call → Bool) : (Pc.on i call).isOn i p = p call := by simp [Pc.isOn]

end Move

end Ext4Fuse.BufferSections
