import Ext4Fuse.Library.Steps
import Mathlib.Logic.Function.Iterate
import Mathlib.Tactic.SplitIfs

/-! `buffer.c` built with `USE_AIO`, as a step relation: the calls of any number of
users, the submissions of the writeback thread and the completions of `aio`, in any
order. Buffers are numbered in the order `buffer_alloc` hands them out; `α` is the
content of a block. -/
namespace Ext4Fuse.BufferCache
open Library.Steps

variable {α : Type}

/-- A request in flight. A read is `arrived` once the device has filled `b_data`; a
write carries the content the buffer had when it was submitted. -/
inductive Io (α : Type)
  | read
  | arrived
  | write (content : α)
  deriving DecidableEq

/-- `b_lock` is held and `b_event` is taken exactly while a request is in flight, and
`b_end_io` follows the kind of the request. `lastIo` is not in the source: it is the
content last read from the device or carried by the last write submitted. -/
structure BufferHead (α : Type) where
  bBlocknr : Nat
  bData : α
  uptodate : Bool
  dirty : Bool
  bCount : Int
  io : Option (Io α)
  lastIo : Option α

/-- How far the holder of a reference is: in `fs_bread` before `bh_submit_read`, before
the return of `wait_on_buffer`, or using the buffer. -/
inductive Phase
  | reading
  | waiting
  | holding
  deriving DecidableEq

/-- `pending` says that the user has modified the data and not marked it dirty yet. -/
structure User where
  phase : Phase
  pending : Bool
  deriving DecidableEq

structure Cache (α : Type) where
  device : Nat → α
  buffer : Nat → Option (BufferHead α)
  next : Nat
  root : Nat → Option Nat
  bdBhFree : List Nat
  bdBhDirty : List Nat
  users : Nat → List User

def Cache.init (device : Nat → α) : Cache α where
  device := device
  buffer := fun _ => none
  next := 0
  root := fun _ => none
  bdBhFree := []
  bdBhDirty := []
  users := fun _ => []

def bufferFreeThreshold : Nat := 90000

def Cache.set (c : Cache α) (i : Nat) (bh : BufferHead α) : Cache α :=
  {c with buffer := Function.update c.buffer i (some bh)}

def Cache.setUsers (c : Cache α) (i : Nat) (users : List User) : Cache α :=
  {c with users := Function.update c.users i users}

def attachBhToFreelist (c : Cache α) (i : Nat) : Cache α :=
  if i ∈ c.bdBhFree then c else {c with bdBhFree := c.bdBhFree ++ [i]}

def detachBhFromFreelist (c : Cache α) (i : Nat) : Cache α :=
  {c with bdBhFree := c.bdBhFree.erase i}

def moveBufferToWriteback (c : Cache α) (i : Nat) : Cache α :=
  if i ∈ c.bdBhDirty then c else {c with bdBhDirty := c.bdBhDirty ++ [i]}

def removeBufferFromWriteback (c : Cache α) (i : Nat) : Cache α :=
  {c with bdBhDirty := c.bdBhDirty.erase i}

/-- `remove_first_bh_from_freelist`: the buffer is taken out of the tree and freed. -/
def removeFirstBhFromFreelist (c : Cache α) : Cache α :=
  match c.bdBhFree with
  | [] => c
  | i::rest =>
    {c with bdBhFree := rest,buffer := Function.update c.buffer i none,
            root := fun b => if c.root b = some i then none else c.root b}

/-- The loop of `try_to_drop_buffers`, each round of which takes one off `bd_nr_free`. -/
def dropBuffersAbove (threshold : Nat) (c : Cache α) : Cache α :=
  removeFirstBhFromFreelist^[c.bdBhFree.length - threshold] c

def tryToDropBuffers (c : Cache α) : Cache α := dropBuffersAbove bufferFreeThreshold c

/-- `__getblk` by a user that goes on in `phase`; `heap` is what `malloc` leaves in a
new buffer's data. -/
def getblk (c : Cache α) (b : Nat) (heap : α) (phase : Phase) : Option (Cache α) :=
  match c.root b with
  | some i => do
    let bh ← c.buffer i
    let c := removeBufferFromWriteback (detachBhFromFreelist c i) i
    return (c.set i {bh with bCount := bh.bCount + 1}).setUsers i (⟨phase,false⟩::c.users i)
  | none =>
    let i := c.next
    let bh : BufferHead α := {bBlocknr := b,bData := heap,uptodate := false,dirty := false,bCount := 0,io := none,lastIo := none}
    let c := {c with next := i + 1,root := Function.update c.root b (some i)}
    some ((c.set i {bh with bCount := bh.bCount + 1}).setUsers i (⟨phase,false⟩::c.users i))

/-- `bh_submit_read`, which blocks while `b_lock` is held. -/
def bhSubmitRead (c : Cache α) (i : Nat) : Option (Cache α) := do
  let bh ← c.buffer i
  if bh.io.isSome then none
  else if bh.uptodate then return c
  else return (removeBufferFromWriteback c i).set i {bh with bCount := bh.bCount + 1,dirty := false,io := some .read}

def afterSubmitRead (c : Cache α) (i : Nat) (bh : BufferHead α) : Cache α :=
  c.set i {bh with uptodate := true,bCount := bh.bCount - 1,io := none}

def afterBufferSync (c : Cache α) (i : Nat) (bh : BufferHead α) : Cache α :=
  attachBhToFreelist ((removeBufferFromWriteback c i).set i
    {bh with uptodate := true,bCount := bh.bCount - 1,dirty := false,io := none}) i

/-- `sync_dirty_buffer`: nothing happens while `b_lock` is held or a user is left. -/
def syncDirtyBuffer (c : Cache α) (i : Nat) : Option (Cache α) := do
  let bh ← c.buffer i
  if bh.io.isNone ∧ bh.bCount < 1 ∧ bh.dirty then
    return c.set i {bh with bCount := bh.bCount + 1,io := some (.write bh.bData),lastIo := some bh.bData}
  else return c

/-- `brelse` by a user that has nothing left to mark; a failing `assert(refcount == 0)`
and a use of the buffer after `try_to_drop_buffers` has freed it have no result. -/
def brelse (c : Cache α) (i : Nat) : Option (Cache α) := do
  let bh ← c.buffer i
  let refcount := bh.bCount - 1
  let c := (c.set i {bh with bCount := refcount}).setUsers i ((c.users i).erase ⟨.holding,false⟩)
  if 1 ≤ refcount then return c
  else if refcount ≠ 0 then none
  else if bh.dirty then return moveBufferToWriteback c i
  else
    let c := tryToDropBuffers c
    if (c.buffer i).isNone then none
    return attachBhToFreelist c i

inductive Action (α : Type)
  | bread (b : Nat) (heap : α)
  | breadSubmit (i : Nat)
  | breadReturn (i : Nat)
  | bwrite (b : Nat) (heap : α)
  | modify (i : Nat) (user : User) (content : α)
  | markDirty (i : Nat) (user : User)
  | brelse (i : Nat)
  | sync
  | arrive (i : Nat)
  | complete (i : Nat)

/-- A user of buffer `i` moves on. -/
def advance (c : Cache α) (i : Nat) (user user' : User) : Option (Cache α) :=
  if user ∈ c.users i then some (c.setUsers i (user'::(c.users i).erase user)) else none

def step (c : Cache α) : Action α → Option (Cache α)
  | .bread b heap => getblk c b heap .reading
  | .breadSubmit i => do
    let c ← advance c i ⟨.reading,false⟩ ⟨.waiting,false⟩
    bhSubmitRead c i
  | .breadReturn i => do
    let bh ← c.buffer i
    if bh.io.isSome then none
    advance c i ⟨.waiting,false⟩ ⟨.holding,false⟩
  | .bwrite b heap => getblk c b heap .holding
  | .modify i user content => do
    let bh ← c.buffer i
    if user.phase ≠ .holding then none
    let c ← advance c i user ⟨.holding,true⟩
    return c.set i {bh with bData := content}
  | .markDirty i user => do
    let bh ← c.buffer i
    if user.phase ≠ .holding then none
    let c ← advance c i user ⟨.holding,false⟩
    return c.set i {bh with uptodate := true,dirty := true}
  | .brelse i => if ⟨.holding,false⟩ ∈ c.users i then brelse c i else none
  | .sync =>
    match c.bdBhDirty with
    | [] => none
    | i::rest => syncDirtyBuffer {c with bdBhDirty := rest} i
  | .arrive i => do
    let bh ← c.buffer i
    match bh.io with
    | some .read =>
      let content := c.device bh.bBlocknr
      return c.set i {bh with bData := content,io := some .arrived,lastIo := some content}
    | _ => none
  | .complete i => do
    let bh ← c.buffer i
    match bh.io with
    | some .arrived => return afterSubmitRead c i bh
    | some (.write content) =>
      return afterBufferSync {c with device := Function.update c.device bh.bBlocknr content} i bh
    | _ => none

/-! What every run keeps. -/

/-- A buffer without a user is, when uptodate and clean, as it was last read or submitted. -/
def Saved (c : Cache α) : Prop :=
  ∀ i bh, c.buffer i = some bh → bh.uptodate = true → bh.dirty = false → bh.bCount = 0 →
    bh.lastIo = some bh.bData

/-- What is known of one buffer and its users. -/
structure Kept (bh : BufferHead α) (users : List User) : Prop where
  counted : bh.bCount = (users.length : Int) + if bh.io.isSome then 1 else 0
  carried : ∀ content, bh.io = some (.write content) → bh.lastIo = some content
  settled : bh.uptodate = true ∨ bh.io = some .arrived → bh.dirty = false →
    (∀ user ∈ users, user.pending = false) → bh.lastIo = some bh.bData

structure Sound (c : Cache α) : Prop where
  fresh : ∀ i, c.next ≤ i → c.buffer i = none ∧ c.users i = []
  kept : ∀ i bh, c.buffer i = some bh → Kept bh (c.users i)

theorem Sound.saved {c : Cache α} (sound : Sound c) : Saved c := by
  intro i bh held valid clean unused
  have kept := sound.kept i bh held
  have counted := kept.counted
  have alone : c.users i = [] := by
    refine List.length_eq_zero_iff.mp ?_
    split at counted <;> omega
  exact kept.settled (Or.inl valid) clean (by simp [alone])

theorem init_sound (device : Nat → α) : Sound (Cache.init device) :=
  ⟨fun _ _ => ⟨rfl,rfl⟩,nofun⟩

/-- Only buffer `i` and its users change, and other buffers may be freed. -/
theorem Sound.change {c c' : Cache α} (sound : Sound c) (i : Nat) (known : i < c'.next)
    (next : c.next ≤ c'.next) (freed : ∀ j, j ≠ i → c'.buffer j = none ∨ c'.buffer j = c.buffer j)
    (users : ∀ j, j ≠ i → c'.users j = c.users j)
    (kept : ∀ bh, c'.buffer i = some bh → Kept bh (c'.users i)) : Sound c' := by
  refine ⟨?_,?_⟩
  · intro j beyond
    have other : j ≠ i := by omega
    obtain ⟨unused,alone⟩ := sound.fresh j (by omega)
    rw [users j other,alone]
    rcases freed j other with none_left | same
    · exact ⟨none_left,rfl⟩
    · exact ⟨same.trans unused,rfl⟩
  · intro j bh held
    rcases eq_or_ne j i with rfl | other
    · exact kept bh held
    · rw [users j other]
      rcases freed j other with none_left | same
      · simp [none_left] at held
      · exact sound.kept j bh (same ▸ held)

theorem Sound.known {c : Cache α} (sound : Sound c) {i : Nat} {bh : BufferHead α}
    (held : c.buffer i = some bh) : i < c.next := by
  by_contra beyond
  have := (sound.fresh i (Nat.not_lt.mp beyond)).1
  simp [this] at held

/-- Buffer `i` and its users are replaced. -/
theorem Sound.replace {c : Cache α} (sound : Sound c) {i : Nat} {bh : BufferHead α}
    (held : c.buffer i = some bh) {c' : Cache α} (next : c'.next = c.next) (bh' : BufferHead α)
    (buffer : c'.buffer = Function.update c.buffer i (some bh')) (users : List User)
    (users_eq : c'.users = Function.update c.users i users) (kept : Kept bh' users) : Sound c' := by
  refine sound.change i (by rw [next]; exact sound.known held) (Nat.le_of_eq next.symm) ?_ ?_ ?_
  · intro j other
    simp [buffer,other]
  · intro j other
    simp [users_eq,other]
  · intro bh now
    rw [buffer,Function.update_self] at now
    obtain rfl := Option.some.inj now
    simpa [users_eq] using kept

/-- Only buffer `i`, its users and its places in the lists change. -/
structure Local (i : Nat) (c c' : Cache α) : Prop where
  next : c'.next = c.next
  root : c'.root = c.root
  buffers : ∀ j, j ≠ i → c'.buffer j = c.buffer j
  users : ∀ j, j ≠ i → c'.users j = c.users j
  free : ∀ j, j ≠ i → (j ∈ c'.bdBhFree ↔ j ∈ c.bdBhFree)
  dirty : ∀ j, j ≠ i → (j ∈ c'.bdBhDirty ↔ j ∈ c.bdBhDirty)
  freeOnce : c.bdBhFree.Nodup → c'.bdBhFree.Nodup
  dirtyOnce : c.bdBhDirty.Nodup → c'.bdBhDirty.Nodup

section Local
variable {i : Nat} {c c' c'' : Cache α}

theorem Local.refl : Local i c c where
  next := rfl
  root := rfl
  buffers _ _ := rfl
  users _ _ := rfl
  free _ _ := Iff.rfl
  dirty _ _ := Iff.rfl
  freeOnce := id
  dirtyOnce := id

theorem Local.trans (first : Local i c c') (second : Local i c' c'') : Local i c c'' where
  next := second.next.trans first.next
  root := second.root.trans first.root
  buffers j other := (second.buffers j other).trans (first.buffers j other)
  users j other := (second.users j other).trans (first.users j other)
  free j other := (second.free j other).trans (first.free j other)
  dirty j other := (second.dirty j other).trans (first.dirty j other)
  freeOnce once := second.freeOnce (first.freeOnce once)
  dirtyOnce once := second.dirtyOnce (first.dirtyOnce once)

theorem Local.set (changed : Local i c c') (bh : BufferHead α) : Local i c (c'.set i bh) :=
  changed.trans {Local.refl with buffers := fun j other => by simp [Cache.set,other]}

theorem Local.setUsers (changed : Local i c c') (users : List User) : Local i c (c'.setUsers i users) :=
  changed.trans {Local.refl with users := fun j other => by simp [Cache.setUsers,other]}

theorem Local.device (changed : Local i c c') (device : Nat → α) : Local i c {c' with device := device} := {changed with}

theorem mem_put {xs : List Nat} {j : Nat} : j ∈ (if i ∈ xs then xs else xs ++ [i]) ↔ j = i ∨ j ∈ xs := by
  split
  · refine ⟨Or.inr,?_⟩
    rintro (rfl | member)
    · assumption
    · exact member
  · rw [List.mem_append,List.mem_singleton,or_comm]

theorem nodup_put {xs : List Nat} (once : xs.Nodup) : (if i ∈ xs then xs else xs ++ [i]).Nodup := by
  split
  · exact once
  · rename_i absent
    refine List.nodup_append.mpr ⟨once,List.pairwise_singleton _ i,?_⟩
    intro a member b last same
    exact absent (List.mem_singleton.mp last ▸ same ▸ member)

theorem attach_eq (c : Cache α) (i : Nat) :
    attachBhToFreelist c i = {c with bdBhFree := if i ∈ c.bdBhFree then c.bdBhFree else c.bdBhFree ++ [i]} := by
  unfold attachBhToFreelist
  split <;> rfl

theorem move_eq (c : Cache α) (i : Nat) :
    moveBufferToWriteback c i = {c with bdBhDirty := if i ∈ c.bdBhDirty then c.bdBhDirty else c.bdBhDirty ++ [i]} := by
  unfold moveBufferToWriteback
  split <;> rfl

theorem Local.attach (changed : Local i c c') : Local i c (attachBhToFreelist c' i) := by
  rw [attach_eq]
  exact changed.trans {Local.refl with
    free := fun j other => by simp only [mem_put,other,false_or]
    freeOnce := nodup_put}

theorem Local.move (changed : Local i c c') : Local i c (moveBufferToWriteback c' i) := by
  rw [move_eq]
  exact changed.trans {Local.refl with
    dirty := fun j other => by simp only [mem_put,other,false_or]
    dirtyOnce := nodup_put}

theorem Local.detach (changed : Local i c c') : Local i c (detachBhFromFreelist c' i) :=
  changed.trans {Local.refl with
    free := fun _ other => List.mem_erase_of_ne other
    freeOnce := fun once => once.erase i}

theorem Local.remove (changed : Local i c c') : Local i c (removeBufferFromWriteback c' i) :=
  changed.trans {Local.refl with
    dirty := fun _ other => List.mem_erase_of_ne other
    dirtyOnce := fun once => once.erase i}

end Local

theorem attach_fields (c : Cache α) (i : Nat) :
    (attachBhToFreelist c i).buffer = c.buffer ∧ (attachBhToFreelist c i).users = c.users ∧
      (attachBhToFreelist c i).next = c.next := by
  rw [attach_eq]
  exact ⟨rfl,rfl,rfl⟩

theorem moveBufferToWriteback_fields (c : Cache α) (i : Nat) :
    (moveBufferToWriteback c i).buffer = c.buffer ∧ (moveBufferToWriteback c i).users = c.users ∧
      (moveBufferToWriteback c i).next = c.next := by
  rw [move_eq]
  exact ⟨rfl,rfl,rfl⟩

theorem removeFirst_fields (c : Cache α) :
    (∀ j, (removeFirstBhFromFreelist c).buffer j = none ∨ (removeFirstBhFromFreelist c).buffer j = c.buffer j) ∧
      (removeFirstBhFromFreelist c).users = c.users ∧ (removeFirstBhFromFreelist c).next = c.next := by
  unfold removeFirstBhFromFreelist
  split
  · exact ⟨fun _ => Or.inr rfl,rfl,rfl⟩
  · rename_i i _ _
    refine ⟨fun j => ?_,rfl,rfl⟩
    rcases eq_or_ne j i with rfl | other
    · exact Or.inl (Function.update_self ..)
    · exact Or.inr (Function.update_of_ne other ..)

theorem dropRounds_fields (rounds : Nat) (c : Cache α) :
    (∀ j, (removeFirstBhFromFreelist^[rounds] c).buffer j = none ∨
        (removeFirstBhFromFreelist^[rounds] c).buffer j = c.buffer j) ∧
      (removeFirstBhFromFreelist^[rounds] c).users = c.users ∧
      (removeFirstBhFromFreelist^[rounds] c).next = c.next := by
  induction rounds generalizing c with
  | zero => exact ⟨fun _ => Or.inr rfl,rfl,rfl⟩
  | succ rounds ih =>
    obtain ⟨buffers,users,next⟩ := ih (removeFirstBhFromFreelist c)
    obtain ⟨first,users',next'⟩ := removeFirst_fields c
    refine ⟨fun j => ?_,users.trans users',next.trans next'⟩
    rcases buffers j with none_left | same
    · exact Or.inl none_left
    · rcases first j with none_left | same'
      · exact Or.inl (same.trans none_left)
      · exact Or.inr (same.trans same')

theorem dropBuffersAbove_fields (threshold : Nat) (c : Cache α) :
    (∀ j, (dropBuffersAbove threshold c).buffer j = none ∨ (dropBuffersAbove threshold c).buffer j = c.buffer j) ∧
      (dropBuffersAbove threshold c).users = c.users ∧ (dropBuffersAbove threshold c).next = c.next :=
  dropRounds_fields _ c

/-- The users of a buffer after one of them has moved on. -/
theorem moved_length {users : List User} {user user' : User} (member : user ∈ users) :
    (user'::users.erase user).length = users.length := by
  rw [List.length_cons,List.length_erase_of_mem member]
  have := List.length_pos_of_mem member
  omega

theorem moved_pending {users : List User} {user user' : User} (member : user ∈ users)
    (same : user.pending = true → user'.pending = true)
    (quiet : ∀ u ∈ user'::users.erase user, u.pending = false) : ∀ u ∈ users, u.pending = false := by
  intro u inside
  by_cases moved : u = user
  · subst moved
    have := quiet _ List.mem_cons_self
    cases old : u.pending with
    | false => rfl
    | true => simp [same old] at this
  · exact quiet u (List.mem_cons_of_mem _ ((List.mem_erase_of_ne moved).mpr inside))

theorem Kept.advance {bh : BufferHead α} {users : List User} (kept : Kept bh users) {user user' : User}
    (member : user ∈ users) (same : user.pending = true → user'.pending = true) :
    Kept bh (user'::users.erase user) where
  counted := by rw [moved_length member]; exact kept.counted
  carried := kept.carried
  settled valid clean quiet := kept.settled valid clean (moved_pending member same quiet)

theorem advance_eq {c c' : Cache α} {i : Nat} {user user' : User}
    (moved : advance c i user user' = some c') :
    user ∈ c.users i ∧ c' = c.setUsers i (user'::(c.users i).erase user) := by
  unfold advance at moved
  split at moved
  · exact ⟨‹_›,(Option.some.inj moved).symm⟩
  · nomatch moved

theorem Sound.advance {c c' : Cache α} (sound : Sound c) {i : Nat} {user user' : User}
    (moved : advance c i user user' = some c') (same : user.pending = true → user'.pending = true) : Sound c' := by
  obtain ⟨member,rfl⟩ := advance_eq moved
  have known : i < c.next := by
    by_contra beyond
    have := (sound.fresh i (Nat.not_lt.mp beyond)).2
    simp [this] at member
  refine sound.change i known (Nat.le_refl _) (fun _ _ => Or.inr rfl) (fun j other => by simp [Cache.setUsers,other]) ?_
  intro bh held
  simpa [Cache.setUsers] using (sound.kept i bh held).advance member same

theorem getblk_sound {c c' : Cache α} (sound : Sound c) {b : Nat} {heap : α} {phase : Phase}
    (got : getblk c b heap phase = some c') : Sound c' := by
  unfold getblk at got
  split at got
  · rename_i i _
    cases held : c.buffer i with
    | none => simp [held] at got
    | some bh =>
      have kept := sound.kept i bh held
      rw [held,Option.bind_eq_bind,Option.bind_some,Option.pure_def,Option.some.injEq] at got
      subst got
      refine sound.replace held rfl {bh with bCount := bh.bCount + 1} rfl (⟨phase,false⟩::c.users i) rfl ⟨?_,kept.carried,?_⟩
      · have counted := kept.counted
        simp only [List.length_cons]
        split at counted <;> simp [*]
      · intro valid clean quiet
        exact kept.settled valid clean fun user member => quiet user (List.mem_cons_of_mem _ member)
  · rw [Option.some.injEq] at got
    subst got
    refine sound.change c.next (Nat.lt_succ_self _) (Nat.le_succ _)
      (fun j other => Or.inr (by simp [Cache.set,Cache.setUsers,other]))
      (fun j other => by simp [Cache.set,Cache.setUsers,other]) ?_
    intro bh held
    have alone := (sound.fresh c.next (Nat.le_refl _)).2
    simp only [Cache.set,Cache.setUsers,Function.update_self,Option.some.injEq] at held
    subst held
    refine ⟨?_,nofun,?_⟩
    · simp [Cache.set,Cache.setUsers,alone]
    · simp

theorem bhSubmitRead_sound {c c' : Cache α} (sound : Sound c) {i : Nat}
    (submitted : bhSubmitRead c i = some c') : Sound c' := by
  unfold bhSubmitRead at submitted
  cases held : c.buffer i with
  | none => simp [held] at submitted
  | some bh =>
    have kept := sound.kept i bh held
    simp only [held,Option.bind_eq_bind,Option.bind_some,Option.pure_def] at submitted
    split_ifs at submitted with locked valid
    · exact Option.some.inj submitted ▸ sound
    · obtain rfl := Option.some.inj submitted
      refine sound.replace held rfl _ rfl (c.users i) (by simp [removeBufferFromWriteback,Cache.set]) ⟨?_,by simp,?_⟩
      · have counted := kept.counted
        simp only [locked] at counted
        simp [counted]
      · simp [valid]

theorem afterSubmitRead_sound {c : Cache α} (sound : Sound c) {i : Nat} {bh : BufferHead α}
    (held : c.buffer i = some bh) (arrived : bh.io = some .arrived) : Sound (afterSubmitRead c i bh) := by
  have kept := sound.kept i bh held
  refine sound.replace held rfl _ rfl (c.users i) (by simp [afterSubmitRead,Cache.set]) ⟨?_,nofun,?_⟩
  · have counted := kept.counted
    simp only [arrived] at counted
    simp [counted]
  · intro _ clean quiet
    exact kept.settled (Or.inr arrived) clean quiet

theorem afterBufferSync_sound {c : Cache α} (sound : Sound c) {i : Nat} {bh : BufferHead α} {content : α}
    (held : c.buffer i = some bh) (writing : bh.io = some (.write content))
    (carried : bh.bData = content ∨ ∃ user ∈ c.users i, user.pending = true) :
    Sound (afterBufferSync c i bh) := by
  have kept := sound.kept i bh held
  obtain ⟨buffer,users,next⟩ := attach_fields ((removeBufferFromWriteback c i).set i
    {bh with uptodate := true,bCount := bh.bCount - 1,dirty := false,io := none}) i
  refine sound.replace held next _ buffer (c.users i) (users.trans (by simp [removeBufferFromWriteback,Cache.set]))
    ⟨?_,nofun,?_⟩
  · have counted := kept.counted
    simp only [writing] at counted
    simp [counted]
  · intro _ _ quiet
    rcases carried with same | ⟨user,member,marked⟩
    · rw [kept.carried content writing,same]
    · simp [quiet user member] at marked

theorem syncDirtyBuffer_sound {c c' : Cache α} (sound : Sound c) {i : Nat}
    (synced : syncDirtyBuffer c i = some c') : Sound c' := by
  unfold syncDirtyBuffer at synced
  cases held : c.buffer i with
  | none => simp [held] at synced
  | some bh =>
    have kept := sound.kept i bh held
    simp only [held,Option.bind_eq_bind,Option.bind_some,Option.pure_def] at synced
    split_ifs at synced with submits
    · obtain rfl := Option.some.inj synced
      refine sound.replace held rfl _ rfl (c.users i) (by simp [Cache.set]) ⟨?_,?_,fun _ _ _ => rfl⟩
      · have counted := kept.counted
        simp only [Option.isNone_iff_eq_none.mp submits.1] at counted
        simp [counted]
      · intro content same
        simpa using same
    · exact Option.some.inj synced ▸ sound

theorem brelse_sound {c c' : Cache α} (sound : Sound c) {i : Nat} (member : ⟨.holding,false⟩ ∈ c.users i)
    (released : brelse c i = some c') : Sound c' := by
  -- the bound on the free list stays symbolic: `90000` is not to be unfolded in unary
  unfold brelse tryToDropBuffers at released
  generalize bufferFreeThreshold = threshold at released
  cases held : c.buffer i with
  | none => simp [held] at released
  | some bh =>
    have kept := sound.kept i bh held
    simp only [held,Option.bind_eq_bind,Option.bind_some,Option.pure_def] at released
    have put : Sound ((c.set i {bh with bCount := bh.bCount - 1}).setUsers i ((c.users i).erase ⟨.holding,false⟩)) := by
      refine sound.replace held rfl _ rfl _ rfl ⟨?_,kept.carried,?_⟩
      · have counted := kept.counted
        have positive := List.length_pos_of_mem member
        rw [List.length_erase_of_mem member]
        simp only at counted ⊢
        omega
      · intro valid clean quiet
        refine kept.settled valid clean fun user inside => ?_
        by_cases gone : user = ⟨.holding,false⟩
        · rw [gone]
        · exact quiet user ((List.mem_erase_of_ne gone).mpr inside)
    generalize (c.set i {bh with bCount := bh.bCount - 1}).setUsers i ((c.users i).erase ⟨.holding,false⟩) = c₁
      at put released
    have same_sound {c₂ : Cache α} (next : c₂.next = c₁.next) (users : c₂.users = c₁.users)
        (buffers : ∀ j, c₂.buffer j = none ∨ c₂.buffer j = c₁.buffer j) : Sound c₂ := by
      refine ⟨fun j beyond => ?_,fun j bh now => ?_⟩
      · obtain ⟨unused,alone⟩ := put.fresh j (next ▸ beyond)
        exact ⟨(buffers j).elim id (·.trans unused),by rw [users,alone]⟩
      · rw [users]
        rcases buffers j with none_left | same
        · simp [none_left] at now
        · exact put.kept j bh (same ▸ now)
    split_ifs at released with shared wrong dirty freed
    · exact Option.some.inj released ▸ put
    · obtain rfl := Option.some.inj released
      obtain ⟨buffer,users,next⟩ := moveBufferToWriteback_fields c₁ i
      exact same_sound next users fun j => Or.inr (by rw [buffer])
    · cases released
    · obtain rfl := Option.some.inj released
      obtain ⟨buffer,users,next⟩ := attach_fields (dropBuffersAbove threshold c₁) i
      obtain ⟨buffers,users',next'⟩ := dropBuffersAbove_fields threshold c₁
      exact same_sound (next.trans next') (users.trans users') fun j => by rw [buffer]; exact buffers j

/-- A write that completes finds the content it carried, or a user who has still to
mark a modification dirty. -/
def carries [DecidableEq α] (c : Cache α) : Action α → Bool
  | .complete i =>
    match c.buffer i with
    | some bh =>
      match bh.io with
      | some (.write content) => bh.bData = content ∨ ∃ user ∈ c.users i, user.pending = true
      | _ => true
    | none => true
  | _ => true

theorem step_sound [DecidableEq α] (c : Cache α) (a : Action α) (c' : Cache α) (sound : Sound c)
    (carried : carries c a = true) (result : step c a = some c') : Sound c' := by
  cases a with
  | bread b heap => exact getblk_sound sound result
  | bwrite b heap => exact getblk_sound sound result
  | breadSubmit i =>
    obtain ⟨c₁,moved,submitted⟩ := Option.bind_eq_some_iff.mp result
    exact bhSubmitRead_sound (sound.advance moved nofun) submitted
  | breadReturn i =>
    obtain ⟨bh,held,waited⟩ := Option.bind_eq_some_iff.mp result
    split at waited
    · nomatch waited
    · exact sound.advance waited nofun
  | modify i user content =>
    obtain ⟨bh,held,modified⟩ := Option.bind_eq_some_iff.mp result
    split at modified
    · nomatch modified
    obtain ⟨c₁,moved,written⟩ := Option.bind_eq_some_iff.mp modified
    obtain ⟨member,rfl⟩ := advance_eq moved
    obtain rfl := Option.some.inj written
    have kept := sound.kept i bh held
    refine sound.replace held rfl _ rfl _ rfl ⟨?_,kept.carried,?_⟩
    · rw [moved_length member]
      exact kept.counted
    · intro _ _ quiet
      exact absurd (quiet _ List.mem_cons_self) (by simp)
  | markDirty i user =>
    obtain ⟨bh,held,marked⟩ := Option.bind_eq_some_iff.mp result
    split at marked
    · nomatch marked
    obtain ⟨c₁,moved,written⟩ := Option.bind_eq_some_iff.mp marked
    obtain ⟨member,rfl⟩ := advance_eq moved
    obtain rfl := Option.some.inj written
    have kept := sound.kept i bh held
    refine sound.replace held rfl _ rfl _ rfl ⟨?_,kept.carried,nofun⟩
    rw [moved_length member]
    exact kept.counted
  | brelse i =>
    rw [step] at result
    split at result
    · exact brelse_sound sound ‹_› result
    · nomatch result
  | sync =>
    rw [step] at result
    split at result
    · nomatch result
    · rename_i i rest _
      have taken : Sound {c with bdBhDirty := rest} := ⟨sound.fresh,sound.kept⟩
      exact syncDirtyBuffer_sound taken result
  | arrive i =>
    obtain ⟨bh,held,arrived⟩ := Option.bind_eq_some_iff.mp result
    split at arrived
    · rename_i reading
      obtain rfl := Option.some.inj arrived
      have kept := sound.kept i bh held
      refine sound.replace held rfl _ rfl (c.users i) (by simp [Cache.set]) ⟨?_,nofun,fun _ _ _ => rfl⟩
      simpa [reading] using kept.counted
    · nomatch arrived
  | complete i =>
    obtain ⟨bh,held,done⟩ := Option.bind_eq_some_iff.mp result
    split at done
    · exact Option.some.inj done ▸ afterSubmitRead_sound sound held ‹_›
    · rename_i content writing
      obtain rfl := Option.some.inj done
      have same : bh.bData = content ∨ ∃ user ∈ c.users i, user.pending = true := by
        simpa [carries,held,writing] using carried
      have stored : Sound {c with device := Function.update c.device bh.bBlocknr content} :=
        ⟨sound.fresh,sound.kept⟩
      exact afterBufferSync_sound stored held writing same
    · nomatch done

/-- No marked modification is lost in a run in which every completing write finds the
content it carried, or a modification still to be marked. -/
theorem marked_saved [DecidableEq α] (device : Nat → α) {c : Cache α}
    (reached : Reaches step carries (Cache.init device) c) : Saved c :=
  (reached.invariant (init_sound device) step_sound).saved

/-- A block is written, modified again, marked and released, and its write submitted. -/
def modifyTwice : List (Action Nat) :=
  [.bwrite 7 0,.modify 0 ⟨.holding,false⟩ 1,.markDirty 0 ⟨.holding,true⟩,.brelse 0,.sync,
    .bwrite 7 0,.modify 0 ⟨.holding,false⟩ 2,.markDirty 0 ⟨.holding,true⟩,.brelse 0]

theorem marked_saved_once :
    ∃ c, run step carries (Cache.init fun _ => 0) (modifyTwice.take 5 ++ [.complete 0]) = some c ∧ Saved c := by
  cases result : run step carries (Cache.init fun _ => 0) (modifyTwice.take 5 ++ [.complete 0]) with
  | none =>
    have ends : (run step carries (Cache.init fun _ => 0) (modifyTwice.take 5 ++ [.complete 0])).isSome = true := by
      decide
    simp [result] at ends
  | some c => exact ⟨c,rfl,marked_saved (fun _ => 0) (Reaches.start.run result)⟩

/-- The second modification is marked while the write of the first is in flight:
`after_buffer_sync` clears the mark. -/
theorem marked_lost :
    ¬∀ (device : Nat → Nat) (c : Cache Nat), Reaches step (fun _ _ => true) (Cache.init device) c → Saved c := by
  intro always
  have ends : (run step (fun _ _ => true) (Cache.init fun _ => 0) (modifyTwice ++ [.complete 0])).any
      (fun c => (c.buffer 0).any fun bh =>
        bh.uptodate ∧ ¬bh.dirty ∧ bh.bCount = 0 ∧ bh.lastIo ≠ some bh.bData) = true := by decide
  cases result : run step (fun _ _ => true) (Cache.init fun _ => 0) (modifyTwice ++ [.complete 0]) with
  | none => simp [result] at ends
  | some c =>
    have saved := always (fun _ => 0) c (Reaches.start.run result)
    cases held : c.buffer 0 with
    | none => simp [result,held] at ends
    | some bh =>
      simp only [result,held,Option.any_some,decide_eq_true_eq,Bool.not_eq_true] at ends
      exact ends.2.2.2 (saved 0 bh held ends.1 ends.2.1 ends.2.2.1)

end Ext4Fuse.BufferCache
