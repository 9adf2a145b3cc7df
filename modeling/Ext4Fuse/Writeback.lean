import Ext4Fuse.BufferCache

/-! The buffer cache over the device as a plain store of blocks, in which a modification is there from the moment it is marked dirty:
what `fs_bread` returns, and what the writeback thread leaves on the device once nobody uses a buffer. -/
namespace Ext4Fuse.Writeback
open BufferCache Library.Steps

variable {α : Type}

/-- `store` is not in the source. -/
structure Marked (α : Type) where
  cache : Cache α
  store : Nat → α

def Marked.init (device : Nat → α) : Marked α := ⟨Cache.init device,device⟩

def mark (s : Marked α) : Action α → Nat → α
  | .markDirty i _ =>
    match s.cache.buffer i with
    | some bh => Function.update s.store bh.bBlocknr bh.bData
    | none => s.store
  | _ => s.store

def Marked.step (s : Marked α) (a : Action α) : Option (Marked α) := do
  let c ← BufferCache.step s.cache a
  return ⟨c,mark s a⟩

def Quiet (users : List User) : Prop := ∀ user ∈ users, user.pending = false

/-- One buffer, its users and its places in the two lists, over what is stored on the device and what was marked last. -/
structure Keeps (stored marked : α) (bh : BufferHead α) (users : List User) (free listed : Prop) : Prop where
  counted : bh.bCount = (users.length : Int) + if bh.io.isSome then 1 else 0
  reading : bh.io = some .read ∨ bh.io = some .arrived → ⟨.waiting,false⟩ ∈ users
  awaited : ⟨.waiting,false⟩ ∈ users → bh.uptodate = true ∨ bh.io = some .read ∨ bh.io = some .arrived
  writing : ∀ content, bh.io = some (.write content) → bh.dirty = true
  waits : bh.dirty = true → users = [] → bh.io = none → listed
  listed : listed → bh.dirty = true
  free : free → users = [] ∧ bh.io = none ∧ bh.dirty = false
  uptodate : bh.dirty = true → bh.uptodate = true
  dirty : bh.dirty = true → Quiet users → bh.bData = marked
  clean : bh.dirty = false → stored = marked
  valid : bh.dirty = false → bh.uptodate = true ∨ bh.io = some .arrived → Quiet users → bh.bData = marked

/-- Every buffer is the one of its block, and a block without a buffer is on the device as it was marked. -/
structure Faithful (s : Marked α) : Prop where
  fresh : ∀ i, s.cache.next ≤ i → s.cache.buffer i = none ∧ s.cache.users i = []
  rooted : ∀ i bh, s.cache.buffer i = some bh → s.cache.root bh.bBlocknr = some i
  back : ∀ b i, s.cache.root b = some i → ∃ bh, s.cache.buffer i = some bh ∧ bh.bBlocknr = b
  absent : ∀ b, s.cache.root b = none → s.cache.device b = s.store b
  freeOnce : s.cache.bdBhFree.Nodup
  dirtyOnce : s.cache.bdBhDirty.Nodup
  live : ∀ i, i ∈ s.cache.bdBhFree ∨ i ∈ s.cache.bdBhDirty → (s.cache.buffer i).isSome
  keeps : ∀ i bh, s.cache.buffer i = some bh → Keeps (s.cache.device bh.bBlocknr) (s.store bh.bBlocknr) bh (s.cache.users i)
    (i ∈ s.cache.bdBhFree) (i ∈ s.cache.bdBhDirty)

variable {s s' : Marked α} {i : Nat} {bh bh' : BufferHead α}

section Keeps
variable {stored marked : α} {bh : BufferHead α} {users : List User} {free listed free' listed' : Prop}

theorem quiet_cons {user : User} : Quiet (user::users) ↔ user.pending = false ∧ Quiet users := List.forall_mem_cons

/-- `__getblk` of a buffer that is in the tree. -/
theorem Keeps.get (keeps : Keeps stored marked bh users free listed) {phase : Phase} (begins : phase ≠ .waiting) (unfree : ¬free')
    (unlisted : ¬listed') : Keeps stored marked {bh with bCount := bh.bCount + 1} (⟨phase,false⟩::users) free' listed' where
  counted := by
    have counted := keeps.counted
    simp only [List.length_cons]
    split at counted <;> simp [*]
  reading started := List.mem_cons_of_mem _ (keeps.reading started)
  awaited member := by
    refine keeps.awaited ((List.mem_cons.mp member).resolve_left ?_)
    rintro ⟨rfl⟩
    exact begins rfl
  writing := keeps.writing
  waits _ alone := nomatch alone
  listed place := absurd place unlisted
  free place := absurd place unfree
  uptodate := keeps.uptodate
  dirty dirty quiet := keeps.dirty dirty (quiet_cons.mp quiet).2
  clean := keeps.clean
  valid clean valid quiet := keeps.valid clean valid (quiet_cons.mp quiet).2

theorem quiet_erase {user : User} (settled : user.pending = false) (quiet : Quiet (users.erase user)) : Quiet users := by
  intro other member
  by_cases same : other = user
  · rw [same,settled]
  · exact quiet other ((List.mem_erase_of_ne same).mpr member)

/-- `bh_submit_read` of a buffer whose content is not there. -/
theorem Keeps.submitRead (keeps : Keeps stored marked bh users free listed) (member : ⟨.reading,false⟩ ∈ users) (unlocked : bh.io = none)
    (invalid : bh.uptodate = false) (same : free' → free) (unlisted : ¬listed') :
    Keeps stored marked {bh with bCount := bh.bCount + 1,dirty := false,io := some .read}
      (⟨.waiting,false⟩::users.erase ⟨.reading,false⟩) free' listed' := by
  have clean : bh.dirty = false := by
    cases dirty : bh.dirty with
    | false => rfl
    | true => simp [keeps.uptodate dirty] at invalid
  constructor
  · rw [moved_length member]
    simp [keeps.counted,unlocked]
  · exact fun _ => List.mem_cons_self
  · exact fun _ => Or.inr (Or.inl rfl)
  · simp
  · rintro ⟨⟩
  · exact fun place => absurd place unlisted
  · intro place
    rw [(keeps.free (same place)).1] at member
    nomatch member
  · rintro ⟨⟩
  · rintro ⟨⟩
  · exact fun _ => keeps.clean clean
  · simp [invalid]

theorem waiting_stays {user user' : User} (holding : user.phase = .holding) (member : ⟨.waiting,false⟩ ∈ users) :
    ⟨.waiting,false⟩ ∈ user'::users.erase user := by
  refine List.mem_cons_of_mem _ ((List.mem_erase_of_ne ?_).mpr member)
  rintro rfl
  simp at holding

theorem waiting_back {user user' : User} (holding : user'.phase = .holding) (member : ⟨.waiting,false⟩ ∈ user'::users.erase user) :
    ⟨.waiting,false⟩ ∈ users := by
  rcases List.mem_cons.mp member with rfl | inside
  · simp at holding
  · exact List.mem_of_mem_erase inside

theorem Keeps.modify (keeps : Keeps stored marked bh users free listed) {user : User} (member : user ∈ users)
    (holding : user.phase = .holding) (content : α) :
    Keeps stored marked {bh with bData := content} (⟨.holding,true⟩::users.erase user) free listed where
  counted := by rw [moved_length member]; exact keeps.counted
  reading started := waiting_stays holding (keeps.reading started)
  awaited waiting := keeps.awaited (waiting_back rfl waiting)
  writing := keeps.writing
  waits _ alone := nomatch alone
  listed := keeps.listed
  free place := by
    rw [(keeps.free place).1] at member
    nomatch member
  uptodate := keeps.uptodate
  dirty _ quiet := nomatch (quiet_cons.mp quiet).1
  clean := keeps.clean
  valid _ _ quiet := nomatch (quiet_cons.mp quiet).1

theorem Keeps.markDirty (keeps : Keeps stored marked bh users free listed) {user : User} (member : user ∈ users)
    (holding : user.phase = .holding) :
    Keeps stored bh.bData {bh with uptodate := true,dirty := true} (⟨.holding,false⟩::users.erase user) free listed where
  counted := by rw [moved_length member]; exact keeps.counted
  reading started := waiting_stays holding (keeps.reading started)
  awaited _ := Or.inl rfl
  writing _ _ := rfl
  waits _ alone := nomatch alone
  listed _ := rfl
  free place := by
    rw [(keeps.free place).1] at member
    nomatch member
  uptodate _ := rfl
  dirty _ _ := rfl
  clean clean := nomatch clean
  valid clean := nomatch clean

theorem Keeps.counts (keeps : Keeps stored marked bh users free listed) (member : ⟨.holding,false⟩ ∈ users) :
    bh.bCount - 1 = ((users.erase ⟨.holding,false⟩).length : Int) + if bh.io.isSome then 1 else 0 := by
  have positive := List.length_pos_of_mem member
  have counted := keeps.counted
  rw [List.length_erase_of_mem member]
  omega

theorem Keeps.put (keeps : Keeps stored marked bh users free listed) (member : ⟨.holding,false⟩ ∈ users)
    (place : listed' → bh.dirty = true) (unfree : ¬free')
    (waits : bh.dirty = true → users.erase ⟨.holding,false⟩ = [] → bh.io = none → listed') :
    Keeps stored marked {bh with bCount := bh.bCount - 1} (users.erase ⟨.holding,false⟩) free' listed' where
  counted := keeps.counts member
  reading started := (List.mem_erase_of_ne (by simp)).mpr (keeps.reading started)
  awaited waiting := keeps.awaited (List.mem_of_mem_erase waiting)
  writing := keeps.writing
  waits := waits
  listed := place
  free place := absurd place unfree
  uptodate := keeps.uptodate
  dirty dirty quiet := keeps.dirty dirty (quiet_erase rfl quiet)
  clean := keeps.clean
  valid clean valid quiet := keeps.valid clean valid (quiet_erase rfl quiet)

/-- An unused buffer that is clean goes to the free list. -/
theorem Keeps.reclaim (keeps : Keeps stored marked bh [] free listed) (unlocked : bh.io = none) (clean : bh.dirty = false) :
    Keeps stored marked bh [] free' listed :=
  {keeps with free := fun _ => ⟨rfl,unlocked,clean⟩}

/-- `sync_dirty_buffer` of a buffer that was on the list. -/
theorem Keeps.submitWrite (keeps : Keeps stored marked bh users free listed) (unlocked : bh.io = none) (dirty : bh.dirty = true)
    (unlisted : ¬listed') :
    Keeps stored marked {bh with bCount := bh.bCount + 1,io := some (.write bh.bData),lastIo := some bh.bData} users free listed' where
  counted := by simp [keeps.counted,unlocked]
  reading started := by simp at started
  awaited _ := Or.inl (keeps.uptodate dirty)
  writing _ _ := dirty
  waits _ _ none_ := nomatch none_
  listed place := absurd place unlisted
  free place := by
    have clean := (keeps.free place).2.2
    rw [clean] at dirty
    cases dirty
  uptodate := keeps.uptodate
  dirty := keeps.dirty
  clean := keeps.clean
  valid clean := by simp [dirty] at clean

theorem Keeps.unlist (keeps : Keeps stored marked bh users free listed) (waits : ¬(bh.dirty = true ∧ users = [] ∧ bh.io = none))
    (unlisted : ¬listed') : Keeps stored marked bh users free listed' :=
  {keeps with
    waits := fun dirty alone unlocked => absurd ⟨dirty,alone,unlocked⟩ waits
    listed := fun place => absurd place unlisted}

theorem Keeps.arrive (keeps : Keeps stored marked bh users free listed) (reading : bh.io = some .read) (clean : bh.dirty = false)
    (last : Option α) : Keeps stored marked {bh with bData := stored,io := some .arrived,lastIo := last} users free listed where
  counted := by simp [keeps.counted,reading]
  reading _ := keeps.reading (Or.inl reading)
  awaited _ := Or.inr (Or.inr rfl)
  writing _ started := by simp at started
  waits _ _ none_ := nomatch none_
  listed := keeps.listed
  free place := by simp [(keeps.free place).2.1] at reading
  uptodate := keeps.uptodate
  dirty dirty := by simp [clean] at dirty
  clean := keeps.clean
  valid _ _ _ := keeps.clean clean

/-- `after_submit_read`. -/
theorem Keeps.arrived (keeps : Keeps stored marked bh users free listed) (arrived : bh.io = some .arrived) :
    Keeps stored marked {bh with uptodate := true,bCount := bh.bCount - 1,io := none} users free listed where
  counted := by simp [keeps.counted,arrived]
  reading started := by simp at started
  awaited _ := Or.inl rfl
  writing _ started := by simp at started
  waits _ alone := by
    have waiting := keeps.reading (Or.inr arrived)
    rw [alone] at waiting
    nomatch waiting
  listed := keeps.listed
  free place := by simp [(keeps.free place).2.1] at arrived
  uptodate _ := rfl
  dirty := keeps.dirty
  clean := keeps.clean
  valid clean _ quiet := keeps.valid clean (Or.inr arrived) quiet

/-- `after_buffer_sync` when the buffer is as it was submitted and unused. -/
theorem Keeps.written (keeps : Keeps stored marked bh [] free listed) (writing : bh.io = some (.write bh.bData)) (unlisted : ¬listed') :
    Keeps bh.bData marked {bh with uptodate := true,bCount := bh.bCount - 1,dirty := false,io := none} [] free' listed' where
  counted := by simp [keeps.counted,writing]
  reading started := by simp at started
  awaited waiting := nomatch waiting
  writing _ started := by simp at started
  waits dirty := by simp at dirty
  listed place := absurd place unlisted
  free _ := ⟨rfl,rfl,rfl⟩
  uptodate _ := rfl
  dirty dirty := by simp at dirty
  clean _ := keeps.dirty (keeps.writing _ writing) fun _ member => nomatch member
  valid _ _ quiet := keeps.dirty (keeps.writing _ writing) quiet

end Keeps

/-! What each step keeps. -/

section Steps
variable {c c' : Cache α} {store : Nat → α}

/-- A new buffer for a block without one. -/
theorem Faithful.new (faithful : Faithful ⟨c,store⟩) {b : Nat} (absent : c.root b = none) (block : bh.bBlocknr = b) (users : List User)
    (keeps : Keeps (c.device b) (store b) bh users False False) : Faithful ⟨({c with
      next := c.next + 1
      root := Function.update c.root b (some c.next)} : Cache α).set c.next bh |>.setUsers c.next users,store⟩ := by
  have none_ : c.buffer c.next = none := (faithful.fresh c.next (Nat.le_refl _)).1
  have unplaced : ¬(c.next ∈ c.bdBhFree ∨ c.next ∈ c.bdBhDirty) := by
    intro member
    have live : (c.buffer c.next).isSome = true := faithful.live _ member
    simp [none_] at live
  have apart {j : Nat} {other : BufferHead α} (held : c.buffer j = some other) : j ≠ c.next ∧ other.bBlocknr ≠ b := by
    constructor
    · rintro rfl
      rw [none_] at held
      nomatch held
    · rintro rfl
      have root : c.root other.bBlocknr = some j := faithful.rooted j other held
      rw [absent] at root
      nomatch root
  constructor
  · intro j beyond
    have later : c.next + 1 ≤ j := beyond
    have differs : j ≠ c.next := by omega
    simpa [Cache.set,Cache.setUsers,differs] using faithful.fresh j (Nat.le_of_succ_le later)
  · intro j other held
    by_cases here : j = c.next
    · subst here
      obtain rfl : bh = other := by simpa [Cache.set,Cache.setUsers] using held
      simp [Cache.set,Cache.setUsers,block]
    · have old : c.buffer j = some other := by simpa [Cache.set,Cache.setUsers,here] using held
      simpa [Cache.set,Cache.setUsers,(apart old).2] using faithful.rooted j other old
  · intro b' j root
    by_cases here : b' = b
    · subst here
      obtain rfl : c.next = j := by simpa [Cache.set,Cache.setUsers] using root
      exact ⟨bh,by simp [Cache.set,Cache.setUsers],block⟩
    · have old : c.root b' = some j := by simpa [Cache.set,Cache.setUsers,here] using root
      obtain ⟨other,held,same⟩ := faithful.back b' j old
      exact ⟨other,by simpa [Cache.set,Cache.setUsers,(apart held).1] using held,same⟩
  · intro b' root
    have differs : b' ≠ b := by
      rintro rfl
      simp [Cache.set,Cache.setUsers] at root
    exact faithful.absent b' (by simpa [Cache.set,Cache.setUsers,differs] using root)
  · exact faithful.freeOnce
  · exact faithful.dirtyOnce
  · intro j member
    have differs : j ≠ c.next := by
      rintro rfl
      exact unplaced member
    simpa [Cache.set,Cache.setUsers,differs] using faithful.live j member
  · intro j other held
    by_cases here : j = c.next
    · subst here
      obtain rfl : bh = other := by simpa [Cache.set,Cache.setUsers] using held
      have unfree : (c.next ∈ c.bdBhFree) = False := eq_false fun place => unplaced (Or.inl place)
      have unlisted : (c.next ∈ c.bdBhDirty) = False := eq_false fun place => unplaced (Or.inr place)
      simpa [Cache.set,Cache.setUsers,block,unfree,unlisted] using keeps
    · have old : c.buffer j = some other := by simpa [Cache.set,Cache.setUsers,here] using held
      simpa [Cache.set,Cache.setUsers,here] using faithful.keeps j other old

end Steps

/-- `wait_on_buffer`, and what the device does for it to return. -/
def waitOnBuffer (c : Cache α) (i : Nat) : Option (Cache α) := do
  let bh ← c.buffer i
  match bh.io with
  | none => return c
  | some .read => (BufferCache.step c (.arrive i)).bind (BufferCache.step · (.complete i))
  | some _ => BufferCache.step c (.complete i)

/-- Nobody uses a buffer, and no request is in flight. -/
structure Idle (c : Cache α) : Prop where
  users : ∀ i, c.users i = []
  io : ∀ i bh, c.buffer i = some bh → bh.io = none

section Sync
variable {c : Cache α} {store : Nat → α}

/-- With nothing left to write, the device is the store. -/
theorem Faithful.written (faithful : Faithful ⟨c,store⟩) (idle : Idle c) (empty : c.bdBhDirty = []) : c.device = store := by
  funext b
  cases root : c.root b with
  | none => exact faithful.absent b root
  | some i =>
    obtain ⟨bh,held,rfl⟩ := faithful.back b i root
    have keeps := faithful.keeps i bh held
    cases dirty : bh.dirty with
    | false => exact keeps.clean dirty
    | true =>
      have listed : i ∈ c.bdBhDirty := keeps.waits dirty (idle.users i) (idle.io i bh held)
      rw [empty] at listed
      nomatch listed

end Sync

theorem Faithful.idle (faithful : Faithful s)
    (quiet : ∀ i < s.cache.next, s.cache.users i = [] ∧ (s.cache.buffer i).all (·.io.isNone) = true) : Idle s.cache := by
  constructor
  · intro i
    rcases Nat.lt_or_ge i s.cache.next with below | beyond
    · exact (quiet i below).1
    · exact (faithful.fresh i beyond).2
  · intro i bh held
    rcases Nat.lt_or_ge i s.cache.next with below | beyond
    · simpa [held] using (quiet i below).2
    · rw [(faithful.fresh i beyond).1] at held
      nomatch held

end Ext4Fuse.Writeback
