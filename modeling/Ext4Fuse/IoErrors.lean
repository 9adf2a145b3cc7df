import Ext4Fuse.BufferCache

/-! Requests that fail: the status `aio_error` gives them, the callbacks it goes through, and
the code `fs_bread` has returned by then. -/
namespace Ext4Fuse.IoErrors
open BufferCache Library.Steps

variable {α : Type}

/-- What `aio_error` gives for a request that has failed. -/
abbrev Errno := {errno : Nat // 0 < errno}

/-- What `iocb_dispatch` hands to `b_end_io`. -/
def iocbDispatch (err : Int) : Bool := if err < 0 then false else true

/-- `after_submit_read`, which sets the uptodate bit or leaves it. -/
def afterSubmitReadWith (uptodate : Bool) (c : Cache α) (i : Nat) (bh : BufferHead α) : Cache α :=
  c.set i {bh with uptodate := uptodate || bh.uptodate,bCount := bh.bCount - 1,io := none}

def afterBufferSyncWith (uptodate : Bool) (c : Cache α) (i : Nat) (bh : BufferHead α) : Cache α :=
  attachBhToFreelist ((removeBufferFromWriteback c i).set i
    {bh with uptodate := uptodate || bh.uptodate,bCount := bh.bCount - 1,dirty := false,io := none}) i

theorem afterSubmitRead_success (c : Cache α) (i : Nat) (bh : BufferHead α) :
    afterSubmitReadWith (iocbDispatch 0) c i bh = afterSubmitRead c i bh := rfl

theorem afterBufferSync_success (c : Cache α) (i : Nat) (bh : BufferHead α) :
    afterBufferSyncWith (iocbDispatch 0) c i bh = afterBufferSync c i bh := rfl

/-- `ret` is the code that the last `fs_bread` of a buffer has stored. -/
structure Served (α : Type) where
  cache : Cache α
  ret : Nat → Int

def Served.init (device : Nat → α) : Served α where
  cache := Cache.init device
  ret := fun _ => 0

/-- `__submit_bh` returns 0 and leaves what `aio_read` and `aio_write` return. -/
def submitBh : Int := 0

def bhSubmitReadRet (bh : BufferHead α) : Int := if bh.uptodate then 0 else submitBh

def fsBforget (c : Cache α) (i : Nat) : Option (Cache α) := do
  let bh ← c.buffer i
  if ⟨.holding,false⟩ ∈ c.users i then brelse (c.set i {bh with uptodate := false,dirty := false}) i else none

/-- The request of buffer `i` fails; `left` is what it leaves in the buffer or on the device. -/
def failIo (c : Cache α) (i : Nat) (errno : Errno) (left : α) : Option (Cache α) := do
  let bh ← c.buffer i
  match bh.io with
  | some .read => return afterSubmitReadWith (iocbDispatch errno.val) c i {bh with bData := left}
  | some (.write _) =>
    return afterBufferSyncWith (iocbDispatch errno.val) {c with device := Function.update c.device bh.bBlocknr left} i bh
  | _ => none

inductive Action (α : Type)
  | call (a : BufferCache.Action α)
  | bforget (i : Nat)
  | fail (i : Nat) (errno : Errno) (left : α)

def step (s : Served α) : Action α → Option (Served α)
  | .call (.breadSubmit i) => do
    let bh ← s.cache.buffer i
    let cache ← BufferCache.step s.cache (.breadSubmit i)
    return ⟨cache,Function.update s.ret i (bhSubmitReadRet bh)⟩
  | .call a => do
    let cache ← BufferCache.step s.cache a
    return {s with cache := cache}
  | .bforget i => do
    let cache ← fsBforget s.cache i
    return {s with cache := cache}
  | .fail i errno left => do
    let cache ← failIo s.cache i errno left
    return {s with cache := cache}

/-- A failed read leaves its buffer not uptodate and `fs_bread` with an error, and a failed
write leaves the dirty bit. -/
def Told (s : Served α) : Action α → Served α → Prop
  | .fail i _ _, s' => ∀ bh bh', s.cache.buffer i = some bh → s'.cache.buffer i = some bh' →
      (bh.io = some .read → bh'.uptodate = false ∧ s.ret i ≠ 0) ∧
        (bh.io ≠ some .read → bh.dirty = true → bh'.dirty = true)
  | _, _ => True

/-- No read fails, and no write of a buffer that is still marked dirty. -/
def Spared (s : Served α) : Action α → Prop
  | .fail i _ _ => ∀ bh, s.cache.buffer i = some bh → bh.io ≠ some .read ∧ bh.dirty = false
  | _ => True

/-- A positive status passes for success. -/
theorem iocbDispatch_errno (errno : Errno) : iocbDispatch errno.val = true := by
  unfold iocbDispatch
  rw [if_neg (by omega)]

/-- What a failing request leaves of its buffer. -/
theorem failIo_cases {c c' : Cache α} {i : Nat} {errno : Errno} {left : α} (failed : failIo c i errno left = some c') :
    ∃ bh bh', c.buffer i = some bh ∧ c'.buffer i = some bh' ∧ bh'.uptodate = true ∧
      (bh.io = some .read ∨ (∃ content, bh.io = some (.write content)) ∧ bh'.dirty = false) := by
  obtain ⟨bh,held,ended⟩ := Option.bind_eq_some_iff.mp failed
  split at ended
  · rename_i reading
    obtain rfl := Option.some.inj ended
    exact ⟨bh,_,held,Function.update_self ..,by simp [iocbDispatch_errno],Or.inl reading⟩
  · rename_i content writing
    obtain rfl := Option.some.inj ended
    refine ⟨bh,{bh with uptodate := iocbDispatch errno.val || bh.uptodate,bCount := bh.bCount - 1,dirty := false,io := none},
      held,?_,by simp [iocbDispatch_errno],Or.inr ⟨⟨content,writing⟩,rfl⟩⟩
    exact (congrFun (attach_fields _ i).1 i).trans (Function.update_self ..)
  · nomatch ended

theorem told_step {s s' : Served α} {a : Action α} (result : step s a = some s') : Told s a s' ↔ Spared s a := by
  cases a with
  | call a => exact Iff.rfl
  | bforget i => exact Iff.rfl
  | fail i errno left =>
    obtain ⟨c',failed,rest⟩ := Option.bind_eq_some_iff.mp result
    obtain rfl := Option.some.inj rest
    obtain ⟨bh,bh',held,after,valid,kind⟩ := failIo_cases failed
    constructor
    · intro told now here
      obtain rfl := Option.some.inj (held.symm.trans here)
      obtain ⟨read,write⟩ := told bh bh' held after
      rcases kind with reading | ⟨⟨content,writing⟩,clean⟩
      · exact nomatch valid.symm.trans (read reading).1
      · have other : bh.io ≠ some .read := by simp [writing]
        exact ⟨other,Bool.eq_false_iff.mpr fun marked => nomatch clean.symm.trans (write other marked)⟩
    · intro spared now now' here _
      obtain ⟨other,clean⟩ := spared now here
      exact ⟨fun reading => absurd reading other,fun _ marked => nomatch clean.symm.trans marked⟩

/-- In a run every failure is told if and only if no read fails and no write of a buffer marked dirty. -/
theorem told_iff (s : Served α) (actions : List (Action α)) :
    Along step Told s actions ↔ Along step (fun s a _ => Spared s a) s actions :=
  along_congr (fun _ _ _ => told_step) s actions

def failedRead : List (Action Nat) := [.call (.bread 7 0),.call (.breadSubmit 0),.fail 0 ⟨5,by decide⟩ 0]

def failedWrite : List (Action Nat) :=
  [.call (.bwrite 7 0),.call (.modify 0 ⟨.holding,false⟩ 1),.call (.markDirty 0 ⟨.holding,true⟩),.call (.brelse 0),.call .sync,
    .fail 0 ⟨5,by decide⟩ 0]

/-- The read that fails leaves its buffer uptodate, and the write that fails leaves its clean. -/
theorem told_not : ¬Along step Told (Served.init fun _ => 0) failedRead ∧
    ¬Along step Told (Served.init fun _ => 0) failedWrite := by
  constructor
  · intro told
    have failed := ((told _ rfl).2 _ rfl).2 _ rfl
    have wrong := (failed.1 _ _ rfl rfl).1 rfl
    exact absurd wrong.1 (by decide)
  · intro told
    have failed := (((((told _ rfl).2 _ rfl).2 _ rfl).2 _ rfl).2 _ rfl).2 _ rfl
    have wrong := (failed.1 _ _ rfl rfl).2 (by decide) rfl
    exact absurd wrong (by decide)

end Ext4Fuse.IoErrors
