import Ext4Fuse.BufferSections

/-! What is on the free list, as long as getting a buffer and releasing it stay apart. -/
namespace Ext4Fuse.BufferSections
open BufferCache Library.Steps Library.Threads

variable {α : Type}

/-- All there is to one buffer. -/
structure View (α : Type) where
  bh : BufferHead α
  users : List User
  free : Prop
  listed : Prop
  ending : Option Stage
  acquiring : Nat
  putting : Nat
  moving : Nat
  reclaiming : Nat
  erasing : Nat

def Threads.view (t : Threads α) (i : Nat) (bh : BufferHead α) : View α where
  bh := bh
  users := t.cache.users i
  free := i ∈ t.cache.bdBhFree
  listed := i ∈ t.cache.bdBhDirty
  ending := t.ending i
  acquiring := t.calls i Call.acquires
  putting := t.calls i Call.puts
  moving := t.calls i Call.moves
  reclaiming := t.calls i Call.reclaims
  erasing := t.erasing i

/-- A request is in flight whose completion has not put its reference yet. -/
def View.inFlight (v : View α) : Prop := v.bh.io.isSome = true ∧ v.ending = none

/-- `after_buffer_sync` is before its attachment to the free list. -/
def View.syncing (v : View α) : Prop := v.ending = some .synced ∨ v.ending = some .unlisted ∨ v.ending = some .cleaned

def View.releasing (v : View α) : Nat := v.putting + v.moving + v.reclaiming

/-- The buffer is not on the free list nor on its way there or out of the tree. -/
def View.Apart (v : View α) : Prop := ¬v.free ∧ ¬v.syncing ∧ v.erasing = 0

structure Fit (v : View α) : Prop where
  referenced : v.inFlight → v.bh.bCount = v.users.length + 1
  counted : ¬v.inFlight → v.bh.bCount = v.users.length
  locked : v.ending ≠ none → ∃ content, v.bh.io = some (.write content)
  free : v.free → v.bh.bCount = 0 ∧ v.bh.dirty = false
  listed : v.listed → v.bh.dirty = true
  acquiring : 0 < v.acquiring → v.releasing = 0 ∧ v.Apart
  releasing : 0 < v.releasing → v.releasing = 1 ∧ v.users = [] ∧ v.Apart ∧ (v.inFlight → v.bh.dirty = true)
  moving : 0 < v.moving → v.bh.dirty = true
  reclaiming : 0 < v.reclaiming → v.bh.dirty = false
  syncing : v.syncing → v.users = [] ∧ ¬v.free ∧ v.erasing = 0
  unlisted : v.ending = some .unlisted ∨ v.ending = some .cleaned → ¬v.listed
  cleaned : v.ending = some .cleaned → v.bh.dirty = false
  erasing : 0 < v.erasing → v.erasing = 1 ∧ v.bh.bCount = 0 ∧ v.bh.dirty = false ∧ ¬v.free

section Fit
variable {v : View α}

theorem Fit.unused (fit : Fit v) (zero : v.bh.bCount = 0) : v.users = [] ∧ ¬v.inFlight := by
  rcases Classical.em v.inFlight with flight | rest
  · have := fit.referenced flight
    omega
  · have := fit.counted rest
    exact ⟨List.length_eq_zero_iff.mp (by omega),rest⟩

/-- A buffer with a user is at nobody's disposal. -/
theorem Fit.used (fit : Fit v) (used : v.users ≠ []) : v.releasing = 0 ∧ v.Apart := by
  have count : v.bh.bCount ≠ 0 := fun zero => used (fit.unused zero).1
  refine ⟨?_,?_,?_,?_⟩
  · by_contra busy
    exact used (fit.releasing (by omega)).2.1
  · exact fun free => count (fit.free free).1
  · exact fun syncing => used (fit.syncing syncing).1
  · by_contra busy
    exact count (fit.erasing (by omega)).2.1

/-- `__getblk` takes the buffer off the free list. -/
theorem Fit.detach (fit : Fit v) (alone : v.releasing = 0) (quiet : ¬v.syncing) (kept : v.erasing = 0) :
    Fit {v with free := False,acquiring := v.acquiring + 1} :=
  {fit with
    free := False.elim
    acquiring := fun _ => ⟨alone,id,quiet,kept⟩
    releasing := fun busy => absurd alone (Nat.ne_of_gt busy)
    syncing := fun syncing => absurd syncing quiet
    erasing := fun busy => absurd kept (Nat.ne_of_gt busy)}

theorem Fit.unlist (fit : Fit v) : Fit {v with listed := False} :=
  {fit with
    listed := False.elim
    unlisted := fun _ => id}

/-- `get_bh` for a user. -/
theorem Fit.get (fit : Fit v) (acquiring : 0 < v.acquiring) (user : User) :
    Fit {v with bh := {v.bh with bCount := v.bh.bCount + 1},users := user::v.users,acquiring := v.acquiring - 1} := by
  obtain ⟨alone,unfree,quiet,kept⟩ := fit.acquiring acquiring
  exact {fit with
    referenced := fun flight => by
      have := fit.referenced flight
      simp only [List.length_cons]
      omega
    counted := fun rest => by
      have := fit.counted rest
      simp only [List.length_cons]
      omega
    free := fun free => absurd free unfree
    acquiring := fun _ => ⟨alone,unfree,quiet,kept⟩
    releasing := fun busy => absurd alone (Nat.ne_of_gt busy)
    syncing := fun syncing => absurd syncing quiet
    erasing := fun busy => absurd kept (Nat.ne_of_gt busy)}

/-- `put_bh_and_read` with users left. -/
theorem Fit.put (fit : Fit v) {user : User} (member : user ∈ v.users) :
    Fit {v with bh := {v.bh with bCount := v.bh.bCount - 1},users := v.users.erase user} := by
  have some_ := List.length_pos_of_mem member
  have length := List.length_erase_of_mem member
  obtain ⟨alone,unfree,quiet,kept⟩ := fit.used (List.ne_nil_of_mem member)
  exact {fit with
    referenced := fun flight => by
      have := fit.referenced flight
      simp only [length]
      omega
    counted := fun rest => by
      have := fit.counted rest
      simp only [length]
      omega
    free := fun free => absurd free unfree
    releasing := fun busy => absurd alone (Nat.ne_of_gt busy)
    syncing := fun syncing => absurd syncing quiet
    erasing := fun busy => absurd kept (Nat.ne_of_gt busy)}

/-- `put_bh_and_read` of the last reference begins a release. -/
theorem Fit.release (fit : Fit v) {user : User} (member : user ∈ v.users) (last : v.bh.bCount = 1) (free : v.acquiring = 0) :
    Fit {v with bh := {v.bh with bCount := v.bh.bCount - 1},users := v.users.erase user,putting := v.putting + 1} := by
  have some_ := List.length_pos_of_mem member
  have length := List.length_erase_of_mem member
  obtain ⟨alone,unfree,quiet,kept⟩ := fit.used (List.ne_nil_of_mem member)
  have landed : ¬v.inFlight := fun flight => by
    have := fit.referenced flight
    omega
  have empty : v.users.erase user = [] := by
    have := fit.counted landed
    exact List.length_eq_zero_iff.mp (by omega)
  unfold View.releasing at alone
  exact {fit with
    referenced := fun flight => absurd flight landed
    counted := fun rest => by
      have := fit.counted rest
      simp only [length]
      omega
    free := fun free => absurd free unfree
    acquiring := fun busy => absurd free (Nat.ne_of_gt busy)
    releasing := fun _ => ⟨by simp only [View.releasing]; omega,empty,⟨unfree,quiet,kept⟩,fun flight => absurd flight landed⟩
    syncing := fun syncing => absurd syncing quiet
    erasing := fun busy => absurd kept (Nat.ne_of_gt busy)}

/-- `brelse` goes on to the writeback list or to the free list. -/
theorem Fit.look (fit : Fit v) (putting : 0 < v.putting) {moving reclaiming : Nat}
    (dirty : v.bh.dirty = true → moving = v.moving + 1 ∧ reclaiming = v.reclaiming)
    (clean : v.bh.dirty = false → moving = v.moving ∧ reclaiming = v.reclaiming + 1) :
    Fit {v with putting := v.putting - 1,moving := moving,reclaiming := reclaiming} := by
  have busy : 0 < v.releasing := by
    unfold View.releasing
    omega
  obtain ⟨one,empty,apart,flight⟩ := fit.releasing busy
  have same : v.putting - 1 + moving + reclaiming = 1 := by
    unfold View.releasing at one
    cases h : v.bh.dirty with
    | true => have := dirty h; omega
    | false => have := clean h; omega
  exact {fit with
    acquiring := fun acquiring => absurd (fit.acquiring acquiring).1 (Nat.ne_of_gt busy)
    releasing := fun _ => ⟨same,empty,apart,flight⟩
    moving := fun some_ => by
      by_contra h
      have := clean (Bool.eq_false_iff.mpr h)
      exact h (fit.moving (by simp only at some_; omega))
    reclaiming := fun some_ => by
      by_contra h
      have := dirty (Bool.not_eq_false _ ▸ h)
      exact h (fit.reclaiming (by simp only at some_; omega))}

/-- The end of `brelse` for a dirty buffer. -/
theorem Fit.list (fit : Fit v) (moving : 0 < v.moving) : Fit {v with listed := True,moving := v.moving - 1} := by
  have busy : 0 < v.releasing := by
    unfold View.releasing
    omega
  obtain ⟨one,empty,apart,flight⟩ := fit.releasing busy
  have none_ : v.putting + (v.moving - 1) + v.reclaiming = 0 := by
    unfold View.releasing at one
    omega
  exact {fit with
    listed := fun _ => fit.moving moving
    acquiring := fun acquiring => absurd (fit.acquiring acquiring).1 (Nat.ne_of_gt busy)
    releasing := fun more => absurd none_ (Nat.ne_of_gt more)
    moving := fun _ => fit.moving moving
    unlisted := fun stage => absurd (Or.inr stage) apart.2.1}

/-- The end of `brelse` for a clean buffer. -/
theorem Fit.reclaim (fit : Fit v) (reclaiming : 0 < v.reclaiming) : Fit {v with free := True,reclaiming := v.reclaiming - 1} := by
  have busy : 0 < v.releasing := by
    unfold View.releasing
    omega
  obtain ⟨one,empty,⟨_,quiet,kept⟩,flight⟩ := fit.releasing busy
  have clean := fit.reclaiming reclaiming
  have zero : v.bh.bCount = 0 := by
    have landed : ¬v.inFlight := fun now => by
      have := flight now
      rw [clean] at this
      nomatch this
    have := fit.counted landed
    rwa [empty] at this
  have none_ : v.putting + v.moving + (v.reclaiming - 1) = 0 := by
    unfold View.releasing at one
    omega
  exact {fit with
    free := fun _ => ⟨zero,clean⟩
    acquiring := fun acquiring => absurd (fit.acquiring acquiring).1 (Nat.ne_of_gt busy)
    releasing := fun more => absurd none_ (Nat.ne_of_gt more)
    reclaiming := fun _ => clean
    syncing := fun syncing => absurd syncing quiet
    erasing := fun more => absurd kept (Nat.ne_of_gt more)}

/-- `remove_first_bh_from_freelist` takes the buffer. -/
theorem Fit.pop (fit : Fit v) (free : v.free) (first : v.erasing = 0) : Fit {v with free := False,erasing := v.erasing + 1} := by
  obtain ⟨zero,clean⟩ := fit.free free
  exact {fit with
    free := False.elim
    acquiring := fun busy => absurd free (fit.acquiring busy).2.1
    releasing := fun busy => absurd free (fit.releasing busy).2.2.1.1
    syncing := fun syncing => absurd free (fit.syncing syncing).2.1
    erasing := fun _ => ⟨by simp only [first],zero,clean,id⟩}

/-- The users change but not their number. -/
theorem Fit.users (fit : Fit v) {users : List User} (same : users.length = v.users.length) : Fit {v with users := users} := by
  have empty : v.users = [] → users = [] := fun none_ => List.length_eq_zero_iff.mp (by rw [same,none_]; rfl)
  exact {fit with
    referenced := fun flight => by simp only [same]; exact fit.referenced flight
    counted := fun rest => by simp only [same]; exact fit.counted rest
    releasing := fun busy => ⟨(fit.releasing busy).1,empty (fit.releasing busy).2.1,(fit.releasing busy).2.2⟩
    syncing := fun syncing => ⟨empty (fit.syncing syncing).1,(fit.syncing syncing).2⟩}

/-- Contents, and a read that arrives. -/
theorem Fit.content (fit : Fit v) {bh : BufferHead α} (count : bh.bCount = v.bh.bCount) (dirty : bh.dirty = v.bh.dirty)
    (io : bh.io.isSome = v.bh.io.isSome) (carries : ∀ content, v.bh.io = some (.write content) → bh.io = v.bh.io) :
    Fit {v with bh := bh} := by
  have flight : (bh.io.isSome = true ∧ v.ending = none) ↔ v.inFlight := by rw [io]; rfl
  exact {fit with
    referenced := fun now => count.trans (fit.referenced (flight.mp now))
    counted := fun rest => count.trans (fit.counted (mt flight.mpr rest))
    locked := fun ending => by
      obtain ⟨content,carried⟩ := fit.locked ending
      exact ⟨content,(carries content carried).trans carried⟩
    free := fun free => by simp only [count,dirty]; exact fit.free free
    listed := fun listed => dirty.trans (fit.listed listed)
    releasing := fun busy => by
      obtain ⟨one,empty,apart,marked⟩ := fit.releasing busy
      exact ⟨one,empty,apart,fun now => dirty.trans (marked (flight.mp now))⟩
    moving := fun busy => dirty.trans (fit.moving busy)
    reclaiming := fun busy => dirty.trans (fit.reclaiming busy)
    cleaned := fun ending => dirty.trans (fit.cleaned ending)
    erasing := fun busy => by simp only [count,dirty]; exact fit.erasing busy}

/-- `fs_mark_buffer_dirty` by a user. -/
theorem Fit.mark (fit : Fit v) (used : v.users ≠ []) : Fit {v with bh := {v.bh with uptodate := true,dirty := true}} := by
  obtain ⟨alone,unfree,quiet,kept⟩ := fit.used used
  have none_ : v.reclaiming = 0 := by
    unfold View.releasing at alone
    omega
  exact {fit with
    free := fun free => absurd free unfree
    listed := fun _ => rfl
    releasing := fun busy => absurd alone (Nat.ne_of_gt busy)
    moving := fun _ => rfl
    reclaiming := fun busy => absurd none_ (Nat.ne_of_gt busy)
    cleaned := fun ending => absurd (Or.inr (Or.inr ending)) quiet
    erasing := fun busy => absurd kept (Nat.ne_of_gt busy)}

/-- `bh_submit_read` by a user. -/
theorem Fit.submitRead (fit : Fit v) (used : v.users ≠ []) (unlocked : v.bh.io = none) :
    Fit {v with bh := {v.bh with bCount := v.bh.bCount + 1,dirty := false,io := some .read},listed := False} := by
  obtain ⟨alone,unfree,quiet,kept⟩ := fit.used used
  have ended : v.ending = none := by
    by_contra ending
    obtain ⟨content,locked⟩ := fit.locked ending
    rw [unlocked] at locked
    nomatch locked
  have landed : ¬v.inFlight := fun flight => by
    have := flight.1
    rw [unlocked] at this
    nomatch this
  have none_ : v.moving = 0 := by
    unfold View.releasing at alone
    omega
  exact {fit with
    referenced := fun _ => by
      have := fit.counted landed
      simp only
      omega
    counted := fun rest => absurd ⟨rfl,ended⟩ rest
    locked := fun ending => absurd ended ending
    free := fun free => absurd free unfree
    listed := False.elim
    releasing := fun busy => absurd alone (Nat.ne_of_gt busy)
    moving := fun busy => absurd none_ (Nat.ne_of_gt busy)
    reclaiming := fun _ => rfl
    unlisted := fun _ => id
    cleaned := fun _ => rfl
    erasing := fun busy => absurd kept (Nat.ne_of_gt busy)}

/-- `sync_dirty_buffer` submits. -/
theorem Fit.submitWrite (fit : Fit v) (unlocked : v.bh.io = none) (dirty : v.bh.dirty = true) (content : α) :
    Fit {v with bh := {v.bh with bCount := v.bh.bCount + 1,io := some (.write content),lastIo := some content}} := by
  have ended : v.ending = none := by
    by_contra ending
    obtain ⟨content,locked⟩ := fit.locked ending
    rw [unlocked] at locked
    nomatch locked
  have landed : ¬v.inFlight := fun flight => by
    have := flight.1
    rw [unlocked] at this
    nomatch this
  exact {fit with
    referenced := fun _ => by
      have := fit.counted landed
      simp only
      omega
    counted := fun rest => absurd ⟨rfl,ended⟩ rest
    locked := fun _ => ⟨content,rfl⟩
    free := fun free => by
      have := (fit.free free).2
      rw [dirty] at this
      nomatch this
    releasing := fun busy => ⟨(fit.releasing busy).1,(fit.releasing busy).2.1,(fit.releasing busy).2.2.1,fun _ => dirty⟩
    erasing := fun busy => by
      have := (fit.erasing busy).2.2.1
      rw [dirty] at this
      nomatch this}

/-- `after_submit_read`. -/
theorem Fit.endRead (fit : Fit v) (arrived : v.bh.io = some .arrived) :
    Fit {v with bh := {v.bh with uptodate := true,bCount := v.bh.bCount - 1,io := none}} := by
  have ended : v.ending = none := by
    by_contra ending
    obtain ⟨content,locked⟩ := fit.locked ending
    rw [arrived] at locked
    nomatch locked
  have count := fit.referenced ⟨by rw [arrived]; rfl,ended⟩
  exact {fit with
    referenced := fun flight => nomatch flight.1
    counted := fun _ => by
      simp only
      omega
    locked := fun ending => absurd ended ending
    free := fun free => by
      have := (fit.free free).1
      omega
    releasing := fun busy => ⟨(fit.releasing busy).1,(fit.releasing busy).2.1,(fit.releasing busy).2.2.1,fun flight => nomatch flight.1⟩
    erasing := fun busy => by
      have := (fit.erasing busy).2.1
      omega}

/-- `after_buffer_sync` begins, with nobody at work on the buffer. -/
theorem Fit.endWrite (fit : Fit v) {content : α} (writing : v.bh.io = some (.write content)) (ended : v.ending = none)
    (unused : v.users = []) (free : v.acquiring = 0) (alone : v.releasing = 0) :
    Fit {v with bh := {v.bh with uptodate := true,bCount := v.bh.bCount - 1},ending := some .synced} := by
  have count := fit.referenced ⟨by rw [writing]; rfl,ended⟩
  have unfree : ¬v.free := fun free => by
    have := (fit.free free).1
    omega
  have kept : v.erasing = 0 := by
    by_contra busy
    have := (fit.erasing (by omega)).2.1
    omega
  exact {fit with
    referenced := fun flight => nomatch flight.2
    counted := fun _ => by
      simp only
      omega
    locked := fun _ => ⟨content,writing⟩
    free := fun free => absurd free unfree
    acquiring := fun busy => absurd free (Nat.ne_of_gt busy)
    releasing := fun busy => absurd alone (Nat.ne_of_gt busy)
    syncing := fun _ => ⟨unused,unfree,kept⟩
    unlisted := by rintro (stage | stage) <;> nomatch stage
    cleaned := nofun
    erasing := fun busy => absurd kept (Nat.ne_of_gt busy)}

/-- While `after_buffer_sync` is at work nobody else is. -/
theorem Fit.alone (fit : Fit v) (syncing : v.syncing) : v.acquiring = 0 ∧ v.releasing = 0 := by
  constructor
  · by_contra busy
    exact (fit.acquiring (by omega)).2.2.1 syncing
  · by_contra busy
    exact (fit.releasing (by omega)).2.2.1.2.1 syncing

/-- `after_buffer_sync` takes the buffer off the writeback list. -/
theorem Fit.syncUnlist (fit : Fit v) (stage : v.ending = some .synced) : Fit {v with listed := False,ending := some .unlisted} := by
  obtain ⟨free,alone⟩ := fit.alone (Or.inl stage)
  have apart := fit.syncing (Or.inl stage)
  exact {fit with
    referenced := fun flight => nomatch flight.2
    counted := fun _ => fit.counted fun flight => nomatch stage ▸ flight.2
    locked := fun _ => fit.locked (by rw [stage]; nofun)
    listed := False.elim
    acquiring := fun busy => absurd free (Nat.ne_of_gt busy)
    releasing := fun busy => absurd alone (Nat.ne_of_gt busy)
    syncing := fun _ => apart
    unlisted := fun _ => id
    cleaned := nofun}

/-- `after_buffer_sync` clears the dirty bit. -/
theorem Fit.syncClean (fit : Fit v) (stage : v.ending = some .unlisted) :
    Fit {v with bh := {v.bh with dirty := false},ending := some .cleaned} := by
  obtain ⟨free,alone⟩ := fit.alone (Or.inr (Or.inl stage))
  have apart := fit.syncing (Or.inr (Or.inl stage))
  have none_ : v.moving = 0 := by
    unfold View.releasing at alone
    omega
  exact {fit with
    referenced := fun flight => nomatch flight.2
    counted := fun _ => fit.counted fun flight => nomatch stage ▸ flight.2
    locked := fun _ => fit.locked (by rw [stage]; nofun)
    free := fun free => absurd free apart.2.1
    listed := fun listed => absurd listed (fit.unlisted (Or.inl stage))
    acquiring := fun busy => absurd free (Nat.ne_of_gt busy)
    releasing := fun busy => absurd alone (Nat.ne_of_gt busy)
    moving := fun busy => absurd none_ (Nat.ne_of_gt busy)
    reclaiming := fun _ => rfl
    syncing := fun _ => apart
    unlisted := fun _ => fit.unlisted (Or.inl stage)
    cleaned := fun _ => rfl
    erasing := fun busy => absurd apart.2.2 (Nat.ne_of_gt busy)}

/-- `after_buffer_sync` puts the buffer on the free list. -/
theorem Fit.syncAttach (fit : Fit v) (stage : v.ending = some .cleaned) : Fit {v with free := True,ending := some .attached} := by
  have syncing : v.syncing := Or.inr (Or.inr stage)
  obtain ⟨free,alone⟩ := fit.alone syncing
  have apart := fit.syncing syncing
  have count := fit.counted fun flight => nomatch stage ▸ flight.2
  rw [apart.1] at count
  exact {fit with
    referenced := fun flight => nomatch flight.2
    counted := fun _ => fit.counted fun flight => nomatch stage ▸ flight.2
    locked := fun _ => fit.locked (by rw [stage]; nofun)
    free := fun _ => ⟨count,fit.cleaned stage⟩
    acquiring := fun busy => absurd free (Nat.ne_of_gt busy)
    releasing := fun busy => absurd alone (Nat.ne_of_gt busy)
    syncing := by rintro (ended | ended | ended) <;> nomatch ended
    unlisted := by rintro (ended | ended) <;> nomatch ended
    cleaned := nofun
    erasing := fun busy => absurd apart.2.2 (Nat.ne_of_gt busy)}

/-- `after_buffer_sync` releases `b_lock`. -/
theorem Fit.unlock (fit : Fit v) (stage : v.ending = some .attached) : Fit {v with bh := {v.bh with io := none},ending := none} := by
  have quiet : ¬({v with bh := {v.bh with io := none},ending := none} : View α).syncing := by
    rintro (ended | ended | ended) <;> nomatch ended
  exact {fit with
    referenced := fun flight => nomatch flight.1
    counted := fun _ => fit.counted fun flight => nomatch stage ▸ flight.2
    locked := fun ending => absurd rfl ending
    acquiring := fun busy => ⟨(fit.acquiring busy).1,(fit.acquiring busy).2.1,quiet,(fit.acquiring busy).2.2.2⟩
    releasing := fun busy => by
      obtain ⟨one,empty,⟨unfree,_,kept⟩,_⟩ := fit.releasing busy
      exact ⟨one,empty,⟨unfree,quiet,kept⟩,fun flight => nomatch flight.1⟩
    syncing := fun syncing => absurd syncing quiet
    unlisted := by rintro (ended | ended) <;> nomatch ended
    cleaned := nofun}

/-- What is known of a buffer that `__getblk` has just made. -/
def View.new (bh : BufferHead α) : View α where
  bh := bh
  users := []
  free := False
  listed := False
  ending := none
  acquiring := 1
  putting := 0
  moving := 0
  reclaiming := 0
  erasing := 0

theorem fit_new {bh : BufferHead α} (count : bh.bCount = 0) (clean : bh.dirty = false) (unlocked : bh.io = none) :
    Fit (View.new bh) := by
  have quiet : ¬(View.new bh).syncing := by
    rintro (ended | ended | ended) <;> nomatch ended
  have idle (flight : (View.new bh).inFlight) : False := by
    have := flight.1
    rw [View.new,unlocked] at this
    nomatch this
  exact {
    referenced := fun flight => (idle flight).elim
    counted := fun _ => count
    locked := fun ending => absurd rfl ending
    free := False.elim
    listed := False.elim
    acquiring := fun _ => ⟨rfl,id,quiet,rfl⟩
    releasing := fun busy => absurd busy (Nat.lt_irrefl 0)
    moving := fun busy => absurd busy (Nat.lt_irrefl 0)
    reclaiming := fun _ => clean
    syncing := fun syncing => absurd syncing quiet
    unlisted := fun _ => id
    cleaned := nofun
    erasing := fun busy => absurd busy (Nat.lt_irrefl 0)}

end Fit

/-! What every run keeps that keeps acquisitions and releases apart. -/

/-- Nothing is known yet of a buffer that is still to be allocated. -/
structure Blank (t : Threads α) (i : Nat) : Prop where
  buffer : t.cache.buffer i = none
  users : t.cache.users i = []
  listed : i ∉ t.cache.bdBhDirty
  ending : t.ending i = none
  acquiring : t.calls i Call.acquires = 0
  putting : t.calls i Call.puts = 0
  moving : t.calls i Call.moves = 0
  reclaiming : t.calls i Call.reclaims = 0

structure Sound (t : Threads α) : Prop where
  nodup : t.cache.bdBhFree.Nodup
  distinct : t.cache.bdBhDirty.Nodup
  live : ∀ i, i ∈ t.cache.bdBhFree ∨ 0 < t.erasing i → t.cache.buffer i ≠ none
  fresh : ∀ i, t.cache.next ≤ i → Blank t i
  fits : ∀ i bh, t.cache.buffer i = some bh → Fit (t.view i bh)

/-- A step leaves a buffer as it is. -/
structure Same (t t' : Threads α) (j : Nat) : Prop where
  buffer : t'.cache.buffer j = t.cache.buffer j
  users : t'.cache.users j = t.cache.users j
  free : j ∈ t'.cache.bdBhFree ↔ j ∈ t.cache.bdBhFree
  listed : j ∈ t'.cache.bdBhDirty ↔ j ∈ t.cache.bdBhDirty
  ending : t'.ending j = t.ending j
  acquiring : t'.calls j Call.acquires = t.calls j Call.acquires
  putting : t'.calls j Call.puts = t.calls j Call.puts
  moving : t'.calls j Call.moves = t.calls j Call.moves
  reclaiming : t'.calls j Call.reclaims = t.calls j Call.reclaims
  erasing : t'.erasing j = t.erasing j

theorem Same.view {t t' : Threads α} {j : Nat} (same : Same t t' j) (bh : BufferHead α) : t'.view j bh = t.view j bh := by
  unfold Threads.view
  rw [same.users,propext same.free,propext same.listed,same.ending,same.acquiring,same.putting,same.moving,same.reclaiming,
    same.erasing]

/-- A step changes what is known of buffer `i` only. -/
theorem Sound.change {t t' : Threads α} (sound : Sound t) (i : Nat) (known : i < t'.cache.next)
    (next : t.cache.next ≤ t'.cache.next) (nodup : t'.cache.bdBhFree.Nodup) (distinct : t'.cache.bdBhDirty.Nodup)
    (others : ∀ j, j ≠ i → Same t t' j)
    (live : i ∈ t'.cache.bdBhFree ∨ 0 < t'.erasing i → t'.cache.buffer i ≠ none)
    (here : ∀ bh, t'.cache.buffer i = some bh → Fit (t'.view i bh)) : Sound t' where
  nodup := nodup
  distinct := distinct
  live j either := by
    rcases eq_or_ne j i with rfl | other
    · exact live either
    · have same := others j other
      rw [same.buffer]
      exact sound.live j (either.imp same.free.mp fun busy => by rwa [← same.erasing])
  fresh j beyond := by
    have same := others j (by omega)
    have blank := sound.fresh j (by omega)
    exact ⟨same.buffer.trans blank.buffer,same.users.trans blank.users,mt same.listed.mp blank.listed,
      same.ending.trans blank.ending,same.acquiring.trans blank.acquiring,same.putting.trans blank.putting,
      same.moving.trans blank.moving,same.reclaiming.trans blank.reclaiming⟩
  fits j bh held := by
    rcases eq_or_ne j i with rfl | other
    · exact here bh held
    · have same := others j other
      rw [same.view]
      exact sound.fits j bh (same.buffer ▸ held)

section Step
variable {t t' : Threads α} {i k : Nat} {bh bh' : BufferHead α} {old new : Pc} {c : Cache α}

/-- A step that changes one buffer of the cache, and where its calls are. -/
theorem Sound.local (sound : Sound t) (held : t.cache.buffer i = some bh) (loc : Local i t.cache t'.cache)
    (ending : ∀ j, j ≠ i → t'.ending j = t.ending j) (calls : ∀ j, j ≠ i → ∀ p, t'.calls j p = t.calls j p)
    (erasing : ∀ j, j ≠ i → t'.erasing j = t.erasing j) (now : t'.cache.buffer i = some bh') (fit : Fit (t'.view i bh')) :
    Sound t' := by
  have known : i < t.cache.next := by
    by_contra beyond
    have blank := (sound.fresh i (Nat.le_of_not_lt beyond)).buffer
    rw [held] at blank
    nomatch blank
  refine sound.change i (loc.next ▸ known) (Nat.le_of_eq loc.next.symm) (loc.freeOnce sound.nodup) (loc.dirtyOnce sound.distinct)
    (fun j other => ?_) (fun _ => by rw [now]; nofun) fun bh here => ?_
  · exact ⟨loc.buffers j other,loc.users j other,loc.free j other,loc.dirty j other,ending j other,calls j other _,
      calls j other _,calls j other _,calls j other _,erasing j other⟩
  · rw [now] at here
    exact Option.some.inj here ▸ fit

/-- The thread is nowhere but, perhaps, in a call on buffer `i`. -/
structure Pc.Only (i : Nat) (pc : Pc) : Prop where
  elsewhere : ∀ j, j ≠ i → ∀ p, pc.isOn j p = false
  erasing : ∀ j, pc.isErasing j = false

theorem only_idle (i : Nat) : Pc.idle.Only i := ⟨fun _ _ _ => rfl,fun _ => rfl⟩

theorem only_on (i : Nat) (call : Call) (kept : ∀ j, (Pc.on i call).isErasing j = false) : (Pc.on i call).Only i :=
  ⟨fun j other p => by simp [Pc.isOn,other.symm],kept⟩

/-- The view of the buffer that a thread is at work on. -/
theorem view_move (here : t.pcs[k]? = some old) (oldOnly : old.Only i) (newOnly : new.Only i) (c : Cache α) (bh : BufferHead α) :
    (t.move k c new).view i bh = {
      bh := bh
      users := c.users i
      free := i ∈ c.bdBhFree
      listed := i ∈ c.bdBhDirty
      ending := t.ending i
      acquiring := t.calls i Call.acquires + (new.isOn i Call.acquires).toNat - (old.isOn i Call.acquires).toNat
      putting := t.calls i Call.puts + (new.isOn i Call.puts).toNat - (old.isOn i Call.puts).toNat
      moving := t.calls i Call.moves + (new.isOn i Call.moves).toNat - (old.isOn i Call.moves).toNat
      reclaiming := t.calls i Call.reclaims + (new.isOn i Call.reclaims).toNat - (old.isOn i Call.reclaims).toNat
      erasing := t.erasing i} := by
  simp only [Threads.view,calls_move here,erasing_move here,oldOnly.erasing,newOnly.erasing,move_cache,move_ending]
  rfl

/-- A thread that goes on in a call on buffer `i`. -/
theorem Sound.move (sound : Sound t) (held : t.cache.buffer i = some bh) (here : t.pcs[k]? = some old) (oldOnly : old.Only i)
    (newOnly : new.Only i) (loc : Local i t.cache c) (now : c.buffer i = some bh') (fit : Fit ((t.move k c new).view i bh')) :
    Sound (t.move k c new) := by
  refine sound.local held loc (fun _ _ => rfl) (fun j other p => ?_) (fun j other => ?_) now fit
  · rw [calls_move here,oldOnly.elsewhere j other,newOnly.elsewhere j other,Bool.toNat_false]
    rfl
  · rw [erasing_move here,oldOnly.erasing,newOnly.erasing,Bool.toNat_false]
    rfl

theorem found_sound {phase : Phase} (sound : Sound t) (here : t.pcs[k]? = some (.on i (.found phase)))
    (held : t.cache.buffer i = some bh) (alone : (t.view i bh).releasing = 0) (quiet : ¬(t.view i bh).syncing)
    (kept : t.erasing i = 0) : Sound (t.move k (detachBhFromFreelist t.cache i) (.on i (.detached phase))) := by
  have before := only_on i (.found phase) fun _ => rfl
  have after := only_on i (.detached phase) fun _ => rfl
  have free : i ∉ (detachBhFromFreelist t.cache i).bdBhFree := sound.nodup.not_mem_erase
  refine sound.move held here before after Local.refl.detach held ?_
  simp only [view_move here before after,isOn_self,eq_false free]
  exact (sound.fits i bh held).detach alone quiet kept

theorem detached_sound {phase : Phase} (sound : Sound t) (here : t.pcs[k]? = some (.on i (.detached phase)))
    (held : t.cache.buffer i = some bh) : Sound (t.move k (removeBufferFromWriteback t.cache i) (.on i (.unlisted phase))) := by
  have before := only_on i (.detached phase) fun _ => rfl
  have after := only_on i (.unlisted phase) fun _ => rfl
  have listed : i ∉ (removeBufferFromWriteback t.cache i).bdBhDirty := sound.distinct.not_mem_erase
  refine sound.move held here before after Local.refl.remove held ?_
  simp only [view_move here before after,isOn_self,eq_false listed]
  exact (sound.fits i bh held).unlist

/-- `get_bh`, of a buffer that was found or of one that was inserted. -/
theorem getBh_sound {call : Call} {phase : Phase} (sound : Sound t) (here : t.pcs[k]? = some (.on i call))
    (acquires : call = .unlisted phase ∨ call = .inserted phase) (held : t.cache.buffer i = some bh) :
    Sound (t.move k (getBh t.cache i bh phase) .idle) := by
  have before : (Pc.on i call).Only i := only_on i call (by rcases acquires with rfl | rfl <;> exact fun _ => rfl)
  have acquiring : 0 < (t.view i bh).acquiring := by
    refine count_pos here ?_
    rw [isOn_self]
    rcases acquires with rfl | rfl <;> rfl
  refine sound.move held here before (only_idle i) ((Local.refl.set _).setUsers _) (Function.update_self ..) ?_
  have users : (getBh t.cache i bh phase).users i = ⟨phase,false⟩::t.cache.users i := Function.update_self ..
  simp only [view_move here before (only_idle i),isOn_self,users]
  rcases acquires with rfl | rfl <;> exact (sound.fits i bh held).get acquiring ⟨phase,false⟩

theorem look_sound (sound : Sound t) (here : t.pcs[k]? = some (.on i .put)) (held : t.cache.buffer i = some bh) :
    Sound (t.move k t.cache (.on i (if bh.dirty then .moving else .dropping))) := by
  have before := only_on i .put fun _ => rfl
  have putting : 0 < (t.view i bh).putting := count_pos here (isOn_self ..)
  have fit := sound.fits i bh held
  cases dirty : bh.dirty with
  | true =>
    have after := only_on i .moving fun _ => rfl
    rw [if_pos rfl]
    refine sound.move held here before after Local.refl held ?_
    simp only [view_move here before after,isOn_self]
    exact fit.look putting (fun _ => ⟨rfl,rfl⟩) fun clean => nomatch dirty ▸ clean
  | false =>
    have after := only_on i .dropping fun _ => rfl
    rw [if_neg Bool.false_ne_true]
    refine sound.move held here before after Local.refl held ?_
    simp only [view_move here before after,isOn_self]
    exact fit.look putting (fun marked => nomatch dirty ▸ marked) fun _ => ⟨rfl,rfl⟩

theorem moving_sound (sound : Sound t) (here : t.pcs[k]? = some (.on i .moving)) (held : t.cache.buffer i = some bh) :
    Sound (t.move k (moveBufferToWriteback t.cache i) .idle) := by
  have before := only_on i .moving fun _ => rfl
  have moving : 0 < (t.view i bh).moving := count_pos here (isOn_self ..)
  have buffer : (moveBufferToWriteback t.cache i).buffer = t.cache.buffer := (moveBufferToWriteback_fields _ _).1
  have users : (moveBufferToWriteback t.cache i).users = t.cache.users := (moveBufferToWriteback_fields _ _).2.1
  have free : (moveBufferToWriteback t.cache i).bdBhFree = t.cache.bdBhFree := by
    unfold moveBufferToWriteback
    split <;> rfl
  have listed : i ∈ (moveBufferToWriteback t.cache i).bdBhDirty := by
    unfold moveBufferToWriteback
    split
    · assumption
    · exact List.mem_append_right _ List.mem_cons_self
  refine sound.move held here before (only_idle i) Local.refl.move (buffer ▸ held) ?_
  simp only [view_move here before (only_idle i),isOn_self,users,free,eq_true listed]
  exact (sound.fits i bh held).list moving

theorem dropping_sound (sound : Sound t) (here : t.pcs[k]? = some (.on i .dropping)) (held : t.cache.buffer i = some bh)
    {call : Call} (reclaims : call = .popping ∨ call = .reclaimed) : Sound (t.move k t.cache (.on i call)) := by
  have before := only_on i .dropping fun _ => rfl
  have after : (Pc.on i call).Only i := only_on i call (by rcases reclaims with rfl | rfl <;> exact fun _ => rfl)
  refine sound.move held here before after Local.refl held ?_
  simp only [view_move here before after,isOn_self]
  rcases reclaims with rfl | rfl <;> exact sound.fits i bh held

theorem reclaimed_sound (sound : Sound t) (here : t.pcs[k]? = some (.on i .reclaimed)) (held : t.cache.buffer i = some bh) :
    Sound (t.move k (attachBhToFreelist t.cache i) .idle) := by
  have before := only_on i .reclaimed fun _ => rfl
  have reclaiming : 0 < (t.view i bh).reclaiming := count_pos here (isOn_self ..)
  have buffer : (attachBhToFreelist t.cache i).buffer = t.cache.buffer := (attach_fields _ _).1
  have users : (attachBhToFreelist t.cache i).users = t.cache.users := (attach_fields _ _).2.1
  have listed : (attachBhToFreelist t.cache i).bdBhDirty = t.cache.bdBhDirty := by
    unfold attachBhToFreelist
    split <;> rfl
  have free : i ∈ (attachBhToFreelist t.cache i).bdBhFree := by
    unfold attachBhToFreelist
    split
    · assumption
    · exact List.mem_append_right _ List.mem_cons_self
  refine sound.move held here before (only_idle i) Local.refl.attach (buffer ▸ held) ?_
  simp only [view_move here before (only_idle i),isOn_self,users,listed,eq_true free]
  exact (sound.fits i bh held).reclaim reclaiming

/-- `remove_first_bh_from_freelist` has the first buffer off the list. -/
theorem popping_sound (sound : Sound t) (here : t.pcs[k]? = some (.on i .popping)) {j : Nat} (popped : popFree t.cache = some (j,c)) :
    Sound (t.move k c (.on i (.erasing j))) := by
  unfold popFree at popped
  split at popped
  · nomatch popped
  rename_i j rest first
  obtain ⟨rfl,rfl⟩ := Prod.mk.inj (Option.some.inj popped)
  have member : j ∈ t.cache.bdBhFree := first ▸ List.mem_cons_self
  have nodup := sound.nodup
  rw [first] at nodup
  obtain ⟨absent,nodup⟩ := List.nodup_cons.mp nodup
  obtain ⟨bh,held⟩ := Option.ne_none_iff_exists'.mp (sound.live j (Or.inl member))
  have known : j < t.cache.next := by
    by_contra beyond
    have blank := (sound.fresh j (Nat.le_of_not_lt beyond)).buffer
    rw [held] at blank
    nomatch blank
  have calls (j' : Nat) (p : Call → Bool) (same : p (.erasing j) = p .popping) :
      (t.move k {t.cache with bdBhFree := rest} (.on i (.erasing j))).calls j' p = t.calls j' p := by
    refine count_same here ?_
    simp only [Pc.isOn,same]
  have fit := sound.fits j bh held
  have kept : t.erasing j = 0 := by
    by_contra busy
    exact (fit.erasing (Nat.pos_of_ne_zero busy)).2.2.2 member
  refine sound.change j known (Nat.le_refl _) nodup sound.distinct (fun j' other => ?_) (fun _ => by rw [move_cache,held]; nofun)
    fun bh' held' => ?_
  · refine ⟨rfl,rfl,?_,Iff.rfl,rfl,calls _ _ rfl,calls _ _ rfl,calls _ _ rfl,calls _ _ rfl,?_⟩
    · rw [move_cache,first,List.mem_cons]
      exact ⟨Or.inr,fun either => either.resolve_left other⟩
    · refine count_same here ?_
      simp [Pc.isErasing,other.symm]
  · obtain rfl : bh = bh' := Option.some.inj (held.symm.trans held')
    have erasing : (t.move k {t.cache with bdBhFree := rest} (.on i (.erasing j))).erasing j = t.erasing j + 1 := by
      rw [erasing_move here]
      simp [Pc.isErasing]
    simp only [Threads.view,erasing,calls _ Call.acquires rfl,calls _ Call.puts rfl,calls _ Call.moves rfl,
      calls _ Call.reclaims rfl,move_cache,move_ending,eq_false absent]
    exact fit.pop member kept

/-- Nothing was left to take. -/
theorem stay_sound (sound : Sound t) (here : t.pcs[k]? = some (.on i .popping)) (held : t.cache.buffer i = some bh) :
    Sound (t.move k t.cache (.on i .dropping)) := by
  have before := only_on i .popping fun _ => rfl
  have after := only_on i .dropping fun _ => rfl
  refine sound.move held here before after Local.refl held ?_
  simp only [view_move here before after,isOn_self]
  exact sound.fits i bh held

/-- The buffer is out of the tree and freed. -/
theorem erasing_sound {j : Nat} {lost : Nat → Option Nat} (sound : Sound t) (here : t.pcs[k]? = some (.on i (.erasing j)))
    (erased : eraseBuffer t.cache j lost = some c) : Sound (t.move k c (.on i .dropping)) := by
  obtain ⟨bh,held,erased⟩ := Option.bind_eq_some_iff.mp erased
  obtain rfl := Option.some.inj erased
  have fit := sound.fits j bh held
  have busy : 0 < t.erasing j := count_pos here (by simp [Pc.isErasing])
  obtain ⟨one,_,_,unfree⟩ := fit.erasing busy
  have known : j < t.cache.next := by
    by_contra beyond
    have blank := (sound.fresh j (Nat.le_of_not_lt beyond)).buffer
    rw [held] at blank
    cases blank
  have calls (j' : Nat) (p : Call → Bool) (same : p (.erasing j) = p .dropping) (c : Cache α) :
      (t.move k c (.on i .dropping)).calls j' p = t.calls j' p := by
    refine count_same here ?_
    simp only [Pc.isOn,same]
  have done (c : Cache α) : (t.move k c (.on i .dropping)).erasing j = 0 := by
    rw [erasing_move here,show t.erasing j = 1 from one]
    simp [Pc.isErasing]
  refine sound.change j known (Nat.le_refl _) sound.nodup sound.distinct (fun j' other => ?_) (fun either => ?_) fun bh' held' => ?_
  · refine ⟨Function.update_of_ne other ..,rfl,Iff.rfl,Iff.rfl,rfl,calls _ _ rfl _,calls _ _ rfl _,calls _ _ rfl _,
      calls _ _ rfl _,?_⟩
    refine count_same here ?_
    simp [Pc.isErasing,other.symm]
  · rcases either with free | more
    · exact absurd free unfree
    · exact absurd (done _) (Nat.ne_of_gt more)
  · rw [move_cache] at held'
    simp at held'

/-- The writeback thread has taken a buffer off its list. -/
theorem take_sound (sound : Sound t) (here : t.pcs[k]? = some .idle) (taken : takeFromWriteback t k = some t') : Sound t' := by
  unfold takeFromWriteback at taken
  split at taken
  · nomatch taken
  rename_i i rest first
  obtain rfl := Option.some.inj taken
  have distinct := sound.distinct
  rw [first] at distinct
  obtain ⟨absent,distinct⟩ := List.nodup_cons.mp distinct
  have known : i < t.cache.next := by
    by_contra beyond
    exact (sound.fresh i (Nat.le_of_not_lt beyond)).listed (first ▸ List.mem_cons_self)
  have calls (j : Nat) (p : Call → Bool) (same : p .taken = false) :
      (t.move k {t.cache with bdBhDirty := rest} (.on i .taken)).calls j p = t.calls j p := by
    refine count_same here ?_
    simp only [Pc.isOn,same,Bool.and_false]
  have erasing (j : Nat) : (t.move k {t.cache with bdBhDirty := rest} (.on i .taken)).erasing j = t.erasing j := count_same here rfl
  refine sound.change i known (Nat.le_refl _) sound.nodup distinct (fun j other => ?_) (fun either => ?_) fun bh held => ?_
  · refine ⟨rfl,rfl,Iff.rfl,?_,rfl,calls _ _ rfl,calls _ _ rfl,calls _ _ rfl,calls _ _ rfl,erasing j⟩
    rw [move_cache,first,List.mem_cons]
    exact ⟨Or.inr,fun either => either.resolve_left other⟩
  · exact sound.live i (either.imp id fun busy => erasing i ▸ busy)
  · simp only [Threads.view,erasing,calls _ Call.acquires rfl,calls _ Call.puts rfl,calls _ Call.moves rfl,
      calls _ Call.reclaims rfl,move_cache,move_ending,eq_false absent]
    exact (sound.fits i bh held).unlist

theorem taken_sound (sound : Sound t) (here : t.pcs[k]? = some (.on i .taken)) (held : t.cache.buffer i = some bh)
    (synced : syncDirtyBuffer t.cache i = some c) : Sound (t.move k c .idle) := by
  have before := only_on i .taken fun _ => rfl
  obtain ⟨bh',held',synced⟩ := Option.bind_eq_some_iff.mp synced
  obtain rfl : bh = bh' := Option.some.inj (held.symm.trans held')
  split at synced
  · rename_i submits
    obtain rfl := Option.some.inj synced
    refine sound.move held here before (only_idle i) (Local.refl.set _) (Function.update_self ..) ?_
    simp only [view_move here before (only_idle i),isOn_self]
    exact (sound.fits i bh held).submitWrite (Option.isNone_iff_eq_none.mp submits.1) submits.2.2 bh.bData
  · obtain rfl := Option.some.inj synced
    refine sound.move held here before (only_idle i) Local.refl held ?_
    simp only [view_move here before (only_idle i),isOn_self]
    exact sound.fits i bh held

/-- `put_bh_and_read`; the last reference is put when nobody is acquiring the buffer. -/
theorem put_sound (sound : Sound t) (here : t.pcs[k]? = some .idle) (member : ⟨.holding,false⟩ ∈ t.cache.users i)
    (free : ∀ bh, t.cache.buffer i = some bh → bh.bCount = 1 → t.calls i Call.acquires = 0)
    (put : putBhAndRead t k i = some t') : Sound t' := by
  obtain ⟨bh,held,put⟩ := Option.bind_eq_some_iff.mp put
  have fit := sound.fits i bh held
  have loc := (@Local.refl _ i t.cache).set {bh with bCount := bh.bCount - 1} |>.setUsers ((t.cache.users i).erase ⟨.holding,false⟩)
  have users : ((t.cache.set i {bh with bCount := bh.bCount - 1}).setUsers i ((t.cache.users i).erase ⟨.holding,false⟩)).users i =
    (t.cache.users i).erase ⟨.holding,false⟩ := Function.update_self ..
  simp only at put
  split at put
  · obtain rfl := Option.some.inj put
    refine sound.move held here (only_idle i) (only_idle i) loc (Function.update_self ..) ?_
    simp only [view_move here (only_idle i) (only_idle i),users]
    exact fit.put member
  · split at put
    · nomatch put
    · rename_i zero
      obtain rfl := Option.some.inj put
      have after := only_on i .put fun _ => rfl
      have last : bh.bCount = 1 := by omega
      refine sound.move held here (only_idle i) after loc (Function.update_self ..) ?_
      simp only [view_move here (only_idle i) after,isOn_self,users]
      exact fit.release member last (free bh held last)

/-- A search, which leaves every buffer as it is. -/
theorem search_sound (sound : Sound t) (here : t.pcs[k]? = some .idle) (b : Nat) (phase : Phase) :
    Sound (bufferSearch t k b phase) := by
  have calls (pc : Pc) (quiet : ∀ j p, p (.found phase) = false → pc.isOn j p = false) (kept : ∀ j, pc.isErasing j = false) :
      Sound (t.move k t.cache pc) := by
    have same (j : Nat) (p : Call → Bool) (off : p (.found phase) = false) : (t.move k t.cache pc).calls j p = t.calls j p :=
      count_same here (quiet j p off)
    have view (j : Nat) : Same t (t.move k t.cache pc) j := ⟨rfl,rfl,Iff.rfl,Iff.rfl,rfl,same _ _ rfl,same _ _ rfl,same _ _ rfl,
      same _ _ rfl,count_same here (kept j)⟩
    exact ⟨sound.nodup,sound.distinct,fun j either => sound.live j (either.imp id fun busy => (view j).erasing ▸ busy),
      fun j beyond => ⟨(sound.fresh j beyond).1,(sound.fresh j beyond).2,(sound.fresh j beyond).3,(sound.fresh j beyond).4,
        (view j).acquiring.trans (sound.fresh j beyond).5,(view j).putting.trans (sound.fresh j beyond).6,
        (view j).moving.trans (sound.fresh j beyond).7,(view j).reclaiming.trans (sound.fresh j beyond).8⟩,
      fun j bh held => (view j).view bh ▸ sound.fits j bh held⟩
  unfold bufferSearch
  cases t.cache.root b with
  | some i => exact calls _ (fun j p off => by simp [Pc.isOn,off]) fun _ => rfl
  | none => exact calls _ (fun _ _ _ => rfl) fun _ => rfl

theorem insert_sound {b : Nat} {phase : Phase} (sound : Sound t) (here : t.pcs[k]? = some (.missed b phase)) (heap : α) :
    Sound (bufferInsert t k b phase heap) := by
  have blank := sound.fresh t.cache.next (Nat.le_refl _)
  have unused : ¬(t.cache.next ∈ t.cache.bdBhFree ∨ 0 < t.erasing t.cache.next) := fun either => sound.live _ either blank.buffer
  obtain ⟨unfree,kept⟩ := not_or.mp unused
  have elsewhere (c : Cache α) (j : Nat) (p : Call → Bool) (other : j ≠ t.cache.next) :
      (t.move k c (.on t.cache.next (.inserted phase))).calls j p = t.calls j p := by
    refine count_same here ?_
    simp [Pc.isOn,other.symm]
  have erasing (c : Cache α) (j : Nat) : (t.move k c (.on t.cache.next (.inserted phase))).erasing j = t.erasing j := count_same here rfl
  have own (c : Cache α) (p : Call → Bool) : (t.move k c (.on t.cache.next (.inserted phase))).calls t.cache.next p =
      t.calls t.cache.next p + (p (.inserted phase)).toNat := by
    rw [calls_move here,isOn_self]
    rfl
  unfold bufferInsert
  refine sound.change t.cache.next (Nat.lt_succ_self _) (Nat.le_succ _) sound.nodup sound.distinct (fun j other => ?_) (fun _ => ?_)
    fun bh held => ?_
  · exact ⟨Function.update_of_ne other ..,rfl,Iff.rfl,Iff.rfl,rfl,elsewhere _ _ _ other,elsewhere _ _ _ other,elsewhere _ _ _ other,
      elsewhere _ _ _ other,erasing _ _⟩
  · rw [move_cache]
    simp [Cache.set]
  · rw [move_cache] at held
    simp only [Cache.set,Function.update_self,Option.some.injEq] at held
    subst held
    simp only [Threads.view,erasing,own,move_cache,move_ending,Cache.set,blank.users,eq_false unfree,eq_false blank.listed,
      blank.ending,blank.acquiring,blank.putting,blank.moving,blank.reclaiming,Nat.eq_zero_of_not_pos kept]
    exact fit_new rfl rfl rfl

/-- A step of the cache alone, on one buffer. -/
theorem Sound.cache (sound : Sound t) (held : t.cache.buffer i = some bh) (loc : Local i t.cache c)
    (now : c.buffer i = some bh') (fit : Fit ({t with cache := c}.view i bh')) : Sound {t with cache := c} :=
  sound.local held loc (fun _ _ => rfl) (fun _ _ _ => rfl) (fun _ _ => rfl) now fit

theorem advance_users {c c' : Cache α} {user user' : User} (moved : advance c i user user' = some c') :
    c.users i ≠ [] ∧ ∃ users, users.length = (c.users i).length ∧ users ≠ [] ∧ c' = c.setUsers i users := by
  obtain ⟨member,rfl⟩ := advance_eq moved
  exact ⟨List.ne_nil_of_mem member,_,moved_length member,by simp,rfl⟩

theorem setUsers_users (c : Cache α) (i : Nat) (users : List User) : (c.setUsers i users).users i = users := Function.update_self ..

theorem submitRead_sound (sound : Sound t) (stepped : whole t (.breadSubmit i) = some t') : Sound t' := by
  obtain ⟨c₂,submitted,rfl⟩ := Option.map_eq_some_iff.mp stepped
  obtain ⟨c₁,moved,submitted⟩ := Option.bind_eq_some_iff.mp submitted
  obtain ⟨_,users,length,used,rfl⟩ := advance_users moved
  obtain ⟨bh,held,submitted⟩ := Option.bind_eq_some_iff.mp submitted
  have fit := (sound.fits i bh held).users length
  have loc := (@Local.refl _ i t.cache).setUsers users
  split at submitted
  · nomatch submitted
  rename_i unlocked
  split at submitted
  · obtain rfl := Option.some.inj submitted
    refine sound.cache held loc held ?_
    simp only [Threads.view,setUsers_users]
    exact fit
  · obtain rfl := Option.some.inj submitted
    have listed : i ∉ (removeBufferFromWriteback (t.cache.setUsers i users) i).bdBhDirty := sound.distinct.not_mem_erase
    refine sound.cache held (loc.remove.set _) (Function.update_self ..) ?_
    have submitted := fit.submitRead used (show bh.io = none by simpa using unlocked)
    simp only [Threads.view,Cache.set,eq_false listed]
    rw [show (removeBufferFromWriteback (t.cache.setUsers i users) i).users i = users from Function.update_self ..]
    exact submitted

theorem breadReturn_sound (sound : Sound t) (stepped : whole t (.breadReturn i) = some t') : Sound t' := by
  obtain ⟨c₂,returned,rfl⟩ := Option.map_eq_some_iff.mp stepped
  obtain ⟨bh,held,returned⟩ := Option.bind_eq_some_iff.mp returned
  split at returned
  · nomatch returned
  obtain ⟨_,users,length,_,rfl⟩ := advance_users returned
  refine sound.cache held (Local.refl.setUsers users) held ?_
  simp only [Threads.view,setUsers_users]
  exact (sound.fits i bh held).users length

theorem modify_sound {user : User} {content : α} (sound : Sound t) (stepped : whole t (.modify i user content) = some t') :
    Sound t' := by
  obtain ⟨c₂,modified,rfl⟩ := Option.map_eq_some_iff.mp stepped
  obtain ⟨bh,held,modified⟩ := Option.bind_eq_some_iff.mp modified
  split at modified
  · nomatch modified
  obtain ⟨c₁,moved,modified⟩ := Option.bind_eq_some_iff.mp modified
  obtain ⟨_,users,length,_,rfl⟩ := advance_users moved
  obtain rfl := Option.some.inj modified
  refine sound.cache held ((Local.refl.setUsers users).set _) (Function.update_self ..) ?_
  simp only [Threads.view,Cache.set,setUsers_users]
  exact ((sound.fits i bh held).users length).content rfl rfl rfl fun _ _ => rfl

theorem markDirty_sound {user : User} (sound : Sound t) (stepped : whole t (.markDirty i user) = some t') : Sound t' := by
  obtain ⟨c₂,marked,rfl⟩ := Option.map_eq_some_iff.mp stepped
  obtain ⟨bh,held,marked⟩ := Option.bind_eq_some_iff.mp marked
  split at marked
  · nomatch marked
  obtain ⟨c₁,moved,marked⟩ := Option.bind_eq_some_iff.mp marked
  obtain ⟨_,users,length,used,rfl⟩ := advance_users moved
  obtain rfl := Option.some.inj marked
  refine sound.cache held ((Local.refl.setUsers users).set _) (Function.update_self ..) ?_
  simp only [Threads.view,Cache.set,setUsers_users]
  exact ((sound.fits i bh held).users length).mark used

theorem arrive_sound (sound : Sound t) (stepped : whole t (.arrive i) = some t') : Sound t' := by
  obtain ⟨c₂,arrived,rfl⟩ := Option.map_eq_some_iff.mp stepped
  obtain ⟨bh,held,arrived⟩ := Option.bind_eq_some_iff.mp arrived
  split at arrived
  · rename_i reading
    obtain rfl := Option.some.inj arrived
    refine sound.cache held (Local.refl.set _) (Function.update_self ..) ?_
    simp only [Threads.view,Cache.set]
    refine (sound.fits i bh held).content rfl rfl (by rw [show (t.view i bh).bh.io = some .read from reading]; rfl) fun content writing => ?_
    rw [show (t.view i bh).bh.io = some .read from reading] at writing
    cases writing
  · cases arrived

/-- A completion; a write completes when nobody is at work on the buffer. -/
theorem complete_sound (sound : Sound t)
    (free : ∀ bh content, t.cache.buffer i = some bh → bh.io = some (.write content) →
      t.cache.users i = [] ∧ t.calls i Call.acquires = 0 ∧ (t.view i bh).releasing = 0)
    (completed : complete t i = some t') : Sound t' := by
  obtain ⟨bh,held,completed⟩ := Option.bind_eq_some_iff.mp completed
  have fit := sound.fits i bh held
  split at completed
  · rename_i arrived
    obtain rfl := Option.some.inj completed
    refine sound.cache held (Local.refl.set _) (Function.update_self ..) ?_
    exact fit.endRead arrived
  · rename_i content writing
    split at completed
    · rename_i ended
      obtain rfl := Option.some.inj completed
      obtain ⟨unused,acquiring,alone⟩ := free bh content held writing
      refine @Sound.local _ _ _ _ _ {bh with uptodate := true,bCount := bh.bCount - 1} sound held ?_
        (fun j other => Function.update_of_ne other ..) (fun _ _ _ => rfl) (fun _ _ => rfl) (Function.update_self ..) ?_
      · exact (Local.refl.set {bh with uptodate := true,bCount := bh.bCount - 1}).device _
      · have ended := fit.endWrite writing ended unused acquiring alone
        simp only [Threads.view,Cache.set,Function.update_self]
        exact ended
    · cases completed
  · cases completed

theorem resumeSync_sound (sound : Sound t) (resumed : resumeSync t i = some t') : Sound t' := by
  obtain ⟨bh,held,resumed⟩ := Option.bind_eq_some_iff.mp resumed
  have fit := sound.fits i bh held
  have stage (next : Option Stage) : Function.update t.ending i next i = next := Function.update_self ..
  have others (next : Option Stage) (j : Nat) (other : j ≠ i) : Function.update t.ending i next j = t.ending j :=
    Function.update_of_ne other ..
  split at resumed
  · rename_i here
    obtain rfl := Option.some.inj resumed
    have listed : i ∉ (removeBufferFromWriteback t.cache i).bdBhDirty := sound.distinct.not_mem_erase
    refine sound.local held Local.refl.remove (others _) (fun _ _ _ => rfl) (fun _ _ => rfl) held ?_
    simp only [Threads.view,stage,eq_false listed]
    exact fit.syncUnlist here
  · rename_i here
    obtain rfl := Option.some.inj resumed
    refine sound.local held (Local.refl.set _) (others _) (fun _ _ _ => rfl) (fun _ _ => rfl) (Function.update_self ..) ?_
    simp only [Threads.view,stage]
    exact fit.syncClean here
  · rename_i here
    obtain rfl := Option.some.inj resumed
    obtain ⟨buffer,users,_⟩ := attach_fields t.cache i
    have listed : (attachBhToFreelist t.cache i).bdBhDirty = t.cache.bdBhDirty := by
      unfold attachBhToFreelist
      split <;> rfl
    have free : i ∈ (attachBhToFreelist t.cache i).bdBhFree := by
      unfold attachBhToFreelist
      split
      · assumption
      · exact List.mem_append_right _ List.mem_cons_self
    refine sound.local held Local.refl.attach (others _) (fun _ _ _ => rfl) (fun _ _ => rfl) (buffer ▸ held) ?_
    simp only [Threads.view,stage,users,listed,eq_true free]
    exact fit.syncAttach here
  · rename_i here
    obtain rfl := Option.some.inj resumed
    refine sound.local held (Local.refl.set _) (others _) (fun _ _ _ => rfl) (fun _ _ => rfl) (Function.update_self ..) ?_
    simp only [Threads.view,stage]
    exact fit.unlock here
  · nomatch resumed

end Step

def Threads.releasing (t : Threads α) (i : Nat) : Nat := t.calls i Call.puts + t.calls i Call.moves + t.calls i Call.reclaims

/-- Getting a buffer, from the free list to `get_bh`, does not overlap releasing it, from the
last `put_bh` to a list or out of the tree; and a write completes when no user has the buffer
and nobody is getting or releasing it. -/
def apart (t : Threads α) : Action α → Bool
  | .resume k _ =>
    match t.pcs[k]? with
    | some (.on i (.found _)) => t.releasing i = 0 ∧ (t.ending i = none ∨ t.ending i = some .attached) ∧ t.erasing i = 0
    | _ => true
  | .put _ i =>
    match t.cache.buffer i with
    | some bh => bh.bCount = 1 → t.calls i Call.acquires = 0
    | none => true
  | .complete i =>
    match t.cache.buffer i with
    | some bh =>
      match bh.io with
      | some (.write _) => t.cache.users i = [] ∧ t.calls i Call.acquires = 0 ∧ t.releasing i = 0
      | _ => true
    | none => true
  | _ => true

theorem resume_sound {t t' : Threads α} {k i : Nat} {bh : BufferHead α} {lost : Nat → Option Nat} {call : Call} (sound : Sound t)
    (here : t.pcs[k]? = some (.on i call)) (held : t.cache.buffer i = some bh)
    (free : ∀ phase, call = .found phase → (t.view i bh).releasing = 0 ∧ ¬(t.view i bh).syncing ∧ t.erasing i = 0)
    (resumed : resume t k i bh lost call = some t') : Sound t' := by
  cases call with
  | found phase =>
    obtain ⟨alone,quiet,kept⟩ := free phase rfl
    exact Option.some.inj resumed ▸ found_sound sound here held alone quiet kept
  | detached phase => exact Option.some.inj resumed ▸ detached_sound sound here held
  | unlisted phase => exact Option.some.inj resumed ▸ getBh_sound sound here (Or.inl rfl) held
  | inserted phase => exact Option.some.inj resumed ▸ getBh_sound sound here (Or.inr rfl) held
  | put => exact Option.some.inj resumed ▸ look_sound sound here held
  | moving => exact Option.some.inj resumed ▸ moving_sound sound here held
  | dropping =>
    rw [resume] at resumed
    generalize bufferFreeThreshold = threshold at resumed
    refine Option.some.inj resumed ▸ dropping_sound sound here held ?_
    split
    · exact Or.inl rfl
    · exact Or.inr rfl
  | popping =>
    rw [resume] at resumed
    split at resumed
    · exact Option.some.inj resumed ▸ popping_sound sound here ‹_›
    · exact Option.some.inj resumed ▸ stay_sound sound here held
  | erasing j =>
    obtain ⟨c,erased,rfl⟩ := Option.map_eq_some_iff.mp resumed
    exact erasing_sound sound here erased
  | reclaimed => exact Option.some.inj resumed ▸ reclaimed_sound sound here held
  | taken =>
    obtain ⟨c,synced,rfl⟩ := Option.map_eq_some_iff.mp resumed
    exact taken_sound sound here held synced

theorem init_sound (device : Nat → α) (threads : Nat) : Sound (Threads.init device threads) := by
  have idle (p : Pc → Bool) (off : p .idle = false) : count p (Threads.init device threads).pcs = 0 :=
    count_zero_iff.mpr fun pc member => by rw [List.eq_of_mem_replicate member,off]
  refine ⟨List.nodup_nil,List.nodup_nil,fun i either => ?_,fun i _ => ?_,nofun⟩
  · rcases either with free | busy
    · nomatch free
    · exact absurd (idle (Pc.isErasing i) rfl) (Nat.ne_of_gt busy)
  · exact ⟨rfl,rfl,List.not_mem_nil,rfl,idle _ rfl,idle _ rfl,idle _ rfl,idle _ rfl⟩

theorem step_sound (t : Threads α) (a : Action α) (t' : Threads α) (sound : Sound t) (allowed : apart t a = true)
    (result : step t a = some t') : Sound t' := by
  cases a with
  | search k b phase =>
    rw [step] at result
    split at result
    · exact Option.some.inj result ▸ search_sound sound ‹_› b phase
    · nomatch result
  | insert k heap =>
    rw [step] at result
    split at result
    · exact Option.some.inj result ▸ insert_sound sound ‹_› heap
    · nomatch result
  | resume k lost =>
    rw [step] at result
    split at result
    · rename_i i call here
      obtain ⟨bh,held,resumed⟩ := Option.bind_eq_some_iff.mp result
      refine resume_sound sound here held (fun phase found => ?_) resumed
      rw [apart,here,found] at allowed
      obtain ⟨alone,quiet,kept⟩ := of_decide_eq_true allowed
      refine ⟨alone,?_,kept⟩
      rintro (stage | stage | stage) <;> rcases quiet with ended | ended <;>
        exact nomatch (show t.ending i = _ from stage).symm.trans ended
    · nomatch result
  | put k i =>
    rw [step] at result
    split at result
    · rename_i both
      refine put_sound sound both.1 both.2 (fun bh held last => ?_) result
      rw [apart,held] at allowed
      exact of_decide_eq_true allowed last
    · nomatch result
  | take k =>
    rw [step] at result
    split at result
    · exact take_sound sound ‹_› result
    · nomatch result
  | submitRead i => exact submitRead_sound sound result
  | breadReturn i => exact breadReturn_sound sound result
  | modify i user content => exact modify_sound sound result
  | markDirty i user => exact markDirty_sound sound result
  | arrive i => exact arrive_sound sound result
  | complete i =>
    refine complete_sound sound (fun bh content held writing => ?_) result
    rw [apart,held] at allowed
    simp only [writing] at allowed
    exact of_decide_eq_true allowed
  | resumeSync i => exact resumeSync_sound sound result

/-- A buffer on the free list, or taken off it to be freed, is not referenced, clean and not to be written. -/
def FreeUnused (t : Threads α) : Prop :=
  (∀ i ∈ t.cache.bdBhFree, ∃ bh, t.cache.buffer i = some bh ∧ bh.bCount = 0 ∧ bh.dirty = false ∧ i ∉ t.cache.bdBhDirty) ∧
    ∀ (k i j : Nat), t.pcs[k]? = some (.on i (.erasing j)) →
      ∃ bh, t.cache.buffer j = some bh ∧ bh.bCount = 0 ∧ bh.dirty = false ∧ j ∉ t.cache.bdBhDirty

theorem Sound.freeUnused {t : Threads α} (sound : Sound t) : FreeUnused t := by
  have unlisted (i : Nat) (bh : BufferHead α) (held : t.cache.buffer i = some bh) (clean : bh.dirty = false) :
      i ∉ t.cache.bdBhDirty := fun listed => by
    have := (sound.fits i bh held).listed listed
    exact nomatch clean.symm.trans this
  refine ⟨fun i free => ?_,fun k i j here => ?_⟩
  · obtain ⟨bh,held⟩ := Option.ne_none_iff_exists'.mp (sound.live i (Or.inl free))
    obtain ⟨zero,clean⟩ := (sound.fits i bh held).free free
    exact ⟨bh,held,zero,clean,unlisted i bh held clean⟩
  · have busy : 0 < t.erasing j := count_pos here (by simp [Pc.isErasing])
    obtain ⟨bh,held⟩ := Option.ne_none_iff_exists'.mp (sound.live j (Or.inr busy))
    obtain ⟨_,zero,clean,_⟩ := (sound.fits j bh held).erasing busy
    exact ⟨bh,held,zero,clean,unlisted j bh held clean⟩

/-- In a run that keeps getting and releasing apart only unused, clean buffers are ever free. -/
theorem free_unused (device : Nat → α) (threads : Nat) {t : Threads α}
    (reached : Reaches step apart (Threads.init device threads) t) : FreeUnused t :=
  (reached.invariant (init_sound device threads) step_sound).freeUnused

/-- A block is written, released and its write submitted. -/
def submitted : List (Action Nat) :=
  [.search 0 7 .holding,.insert 0 0,.resume 0,.markDirty 0 ⟨.holding,false⟩,.put 0 0,.resume 0,.resume 0,.take 1,.resume 1]

def synced : List (Action Nat) := [.complete 0,.resumeSync 0,.resumeSync 0,.resumeSync 0]

theorem free_unused_written : ∃ t, run step apart (Threads.init (fun _ => 0) 2) (submitted ++ synced) = some t ∧
    t.cache.bdBhFree = [0] ∧ FreeUnused t := by
  have ends : (run step apart (Threads.init (fun _ => 0) 2) (submitted ++ synced)).map (fun t => t.cache.bdBhFree) = some [0] := by
    decide
  obtain ⟨t,result,free⟩ := Option.map_eq_some_iff.mp ends
  exact ⟨t,result,free,free_unused (fun _ => 0) 2 (Reaches.start.run result)⟩

/-- A user gets the buffer while its write is in flight: it ends on the free list with the user's reference. -/
theorem free_referenced :
    ¬∀ (device : Nat → Nat) (threads : Nat) (t : Threads Nat),
      Reaches step (fun _ _ => true) (Threads.init device threads) t → FreeUnused t := by
  intro always
  have ends : (run step (fun _ _ => true) (Threads.init (fun _ => 0) 2)
      (submitted ++ [.search 0 7 .holding,.resume 0,.resume 0,.resume 0] ++ synced)).map
      (fun t => (t.cache.bdBhFree,(t.cache.buffer 0).map BufferHead.bCount)) = some ([0],some 1) := by decide
  obtain ⟨t,result,both⟩ := Option.map_eq_some_iff.mp ends
  obtain ⟨free,count⟩ := Prod.mk.inj both
  obtain ⟨bh,held,zero,_⟩ := (always (fun _ => 0) 2 t (Reaches.start.run result)).1 0 (by rw [free]; exact List.mem_cons_self)
  rw [held,Option.map_some,zero] at count
  exact absurd count (by decide)

end Ext4Fuse.BufferSections
