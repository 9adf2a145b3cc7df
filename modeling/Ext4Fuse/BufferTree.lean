import Ext4Fuse.BufferSections

/-! Which buffers the tree of the cache holds, as long as no block is looked up twice before
it is inserted and no buffer is freed that somebody works on. -/
namespace Ext4Fuse.BufferSections
open BufferCache Library.Steps Library.Threads

variable {α : Type}

def Call.any (_ : Call) : Bool := true

/-- A user holds the buffer, a call works on it, or the writeback thread is to take it. -/
def InUse (t : Threads α) (i : Nat) : Prop := t.cache.users i ≠ [] ∨ 0 < t.calls i Call.any ∨ i ∈ t.cache.bdBhDirty

structure Mapped (t : Threads α) : Prop where
  fresh : ∀ i, t.cache.next ≤ i → t.cache.buffer i = none
  rooted : ∀ i bh, t.cache.buffer i = some bh → t.cache.root bh.bBlocknr = some i
  back : ∀ b i, t.cache.root b = some i → ∃ bh, t.cache.buffer i = some bh ∧ bh.bBlocknr = b
  held : ∀ i, InUse t i → t.cache.buffer i ≠ none ∧ t.erasing i = 0
  known : ∀ i, i ∈ t.cache.bdBhFree ∨ 0 < t.erasing i → i < t.cache.next

/-- A step of the cache that leaves the tree and the block of every buffer, and puts to use at
most the buffers in `own`. -/
structure Serves (own : Nat → Prop) (c c' : Cache α) : Prop where
  next : c'.next = c.next
  root : c'.root = c.root
  blocks : ∀ i, (c'.buffer i).map BufferHead.bBlocknr = (c.buffer i).map BufferHead.bBlocknr
  users : ∀ i, c'.users i ≠ [] → c.users i ≠ [] ∨ own i
  listed : ∀ i, i ∈ c'.bdBhDirty → i ∈ c.bdBhDirty ∨ own i
  free : ∀ i, i ∈ c'.bdBhFree → i ∈ c.bdBhFree ∨ c.buffer i ≠ none

section Serves
variable {own : Nat → Prop} {c c' c'' : Cache α} {i : Nat} {bh bh' : BufferHead α}

theorem Serves.refl (own : Nat → Prop) (c : Cache α) : Serves own c c := 
  ⟨rfl,rfl,fun _ => rfl,fun _ => Or.inl,fun _ => Or.inl,fun _ => Or.inl⟩

theorem Serves.trans (one : Serves own c c') (two : Serves own c' c'') : Serves own c c'' where
  next := two.next.trans one.next
  root := two.root.trans one.root
  blocks i := (two.blocks i).trans (one.blocks i)
  users i used := (two.users i used).elim (one.users i) Or.inr
  listed i member := (two.listed i member).elim (one.listed i) Or.inr
  free i member := (two.free i member).elim (one.free i) fun live => Or.inr fun freed => live (by
    have same := one.blocks i
    rw [freed,Option.map_none] at same
    exact Option.map_eq_none_iff.mp same)

theorem set_serves (own : Nat → Prop) (held : c.buffer i = some bh) (block : bh'.bBlocknr = bh.bBlocknr) :
    Serves own c (c.set i bh') := by
  refine {Serves.refl own c with blocks := fun j => ?_}
  rcases eq_or_ne j i with rfl | other
  · have here : (c.set j bh').buffer j = some bh' := Function.update_self ..
    rw [here,held,Option.map_some,Option.map_some,block]
  · have there : (c.set i bh').buffer j = c.buffer j := Function.update_of_ne other ..
    rw [there]

theorem setUsers_serves (c : Cache α) (users : List User) (mine : own i) : Serves own c (c.setUsers i users) := by
  refine {Serves.refl own c with users := fun j used => ?_}
  rcases eq_or_ne j i with rfl | other
  · exact Or.inr mine
  · exact Or.inl fun none_ => used ((Function.update_of_ne other ..).trans none_)

theorem detach_serves (own : Nat → Prop) (c : Cache α) (i : Nat) : Serves own c (detachBhFromFreelist c i) :=
  {Serves.refl own c with free := fun _ member => Or.inl (List.mem_of_mem_erase member)}

theorem removeBufferFromWriteback_serves (own : Nat → Prop) (c : Cache α) (i : Nat) :
    Serves own c (removeBufferFromWriteback c i) :=
  {Serves.refl own c with listed := fun _ member => Or.inl (List.mem_of_mem_erase member)}

theorem attach_serves (own : Nat → Prop) (held : c.buffer i = some bh) : Serves own c (attachBhToFreelist c i) := by
  rw [attach_eq]
  refine {Serves.refl own c with free := fun j member => (mem_put.mp member).symm.imp_right ?_}
  rintro rfl
  rw [held]
  nofun

theorem moveBufferToWriteback_serves (c : Cache α) (mine : own i) : Serves own c (moveBufferToWriteback c i) := by
  rw [move_eq]
  refine {Serves.refl own c with listed := fun j member => (mem_put.mp member).symm.imp_right ?_}
  rintro rfl
  exact mine

theorem syncDirtyBuffer_serves (own : Nat → Prop) (synced : syncDirtyBuffer c i = some c') : Serves own c c' := by
  obtain ⟨bh,held,synced⟩ := Option.bind_eq_some_iff.mp synced
  split at synced
  · exact Option.some.inj synced ▸ set_serves own held rfl
  · exact Option.some.inj synced ▸ Serves.refl own c

theorem advance_serves {user user' : User} (moved : advance c i user user' = some c') (mine : own i) : Serves own c c' := by
  obtain ⟨_,rfl⟩ := advance_eq moved
  exact setUsers_serves c _ mine

end Serves

section Step
variable {t t' : Threads α} {i k : Nat} {bh : BufferHead α} {old new : Pc} {c : Cache α} {own : Nat → Prop}

/-- Steps that keep the tree, and put no buffer to use that is freed or to be freed. -/
theorem Mapped.keep (mapped : Mapped t) (serves : Serves own t.cache t'.cache)
    (use : ∀ i, InUse t' i → t.cache.buffer i ≠ none ∧ t'.erasing i = 0) (erasing : ∀ i, t'.erasing i ≤ t.erasing i) :
    Mapped t' where
  known i either := by
    rw [serves.next]
    rcases either with free | busy
    · rcases serves.free i free with old | live
      · exact mapped.known i (Or.inl old)
      · by_contra beyond
        exact live (mapped.fresh i (Nat.le_of_not_lt beyond))
    · exact mapped.known i (Or.inr (Nat.lt_of_lt_of_le busy (erasing i)))
  fresh i beyond := by
    have same := serves.blocks i
    rw [mapped.fresh i (serves.next ▸ beyond),Option.map_none] at same
    exact Option.map_eq_none_iff.mp same
  rooted i bh held := by
    have same := serves.blocks i
    rw [held,Option.map_some] at same
    obtain ⟨bh',held',block⟩ := Option.map_eq_some_iff.mp same.symm
    rw [serves.root,← block]
    exact mapped.rooted i bh' held'
  back b i here := by
    rw [serves.root] at here
    obtain ⟨bh,held,block⟩ := mapped.back b i here
    have same := serves.blocks i
    rw [held,Option.map_some,block] at same
    exact Option.map_eq_some_iff.mp same
  held i inUse := by
    obtain ⟨live,kept⟩ := use i inUse
    refine ⟨fun freed => live ?_,kept⟩
    have same := serves.blocks i
    rw [freed,Option.map_none] at same
    exact Option.map_eq_none_iff.mp same.symm

/-- A step of the cache alone. -/
theorem Mapped.cache (mapped : Mapped t) (pcs : t'.pcs = t.pcs) (serves : Serves own t.cache t'.cache)
    (mine : ∀ j, own j → InUse t j) : Mapped t' := by
  refine mapped.keep serves (fun j inUse => ?_) fun j => Nat.le_of_eq (congrArg (count _) pcs)
  have calls : t'.calls j Call.any = t.calls j Call.any := congrArg (count _) pcs
  have erasing : t'.erasing j = t.erasing j := congrArg (count _) pcs
  rw [erasing]
  refine mapped.held j ?_
  rcases inUse with used | busy | member
  · exact (serves.users j used).elim Or.inl (mine j)
  · exact Or.inr (Or.inl (calls ▸ busy))
  · exact (serves.listed j member).elim (fun old => Or.inr (Or.inr old)) (mine j)

/-- A thread goes on, with a buffer that is in use already if with any. -/
theorem Mapped.move (mapped : Mapped t) (here : t.pcs[k]? = some old) (serves : Serves own t.cache c)
    (mine : ∀ j, own j → InUse t j) (works : ∀ j, new.isOn j Call.any = true → InUse t j ∨ t.cache.buffer j ≠ none ∧ t.erasing j = 0)
    (erases : ∀ j, new.isErasing j = false) : Mapped (t.move k c new) := by
  have fewer (j : Nat) : (t.move k c new).erasing j ≤ t.erasing j := by
    rw [erasing_move here,erases,Bool.toNat_false]
    exact Nat.sub_le _ _
  refine mapped.keep serves (fun j inUse => ?_) fewer
  have before : InUse t j ∨ t.cache.buffer j ≠ none ∧ t.erasing j = 0 := by
    rcases inUse with used | busy | member
    · exact Or.inl ((serves.users j used).elim Or.inl (mine j))
    · rw [calls_move here] at busy
      cases works' : new.isOn j Call.any with
      | true => exact works j works'
      | false =>
        rw [works',Bool.toNat_false] at busy
        exact Or.inl (Or.inr (Or.inl (by omega)))
    · exact Or.inl ((serves.listed j member).elim (fun old => Or.inr (Or.inr old)) (mine j))
  obtain ⟨live,kept⟩ := before.elim (mapped.held j) id
  exact ⟨live,Nat.eq_zero_of_le_zero (kept ▸ fewer j)⟩

/-- A thread goes on in its call, or ends it. -/
theorem Mapped.resume {call : Call} (mapped : Mapped t) (here : t.pcs[k]? = some (.on i call))
    (serves : Serves (· = i) t.cache c) (next : new = .idle ∨ ∃ call', new = .on i call' ∧ ∀ j, (Pc.on i call').isErasing j = false) :
    Mapped (t.move k c new) := by
  have busy : InUse t i := Or.inr (Or.inl (count_pos here (isOn_self ..)))
  refine mapped.move here serves (fun j mine => mine ▸ busy) (fun j works => ?_) fun j => ?_
  · rcases next with rfl | ⟨call',rfl,_⟩
    · nomatch works
    · simp only [Pc.isOn,Bool.and_eq_true,beq_iff_eq] at works
      exact Or.inl (works.1 ▸ busy)
  · rcases next with rfl | ⟨call',rfl,kept⟩
    · rfl
    · exact kept j

/-- A search: the buffer that it finds is not being freed. -/
theorem search_mapped {b : Nat} (mapped : Mapped t) (here : t.pcs[k]? = some .idle) (phase : Phase)
    (kept : ∀ i, t.cache.root b = some i → t.erasing i = 0) : Mapped (bufferSearch t k b phase) := by
  unfold bufferSearch
  cases found : t.cache.root b with
  | none => exact mapped.move here (Serves.refl (fun _ => False) _) (by rintro _ ⟨⟩) (by rintro _ ⟨⟩) fun _ => rfl
  | some i =>
    refine mapped.move here (Serves.refl (fun _ => False) _) (by rintro _ ⟨⟩) (fun j works => Or.inr ?_) fun _ => rfl
    simp only [Pc.isOn,Bool.and_eq_true,beq_iff_eq] at works
    obtain rfl := works.1
    obtain ⟨bh,held,_⟩ := mapped.back b i found
    exact ⟨by rw [held]; rintro ⟨⟩,kept i found⟩

/-- A block is inserted that the tree does not hold. -/
theorem insert_mapped {b : Nat} {phase : Phase} (mapped : Mapped t) (here : t.pcs[k]? = some (.missed b phase))
    (absent : t.cache.root b = none) (heap : α) : Mapped (bufferInsert t k b phase heap) := by
  have calls (c : Cache α) (j : Nat) (other : j ≠ t.cache.next) :
      (t.move k c (.on t.cache.next (.inserted phase))).calls j Call.any = t.calls j Call.any := by
    refine count_same here ?_
    simp [Pc.isOn,other.symm]
  have erasing (c : Cache α) (j : Nat) : (t.move k c (.on t.cache.next (.inserted phase))).erasing j = t.erasing j :=
    count_same here rfl
  have own : insertRoot t.cache b t.cache.next b = some t.cache.next := by
    rw [insertRoot,if_pos absent,Function.update_self]
  have root (b' : Nat) (other : b' ≠ b) : insertRoot t.cache b t.cache.next b' = t.cache.root b' := by
    rw [insertRoot,if_pos absent,Function.update_of_ne other]
  have kept : t.erasing t.cache.next = 0 := by
    by_contra busy
    exact Nat.lt_irrefl _ (mapped.known _ (Or.inr (Nat.pos_of_ne_zero busy)))
  unfold bufferInsert
  refine ⟨fun j beyond => ?_,fun j bh held => ?_,fun b' j found => ?_,fun j inUse => ?_,fun j either => ?_⟩
  · exact (Function.update_of_ne (Nat.ne_of_gt beyond) ..).trans (mapped.fresh j (Nat.le_of_succ_le beyond))
  · rcases eq_or_ne j t.cache.next with rfl | other
    · simp only [move_cache,Cache.set,Function.update_self,Option.some.injEq] at held
      exact held ▸ own
    · have old : t.cache.buffer j = some bh := (Function.update_of_ne other ..).symm.trans held
      have rooted := mapped.rooted j bh old
      refine (root _ fun same => ?_).trans rooted
      rw [same,absent] at rooted
      cases rooted
  · rcases eq_or_ne b' b with rfl | other
    · obtain rfl := Option.some.inj (own.symm.trans found)
      exact ⟨bufferAlloc b' heap,Function.update_self ..,rfl⟩
    · obtain ⟨bh,held,block⟩ := mapped.back b' j ((root b' other).symm.trans found)
      refine ⟨bh,(Function.update_of_ne ?_ ..).trans held,block⟩
      rintro rfl
      rw [mapped.fresh _ (Nat.le_refl _)] at held
      cases held
  · rw [erasing]
    rcases eq_or_ne j t.cache.next with rfl | other
    · exact ⟨fun none_ => (by cases (Function.update_self ..).symm.trans none_),kept⟩
    · have before : InUse t j := inUse.imp id fun rest => rest.imp (fun busy => calls _ j other ▸ busy) id
      obtain ⟨live,unerased⟩ := mapped.held j before
      exact ⟨fun freed => live ((Function.update_of_ne other ..).symm.trans freed),unerased⟩
  · rw [erasing] at either
    exact Nat.lt_succ_of_lt (mapped.known j either)

/-- A buffer is popped that nobody works on. -/
theorem popping_mapped {j : Nat} (mapped : Mapped t) (here : t.pcs[k]? = some (.on i .popping)) (popped : popFree t.cache = some (j,c))
    (unused : ¬InUse t j) : Mapped (t.move k c (.on i (.erasing j))) := by
  unfold popFree at popped
  split at popped
  · nomatch popped
  rename_i j rest first
  obtain ⟨rfl,rfl⟩ := Prod.mk.inj (Option.some.inj popped)
  have calls (c : Cache α) (j' : Nat) : (t.move k c (.on i (.erasing j))).calls j' Call.any = t.calls j' Call.any :=
    count_same here rfl
  have erasing (c : Cache α) (j' : Nat) (other : j' ≠ j) : (t.move k c (.on i (.erasing j))).erasing j' = t.erasing j' := by
    refine count_same here ?_
    simp [Pc.isErasing,other.symm]
  refine ⟨mapped.fresh,mapped.rooted,mapped.back,fun j' inUse => ?_,fun j' either => ?_⟩
  · have before : InUse t j' := inUse.imp id fun rest => rest.imp (fun busy => calls _ j' ▸ busy) id
    have other : j' ≠ j := fun same => unused (same ▸ before)
    rw [erasing _ j' other]
    exact mapped.held j' before
  · rcases eq_or_ne j' j with rfl | other
    · exact mapped.known j' (Or.inl (first ▸ List.mem_cons_self))
    · rw [erasing _ j' other] at either
      exact mapped.known j' (either.imp (fun member => first ▸ List.mem_cons_of_mem _ member) id)

/-- A buffer leaves the tree, and nobody works on it. -/
theorem erasing_mapped {j : Nat} {lost : Nat → Option Nat} (mapped : Mapped t) (here : t.pcs[k]? = some (.on i (.erasing j)))
    (erased : eraseBuffer t.cache j lost = some c) : Mapped (t.move k c (.on i .dropping)) := by
  obtain ⟨bh,held,erased⟩ := Option.bind_eq_some_iff.mp erased
  rw [if_pos (mapped.rooted j bh held)] at erased
  obtain rfl := Option.some.inj erased
  have busy : 0 < t.erasing j := count_pos here (by simp [Pc.isErasing])
  have calls (c : Cache α) (j' : Nat) : (t.move k c (.on i .dropping)).calls j' Call.any = t.calls j' Call.any :=
    count_same here rfl
  have fewer (c : Cache α) (j' : Nat) : (t.move k c (.on i .dropping)).erasing j' ≤ t.erasing j' := by
    rw [erasing_move here]
    exact Nat.sub_le _ _
  refine ⟨fun j' beyond => ?_,fun j' bh' held' => ?_,fun b j' found => ?_,fun j' inUse => ?_,fun j' either => ?_⟩
  · rcases eq_or_ne j' j with rfl | other
    · exact Function.update_self ..
    · exact (Function.update_of_ne other ..).trans (mapped.fresh j' beyond)
  · rcases eq_or_ne j' j with rfl | other
    · exact nomatch (Function.update_self ..).symm.trans held'
    · have old : t.cache.buffer j' = some bh' := (Function.update_of_ne other ..).symm.trans held'
      have rooted := mapped.rooted j' bh' old
      refine (Function.update_of_ne (fun same => ?_) ..).trans rooted
      rw [same,mapped.rooted j bh held] at rooted
      exact other (Option.some.inj rooted).symm
  · rcases eq_or_ne b bh.bBlocknr with rfl | other
    · exact nomatch (Function.update_self ..).symm.trans found
    · obtain ⟨bh',held',block⟩ := mapped.back b j' ((Function.update_of_ne other ..).symm.trans found)
      refine ⟨bh',(Function.update_of_ne (fun same => ?_) ..).trans held',block⟩
      rw [same,held] at held'
      exact other (Option.some.inj held' ▸ block.symm)
  · have before : InUse t j' := inUse.imp id fun rest => rest.imp (fun more => calls _ j' ▸ more) id
    obtain ⟨live,kept⟩ := mapped.held j' before
    have other : j' ≠ j := by
      rintro rfl
      omega
    exact ⟨fun freed => live ((Function.update_of_ne other ..).symm.trans freed),Nat.eq_zero_of_le_zero (kept ▸ fewer _ j')⟩
  · exact mapped.known j' (either.imp id fun more => Nat.lt_of_lt_of_le more (fewer _ j'))

theorem resume_mapped {lost : Nat → Option Nat} {call : Call} (mapped : Mapped t) (here : t.pcs[k]? = some (.on i call)) (held : t.cache.buffer i = some bh)
    (unused : ∀ j c, call = .popping → popFree t.cache = some (j,c) → ¬InUse t j) (resumed : resume t k i bh lost call = some t') :
    Mapped t' := by
  have idle {c : Cache α} (serves : Serves (· = i) t.cache c) : Mapped (t.move k c .idle) := mapped.resume here serves (Or.inl rfl)
  have goes {c : Cache α} {call' : Call} (serves : Serves (· = i) t.cache c) (kept : ∀ j, (Pc.on i call').isErasing j = false) :
      Mapped (t.move k c (.on i call')) := mapped.resume here serves (Or.inr ⟨call',rfl,kept⟩)
  have got (phase : Phase) : Serves (· = i) t.cache (getBh t.cache i bh phase) := by
    refine Serves.trans (set_serves _ held ?_) (setUsers_serves _ _ rfl)
    rfl
  cases call with
  | found phase => exact Option.some.inj resumed ▸ goes (detach_serves _ _ _) fun _ => rfl
  | detached phase => exact Option.some.inj resumed ▸ goes (removeBufferFromWriteback_serves _ _ _) fun _ => rfl
  | unlisted phase => exact Option.some.inj resumed ▸ idle (got phase)
  | inserted phase => exact Option.some.inj resumed ▸ idle (got phase)
  | put =>
    refine Option.some.inj resumed ▸ goes (Serves.refl _ _) fun _ => ?_
    split <;> rfl
  | moving => exact Option.some.inj resumed ▸ idle (moveBufferToWriteback_serves _ rfl)
  | dropping =>
    rw [resume] at resumed
    generalize bufferFreeThreshold = threshold at resumed
    refine Option.some.inj resumed ▸ goes (Serves.refl _ _) fun _ => ?_
    split <;> rfl
  | popping =>
    rw [resume] at resumed
    split at resumed
    · rename_i j c popped
      exact Option.some.inj resumed ▸ popping_mapped mapped here popped (unused j c rfl popped)
    · exact Option.some.inj resumed ▸ goes (Serves.refl _ _) fun _ => rfl
  | erasing j =>
    obtain ⟨c,erased,rfl⟩ := Option.map_eq_some_iff.mp resumed
    exact erasing_mapped mapped here erased
  | reclaimed => exact Option.some.inj resumed ▸ idle (attach_serves _ held)
  | taken =>
    obtain ⟨c,synced,rfl⟩ := Option.map_eq_some_iff.mp resumed
    exact idle (syncDirtyBuffer_serves _ synced)

theorem put_mapped (mapped : Mapped t) (here : t.pcs[k]? = some .idle) (member : ⟨.holding,false⟩ ∈ t.cache.users i)
    (put : putBhAndRead t k i = some t') : Mapped t' := by
  obtain ⟨bh,held,put⟩ := Option.bind_eq_some_iff.mp put
  have used : InUse t i := Or.inl (List.ne_nil_of_mem member)
  have serves : Serves (· = i) t.cache
      ((t.cache.set i {bh with bCount := bh.bCount - 1}).setUsers i ((t.cache.users i).erase ⟨.holding,false⟩)) := by
    refine Serves.trans (set_serves _ held ?_) (setUsers_serves _ _ rfl)
    rfl
  simp only at put
  split at put
  · exact Option.some.inj put ▸ mapped.move here serves (fun j mine => mine ▸ used) nofun fun _ => rfl
  · split at put
    · nomatch put
    · refine Option.some.inj put ▸ mapped.move here serves (fun j mine => mine ▸ used) (fun j works => ?_) fun _ => rfl
      simp only [Pc.isOn,Bool.and_eq_true,beq_iff_eq] at works
      exact Or.inl (works.1 ▸ used)

theorem take_mapped (mapped : Mapped t) (here : t.pcs[k]? = some .idle) (taken : takeFromWriteback t k = some t') : Mapped t' := by
  unfold takeFromWriteback at taken
  split at taken
  · nomatch taken
  rename_i i rest first
  have used : InUse t i := Or.inr (Or.inr (first ▸ List.mem_cons_self))
  refine Option.some.inj taken ▸ mapped.move here (show Serves (fun _ => False) t.cache _ from ?_) nofun (fun j works => ?_) fun _ => rfl
  · exact {Serves.refl (fun _ => False) t.cache with listed := fun j member => Or.inl (first ▸ List.mem_cons_of_mem i member)}
  · simp only [Pc.isOn,Bool.and_eq_true,beq_iff_eq] at works
    exact Or.inl (works.1 ▸ used)

/-- A call of one section, by a user of the buffer or for it. -/
theorem whole_mapped {a : BufferCache.Action α} (mapped : Mapped t)
    (serves : ∀ c, BufferCache.step t.cache a = some c → Serves (InUse t) t.cache c) (result : whole t a = some t') : Mapped t' := by
  obtain ⟨c,stepped,rfl⟩ := Option.map_eq_some_iff.mp result
  exact mapped.cache rfl (serves c stepped) fun _ => id

theorem advance_inUse {c' : Cache α} {user user' : User} (moved : advance t.cache i user user' = some c') : InUse t i :=
  Or.inl (List.ne_nil_of_mem (advance_eq moved).1)

theorem submitRead_serves (submitted : BufferCache.step t.cache (.breadSubmit i) = some c) : Serves (InUse t) t.cache c := by
  obtain ⟨c₁,moved,submitted⟩ := Option.bind_eq_some_iff.mp submitted
  have serves := advance_serves moved (advance_inUse moved)
  obtain ⟨bh,held,submitted⟩ := Option.bind_eq_some_iff.mp submitted
  split at submitted
  · nomatch submitted
  · split at submitted
    · exact Option.some.inj submitted ▸ serves
    · refine Option.some.inj submitted ▸ (serves.trans (removeBufferFromWriteback_serves _ _ i)).trans (set_serves _ held ?_)
      rfl

theorem breadReturn_serves (returned : BufferCache.step t.cache (.breadReturn i) = some c) : Serves (InUse t) t.cache c := by
  obtain ⟨bh,held,returned⟩ := Option.bind_eq_some_iff.mp returned
  split at returned
  · nomatch returned
  · exact advance_serves returned (advance_inUse returned)

theorem modify_serves {user : User} {content : α} (modified : BufferCache.step t.cache (.modify i user content) = some c) :
    Serves (InUse t) t.cache c := by
  obtain ⟨bh,held,modified⟩ := Option.bind_eq_some_iff.mp modified
  split at modified
  · nomatch modified
  obtain ⟨c₁,moved,modified⟩ := Option.bind_eq_some_iff.mp modified
  have same : c₁.buffer i = some bh := by
    obtain ⟨_,rfl⟩ := advance_eq moved
    exact held
  refine Option.some.inj modified ▸ (advance_serves moved (advance_inUse moved)).trans (set_serves _ same ?_)
  rfl

theorem markDirty_serves {user : User} (marked : BufferCache.step t.cache (.markDirty i user) = some c) :
    Serves (InUse t) t.cache c := by
  obtain ⟨bh,held,marked⟩ := Option.bind_eq_some_iff.mp marked
  split at marked
  · nomatch marked
  obtain ⟨c₁,moved,marked⟩ := Option.bind_eq_some_iff.mp marked
  have same : c₁.buffer i = some bh := by
    obtain ⟨_,rfl⟩ := advance_eq moved
    exact held
  refine Option.some.inj marked ▸ (advance_serves moved (advance_inUse moved)).trans (set_serves _ same ?_)
  rfl

theorem arrive_serves (arrived : BufferCache.step t.cache (.arrive i) = some c) : Serves (InUse t) t.cache c := by
  obtain ⟨bh,held,arrived⟩ := Option.bind_eq_some_iff.mp arrived
  split at arrived
  · exact Option.some.inj arrived ▸ set_serves _ held rfl
  · nomatch arrived

theorem complete_mapped (mapped : Mapped t) (completed : complete t i = some t') : Mapped t' := by
  obtain ⟨bh,held,completed⟩ := Option.bind_eq_some_iff.mp completed
  split at completed
  · exact Option.some.inj completed ▸ mapped.cache rfl (set_serves (fun _ => False) held rfl) nofun
  · split at completed
    · refine Option.some.inj completed ▸ mapped.cache rfl (show Serves (fun _ => False) t.cache _ from ?_) nofun
      have serves : Serves (fun _ => False) t.cache (t.cache.set i {bh with uptodate := true,bCount := bh.bCount - 1}) :=
        set_serves _ held rfl
      exact ⟨serves.next,serves.root,serves.blocks,serves.users,serves.listed,serves.free⟩
    · nomatch completed
  · nomatch completed

theorem resumeSync_mapped (mapped : Mapped t) (resumed : resumeSync t i = some t') : Mapped t' := by
  obtain ⟨bh,held,resumed⟩ := Option.bind_eq_some_iff.mp resumed
  split at resumed
  · exact Option.some.inj resumed ▸ mapped.cache rfl (removeBufferFromWriteback_serves (fun _ => False) _ i) nofun
  · exact Option.some.inj resumed ▸ mapped.cache rfl (set_serves (fun _ => False) held rfl) nofun
  · exact Option.some.inj resumed ▸ mapped.cache rfl (attach_serves (fun _ => False) held) nofun
  · exact Option.some.inj resumed ▸ mapped.cache rfl (set_serves (fun _ => False) held rfl) nofun
  · nomatch resumed

end Step

/-- A block is inserted when the tree does not hold it, a search finds no buffer that is being
freed, and a buffer is taken to be freed when nobody works on it. -/
def exclusive (t : Threads α) : Action α → Bool
  | .search _ b _ =>
    match t.cache.root b with
    | some i => t.erasing i = 0
    | none => true
  | .insert k _ =>
    match t.pcs[k]? with
    | some (.missed b _) => t.cache.root b = none
    | _ => true
  | .resume k _ =>
    match t.pcs[k]?,t.cache.bdBhFree with
    | some (.on _ .popping),j::_ => t.cache.users j = [] ∧ t.calls j Call.any = 0 ∧ j ∉ t.cache.bdBhDirty
    | _,_ => true
  | _ => true

theorem init_mapped (device : Nat → α) (threads : Nat) : Mapped (Threads.init device threads) := by
  have idle (p : Pc → Bool) (off : p .idle = false) : count p (Threads.init device threads).pcs = 0 :=
    count_zero_iff.mpr fun pc member => by rw [List.eq_of_mem_replicate member,off]
  refine ⟨fun _ _ => rfl,nofun,nofun,fun i inUse => ?_,fun i either => ?_⟩
  · rcases inUse with used | busy | member
    · exact absurd rfl used
    · exact absurd (idle (Pc.isOn i Call.any) rfl) (Nat.ne_of_gt busy)
    · nomatch member
  · rcases either with free | busy
    · nomatch free
    · exact absurd (idle (Pc.isErasing i) rfl) (Nat.ne_of_gt busy)

theorem step_mapped (t : Threads α) (a : Action α) (t' : Threads α) (mapped : Mapped t) (allowed : exclusive t a = true)
    (result : step t a = some t') : Mapped t' := by
  cases a with
  | search k b phase =>
    rw [step] at result
    split at result
    · refine Option.some.inj result ▸ search_mapped mapped ‹_› phase fun i found => ?_
      rw [exclusive,found] at allowed
      exact of_decide_eq_true allowed
    · nomatch result
  | insert k heap =>
    rw [step] at result
    split at result
    · rename_i b phase here
      rw [exclusive,here] at allowed
      exact Option.some.inj result ▸ insert_mapped mapped here (of_decide_eq_true allowed) heap
    · nomatch result
  | resume k lost =>
    rw [step] at result
    split at result
    · rename_i i call here
      obtain ⟨bh,held,resumed⟩ := Option.bind_eq_some_iff.mp result
      refine resume_mapped mapped here held (fun j c popping popped => ?_) resumed
      unfold popFree at popped
      split at popped
      · nomatch popped
      rename_i j' rest first
      obtain ⟨rfl,_⟩ := Prod.mk.inj (Option.some.inj popped)
      rw [exclusive,here,popping,first] at allowed
      obtain ⟨unused,idle,unlisted⟩ := of_decide_eq_true allowed
      rintro (used | busy | member)
      · exact used unused
      · exact absurd idle (Nat.ne_of_gt busy)
      · exact unlisted member
    · nomatch result
  | put k i =>
    rw [step] at result
    split at result
    · rename_i both
      exact put_mapped mapped both.1 both.2 result
    · nomatch result
  | take k =>
    rw [step] at result
    split at result
    · exact take_mapped mapped ‹_› result
    · nomatch result
  | submitRead i => exact whole_mapped mapped (fun _ => submitRead_serves) result
  | breadReturn i => exact whole_mapped mapped (fun _ => breadReturn_serves) result
  | modify i user content => exact whole_mapped mapped (fun _ => modify_serves) result
  | markDirty i user => exact whole_mapped mapped (fun _ => markDirty_serves) result
  | arrive i => exact whole_mapped mapped (fun _ => arrive_serves) result
  | complete i => exact complete_mapped mapped result
  | resumeSync i => exact resumeSync_mapped mapped result

/-- No two live buffers have the same block, the tree holds a live buffer of the block for each
block that it holds, and every buffer that `__getblk` has given to a user is the one it holds. -/
structure OneBuffer (t : Threads α) : Prop where
  unique : ∀ i j bh bh', t.cache.buffer i = some bh → t.cache.buffer j = some bh' → bh.bBlocknr = bh'.bBlocknr → i = j
  tree : ∀ b i, t.cache.root b = some i → ∃ bh, t.cache.buffer i = some bh ∧ bh.bBlocknr = b
  returned : ∀ i, t.cache.users i ≠ [] → ∃ bh, t.cache.buffer i = some bh ∧ t.cache.root bh.bBlocknr = some i

theorem Mapped.oneBuffer {t : Threads α} (mapped : Mapped t) : OneBuffer t where
  unique i j bh bh' first second same := by
    have one := mapped.rooted i bh first
    rw [same,mapped.rooted j bh' second] at one
    exact (Option.some.inj one).symm
  tree := mapped.back
  returned i used := by
    obtain ⟨bh,held⟩ := Option.ne_none_iff_exists'.mp (mapped.held i (Or.inl used)).1
    exact ⟨bh,held,mapped.rooted i bh held⟩

theorem one_buffer (device : Nat → α) (threads : Nat) {t : Threads α}
    (reached : Reaches step exclusive (Threads.init device threads) t) : OneBuffer t :=
  (reached.invariant (init_mapped device threads) step_mapped).oneBuffer

/-- Two threads get block 7, the second one after the first has inserted it. -/
theorem one_buffer_shared : ∃ t, run step exclusive (Threads.init (fun _ => 0) 2)
      [.search 0 7 .holding,.insert 0 0,.search 1 7 .holding,.resume 0,.resume 1,.resume 1,.resume 1] = some t ∧
    (t.cache.users 0).length = 2 ∧ OneBuffer t := by
  have ends : (run step exclusive (Threads.init (fun _ => 0) 2)
      [.search 0 7 .holding,.insert 0 0,.search 1 7 .holding,.resume 0,.resume 1,.resume 1,.resume 1]).map
      (fun t => (t.cache.users 0).length) = some 2 := by decide
  obtain ⟨t,result,both⟩ := Option.map_eq_some_iff.mp ends
  exact ⟨t,result,both,one_buffer (fun _ => 0) 2 (Reaches.start.run result)⟩

/-- Both threads search before either inserts: each is given a buffer of its own. -/
theorem two_buffers :
    ¬∀ (device : Nat → Nat) (threads : Nat) (t : Threads Nat),
      Reaches step (fun _ _ => true) (Threads.init device threads) t → OneBuffer t := by
  intro always
  have ends : (run step (fun _ _ => true) (Threads.init (fun _ => 0) 2)
      [.search 0 7 .holding,.search 1 7 .holding,.insert 0 0,.insert 1 0,.resume 0,.resume 1]).map
      (fun t => ((t.cache.buffer 0).map BufferHead.bBlocknr,(t.cache.buffer 1).map BufferHead.bBlocknr)) = some (some 7,some 7) := by
    decide
  obtain ⟨t,result,both⟩ := Option.map_eq_some_iff.mp ends
  obtain ⟨first,second⟩ := Prod.mk.inj both
  obtain ⟨bh,held,block⟩ := Option.map_eq_some_iff.mp first
  obtain ⟨bh',held',block'⟩ := Option.map_eq_some_iff.mp second
  have same := (always (fun _ => 0) 2 t (Reaches.start.run result)).unique 0 1 bh bh' held held' (block.trans block'.symm)
  exact absurd same (by decide)

end Ext4Fuse.BufferSections
