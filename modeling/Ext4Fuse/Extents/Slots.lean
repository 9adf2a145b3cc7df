import Ext4Fuse.Extents.Merge

/-! A node's array as a list, and what the insertion of an entry makes of it: in a node with a
free entry, and in a full one that is split. -/
namespace Ext4Fuse.Extents
open Machine Ext4Fuse.Types Super

/-- The entries of a node, extents or index entries. -/
abbrev slots (n : Node) : List Slot := leafExtents n

theorem slots_length (n : Node) : (slots n).length = n.ehEntries := leafExtents_length n

theorem slots_setSlot (n : Node) (p : Nat) (x : Slot) : slots (n.setSlot p x) = (slots n).set p x := leafExtents_setSlot n p x

theorem slots_eq {n : Node} {xs : List Slot} (count : n.ehEntries = xs.length)
    (reads : ∀ (i : Nat) (x : Slot), xs[i]? = some x → n.slot i = x) : slots n = xs := by
  refine List.ext_getElem (by rw [slots_length,count]) fun i _ inside => ?_
  rw [leafExtents_getElem]
  exact reads i _ (List.getElem?_eq_getElem inside)

theorem slots_getElem? {n : Node} {i : Nat} {x : Slot} (here : (slots n)[i]? = some x) : n.slot i = x := by
  obtain ⟨inside,rfl⟩ := List.getElem?_eq_some_iff.mp here
  exact (leafExtents_getElem n i inside).symm

theorem slot_mem {n : Node} {i : Nat} (inside : i < n.ehEntries) : (slots n)[i]? = some (n.slot i) := by
  have bound : i < (slots n).length := by rwa [slots_length]
  rw [List.getElem?_eq_getElem bound,leafExtents_getElem]

/-- The key and the block of an index entry. -/
def pointer (x : Slot) : Nat × Nat := (x.eiBlock,ext4IdxPblock x)

theorem holds_leaf {heap : Nat → Node} {room limit : Nat} {n : Node} {t : Tree 0} :
    Holds heap room 0 limit n t ↔ Header n 0 limit n.ehEntries ∧ slots n = extentsOf t := by
  constructor
  · rintro ⟨header,reads⟩
    exact ⟨header.entries ▸ header,slots_eq header.entries reads⟩
  · rintro ⟨header,same⟩
    have count : n.ehEntries = (extentsOf t).length := by rw [← same,slots_length]
    exact ⟨count ▸ header,fun i x here => slots_getElem? (same ▸ here)⟩

theorem holds_index {heap : Nat → Node} {room d limit : Nat} {n : Node} {t : Tree (d + 1)} :
    Holds heap room (d + 1) limit n t ↔ Header n (d + 1) limit n.ehEntries ∧
      (slots n).map pointer = (kidsOf t).map (fun k => (k.key,k.block)) ∧
      ∀ k ∈ kidsOf t, Holds heap room d room (heap k.block) k.tree := by
  constructor
  · rintro ⟨header,pointers,below⟩
    refine ⟨header.entries ▸ header,?_,below⟩
    refine List.ext_getElem (by rw [List.length_map,List.length_map,slots_length,header.entries]) fun i _ inside => ?_
    rw [List.length_map] at inside
    obtain ⟨key,block⟩ := pointers i _ (List.getElem?_eq_getElem inside)
    rw [List.getElem_map,List.getElem_map,leafExtents_getElem,pointer,key,block]
  · rintro ⟨header,same,below⟩
    have count : n.ehEntries = (kidsOf t).length := by
      have lengths := congrArg List.length same
      rwa [List.length_map,List.length_map,slots_length] at lengths
    refine ⟨count ▸ header,fun i k here => ?_,below⟩
    have inside : i < n.ehEntries := by
      rw [count]
      exact (List.getElem?_eq_some_iff.mp here).1
    have both := congrArg (·[i]?) same
    simp only [List.getElem?_map,here,slot_mem inside,Option.map_some] at both
    exact Prod.mk.inj (Option.some.inj both)

/-- The headers differ in the number of entries at most. -/
structure SameHeader (n n' : Node) : Prop where
  magic : n'.ehMagic = n.ehMagic
  max : n'.ehMax = n.ehMax
  depth : n'.ehDepth = n.ehDepth

theorem SameHeader.header {n n' : Node} {depth limit count : Nat} (alike : SameHeader n n') (header : Header n depth limit count)
    (fits : n'.ehEntries ≤ n'.ehMax) : Header n' depth limit n'.ehEntries := by
  refine ⟨alike.magic.trans header.magic,alike.depth.trans header.depth,rfl,fits,?_,?_⟩
  · rw [alike.max]
    exact header.max
  · rw [alike.max]
    exact header.limit

/-- The array with the entry `y` at place `ix`. -/
def withSlot (xs : List Slot) (ix : Nat) (y : Slot) : List Slot := xs.take ix ++ y::xs.drop ix

theorem withSlot_length {xs : List Slot} {ix : Nat} (inside : ix ≤ xs.length) (y : Slot) :
    (withSlot xs ix y).length = xs.length + 1 := by
  simp only [withSlot,List.length_append,List.length_cons,List.length_take,List.length_drop]
  omega

theorem withSlot_getElem {xs : List Slot} {ix : Nat} (inside : ix ≤ xs.length) (y : Slot) : (withSlot xs ix y)[ix]? = some y := by
  have front : (xs.take ix).length = ix := by
    rw [List.length_take]
    omega
  rw [withSlot,List.getElem?_append_right (Nat.le_of_eq front),front,Nat.sub_self]
  rfl

theorem placed_slots {n : Node} {ix : Nat} (inside : ix ≤ n.ehEntries) (small : n.ehEntries + 1 < 2^16) (y : Slot) :
    slots (((n.moveSlots (ix + 1) ix (n.ehEntries - ix)).setSlot ix y).addEntries 1) = withSlot (slots n) ix y := by
  have length := slots_length n
  have count : (((n.moveSlots (ix + 1) ix (n.ehEntries - ix)).setSlot ix y).addEntries 1).ehEntries = n.ehEntries + 1 :=
    u16_small (n.ehEntries + 1) small
  refine slots_eq ?_ fun i x here => ?_
  · rw [count,withSlot_length (by rw [length]; exact inside),length]
  · change ((n.moveSlots (ix + 1) ix (n.ehEntries - ix)).setSlot ix y).slot i = x
    have front : ((slots n).take ix).length = ix := by
      rw [List.length_take,length]
      omega
    rw [withSlot] at here
    rcases Nat.lt_trichotomy i ix with before | rfl | behind
    · rw [List.getElem?_append_left (by rw [front]; exact before),List.getElem?_take_of_lt before] at here
      rw [setSlot_other _ _ (Nat.ne_of_lt before)]
      change (if ix + 1 ≤ i ∧ i < ix + 1 + (n.ehEntries - ix) then n.slot (ix + (i - (ix + 1))) else n.slot i) = x
      rw [if_neg (by omega)]
      exact slots_getElem? here
    · rw [List.getElem?_append_right (by rw [front]),front,Nat.sub_self] at here
      rw [setSlot_self]
      exact Option.some.inj here
    · rw [List.getElem?_append_right (by rw [front]; omega),front] at here
      obtain ⟨j,rfl⟩ := Nat.exists_eq_add_of_lt behind
      rw [show ix + j + 1 - ix = j + 1 by omega,List.getElem?_cons_succ,List.getElem?_drop] at here
      have bound := (List.getElem?_eq_some_iff.mp here).1
      rw [length] at bound
      rw [setSlot_other _ _ (by omega)]
      change (if ix + 1 ≤ ix + j + 1 ∧ ix + j + 1 < ix + 1 + (n.ehEntries - ix) then n.slot (ix + (ix + j + 1 - (ix + 1)))
        else n.slot (ix + j + 1)) = x
      rw [if_pos (by omega),show ix + (ix + j + 1 - (ix + 1)) = ix + j by omega]
      exact slots_getElem? here

/-- Where there is a free entry. -/
theorem placeEntry_free {s : State} {eh : Option Nat} {ix : Nat} (inside : ix ≤ (s.hdr eh).ehEntries)
    (free : (s.hdr eh).ehEntries < (s.hdr eh).ehMax) (small : (s.hdr eh).ehMax < 2^16) (store : Slot → Slot) :
    ∃ n', placeEntry s eh ix store = some (s.setHdr eh n',.ok) ∧ SameHeader (s.hdr eh) n' ∧
      slots n' = withSlot (slots (s.hdr eh)) ix (store ((s.hdr eh).slot ix)) := by
  have kept : ((s.hdr eh).moveSlots (ix + 1) ix ((s.hdr eh).ehEntries - ix)).slot ix = (s.hdr eh).slot ix := by
    change (if ix + 1 ≤ ix ∧ ix < _ then _ else _) = _
    rw [if_neg (by omega)]
  refine ⟨(((s.hdr eh).moveSlots (ix + 1) ix ((s.hdr eh).ehEntries - ix)).setSlot ix (store ((s.hdr eh).slot ix))).addEntries 1,
    ?_,⟨rfl,rfl,rfl⟩,placed_slots inside (by omega) _⟩
  have count : u16 (((s.hdr eh).ehEntries : Int) + 1) = (s.hdr eh).ehEntries + 1 := u16_small ((s.hdr eh).ehEntries + 1) (by omega)
  unfold placeEntry
  rw [if_neg (Nat.not_lt.mpr inside)]
  simp only [kept]
  rw [if_neg (show ¬((s.hdr eh).moveSlots (ix + 1) ix ((s.hdr eh).ehEntries - ix)).ehMax ≤ ix from Nat.not_le.mpr (by
    change ix < (s.hdr eh).ehMax
    omega)),if_neg]
  change ¬u16 (((s.hdr eh).ehEntries : Int) + 1) ≤ ix
  rw [count]
  omega

/-! The split of a full node. -/

/-- The entries up to the path's one stay, those behind it are the new node's. -/
structure Parted (s s' : State) (at_ : Option Nat) (newblock p height : Nat) : Prop where
  left : slots (s'.hdr at_) = (slots (s.hdr at_)).take (p + 1)
  right : slots (s'.node newblock) = (slots (s.hdr at_)).drop (p + 1)
  alike : SameHeader (s.hdr at_) (s'.hdr at_)
  sibling : SameHeader (ext4ExtInitHeader s (s.node newblock) height) (s'.node newblock)
  other : ∀ a, a ≠ at_ → a ≠ some newblock → s'.hdr a = s.hdr a
  volume : s'.volume = s.volume

theorem slots_addEntries {n : Node} {m : Nat} (less : m ≤ n.ehEntries) (small : n.ehEntries < 2^16) :
    slots (n.addEntries (-m)) = (slots n).take (n.ehEntries - m) := by
  have count : (n.addEntries (-m)).ehEntries = n.ehEntries - m := by
    change u16 ((n.ehEntries : Int) + -m) = n.ehEntries - m
    rw [show (n.ehEntries : Int) + -m = (n.ehEntries - m : Nat) by omega]
    exact u16_small _ (by omega)
  refine slots_eq ?_ fun i x here => ?_
  · rw [count,List.length_take,slots_length]
    omega
  · have bound := (List.getElem?_eq_some_iff.mp here).1
    rw [List.length_take] at bound
    rw [List.getElem?_take_of_lt (by omega)] at here
    change n.slot i = x
    exact slots_getElem? here

theorem slots_copied (n from_ : Node) {src m : Nat} (empty : n.ehEntries = 0) (small : m < 2^16) (whole : src + m = from_.ehEntries) :
    slots ((n.copySlots from_ src m).addEntries m) = (slots from_).drop src := by
  have count : ((n.copySlots from_ src m).addEntries m).ehEntries = m := by
    change u16 ((n.ehEntries : Int) + m) = m
    rw [empty,Nat.cast_zero,Int.zero_add]
    exact u16_small _ small
  refine slots_eq ?_ fun i x here => ?_
  · rw [count,List.length_drop,slots_length]
    omega
  · have bound := (List.getElem?_eq_some_iff.mp here).1
    rw [List.length_drop,slots_length] at bound
    rw [List.getElem?_drop] at here
    change (if i < m then from_.slot (src + i) else n.slot i) = x
    rw [if_pos (by omega)]
    exact slots_getElem? here

theorem splitInto_parted {s : State} {curp : PathElem} {height newblock p : Nat} (differ : curp.pHdr ≠ some newblock)
    (full : (s.hdr curp.pHdr).ehEntries = (s.hdr curp.pHdr).ehMax) (inside : p < (s.hdr curp.pHdr).ehMax)
    (small : (s.hdr curp.pHdr).ehMax < 2^16) :
    ∃ s', splitInto s curp height newblock p = some s' ∧ Parted s s' curp.pHdr newblock p height := by
  have length := slots_length (s.hdr curp.pHdr)
  unfold splitInto
  simp only
  rw [if_neg (by omega)]
  split
  · rename_i last
    refine ⟨_,rfl,?_,?_,?_,?_,fun a _ other => setHdr_other _ _ other,setHdr_volume _ _ _⟩
    · rw [setHdr_other _ _ differ,List.take_of_length_le (by rw [length]; omega)]
    · change slots ((s.setHdr (some newblock) _).hdr (some newblock)) = _
      rw [setHdr_hdr,List.drop_eq_nil_of_le (by rw [length]; omega)]
      rfl
    · rw [setHdr_other _ _ differ]
      exact ⟨rfl,rfl,rfl⟩
    · change SameHeader _ ((s.setHdr (some newblock) _).hdr (some newblock))
      rw [setHdr_hdr]
      exact ⟨rfl,rfl,rfl⟩
  · have apart : (some newblock : Option Nat) ≠ curp.pHdr := differ.symm
    refine ⟨_,rfl,?_,?_,?_,?_,fun a one other => ?_,?_⟩
    · rw [ext4ExtDirty_hdr,setHdr_hdr,setHdr_other _ _ differ,slots_addEntries (by omega) (by omega),
        show (s.hdr curp.pHdr).ehEntries - ((s.hdr curp.pHdr).ehMax - 1 - p) = p + 1 by omega]
    · change slots ((ext4ExtDirty _ curp).hdr (some newblock)) = _
      rw [ext4ExtDirty_hdr,setHdr_other _ _ apart,setHdr_hdr]
      exact slots_copied _ _ rfl (by omega) (by omega)
    · rw [ext4ExtDirty_hdr,setHdr_hdr,setHdr_other _ _ differ]
      exact ⟨rfl,rfl,rfl⟩
    · change SameHeader _ ((ext4ExtDirty _ curp).hdr (some newblock))
      rw [ext4ExtDirty_hdr,setHdr_other _ _ apart,setHdr_hdr]
      exact ⟨rfl,rfl,rfl⟩
    · rw [ext4ExtDirty_hdr,setHdr_other _ _ one,setHdr_other _ _ other]
    · rw [ext4ExtDirty_volume,setHdr_volume,setHdr_volume]

/-- A block has room for two entries and more, and a 16-bit number counts them. -/
def RoomFits (room : Nat) : Prop := 2 ≤ room ∧ room < 2^16

/-- Both halves have entries, and together they have all of them and the new one. -/
structure Halves (s s' : State) (at_ : Option Nat) (newblock ix height room : Nat) (y : Slot) : Prop where
  whole : slots (s'.hdr at_) ++ slots (s'.node newblock) = withSlot (slots (s.hdr at_)) ix y
  left : slots (s'.hdr at_) ≠ []
  right : slots (s'.node newblock) ≠ []
  alike : SameHeader (s.hdr at_) (s'.hdr at_)
  fits : (s'.hdr at_).ehEntries ≤ (s'.hdr at_).ehMax
  header : Header (s'.node newblock) height room (s'.node newblock).ehEntries
  other : ∀ a, a ≠ at_ → a ≠ some newblock → s'.hdr a = s.hdr a

/-- Whether the new entry goes to the half of the path's node. -/
def ownHalf (max p : Nat) (behind : Bool) : Bool := !behind || p + 1 < max - 1 - p

section Placed
variable {s s₁ : State} {at_ : Option Nat} {newblock p height room : Nat} (parted : Parted s s₁ at_ newblock p height)
  (differ : at_ ≠ some newblock) (full : (s.hdr at_).ehEntries = (s.hdr at_).ehMax) (inside : p < (s.hdr at_).ehMax)
include parted inside full

theorem Parted.counts : (s₁.hdr at_).ehEntries = p + 1 ∧ (s₁.node newblock).ehEntries = (s.hdr at_).ehMax - 1 - p := by
  have left := congrArg List.length parted.left
  have right := congrArg List.length parted.right
  rw [slots_length,List.length_take,slots_length] at left
  rw [slots_length,List.length_drop,slots_length] at right
  omega

theorem Parted.kept : (s₁.hdr at_).slot p = (s.hdr at_).slot p := by
  have here : (slots (s.hdr at_))[p]? = some ((s.hdr at_).slot p) := slot_mem (by omega)
  refine slots_getElem? ?_
  rw [parted.left,List.getElem?_take_of_lt (Nat.lt_succ_self p)]
  exact here

include differ
variable (lower : height < extDepth s) (small : height < 2^16) (fits : RoomFits room)
  (space : ext4ExtSpaceBlock s = room)
include lower small fits space

omit differ full inside in
theorem Parted.sibling_header : (s₁.node newblock).ehMagic = ext4ExtMagic ∧ (s₁.node newblock).ehDepth = height ∧
    (s₁.node newblock).ehMax = room := by
  refine ⟨parted.sibling.magic,parted.sibling.depth.trans (u16_small height small),parted.sibling.max.trans ?_⟩
  have room_ : ext4ExtMaxEntries s height = room := by
    rw [ext4ExtMaxEntries,if_neg (Nat.ne_of_lt lower)]
    split
    · exact space
    · exact space
  change u16 (ext4ExtMaxEntries s height : Nat) = room
  rw [room_]
  exact u16_small room fits.2

/-- The entry goes to the path's node. -/
theorem Parted.own {n' : Node} {ix : Nat} {y : Slot} (alike : SameHeader (s₁.hdr at_) n') (count : n'.ehEntries ≤ (s.hdr at_).ehMax)
    (whole : slots n' ++ (slots (s.hdr at_)).drop (p + 1) = withSlot (slots (s.hdr at_)) ix y) (left : slots n' ≠ [])
    (right : p + 1 < (s.hdr at_).ehMax) (most : (s.hdr at_).ehMax ≤ room) : Halves s (s₁.setHdr at_ n') at_ newblock ix height room y := by
  obtain ⟨_,rest⟩ := parted.counts full inside
  obtain ⟨magic,depth,max⟩ := parted.sibling_header lower small fits space
  have other : (s₁.setHdr at_ n').node newblock = s₁.node newblock := setHdr_other s₁ n' differ.symm
  refine ⟨?_,?_,?_,?_,?_,?_,fun a one two => (setHdr_other _ _ one).trans (parted.other a one two)⟩
  · rw [setHdr_hdr,other,parted.right]
    exact whole
  · rw [setHdr_hdr]
    exact left
  · rw [other]
    refine List.ne_nil_of_length_pos ?_
    rw [slots_length]
    omega
  · rw [setHdr_hdr]
    exact ⟨alike.magic.trans parted.alike.magic,alike.max.trans parted.alike.max,alike.depth.trans parted.alike.depth⟩
  · rw [setHdr_hdr,alike.max,parted.alike.max]
    exact count
  · rw [other]
    exact ⟨magic,depth,rfl,by omega,by rw [max]; have := fits.1; omega,Nat.le_of_eq max⟩

/-- The entry goes to the new node. -/
theorem Parted.new {n' : Node} {ix : Nat} {y : Slot} (alike : SameHeader (s₁.node newblock) n') (count : n'.ehEntries ≤ room)
    (whole : (slots (s.hdr at_)).take (p + 1) ++ slots n' = withSlot (slots (s.hdr at_)) ix y) (right : slots n' ≠ []) :
    Halves s (s₁.setHdr (some newblock) n') at_ newblock ix height room y := by
  obtain ⟨rest,_⟩ := parted.counts full inside
  obtain ⟨magic,depth,max⟩ := parted.sibling_header lower small fits space
  have other : (s₁.setHdr (some newblock) n').hdr at_ = s₁.hdr at_ := setHdr_other s₁ n' differ
  have self : (s₁.setHdr (some newblock) n').node newblock = n' := setHdr_hdr s₁ (some newblock) n'
  refine ⟨?_,?_,?_,?_,?_,?_,fun a one two => (setHdr_other _ _ two).trans (parted.other a one two)⟩
  · rw [other,self,parted.left]
    exact whole
  · rw [other]
    refine List.ne_nil_of_length_pos ?_
    rw [slots_length]
    omega
  · rw [self]
    exact right
  · rw [other]
    exact parted.alike
  · rw [other,rest,parted.alike.max]
    exact inside
  · rw [self]
    refine ⟨alike.magic.trans magic,alike.depth.trans depth,rfl,?_,?_,?_⟩
    · rw [alike.max,max]
      exact count
    · rw [alike.max,max]
      have := fits.1
      omega
    · rw [alike.max,max]

/-- The new entry goes behind the path's one, or in front of it when that is the first of several. -/
theorem Parted.placed (most : (s.hdr at_).ehMax ≤ room) (behind : Bool) (front : behind = false → p = 0 ∧ 2 ≤ (s.hdr at_).ehMax)
    (store : Slot → Slot) :
    ∃ ix s₂ z, splitPlace s₁ at_ newblock behind = (if ownHalf (s.hdr at_).ehMax p behind then at_ else some newblock,ix) ∧
      placeEntry s₁ (if ownHalf (s.hdr at_).ehMax p behind then at_ else some newblock) ix store = some (s₂,.ok) ∧
      Halves s s₂ at_ newblock (if behind then p + 1 else p) height room (store z) ∧ s₂.volume = s.volume ∧
      (ownHalf (s.hdr at_).ehMax p behind = true → slots (s₂.node newblock) = (slots (s.hdr at_)).drop (p + 1)) ∧
      (ownHalf (s.hdr at_).ehMax p behind = false → ix = 0 ∧ slots (s₂.node newblock) = store z::(slots (s.hdr at_)).drop (p + 1)) := by
  obtain ⟨own,rest⟩ := parted.counts full inside
  obtain ⟨_,_,max⟩ := parted.sibling_header lower small fits space
  have max₁ := parted.alike.max
  have length := slots_length (s.hdr at_)
  have limit := fits.2
  have volume (a : Option Nat) (n : Node) : (s₁.setHdr a n).volume = s.volume := by rw [setHdr_volume,parted.volume]
  have untouched (n : Node) : slots ((s₁.setHdr at_ n).node newblock) = (slots (s.hdr at_)).drop (p + 1) := by
    rw [show (s₁.setHdr at_ n).node newblock = s₁.node newblock from setHdr_other s₁ n differ.symm,parted.right]
  cases behind with
  | false =>
    obtain ⟨rfl,two⟩ := front rfl
    obtain ⟨n',placed,alike,array⟩ := @placeEntry_free s₁ at_ 0 (by omega) (by omega) (by omega) store
    refine ⟨0,_,(s₁.hdr at_).slot 0,?_,placed,parted.own differ full inside lower small fits space alike ?_ ?_ ?_ two most,volume _ _,
      fun _ => untouched _,(by rintro ⟨⟩)⟩
    · change (at_,(s₁.hdr at_).ehEntries - 1) = (at_,0)
      rw [own]
    · rw [← slots_length n',array,withSlot_length (Nat.zero_le _),slots_length,own]
      exact two
    · rw [array,parted.left]
      change store _::(slots (s.hdr at_)).take 1 ++ (slots (s.hdr at_)).drop 1 = store _::slots (s.hdr at_)
      rw [List.cons_append,List.take_append_drop]
    · rw [array]
      exact List.append_ne_nil_of_right_ne_nil _ (List.cons_ne_nil _ _)
  | true =>
    have node : (s₁.hdr (some newblock)).ehEntries = (s.hdr at_).ehMax - 1 - p := rest
    have roomy : (s₁.hdr (some newblock)).ehMax = room := max
    rcases Nat.lt_or_ge (p + 1) ((s.hdr at_).ehMax - 1 - p) with more | less
    · have chosen : ownHalf (s.hdr at_).ehMax p true = true := decide_eq_true more
      obtain ⟨n',placed,alike,array⟩ := @placeEntry_free s₁ at_ (p + 1) (by omega) (by omega) (by omega) store
      refine ⟨p + 1,_,(s₁.hdr at_).slot (p + 1),?_,by rw [chosen]; exact placed,
        parted.own differ full inside lower small fits space alike ?_ ?_ ?_ (by omega) most,volume _ _,
        fun _ => untouched _,fun crossed => absurd chosen (by rw [crossed]; exact Bool.false_ne_true)⟩
      · rw [chosen,splitPlace,if_pos rfl,own,rest,if_pos more]
        rfl
      · rw [← slots_length n',array,withSlot_length (by rw [slots_length,own]),slots_length,own]
        omega
      · rw [array,parted.left,withSlot,List.take_take,Nat.min_self,List.drop_take,Nat.sub_self,List.take_zero,List.append_assoc]
        rfl
      · rw [array]
        exact List.append_ne_nil_of_right_ne_nil _ (List.cons_ne_nil _ _)
    · have chosen : ownHalf (s.hdr at_).ehMax p true = false := decide_eq_false (Nat.not_lt.mpr less)
      obtain ⟨n',placed,alike,array⟩ := @placeEntry_free s₁ (some newblock) 0 (by omega) (by omega) (by omega) store
      refine ⟨0,_,(s₁.hdr (some newblock)).slot 0,?_,by rw [chosen]; exact placed,
        parted.new differ full inside lower small fits space alike ?_ ?_ ?_,volume _ _,
        fun own => absurd own (by rw [chosen]; exact Bool.false_ne_true),fun _ => ⟨rfl,?_⟩⟩
      · rw [chosen,splitPlace,if_pos rfl,own,rest,if_neg (Nat.not_lt.mpr less)]
        rfl
      · rw [← slots_length n',array,withSlot_length (Nat.zero_le _),slots_length,node]
        omega
      · rw [array]
        change _ ++ store _::(slots (s₁.node newblock)) = withSlot _ (p + 1) _
        rw [parted.right]
        rfl
      · rw [array]
        exact List.append_ne_nil_of_right_ne_nil _ (List.cons_ne_nil _ _)
      · rw [show (s₁.setHdr (some newblock) n').node newblock = n' from setHdr_hdr s₁ (some newblock) n',array]
        change store _::slots (s₁.node newblock) = _
        rw [parted.right]

end Placed

end Ext4Fuse.Extents
