import Ext4Fuse.Extents.GetBlocks
import Ext4Fuse.IndirectBlocks

/-! `get_link_dest`: the target of a symlink goes into the caller's buffer, out of `i_block`
or out of the first data block. -/
namespace Ext4Fuse.Readlink
open Machine Library.Bytes

/-- The recorded size, the bytes of `i_block`, and the tree that an inode with extents has there. -/
structure LinkInode where
  size : Nat
  iBlock : Nat → UInt8
  tree : Option Extents.State

/-- What has been stored so far at every offset from the start of the buffer. -/
abbrev Stored := Nat → Option UInt8

def memcpy (src : Nat → UInt8) (count : Nat) : Stored := fun i => if i < count then some (src i) else none

/-- `strncpy` out of an array of `len` bytes. No result: it reads on behind them. -/
def strncpy (src : Nat → UInt8) (len count : Nat) : Option Stored :=
  if count ≤ len ∨ ∃ i, i < len ∧ src i = 0 then
    some fun i => if i < count then some (if ∃ j, j < i ∧ src j = 0 then 0 else src i) else none
  else none

section Code
variable (block : BlockSize) (device : Nat → UInt8)

/-- `inode_get_data_pblock(inode, 0, NULL, 0)`. -/
def firstDataPblock (inode : LinkInode) : Option Nat :=
  match inode.tree with
  | some s => (Extents.inodeGetDataPblock s 0 none false).map fun found => found.2.1
  | none =>
    let words := fun i => UInt32.ofNat (leValue (slice inode.iBlock (i * 4) 4))
    IndirectBlocks.inodeGetDataPblock block device ⟨inode.size,words⟩ 0 false

/-- The buffer, and the result, which `op_readlink` does not look at. -/
def getLinkDest (inode : LinkInode) (bufsize : Nat) : Option (Stored × Int) := do
  let buf ← if inode.size ≤ 60 then some (memcpy inode.iBlock inode.size)
    else do
      let pblock ← firstDataPblock block device inode
      strncpy (fun i => device (pblock * block.bytes + i)) block.bytes (u64 (bufsize - 1 : Int))
  return (Function.update buf inode.size (some 0),i32 (inode.size + 1 : Nat))

/-- Targets shorter than 60 bytes are in `i_block`, which has room for their NUL, and others in the first data block. -/
def target (inode : LinkInode) (pblock : Nat) : List UInt8 :=
  if inode.size < 60 then slice inode.iBlock 0 inode.size else slice device (pblock * block.bytes) block.bytes

/-- Nothing is stored outside of the buffer, and in it is as much of the target as there is room for, and a NUL. -/
structure LinkRead (inode : LinkInode) (bufsize pblock : Nat) (buf : Stored) : Prop where
  inside : ∀ i, buf i ≠ none → i < bufsize
  bytes : ∀ i, i < min inode.size (bufsize - 1) → ∃ byte, (target block device inode pblock)[i]? = some byte ∧ buf i = some byte
  ended : buf (min inode.size (bufsize - 1)) = some 0

/-- A target in a block is copied whole. -/
structure BlockTarget (inode : LinkInode) (bufsize : Nat) (data : Nat → UInt8) : Prop where
  whole : inode.size ≤ block.bytes
  read : bufsize - 1 ≤ block.bytes ∨ ∃ i, i < block.bytes ∧ data i = 0
  plain : ∀ j i, j < i → i < inode.size → data j = 0 → data i = 0

/-- There is room for the target and its NUL; one of 60 bytes is also in `i_block`. -/
structure Fits (inode : LinkInode) (bufsize pblock : Nat) : Prop where
  room : inode.size < bufsize
  border : inode.size = 60 → ∀ i, i < 60 → inode.iBlock i = device (pblock * block.bytes + i)
  blocked : 60 < inode.size → BlockTarget block inode bufsize fun i => device (pblock * block.bytes + i)

end Code

variable {block : BlockSize} {device : Nat → UInt8} {inode : LinkInode} {bufsize pblock : Nat}

/-- Block 0 is always looked up. -/
theorem firstDataPblock_some (block : BlockSize) (device : Nat → UInt8) (inode : LinkInode) :
    ∃ pblock, firstDataPblock block device inode = some pblock := by
  refine Option.isSome_iff_exists.mp ?_
  unfold firstDataPblock
  cases inode.tree with
  | none =>
    simp only [IndirectBlocks.inodeGetDataPblock,if_neg (Nat.not_lt_zero _),Bool.false_eq_true,if_false,
      if_pos (show 0 < IndirectBlocks.ext4NdirBlocks by decide)]
    rfl
  | some s =>
    simp only [Extents.inodeGetDataPblock,Extents.extentGetPblockNew,Extents.ext4ExtGetBlocks]
    split
    · rfl
    · split
      · rfl
      · rfl

theorem getLinkDest_inline (short : inode.size ≤ 60) (bufsize : Nat) : getLinkDest block device inode bufsize =
    some (Function.update (memcpy inode.iBlock inode.size) inode.size (some 0),i32 (inode.size + 1 : Nat)) := by
  rw [getLinkDest,if_pos short]
  rfl

/-- The NUL behind the target is stored inside the buffer only if there is room for it. -/
theorem room_of_inside {buf : Stored} (inside : ∀ i, Function.update buf inode.size (some 0) i ≠ none → i < bufsize) :
    inode.size < bufsize :=
  inside inode.size (by rw [Function.update_self]; nofun)

theorem inline_iff (some_ : 1 ≤ bufsize) (short : inode.size ≤ 60) :
    LinkRead block device inode bufsize pblock (Function.update (memcpy inode.iBlock inode.size) inode.size (some 0)) ↔
      inode.size < bufsize ∧ (inode.size = 60 → ∀ i, i < 60 → inode.iBlock i = device (pblock * block.bytes + i)) := by
  have stored (i : Nat) (low : i < inode.size) :
      Function.update (memcpy inode.iBlock inode.size) inode.size (some 0) i = some (inode.iBlock i) := by
    rw [Function.update_of_ne (Nat.ne_of_lt low),memcpy,if_pos low]
  have least_block := block.le_bytes
  constructor
  · intro linked
    have room := room_of_inside linked.inside
    refine ⟨room,fun border i low => ?_⟩
    obtain ⟨byte,read,same⟩ := linked.bytes i (by omega)
    rw [stored i (by omega)] at same
    rw [target,if_neg (by omega),slice,List.getElem?_map,List.getElem?_range (by omega)] at read
    exact (Option.some.inj same).trans (Option.some.inj read).symm
  · rintro ⟨room,border⟩
    have least : min inode.size (bufsize - 1) = inode.size := by omega
    refine ⟨fun i touched => ?_,fun i low => ?_,?_⟩
    · by_contra outside
      rw [Function.update_of_ne (by omega),memcpy,if_neg (by omega)] at touched
      exact touched rfl
    · rw [least] at low
      refine ⟨inode.iBlock i,?_,stored i low⟩
      rw [target]
      rcases Nat.lt_or_ge inode.size 60 with inline | at_border
      · rw [if_pos inline,slice,List.getElem?_map,List.getElem?_range low,Option.map_some,Nat.zero_add]
      · rw [if_neg (by omega),slice,List.getElem?_map,List.getElem?_range (by omega),Option.map_some,
          border (by omega) i (by omega)]
    · rw [least,Function.update_self]

theorem strncpy_some {data : Nat → UInt8} {len count : Nat} {buf : Stored} (copied : strncpy data len count = some buf) :
    (count ≤ len ∨ ∃ i, i < len ∧ data i = 0) ∧
      ∀ i, buf i = if i < count then some (if ∃ j, j < i ∧ data j = 0 then 0 else data i) else none := by
  unfold strncpy at copied
  split at copied
  · rename_i read
    rw [← Option.some.inj copied]
    exact ⟨read,fun _ => rfl⟩
  · nomatch copied

/-- The copy is the target if the buffer and the block hold it and its only NULs are behind it. -/
theorem copied_iff {data : Nat → UInt8} {buf : Stored} (some_ : 1 ≤ bufsize)
    (held : ∀ i byte, (target block device inode pblock)[i]? = some byte ↔ i < block.bytes ∧ data i = byte)
    (copied : ∀ i, buf i = if i < bufsize - 1 then some (if ∃ j, j < i ∧ data j = 0 then 0 else data i) else none) :
    LinkRead block device inode bufsize pblock (Function.update buf inode.size (some 0)) ↔
      inode.size < bufsize ∧ inode.size ≤ block.bytes ∧ ∀ j i, j < i → i < inode.size → data j = 0 → data i = 0 := by
  constructor
  · intro linked
    have room := room_of_inside linked.inside
    have least : min inode.size (bufsize - 1) = inode.size := by omega
    have bytes := linked.bytes
    rw [least] at bytes
    have whole : inode.size ≤ block.bytes := by
      by_contra more
      obtain ⟨byte,read,_⟩ := bytes block.bytes (by omega)
      exact absurd ((held _ _).mp read).1 (Nat.lt_irrefl _)
    refine ⟨room,whole,fun j i before low zero => ?_⟩
    obtain ⟨byte,read,same⟩ := bytes i low
    rw [Function.update_of_ne (Nat.ne_of_lt low),copied,if_pos (by omega),if_pos ⟨j,before,zero⟩] at same
    exact ((held _ _).mp read).2.trans (Option.some.inj same).symm
  · rintro ⟨room,whole,plain⟩
    have least : min inode.size (bufsize - 1) = inode.size := by omega
    refine ⟨fun i touched => ?_,fun i low => ?_,?_⟩
    · by_contra outside
      rw [Function.update_of_ne (by omega),copied,if_neg (by omega)] at touched
      exact touched rfl
    · rw [least] at low
      refine ⟨data i,(held _ _).mpr ⟨by omega,rfl⟩,?_⟩
      rw [Function.update_of_ne (Nat.ne_of_lt low),copied,if_pos (by omega)]
      split
      · rename_i ended
        obtain ⟨j,before,zero⟩ := ended
        rw [plain j i before low zero]
      · rfl
    · rw [least,Function.update_self]

/-- `get_link_dest` has a buffer for the caller, and it is as it should be. -/
def Linked (block : BlockSize) (device : Nat → UInt8) (inode : LinkInode) (bufsize pblock : Nat) : Prop :=
  ∃ buf ret, getLinkDest block device inode bufsize = some (buf,ret) ∧ LinkRead block device inode bufsize pblock buf

theorem block_iff (some_ : 1 ≤ bufsize) (sized : bufsize < 2^64) (long : 60 < inode.size)
    (first : firstDataPblock block device inode = some pblock) :
    Linked block device inode bufsize pblock ↔
      inode.size < bufsize ∧ BlockTarget block inode bufsize fun i => device (pblock * block.bytes + i) := by
  have code : getLinkDest block device inode bufsize =
      (strncpy (fun i => device (pblock * block.bytes + i)) block.bytes (bufsize - 1)).map fun buf =>
        (Function.update buf inode.size (some 0),i32 (inode.size + 1 : Nat)) := by
    rw [getLinkDest,if_neg (Nat.not_le.mpr long),first,show (bufsize - 1 : Int) = ((bufsize - 1 : Nat) : Int) by omega,
      u64_small _ (by omega),Option.bind_eq_bind,Option.bind_some]
    cases strncpy (fun i => device (pblock * block.bytes + i)) block.bytes (bufsize - 1)
    · rfl
    · rfl
  have held (i : Nat) (byte : UInt8) : (target block device inode pblock)[i]? = some byte ↔
      i < block.bytes ∧ device (pblock * block.bytes + i) = byte := by
    rw [target,if_neg (by omega),slice,List.getElem?_map]
    rcases Nat.lt_or_ge i block.bytes with low | high
    · rw [List.getElem?_range low,Option.map_some,Option.some_inj]
      exact ⟨fun same => ⟨low,same⟩,And.right⟩
    · rw [List.getElem?_eq_none (by rw [List.length_range]; exact high)]
      exact iff_of_false (by rintro ⟨⟩) fun both => absurd both.1 (Nat.not_lt.mpr high)
  unfold Linked
  rw [code]
  constructor
  · rintro ⟨_,_,stored,linked⟩
    obtain ⟨buf,copied,equal⟩ := Option.map_eq_some_iff.mp stored
    obtain ⟨rfl,rfl⟩ := Prod.mk.inj equal
    obtain ⟨read,bytes⟩ := strncpy_some copied
    obtain ⟨room,whole,plain⟩ := (copied_iff some_ held bytes).mp linked
    exact ⟨room,whole,read,plain⟩
  · rintro ⟨room,whole,read,plain⟩
    obtain ⟨buf,copied⟩ : ∃ buf, strncpy (fun i => device (pblock * block.bytes + i)) block.bytes (bufsize - 1) = some buf :=
      ⟨_,if_pos read⟩
    have linked := (copied_iff some_ held (strncpy_some copied).2).mpr ⟨room,whole,plain⟩
    exact ⟨_,i32 (inode.size + 1 : Nat),by rw [copied,Option.map_some],linked⟩

/-- A target is read as it should be exactly where there is room for it and its NUL, it is not
one of 60 bytes, and a longer one is whole in its block. -/
theorem linked_iff (some_ : 1 ≤ bufsize) (sized : bufsize < 2^64) (first : firstDataPblock block device inode = some pblock) :
    Linked block device inode bufsize pblock ↔ Fits block device inode bufsize pblock := by
  rcases Nat.lt_or_ge 60 inode.size with long | short
  · rw [block_iff some_ sized long first]
    exact ⟨fun both => ⟨both.1,fun border => absurd border (by omega),fun _ => both.2⟩,fun fits => ⟨fits.room,fits.blocked long⟩⟩
  · have inline := @inline_iff block device inode bufsize pblock some_ short
    unfold Linked
    rw [getLinkDest_inline short]
    constructor
    · rintro ⟨_,_,stored,linked⟩
      obtain ⟨rfl,rfl⟩ := Prod.mk.inj (Option.some.inj stored)
      obtain ⟨room,border⟩ := inline.mp linked
      exact ⟨room,border,fun long => absurd long (Nat.not_lt.mpr short)⟩
    · intro fits
      exact ⟨_,_,rfl,inline.mpr ⟨fits.room,fits.border⟩⟩

/-- An inode without extents whose `i_block` holds nothing but the letter a. -/
def letters (size : Nat) : LinkInode := ⟨size,fun _ => 97,none⟩

theorem letters_first (device : Nat → UInt8) (size : Nat) : firstDataPblock smallBlock device (letters size) = some 1633771873 := by
  simp only [firstDataPblock,letters,IndirectBlocks.inodeGetDataPblock,if_neg (Nat.not_lt_zero _),Bool.false_eq_true,if_false,
    if_pos (show 0 < IndirectBlocks.ext4NdirBlocks by decide)]
  rfl

theorem linked_iff_inline : Linked smallBlock (fun _ => 0) (letters 59) 4097 1633771873 :=
  (linked_iff (by decide) (by decide) (letters_first _ 59)).mpr ⟨by decide,nofun,fun long => absurd long (by decide)⟩

/-- The NUL of a target of 10 bytes is stored behind a buffer of 5, and a target of 60 bytes, though in its block, is
taken out of `i_block`. -/
theorem linked_not : (∀ pblock, ¬Linked smallBlock (fun _ => 0) (letters 10) 5 pblock) ∧
    firstDataPblock smallBlock (fun _ => 98) (letters 60) = some 1633771873 ∧
    ¬Linked smallBlock (fun _ => 98) (letters 60) 4097 1633771873 := by
  refine ⟨fun pblock => ?_,letters_first _ 60,?_⟩
  · rintro ⟨buf,ret,stored,linked⟩
    rw [getLinkDest_inline (by decide)] at stored
    obtain ⟨rfl,_⟩ := Prod.mk.inj (Option.some.inj stored)
    exact absurd (room_of_inside linked.inside) (by decide)
  · rintro ⟨buf,ret,stored,linked⟩
    rw [getLinkDest_inline (by decide)] at stored
    obtain ⟨rfl,_⟩ := Prod.mk.inj (Option.some.inj stored)
    have border := ((inline_iff (by decide) (by decide)).mp linked).2 rfl 0 (by decide)
    exact absurd border (by decide)

end Ext4Fuse.Readlink
