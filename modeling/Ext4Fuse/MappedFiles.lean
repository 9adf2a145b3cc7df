import Ext4Fuse.UnwrittenBlocks

/-! Reads and writes of files whose blocks are mapped, over one buffer cache: each file is an array of bytes of its own. -/
namespace Ext4Fuse.MappedFiles
open Machine Ext4Fuse.Types Super Extents Library.Bytes DiskAccess FileContent OpRead OpWrite MappedWrites

section Place
variable {blockSize : Nat} {x y : Slot}

/-- The blocks of the extents in use lie apart on the device. -/
def Apart {ι : Type} (extents : ι → List Slot) : Prop :=
  ∀ f g x y b c, x ∈ extents f → y ∈ extents g → covers x b → covers y c →
    ext4ExtPblock x + (b - x.eeBlock) = ext4ExtPblock y + (c - y.eeBlock) → f = g ∧ b = c

theorem Apart.place {ι : Type} {extents : ι → List Slot} (apart : Apart extents) (positive : 0 < blockSize) {f g : ι} {k j : Nat}
    (member : x ∈ extents f) (member' : y ∈ extents g) (covered : covers x (k / blockSize)) (covered' : covers y (j / blockSize))
    (same : place blockSize x k = place blockSize y j) : f = g ∧ k = j := by
  have parts (p m : Nat) : (p * blockSize + m % blockSize) / blockSize = p ∧ (p * blockSize + m % blockSize) % blockSize = m % blockSize := by
    have small := Nat.mod_lt m positive
    rw [Nat.mul_comm,Nat.mul_add_div positive,Nat.mul_add_mod,Nat.div_eq_of_lt small,Nat.mod_mod]
    exact ⟨rfl,rfl⟩
  have block := congrArg (· / blockSize) same
  have offset := congrArg (· % blockSize) same
  simp only [MappedWrites.place,(parts _ _).1,(parts _ _).2] at block offset
  obtain ⟨file,quotient⟩ := apart _ _ _ _ _ _ member member' covered covered' block
  refine ⟨file,?_⟩
  rw [← Nat.div_add_mod k blockSize,← Nat.div_add_mod j blockSize,quotient,offset]

end Place

/-- A stretch of the file holds the buffer, and nothing else on the device has changed. -/
structure Stores (blockSize : Nat) (extents : List Slot) (device device' : Nat → UInt8) (start : Nat) (buf : List UInt8) : Prop where
  inside : ∀ i (short : i < buf.length), ∀ x ∈ extents, covers x ((start + i) / blockSize) → device' (place blockSize x (start + i)) = buf[i]
  outside : ∀ q, (∀ i, i < buf.length → ∀ x ∈ extents, covers x ((start + i) / blockSize) → place blockSize x (start + i) ≠ q) →
    device' q = device q

section Stores
variable {blockSize start : Nat} {extents : List Slot} {device device₁ device' : Nat → UInt8} {buf rest : List UInt8}

theorem Stores.nil : Stores blockSize extents device device start [] := ⟨fun i short => absurd short (Nat.not_lt_zero i),fun _ _ => rfl⟩

/-- What lies in one extent is stored at once. -/
theorem Stores.extent {x : Slot} (only : ∀ i, i < buf.length → ∀ y ∈ extents, covers y ((start + i) / blockSize) → y = x)
    (member : x ∈ extents) (covered : ∀ i, i < buf.length → covers x ((start + i) / blockSize)) :
    Stores blockSize extents device (overlay device (place blockSize x start) buf) start buf := by
  have follows (i : Nat) (short : i < buf.length) : place blockSize x (start + i) = place blockSize x start + i :=
    place_next (covered 0 (by omega)) (covered i short)
  refine ⟨fun i short y other covered' => ?_,fun q away => ?_⟩
  · rw [only i short y other covered',follows i short]
    exact overlay_inside _ _ _ _ short
  · rcases Nat.lt_or_ge q (place blockSize x start) with before | behind
    · exact overlay_before _ _ _ _ before
    · refine overlay_after _ _ _ _ (Nat.le_of_not_lt fun early => ?_)
      refine away (q - place blockSize x start) (by omega) x member (covered _ (by omega)) ?_
      rw [follows _ (by omega)]
      omega

/-- A stretch and the one behind it. -/
theorem Stores.append (apart : Apart fun _ : Unit => extents) (positive : 0 < blockSize)
    (first : Stores blockSize extents device device₁ start buf)
    (second : Stores blockSize extents device₁ device' (start + buf.length) rest) :
    Stores blockSize extents device device' start (buf ++ rest) := by
  refine ⟨fun i short x member covered => ?_,fun q away => ?_⟩
  · rcases Nat.lt_or_ge i buf.length with early | late
    · rw [List.getElem_append_left early,← first.inside i early x member covered]
      refine second.outside _ fun j _ y member' covered' same => ?_
      have equal := (apart.place positive (f := ()) (g := ()) member' member covered' covered same).2
      omega
    · rw [List.length_append] at short
      have shifted : start + i = start + buf.length + (i - buf.length) := by omega
      rw [List.getElem_append_right late]
      rw [shifted] at covered ⊢
      exact second.inside (i - buf.length) (by omega) x member covered
  · rw [second.outside q fun i short x member covered => ?_,first.outside q fun i short x member covered => ?_]
    · exact away i (by rw [List.length_append]; omega) x member covered
    · rw [Nat.add_assoc] at covered ⊢
      exact away (buf.length + i) (by rw [List.length_append]; omega) x member covered

end Stores

section Write
variable {σ : Type} {access : Access σ} {d : Nat} {t : Tree d} {blockSize : Nat}

end Write

section Read
variable {σ : Type} {access : Access σ} {s s' : State} {disk disk' : σ} {d : Nat} {t : Tree d} {size offset count blockSize : Nat}

end Read

/-- Open files over one buffer cache. -/
structure Files (ι : Type) where
  file : ι → State
  cache : Disk.Cache

inductive Call (ι : Type)
  | read (f : ι) (size offset : Nat)
  | write (f : ι) (buf : List UInt8) (offset : Nat)

section Calls
variable {ι : Type} [DecidableEq ι]

/-- What a call gives back when each file is an array: as far as the file goes, the bytes asked for. -/
def answer (arrays : ι → Nat → UInt8) (s : Files ι) : Call ι → List UInt8
  | .read f size offset => slice (arrays f) offset (truncateSize (s.file f).inode size offset)
  | .write .. => []

/-- What a call may ask for: a stretch of mapped blocks of which no extent has two whole ones behind the first piece, and no unaligned
start behind 4 GiB that reaches the next block. -/
def Call.proper (blockSize : Nat) (extents : ι → List Slot) : Call ι → Prop
  | .read f count offset => count < 2^31 ∧ offset < 2^63 ∧ ¬highStart blockSize count offset ∧
    mappedAll blockSize (extents f) offset count ∧ ¬takesBlocks blockSize (extents f) count offset
  | .write f buf offset => buf ≠ [] ∧ buf.length < 2^31 ∧ ¬highStart blockSize buf.length offset ∧
    mappedAll blockSize (extents f) offset buf.length ∧ ¬takesBlocks blockSize (extents f) buf.length offset

/-- Trees of initialised extents that lie apart on the device. -/
structure Layout (extents : ι → List Slot) : Prop where
  apart : Apart extents
  written : ∀ f, ∀ x ∈ extents f, ext4ExtIsUnwritten x = false
  physical : ∀ f, ∀ x ∈ extents f, ext4ExtPblock x ≠ 0

/-- An open file with its tree, on a volume with the blocks of the cache. -/
structure Opened (block : BlockSize) (d : Nat) (t : Tree d) (s : State) : Prop where
  tree : HasTree s d t
  small : s.volume.superBlock.sLogBlockSize.toNat ≤ 6
  block : preadBlockSize s.volume.superBlock small = block
  ino : s.inode.iIno ≠ 0

theorem Opened.blocks {block : BlockSize} {d : Nat} {t : Tree d} {s : State} (opened : Opened block d t s) :
    superBlockSize s.volume.superBlock = block.bytes := by
  rw [← opened.block,preadBlockSize_bytes]

theorem Opened.congr {block : BlockSize} {d : Nat} {t : Tree d} {s s' : State} (opened : Opened block d t s) (tree : HasTree s' d t)
    (volume : s'.volume = s.volume) (ino : s'.inode.iIno = s.inode.iIno) : Opened block d t s' := by
  refine ⟨tree,by rw [volume]; exact opened.small,?_,by rw [ino]; exact opened.ino⟩
  simp only [volume]
  exact opened.block

/-- The mapped bytes of the files are those of the arrays. -/
def Holds (blockSize : Nat) (extents : ι → List Slot) (device : Nat → UInt8) (arrays : ι → Nat → UInt8) : Prop :=
  ∀ f, ∀ x ∈ extents f, ∀ k, covers x (k / blockSize) → device (place blockSize x k) = arrays f k

variable {block : BlockSize} {blockSize : Nat} {d : ι → Nat} {t : ∀ f, Tree (d f)} {s : Files ι} {arrays : ι → Nat → UInt8}

theorem Holds.write {extents : ι → List Slot} {device device' : Nat → UInt8} {f : ι} {buf : List UInt8} {offset : Nat}
    (holds : Holds blockSize extents device arrays) (apart : Apart extents) (positive : 0 < blockSize)
    (stores : Stores blockSize (extents f) device device' offset buf) :
    Holds blockSize extents device' (Function.update arrays f (overlay (arrays f) offset buf)) := by
  intro g y member k covered
  have kept (away : ∀ i, i < buf.length → ¬(f = g ∧ offset + i = k)) : device' (place blockSize y k) = arrays g k := by
    rw [stores.outside _ fun i short x member' covered' same => away i short (apart.place positive member' member covered' covered same)]
    exact holds g y member k covered
  rcases eq_or_ne g f with rfl | other
  · rw [Function.update_self]
    rcases Nat.lt_or_ge k offset with before | from_
    · rw [overlay_before _ _ _ _ before]
      exact kept fun i _ equal => by omega
    · obtain ⟨i,rfl⟩ := Nat.exists_eq_add_of_le from_
      rcases Nat.lt_or_ge i buf.length with short | beyond
      · rw [overlay_inside _ _ _ _ short]
        exact stores.inside i short y member covered
      · rw [overlay_after _ _ _ _ (by omega)]
        exact kept fun j _ equal => by omega
  · rw [Function.update_of_ne other]
    exact kept fun _ _ equal => other equal.1.symm

end Calls

end Ext4Fuse.MappedFiles
