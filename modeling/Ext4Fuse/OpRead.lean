import Ext4Fuse.DiskAccess
import Ext4Fuse.FileContent

/-! `op_read`. A failed assertion has no result, nor has a copy out of a buffer that does not hold it. -/
namespace Ext4Fuse.OpRead
open Machine Ext4Fuse.Types Super Extents Library.Bytes DiskAccess FileContent

def truncateSize (inode : Inode) (size offset : Nat) : Nat :=
  let inodeSize := inodeGetSize inode
  if inodeSize ≤ offset then 0
  else if inodeSize ≤ u64 (offset + size : Nat) then u64 (inodeSize - offset : Int)
  else size

section Code
variable {σ : Type} (access : Access σ)

/-- `first_read`: the bytes it stores, as many as it returns. -/
def firstRead (s : State) (disk : σ) (size offset : Nat) : Option (State × σ × List UInt8) := do
  let blockSize := superBlockSize s.volume.superBlock
  let endLblock := u32 (u64 (offset + u64 (size - 1 : Int) : Nat) / blockSize : Nat)
  let startLblock := u32 (offset / blockSize : Nat)
  let startBlockOff := offset % blockSize
  if size = 0 then return (s,disk,[])
  if startBlockOff = 0 then return (s,disk,[])
  let (s,startPblock,_) ← inodeGetDataPblock s startLblock none false
  if startLblock = endLblock then
    let (bytes,disk) ← access.read disk (startPblock * blockSize + startBlockOff) size
    return (s,disk,bytes)
  let sizeToBlockEnd := u64 (alignToBlocksize blockSize offset - offset : Int)
  let (bytes,disk) ← access.read disk (startPblock * blockSize + startBlockOff) sizeToBlockEnd
  return (s,disk,bytes)

/-- What a round of the loop of `op_read` stores for one lookup. -/
def storePiece (disk : σ) (blockSize pblock extentLen rest : Nat) : Option (List UInt8 × σ) :=
  if pblock = 0 then some (List.replicate blockSize 0,disk)
  else do
    let readCtx ← diskCtxCreate (pblock * blockSize) blockSize extentLen
    let (_,bytes,disk) ← diskCtxRead access disk readCtx rest
    return (bytes,disk)

/-- The loop of `op_read`, given what has been stored so far. Every round stores a byte. -/
def readLoop (size : Nat) : Nat → Nat → State → σ → List UInt8 → Option (State × σ × List UInt8)
  | 0, _, _, _, _ => none
  | rounds+1, lblock, s, disk, stored =>
    if stored.length < size then do
      let blockSize := superBlockSize s.volume.superBlock
      let (s,pblock,extentLen) ← inodeGetDataPblock s lblock (some 1) false
      let (bytes,disk) ← storePiece access disk blockSize pblock extentLen (size - stored.length)
      readLoop size rounds (u32 (lblock + extentLen : Nat)) s disk (stored ++ bytes)
    else some (s,disk,stored)

/-- `op_read`: the bytes in the buffer, as many as it returns. -/
def opRead (s : State) (disk : σ) (size offset : Nat) : Option (State × σ × List UInt8) := do
  let size := truncateSize s.inode size offset
  let (s,disk,first) ← firstRead access s disk size offset
  let lblock := u32 ((offset + first.length) / superBlockSize s.volume.superBlock : Nat)
  let (s,disk,stored) ← readLoop access size (size + 1) lblock s disk first
  if stored.length = size then return (s,disk,stored) else none

end Code

/-! Blocks are looked up by their 32-bit numbers. -/

/-- The position lies in a block whose number no extent covers. -/
def lookedHole (blockSize : Nat) (extents : List Slot) (k : Nat) : Prop := ∀ x ∈ extents, ¬covers x (k / blockSize % 2^32)

section Blocks
variable (device : Nat → UInt8)

/-- The byte on the device where the lookup of the position's block leads: block 0 for a hole. -/
def atBlock (blockSize : Nat) (extents : List Slot) (k : Nat) : UInt8 :=
  device ((lookup extents extInitMaxLen (k / blockSize % 2^32)).1 * blockSize + k % blockSize)

theorem lookedHole_low {blockSize : Nat} {extents : List Slot} {k : Nat} (inside : k < 2^32 * blockSize) :
    lookedHole blockSize extents k ↔ inHole blockSize extents k := by
  rw [lookedHole,inHole,Nat.mod_eq_of_lt (Nat.div_lt_of_lt_mul (by rwa [Nat.mul_comm]))]

end Blocks

section Loop
variable {σ : Type} {access : Access σ} {s : State} {disk : σ} {d : Nat} {t : Tree d} {size : Nat}

theorem readLoop_done (rounds lblock : Nat) (s : State) (disk : σ) {stored : List UInt8} (done : size ≤ stored.length) :
    readLoop access size (rounds + 1) lblock s disk stored = some (s,disk,stored) := by
  rw [readLoop,if_neg (Nat.not_lt.mpr done)]

theorem readLoop_more {s s' : State} {lblock pblock extentLen : Nat} {stored : List UInt8} (rounds : Nat)
    (more : stored.length < size) (found : inodeGetDataPblock s lblock (some 1) false = some (s',pblock,extentLen)) :
    readLoop access size (rounds + 1) lblock s disk stored =
      (storePiece access disk (superBlockSize s.volume.superBlock) pblock extentLen (size - stored.length)).bind fun r =>
        readLoop access size rounds (u32 (lblock + extentLen : Nat)) s' r.2 (stored ++ r.1) := by
  rw [readLoop,if_pos more,found]
  rfl

/-- Once the loop is in a hole it stays there: the length of a hole is 0. -/
theorem readLoop_hole (tree : HasTree s d t) {lblock : Nat} (bound : lblock < 2^32)
    (hole : ∀ x ∈ flat d t, ¬covers x lblock) (positive : 0 < superBlockSize s.volume.superBlock) (rounds : Nat)
    (stored : List UInt8) (enough : size ≤ rounds + stored.length) :
    ∃ s' n, Same s s' ∧ readLoop access size (rounds + 1) lblock s disk stored = some (s',disk,stored ++ List.replicate n 0) ∧
      size - stored.length ≤ n ∧ n % superBlockSize s.volume.superBlock = 0 ∧
      (size ≤ stored.length → n = 0) ∧ n < size - stored.length + superBlockSize s.volume.superBlock := by
  induction rounds generalizing s stored with
  | zero =>
    refine ⟨s,0,Same.refl s,?_,by omega,Nat.zero_mod _,fun _ => rfl,by omega⟩
    rw [readLoop_done 0 lblock s disk (by omega),List.replicate_zero,List.append_nil]
  | succ rounds ih =>
    rcases Nat.lt_or_ge stored.length size with more | done
    · obtain ⟨s₁,same,found⟩ := inodeGetDataPblock_lookup tree bound (some 1)
      rw [lookup_hole extInitMaxLen hole] at found
      obtain ⟨s',n,same',result,least,whole,none_left,most⟩ := ih (same.hasTree tree) (by rw [same.volume]; exact positive)
        (stored ++ List.replicate (superBlockSize s.volume.superBlock) 0)
        (by rw [List.length_append,List.length_replicate]; omega)
      rw [same.volume] at whole most
      rw [List.length_append,List.length_replicate] at least most none_left
      refine ⟨s',superBlockSize s.volume.superBlock + n,same.trans same',?_,by omega,?_,by omega,?_⟩
      · rw [readLoop_more (rounds + 1) more found,storePiece,if_pos rfl,Option.bind_some,
          show u32 ((lblock + 0 : Nat) : Int) = lblock from u32_small lblock bound,result,List.append_assoc,
          List.replicate_append_replicate]
      · rw [Nat.add_mod_left,whole]
      · omega
    · refine ⟨s,0,Same.refl s,?_,by omega,Nat.zero_mod _,fun _ => rfl,by omega⟩
      rw [readLoop_done (rounds + 1) lblock s disk done,List.replicate_zero,List.append_nil]

/-- The blocks from a place of the file on, up to the end of the extent there. -/
theorem extent_blocks {low high blockSize pos b i : Nat} (wf : Wf d low t high) (last : high ≤ 2^32) (positive : 0 < blockSize)
    {x : Slot} (member : x ∈ flat d t) (covered : covers x b) (aligned : pos % blockSize = 0)
    (number : pos / blockSize % 2^32 = b) (inside : i < blockSize * (extentStop x - b)) :
    (pos + i) / blockSize % 2^32 = b + i / blockSize ∧ covers x (b + i / blockSize) ∧ (pos + i) % blockSize = i % blockSize := by
  have whole := Nat.div_add_mod pos blockSize
  rw [aligned,Nat.add_zero] at whole
  have near : i / blockSize < extentStop x - b := Nat.div_lt_of_lt_mul inside
  have stop := (wf_bounds wf member).2.2
  refine ⟨?_,?_,?_⟩
  · rw [← whole,Nat.mul_add_div positive]
    generalize i / blockSize = j at near
    omega
  · generalize i / blockSize = j at near
    exact ⟨Nat.le_trans covered.1 (Nat.le_add_right _ _),by omega⟩
  · rw [← whole,Nat.mul_add_mod]

/-- From a block on, the bytes up to the end of its extent lie one after another on the device. -/
theorem atBlock_extent {device : Nat → UInt8} {low high blockSize pos b i : Nat} (wf : Wf d low t high) (last : high ≤ 2^32)
    (positive : 0 < blockSize) {x : Slot} (member : x ∈ flat d t) (covered : covers x b) (aligned : pos % blockSize = 0)
    (number : pos / blockSize % 2^32 = b) (inside : i < blockSize * (extentStop x - b)) :
    ¬lookedHole blockSize (flat d t) (pos + i) ∧
      atBlock device blockSize (flat d t) (pos + i) = device ((ext4ExtPblock x + (b - x.eeBlock)) * blockSize + i) := by
  obtain ⟨quotient,here,remainder⟩ := extent_blocks wf last positive member covered aligned number inside
  have parts := Nat.div_add_mod i blockSize
  have start := covered.1
  refine ⟨fun hole => hole x member (by rwa [quotient]),?_⟩
  rw [atBlock,quotient,remainder,lookup_mapped extInitMaxLen member here fun y other both => covers_unique wf member other here both,
    show ext4ExtPblock x + (b + i / blockSize - x.eeBlock) = ext4ExtPblock x + (b - x.eeBlock) + i / blockSize by
      generalize i / blockSize = j
      omega,Nat.add_mul,Nat.mul_comm (i / blockSize),Nat.add_assoc,parts]

/-- The number of bytes of an extent from one of its blocks on. -/
theorem extent_bytes {blockSize b : Nat} (positive : 0 < blockSize) (small : blockSize ≤ 65536) {x : Slot} (covered : covers x b) :
    u64 (blockSize * (extentStop x - b) : Nat) = blockSize * (extentStop x - b) ∧ 0 < blockSize * (extentStop x - b) := by
  have len := actualLen_le x
  have short : extentStop x - b ≤ 2^15 := by
    have := covered.1
    unfold extentStop
    omega
  have product := Nat.mul_le_mul small short
  exact ⟨u64_small _ (by omega),Nat.mul_pos positive (Nat.sub_pos_of_lt covered.2)⟩

theorem storePiece_mapped {blockSize pblock extentLen : Nat} (mapped : pblock ≠ 0) (positive : 0 < blockSize)
    (bytes : u64 (blockSize * extentLen : Nat) = blockSize * extentLen) (some_ : 0 < blockSize * extentLen) (rest : Nat) :
    storePiece access disk blockSize pblock extentLen rest =
      access.read disk (pblock * blockSize) (min rest (blockSize * extentLen)) := by
  have created : diskCtxCreate (pblock * blockSize) blockSize extentLen = some ⟨pblock * blockSize,blockSize * extentLen⟩ := by
    rw [diskCtxCreate,if_neg (Nat.ne_of_gt positive),bytes]
  have answered := @diskCtxRead_eq _ access disk ⟨pblock * blockSize,blockSize * extentLen⟩ (Nat.ne_of_gt some_) rest
  rw [storePiece,if_neg mapped,created]
  simp only [Option.bind_eq_bind,Option.bind_some,answered]
  cases access.read disk (pblock * blockSize) (min rest (blockSize * extentLen)) <;> rfl

/-- A round on a mapped block stores bytes up to the end of the extent. -/
theorem storePiece_extent {low high blockSize pos b : Nat} (wf : Wf d low t high) (last : high ≤ 2^32) (positive : 0 < blockSize)
    (small : blockSize ≤ 65536) {x : Slot} (member : x ∈ flat d t) (physical : ext4ExtPblock x ≠ 0)
    (covered : covers x b) (aligned : pos % blockSize = 0) (number : pos / blockSize % 2^32 = b) (rest : Nat)
    (fits : access.fits ((ext4ExtPblock x + (b - x.eeBlock)) * blockSize) (min rest (blockSize * (extentStop x - b)))) :
    ∃ disk', access.content disk' = access.content disk ∧
      storePiece access disk blockSize (ext4ExtPblock x + (b - x.eeBlock)) (extentStop x - b) rest =
        some (slice (atBlock (access.content disk) blockSize (flat d t)) pos (min rest (blockSize * (extentStop x - b))),disk') := by
  obtain ⟨bytes,some_⟩ := extent_bytes positive small covered
  obtain ⟨disk',read,same⟩ := access.reads disk fits
  refine ⟨disk',same,?_⟩
  rw [storePiece_mapped (fun none_ => physical (Nat.add_eq_zero_iff.mp none_).1) positive bytes some_,read]
  refine congrArg some (congrArg (·,disk') (slice_congr _ _ _ _ _ fun i inside => ?_))
  exact (atBlock_extent wf last positive member covered aligned number (by omega)).2.symm

/-- Of `rest` bytes from `pos` on the loop stores `a` bytes of mapped blocks and then, from the
first hole on, `n` zeros. -/
structure Stored (blockSize : Nat) (hole : Nat → Prop) (pos rest a n : Nat) : Prop where
  mapped : ∀ i, i < a → ¬hole (pos + i)
  inside : a ≤ rest
  stop : a = rest ∧ n = 0 ∨ hole (pos + a) ∧ a < rest ∧ a % blockSize = 0 ∧
    n % blockSize = 0 ∧ rest ≤ a + n ∧ a + n < rest + blockSize

theorem Stored.nothing (blockSize : Nat) (hole : Nat → Prop) (pos : Nat) : Stored blockSize hole pos 0 0 0 :=
  ⟨fun i inside => absurd inside (Nat.not_lt_zero i),Nat.le_refl 0,Or.inl ⟨rfl,rfl⟩⟩

/-- A whole extent in front of what is stored. -/
theorem Stored.extent {blockSize : Nat} {hole : Nat → Prop} {pos rest a n len : Nat}
    (mapped : ∀ i, i < blockSize * len → ¬hole (pos + i)) (more : blockSize * len ≤ rest)
    (stored : Stored blockSize hole (pos + blockSize * len) (rest - blockSize * len) a n) :
    Stored blockSize hole pos rest (blockSize * len + a) n := by
  have inside := stored.inside
  refine ⟨fun i small => ?_,by omega,?_⟩
  · rcases Nat.lt_or_ge i (blockSize * len) with before | after
    · exact mapped i before
    · have later := stored.mapped (i - blockSize * len) (by omega)
      rwa [show pos + blockSize * len + (i - blockSize * len) = pos + i by omega] at later
  · rcases stored.stop with ⟨all,none_left⟩ | ⟨hole,less,whole,zeros,least,most⟩
    · exact Or.inl ⟨by omega,none_left⟩
    · refine Or.inr ⟨?_,by omega,?_,zeros,by omega,by omega⟩
      · rwa [← Nat.add_assoc]
      · rw [Nat.mul_add_mod,whole]

/-- The zeros come out even when there are none, or when the request ends at a block. -/
theorem Stored.whole {blockSize : Nat} {hole : Nat → Prop} {pos rest a n : Nat} (stored : Stored blockSize hole pos rest a n)
    (aligned : 0 < rest → pos % blockSize = 0) :
    a + n = rest ↔ (∀ k, pos ≤ k → k < pos + rest → ¬hole k) ∨ (pos + rest) % blockSize = 0 := by
  rcases stored.stop with ⟨all,none_left⟩ | ⟨here,less,data,zeros,enough,limit⟩
  · refine ⟨fun _ => Or.inl fun k least most => ?_,fun _ => by omega⟩
    have mapped := stored.mapped (k - pos) (by omega)
    rwa [show pos + (k - pos) = k by omega] at mapped
  · have even : blockSize ∣ a + n := Nat.dvd_add (Nat.dvd_of_mod_eq_zero data) (Nat.dvd_of_mod_eq_zero zeros)
    have start : blockSize ∣ pos := Nat.dvd_of_mod_eq_zero (aligned (by omega))
    constructor
    · rintro rfl
      exact Or.inr (Nat.mod_eq_zero_of_dvd (Nat.dvd_add start even))
    · rintro (mapped | ends)
      · exact absurd here (mapped _ (Nat.le_add_right _ _) (by omega))
      · have back : blockSize ∣ rest := (Nat.dvd_add_right start).mp (Nat.dvd_of_mod_eq_zero ends)
        have none_left := Nat.eq_zero_of_dvd_of_lt (Nat.dvd_sub even back) (by omega)
        omega

theorem Stored.congr {blockSize : Nat} {hole hole' : Nat → Prop} {pos rest a n : Nat} (stored : Stored blockSize hole pos rest a n)
    (same : ∀ k, pos ≤ k → k < pos + rest → (hole k ↔ hole' k)) : Stored blockSize hole' pos rest a n := by
  have inside := stored.inside
  refine ⟨fun i small => (same _ (by omega) (by omega)).not.mp (stored.mapped i small),inside,?_⟩
  exact stored.stop.imp_right fun ⟨hole,less,rest⟩ => ⟨(same _ (by omega) (by omega)).mp hole,less,rest⟩

/-- Every round that begins at a block in front of the first hole asks the disk for what fits. -/
def Served (access : Access σ) (blockSize : Nat) (extents : List Slot) (start stop : Nat) : Prop :=
  ∀ k, start ≤ k → k < stop → k % blockSize = 0 → (∀ h, start ≤ h → h ≤ k → ¬lookedHole blockSize extents h) →
    ∀ x ∈ extents, covers x (k / blockSize % 2^32) →
      access.fits ((ext4ExtPblock x + (k / blockSize % 2^32 - x.eeBlock)) * blockSize)
        (min (stop - k) (blockSize * (extentStop x - k / blockSize % 2^32)))

/-- A round asks for what is left of the extent, and the rounds behind it begin where the extent ends. -/
theorem served_extent {low high blockSize pos b stop : Nat} (wf : Wf d low t high) (last : high ≤ 2^32) (positive : 0 < blockSize)
    {x : Slot} (member : x ∈ flat d t) (covered : covers x b) (aligned : pos % blockSize = 0) (number : pos / blockSize % 2^32 = b)
    (more : pos < stop) : Served access blockSize (flat d t) pos stop ↔
      access.fits ((ext4ExtPblock x + (b - x.eeBlock)) * blockSize) (min (stop - pos) (blockSize * (extentStop x - b))) ∧
        Served access blockSize (flat d t) (pos + blockSize * (extentStop x - b)) stop := by
  have blocks {i : Nat} := @extent_blocks d t _ _ _ pos b i wf last positive x member covered aligned number
  have data {i : Nat} (inside : i < blockSize * (extentStop x - b)) : ¬lookedHole blockSize (flat d t) (pos + i) := by
    obtain ⟨quotient,here,_⟩ := blocks inside
    exact fun hole => hole x member (by rwa [quotient])
  constructor
  · intro served
    have first := served pos (Nat.le_refl _) more aligned
    rw [number] at first
    refine ⟨first ?_ x member covered,fun k least most whole front => served k (by omega) most whole fun h near behind => ?_⟩
    · intro h near behind
      obtain rfl := Nat.le_antisymm behind near
      exact data (i := 0) (Nat.mul_pos positive (Nat.sub_pos_of_lt covered.2))
    · rcases Nat.lt_or_ge h (pos + blockSize * (extentStop x - b)) with inside | beyond
      · have mapped := data (i := h - pos) (by omega)
        rwa [Nat.add_sub_cancel' near] at mapped
      · exact front h beyond behind
  · rintro ⟨fits,rest⟩ k least most whole front y other both
    rcases Nat.lt_or_ge k (pos + blockSize * (extentStop x - b)) with inside | beyond
    · obtain ⟨quotient,here,remainder⟩ := blocks (i := k - pos) (by omega)
      rw [Nat.add_sub_cancel' least] at quotient remainder
      rw [quotient] at both ⊢
      obtain rfl := covers_unique wf member other here both
      have parts := Nat.div_add_mod (k - pos) blockSize
      rw [← remainder,whole,Nat.add_zero] at parts
      have start := covered.1
      have later := access.behind fits (i := k - pos) (by omega)
      generalize (k - pos) / blockSize = j at parts here
      have inner := here.2
      have place : (ext4ExtPblock y + (b + j - y.eeBlock)) * blockSize =
          (ext4ExtPblock y + (b - y.eeBlock)) * blockSize + (k - pos) := by
        rw [← parts,Nat.mul_comm blockSize,← Nat.add_mul]
        congr 1
        omega
      have count : min (stop - k) (blockSize * (extentStop y - (b + j))) =
          min (stop - pos) (blockSize * (extentStop y - b)) - (k - pos) := by
        rw [← Nat.sub_sub,Nat.mul_sub,parts]
        omega
      rwa [place,count]
    · exact rest k beyond most whole (fun h near => front h (by omega)) y other both

/-- What the loop stores when the disk serves it. -/
theorem readLoop_stored (tree : HasTree s d t) (small : s.volume.superBlock.sLogBlockSize.toNat ≤ 6)
    (physical : ∀ x ∈ flat d t, ext4ExtPblock x ≠ 0) {blockSize : Nat} (blocks : superBlockSize s.volume.superBlock = blockSize)
    (rounds lblock pos : Nat) (aligned : pos % blockSize = 0) (number : pos / blockSize % 2^32 = lblock)
    (stored : List UInt8) (enough : size ≤ rounds + stored.length) :
    (¬Served access blockSize (flat d t) pos (pos + (size - stored.length)) →
      readLoop access size (rounds + 1) lblock s disk stored = none) ∧
    (Served access blockSize (flat d t) pos (pos + (size - stored.length)) → ∃ s' disk' a n, Same s s' ∧
      access.content disk' = access.content disk ∧
      Stored blockSize (lookedHole blockSize (flat d t)) pos (size - stored.length) a n ∧
      readLoop access size (rounds + 1) lblock s disk stored = some (s',disk',stored ++
        (slice (atBlock (access.content disk) blockSize (flat d t)) pos a ++ List.replicate n 0))) := by
  have most := superBlockSize_le small
  have least := superBlockSize_ge small
  rw [blocks] at most least
  have positive : 0 < blockSize := by omega
  induction rounds generalizing s disk lblock pos stored with
  | zero =>
    rw [Nat.sub_eq_zero_of_le (by omega : size ≤ stored.length)]
    refine ⟨fun lost => absurd (fun k least most => by omega) lost,fun _ => ⟨s,disk,0,0,Same.refl s,rfl,Stored.nothing _ _ _,?_⟩⟩
    rw [readLoop_done 0 lblock s disk (by omega),slice_zero,List.replicate_zero,List.append_nil,List.append_nil]
  | succ rounds ih =>
    rcases Nat.lt_or_ge stored.length size with more | done
    · have bound : lblock < 2^32 := number ▸ Nat.mod_lt _ (by decide)
      rcases Classical.em (∃ x ∈ flat d t, covers x lblock) with ⟨x,member,covered⟩ | hole
      · obtain ⟨s₁,same,found⟩ := inodeGetDataPblock_lookup tree bound (some 1)
        have short : extentStop x - lblock ≤ extInitMaxLen := by
          have := covered.1
          have := actualLen_le x
          unfold extentStop extInitMaxLen
          omega
        rw [lookup_mapped extInitMaxLen member covered fun y other both => covers_unique tree.wf member other covered both,
          Nat.min_eq_left short] at found
        have round := @readLoop_more _ access disk size _ _ _ _ _ stored (rounds + 1) more found
        rw [blocks] at round
        have data (i : Nat) (inside : i < blockSize * (extentStop x - lblock)) :
            ¬lookedHole blockSize (flat d t) (pos + i) :=
          (@atBlock_extent d t (access.content disk) _ _ _ _ _ _ tree.wf (Nat.le_refl _) positive _ member covered aligned number
            inside).1
        have served := @served_extent _ access d t _ _ _ _ _ (pos + (size - stored.length)) tree.wf (Nat.le_refl _) positive _ member
          covered aligned number (by omega)
        rw [Nat.add_sub_cancel_left] at served
        obtain ⟨bytes,some_⟩ := extent_bytes positive most covered
        rcases Classical.em (access.fits ((ext4ExtPblock x + (lblock - x.eeBlock)) * blockSize)
          (min (size - stored.length) (blockSize * (extentStop x - lblock)))) with fits | lost
        · obtain ⟨disk₁,kept,piece⟩ := @storePiece_extent _ _ disk _ _ _ _ _ _ _ tree.wf (Nat.le_refl _) positive most x member
            (physical x member) covered aligned number _ fits
          rw [piece,Option.bind_some] at round
          rw [and_iff_right fits] at served
          rw [served,round]
          generalize extentStop x - lblock = len at *
          rcases Nat.lt_or_ge (blockSize * len) (size - stored.length) with longer | last
          · rw [Nat.min_eq_right (Nat.le_of_lt longer)]
            have rest := @ih s₁ disk₁ (same.hasTree tree) (by rw [same.volume]; exact small)
              (by rw [same.volume]; exact blocks) (u32 (lblock + len : Nat)) (pos + blockSize * len)
              (by rw [Nat.add_mul_mod_self_left,aligned])
              (by rw [Nat.add_mul_div_left _ _ positive,u32_cast]; omega)
              (stored ++ slice (atBlock (access.content disk) blockSize (flat d t)) pos (blockSize * len))
              (by rw [List.length_append,slice_length]; omega)
            rw [List.length_append,slice_length,show pos + blockSize * len + (size - (stored.length + blockSize * len)) =
              pos + (size - stored.length) by omega,show size - (stored.length + blockSize * len) =
              size - stored.length - blockSize * len by omega,kept] at rest
            refine ⟨rest.1,fun serves => ?_⟩
            obtain ⟨s',disk',a,n,same',kept',stores,result⟩ := rest.2 serves
            refine ⟨s',disk',blockSize * len + a,n,same.trans same',kept',Stored.extent data (Nat.le_of_lt longer) stores,?_⟩
            rw [result,slice_add,List.append_assoc,List.append_assoc]
          · rw [Nat.min_eq_left last,readLoop_done rounds _ s₁ disk₁ (by rw [List.length_append,slice_length]; omega)]
            refine ⟨fun lost => absurd (fun k least most => by omega) lost,fun _ => ?_⟩
            refine ⟨s₁,disk₁,size - stored.length,0,same,kept,⟨fun i inside => data i (by omega),Nat.le_refl _,Or.inl ⟨rfl,rfl⟩⟩,?_⟩
            rw [List.replicate_zero,List.append_nil]
        · refine ⟨fun _ => ?_,fun serves => absurd (served.mp serves).1 lost⟩
          rw [round,storePiece_mapped (fun none_ => physical x member (Nat.add_eq_zero_iff.mp none_).1) positive bytes some_,
            access.unread disk lost,Option.bind_none]
      · have hole' : ∀ x ∈ flat d t, ¬covers x lblock := fun x member covered => hole ⟨x,member,covered⟩
        have looked : lookedHole blockSize (flat d t) pos := fun x member => by
          rw [number]
          exact hole' x member
        obtain ⟨s',n,same,result,enough',whole,_,limit⟩ := @readLoop_hole _ access s disk d t _ tree _ bound hole'
          (by rw [blocks]; exact positive) (rounds + 1) stored enough
        rw [blocks] at whole limit
        refine ⟨fun lost => absurd (fun k least _ _ front => absurd looked (front pos (Nat.le_refl _) least)) lost,fun _ => ?_⟩
        refine ⟨s',disk,0,n,same,rfl,⟨fun i inside => absurd inside (Nat.not_lt_zero i),Nat.zero_le _,Or.inr ?_⟩,?_⟩
        · exact ⟨looked,by omega,Nat.zero_mod _,whole,by omega,by omega⟩
        · rw [result,slice_zero,List.nil_append]
    · rw [Nat.sub_eq_zero_of_le done,readLoop_done (rounds + 1) lblock s disk done]
      refine ⟨fun lost => absurd (fun k least most => by omega) lost,fun _ => ⟨s,disk,0,0,Same.refl s,rfl,Stored.nothing _ _ _,?_⟩⟩
      rw [slice_zero,List.replicate_zero,List.append_nil,List.append_nil]

end Loop

/-! The first piece. -/

/-- How many bytes of a request come before its first block boundary. -/
def firstLength (blockSize size offset : Nat) : Nat :=
  if offset % blockSize = 0 then 0 else min size (blockSize - offset % blockSize)

/-- An unaligned request of more than one block that begins at 2^32 or above. -/
def highStart (blockSize size offset : Nat) : Prop :=
  offset % blockSize ≠ 0 ∧ blockSize < offset % blockSize + size ∧ 2^32 ≤ offset

section First
variable {device : Nat → UInt8} {s : State} {d : Nat} {t : Tree d} {size offset blockSize : Nat} {σ : Type} {access : Access σ} {disk : σ}

theorem atBlock_hole {k : Nat} (hole : lookedHole blockSize (flat d t) k) :
    atBlock device blockSize (flat d t) k = device (k % blockSize) := by
  rw [atBlock,lookup_hole extInitMaxLen hole,Nat.zero_mul,Nat.zero_add]

/-- A byte of a mapped block of the file. -/
theorem atBlock_covered {low high : Nat} (wf : Wf d low t high) (last : high ≤ 2^32) {k : Nat} {x : Slot} (member : x ∈ flat d t)
    (covered : covers x (k / blockSize)) : atBlock device blockSize (flat d t) k =
      device ((ext4ExtPblock x + (k / blockSize - x.eeBlock)) * blockSize + k % blockSize) := by
  have stop := (wf_bounds wf member).2.2
  have := covered.2
  rw [atBlock,Nat.mod_eq_of_lt (show k / blockSize < 2^32 by generalize k / blockSize = b at *; omega),
    lookup_mapped extInitMaxLen member covered fun y other both => covers_unique wf member other covered both]

theorem atBlock_mapped {low high : Nat} (wf : Wf d low t high) (last : high ≤ 2^32)
    (written : ∀ x ∈ flat d t, ext4ExtIsUnwritten x = false)
    (positive : 0 < blockSize) {k : Nat} (mapped : ¬inHole blockSize (flat d t) k) :
    atBlock device blockSize (flat d t) k = content blockSize device (flat d t) k := by
  obtain ⟨x,found⟩ := not_forall.mp mapped
  obtain ⟨member,covered⟩ := Classical.not_imp.mp found
  rw [not_not] at covered
  have rest := (content_extent wf positive device member (written x member) (i := k % blockSize) covered (by
    have inside := Nat.mod_lt k positive
    have blocks := Nat.mul_le_mul_right blockSize (Nat.sub_pos_of_lt covered.2)
    omega)).2
  rw [Nat.mul_comm (k / blockSize),Nat.div_add_mod] at rest
  rw [rest,atBlock_covered wf last member covered]

/-- How much of an unaligned request `first_read` reads, and `first_write` writes. -/
def firstSize (blockSize size offset : Nat) : Nat :=
  let endLblock := u32 (u64 (offset + u64 (size - 1 : Int) : Nat) / blockSize : Nat)
  let startLblock := u32 (offset / blockSize : Nat)
  if startLblock = endLblock then size else u64 (alignToBlocksize blockSize offset - offset : Int)

theorem firstSize_low {k : Nat} (power : blockSize = 2^k) (bits : k ≤ 16) (place : offset < 2^63) (short : size < 2^31)
    (some_ : size ≠ 0) (unaligned : offset % blockSize ≠ 0) (low : ¬highStart blockSize size offset) :
    firstSize blockSize size offset = firstLength blockSize size offset := by
  have positive : 0 < blockSize := power ▸ Nat.two_pow_pos k
  have off := Nat.mod_lt offset positive
  have within := endLblock_same positive some_ short place
  unfold firstSize firstLength
  rw [if_neg unaligned]
  rcases Nat.lt_or_ge blockSize (offset % blockSize + size) with crosses | inside
  · have near : offset < 2^32 := Nat.not_le.mp fun high => low ⟨unaligned,crosses,high⟩
    rw [if_neg fun same => absurd (within.mp same) (by omega),align_rest_low power bits near unaligned]
    omega
  · rw [if_pos (within.mpr inside)]
    omega

/-- The rounding of the offset loses its high bits. -/
theorem firstSize_high {k : Nat} (power : blockSize = 2^k) (bits : k ≤ 16) (place : offset < 2^63) (short : size < 2^31)
    (some_ : size ≠ 0) (high : highStart blockSize size offset) : 2^63 ≤ firstSize blockSize size offset := by
  obtain ⟨unaligned,crosses,above⟩ := high
  have within := endLblock_same (power ▸ Nat.two_pow_pos k) some_ short place
  have rest := align_rest_high power bits above place unaligned
  unfold firstSize
  rwa [if_neg fun same => absurd (within.mp same) (by omega)]

theorem firstRead_unaligned {s' : State} {startPblock len : Nat} (blocks : superBlockSize s.volume.superBlock = blockSize)
    (some_ : size ≠ 0) (unaligned : offset % blockSize ≠ 0)
    (found : inodeGetDataPblock s (u32 (offset / blockSize : Nat)) none false = some (s',startPblock,len)) :
    firstRead access s disk size offset =
      (access.read disk (startPblock * blockSize + offset % blockSize) (firstSize blockSize size offset)).map fun r => (s',r.2,r.1) := by
  unfold firstRead firstSize
  simp only [blocks,found,Option.bind_eq_bind,Option.bind_some]
  rw [if_neg some_,if_neg unaligned]
  split
  · cases access.read disk (startPblock * blockSize + offset % blockSize) size <;> rfl
  · cases access.read disk (startPblock * blockSize + offset % blockSize) (u64 (alignToBlocksize blockSize offset - offset : Int)) <;> rfl

/-- `first_read` asks for more than any buffer holds when the rounding of the offset loses its high bits. -/
theorem firstRead_first (serves : access.Blocks blockSize) (tree : HasTree s d t)
    (small : s.volume.superBlock.sLogBlockSize.toNat ≤ 6)
    (blocks : superBlockSize s.volume.superBlock = blockSize) (short : size < 2^31) (place : offset < 2^63) :
    (highStart blockSize size offset → firstRead access s disk size offset = none) ∧
      (¬highStart blockSize size offset → ∃ s' disk', Same s s' ∧ access.content disk' = access.content disk ∧
        firstRead access s disk size offset =
          some (s',disk',slice (atBlock (access.content disk) blockSize (flat d t)) offset (firstLength blockSize size offset))) := by
  have least := superBlockSize_ge small
  have power := superBlockSize_eq small
  have bits : superBlockSizeBits s.volume.superBlock ≤ 16 := by
    unfold superBlockSizeBits
    omega
  rw [blocks] at least power
  have positive : 0 < blockSize := by omega
  rcases Classical.em (size = 0 ∨ offset % blockSize = 0) with nothing | piece
  · have none_ : firstLength blockSize size offset = 0 := by
      rw [firstLength]
      split
      · rfl
      · rw [nothing.resolve_right (by assumption),Nat.zero_min]
    have low : ¬highStart blockSize size offset := by
      rintro ⟨unaligned,crosses,_⟩
      have := Nat.mod_lt offset positive
      have := nothing.resolve_right unaligned
      omega
    refine ⟨fun high => absurd high low,fun _ => ⟨s,disk,Same.refl s,rfl,?_⟩⟩
    rw [none_,slice_zero]
    unfold firstRead
    simp only [blocks]
    rcases nothing with zero | aligned
    · rw [if_pos zero]
      rfl
    · rw [if_pos aligned]
      split <;> rfl
  · obtain ⟨some_,unaligned⟩ := not_or.mp piece
    obtain ⟨s',same,found⟩ := inodeGetDataPblock_lookup tree (Nat.mod_lt (offset / blockSize) (by decide)) none
    rw [← u32_cast] at found
    generalize answer : lookup (flat d t) extInitMaxLen (u32 (offset / blockSize : Nat)) = result at found
    obtain ⟨startPblock,len⟩ := result
    rw [firstRead_unaligned blocks some_ unaligned found]
    constructor
    · intro high
      have long := firstSize_high power bits place short some_ high
      rw [access.unread disk fun fits => by have := access.short fits; omega,Option.map_none]
    · intro low
      rw [firstSize_low power bits place short some_ unaligned low]
      have off := Nat.mod_lt offset positive
      have inside : offset % blockSize + firstLength blockSize size offset ≤ blockSize := by
        rw [firstLength,if_neg unaligned]
        omega
      obtain ⟨disk',read,kept⟩ := access.reads disk (serves (startPblock * blockSize + offset % blockSize)
        (firstLength blockSize size offset) (by omega))
      refine ⟨s',disk',same,kept,?_⟩
      rw [read,Option.map_some]
      refine congrArg (fun bytes => some (s',disk',bytes)) (slice_congr _ _ _ _ _ fun i below => ?_)
      have block := (same_block positive offset i).mpr (by omega)
      have parts := Nat.div_add_mod offset blockSize
      have parts' := Nat.div_add_mod (offset + i) blockSize
      rw [← block] at parts'
      rw [atBlock,← block,Nat.add_assoc,← u32_cast,answer]
      refine congrArg (access.content disk) (congrArg (startPblock * blockSize + ·) ?_)
      omega

end First

/-- What is left behind the first piece begins at a block. -/
theorem firstLength_aligned {size offset blockSize : Nat} (positive : 0 < blockSize)
    (more : firstLength blockSize size offset < size) : (offset + firstLength blockSize size offset) % blockSize = 0 := by
  unfold firstLength at more ⊢
  split at more
  · rename_i aligned
    rw [if_pos aligned]
    exact aligned
  · rename_i unaligned
    have parts := Nat.div_add_mod offset blockSize
    have off := Nat.mod_lt offset positive
    rw [if_neg unaligned,Nat.min_eq_right (by omega),show offset + (blockSize - offset % blockSize) =
      blockSize * (offset / blockSize) + blockSize by omega,Nat.add_mod_right,Nat.mul_mod_right]

theorem firstLength_le (blockSize size offset : Nat) : firstLength blockSize size offset ≤ size := by
  unfold firstLength
  split
  · exact Nat.zero_le _
  · exact Nat.min_le_left _ _

/-! The whole call. -/

/-- An inode with a well-formed tree of initialised extents, none at block 0, and a size
that 32-bit block numbers reach. -/
structure Readable (s : State) (d : Nat) (t : Tree d) : Prop where
  tree : HasTree s d t
  small : s.volume.superBlock.sLogBlockSize.toNat ≤ 6
  written : ∀ x ∈ flat d t, ext4ExtIsUnwritten x = false
  physical : ∀ x ∈ flat d t, ext4ExtPblock x ≠ 0
  fits : inodeGetSize s.inode ≤ 2^32 * superBlockSize s.volume.superBlock

/-- A count below 2^31 ends within the file. -/
theorem truncateSize_inside {inode : Inode} {size offset : Nat} (short : truncateSize inode size offset < 2^31) (place : offset < 2^63)
    (some_ : truncateSize inode size offset ≠ 0) : offset + truncateSize inode size offset ≤ inodeGetSize inode := by
  have low := inode.rawInode.iSizeLo.toNat_lt
  have high := inode.rawInode.iSizeHigh.toNat_lt
  have bound : inodeGetSize inode < 2^64 := by
    unfold inodeGetSize
    omega
  have wrapped : u64 (offset + size : Nat) = (offset + size) % 2^64 := by
    unfold u64
    omega
  generalize count : truncateSize inode size offset = n at *
  rw [truncateSize] at count
  split at count
  · exact absurd count.symm some_
  · split at count
    · rw [show (inodeGetSize inode - offset : Int) = ((inodeGetSize inode - offset : Nat) : Int) by omega,u64_small _ (by omega)] at count
      omega
    · omega

section Call
variable {σ : Type} {access : Access σ} {disk : σ} {s : State} {d : Nat} {t : Tree d} {size offset blockSize count start : Nat}

/-- What `op_read` stores when the disk serves it: the first piece, the blocks up to the first hole, and zeros. -/
theorem opRead_result (serves : access.Blocks blockSize) (tree : HasTree s d t) (small : s.volume.superBlock.sLogBlockSize.toNat ≤ 6)
    (physical : ∀ x ∈ flat d t, ext4ExtPblock x ≠ 0) (blocks : superBlockSize s.volume.superBlock = blockSize)
    (truncated : truncateSize s.inode size offset = count) (short : count < 2^31) (place : offset < 2^63)
    (boundary : offset + firstLength blockSize count offset = start) :
    (highStart blockSize count offset → opRead access s disk size offset = none) ∧
    (¬Served access blockSize (flat d t) start (offset + count) → opRead access s disk size offset = none) ∧
    (¬highStart blockSize count offset → Served access blockSize (flat d t) start (offset + count) → ∃ s' disk' a n, Same s s' ∧
      access.content disk' = access.content disk ∧
      Stored blockSize (lookedHole blockSize (flat d t)) start (offset + count - start) a n ∧
      opRead access s disk size offset = if a + n = offset + count - start then
        some (s',disk',slice (atBlock (access.content disk) blockSize (flat d t)) offset (start - offset + a) ++ List.replicate n 0)
          else none) := by
  obtain ⟨high,low⟩ := @firstRead_first s d t _ _ _ _ access disk serves tree small blocks short place
  have least := superBlockSize_ge small
  rw [blocks] at least
  have positive : 0 < blockSize := by omega
  have lengths := firstLength_le blockSize count offset
  have lost : highStart blockSize count offset → opRead access s disk size offset = none := fun condition => by
    unfold opRead
    simp only [truncated,high condition]
    rfl
  rcases Classical.em (highStart blockSize count offset) with condition | condition
  · exact ⟨lost,fun _ => lost condition,fun inner => absurd condition inner⟩
  obtain ⟨s₁,disk₁,same,kept,first⟩ := low condition
  have blocks₁ : superBlockSize s₁.volume.superBlock = blockSize := by rw [same.volume]; exact blocks
  generalize bytes : slice (atBlock (access.content disk) blockSize (flat d t)) offset (firstLength blockSize count offset) = stored at first
  have length : stored.length = firstLength blockSize count offset := by rw [← bytes,slice_length]
  have loop : (¬Served access blockSize (flat d t) start (offset + count) →
      readLoop access count (count + 1) (start / blockSize % 2^32) s₁ disk₁ stored = none) ∧
      (Served access blockSize (flat d t) start (offset + count) → ∃ s' disk' a n, Same s s' ∧
        access.content disk' = access.content disk ∧
        Stored blockSize (lookedHole blockSize (flat d t)) start (offset + count - start) a n ∧
        readLoop access count (count + 1) (start / blockSize % 2^32) s₁ disk₁ stored = some (s',disk',stored ++
          (slice (atBlock (access.content disk) blockSize (flat d t)) start a ++ List.replicate n 0))) := by
    rcases Nat.lt_or_ge (firstLength blockSize count offset) count with more | done
    · have aligned := firstLength_aligned positive more
      rw [boundary] at aligned
      have result := @readLoop_stored _ access s₁ disk₁ d t count (same.hasTree tree) (by rw [same.volume]; exact small) physical _
        blocks₁ count (start / blockSize % 2^32) start aligned rfl stored (by omega)
      rw [length,show start + (count - firstLength blockSize count offset) = offset + count by omega,
        show count - firstLength blockSize count offset = offset + count - start by omega,kept] at result
      refine ⟨result.1,fun served => ?_⟩
      obtain ⟨s',disk',a,n,same',kept',stores,run⟩ := result.2 served
      exact ⟨s',disk',a,n,same.trans same',kept',stores,run⟩
    · refine ⟨fun lost => absurd (fun k least most => by omega) lost,fun _ => ⟨s₁,disk₁,0,0,same,kept,?_,?_⟩⟩
      · rw [show offset + count - start = 0 by omega]
        exact Stored.nothing _ _ _
      · rw [readLoop_done _ _ _ _ (by omega),slice_zero,List.replicate_zero,List.append_nil,List.append_nil]
  have run : opRead access s disk size offset = (readLoop access count (count + 1) (start / blockSize % 2^32) s₁ disk₁ stored).bind
      fun r => if r.2.2.length = count then some r else none := by
    unfold opRead
    simp only [truncated,first,Option.bind_eq_bind,Option.bind_some,length,boundary,blocks₁,u32_cast]
    rfl
  refine ⟨lost,fun unserved => ?_,fun _ served => ?_⟩
  · rw [run,loop.1 unserved,Option.bind_none]
  · obtain ⟨s',disk',a,n,same',kept',stores,result⟩ := loop.2 served
    refine ⟨s',disk',a,n,same',kept',stores,?_⟩
    rw [run,result,Option.bind_some]
    simp only [List.length_append,List.length_replicate,slice_length,length]
    rw [show start - offset = firstLength blockSize count offset by omega,slice_add,boundary,bytes,List.append_assoc]
    refine if_congr ?_ rfl rfl
    omega

/-- The stored bytes, read off one after another. -/
theorem stored_slice (raw : Nat → UInt8) {stop a n : Nat} (order : offset ≤ start) (ends : a + n = stop - start) :
    slice raw offset (start - offset + a) ++ List.replicate n 0 =
      slice (fun k => if k < start + a then raw k else 0) offset (start - offset + (a + n)) := by
  rw [← Nat.add_assoc,slice_add _ offset (start - offset + a)]
  congr 1
  · exact slice_congr _ _ _ _ _ fun i inside => (if_pos (by omega)).symm
  · rw [List.eq_replicate_iff.mpr ⟨slice_length _ _ _,fun b member => ?_⟩]
    obtain ⟨i,inside,rfl⟩ := List.getElem_of_mem member
    rw [slice_getElem,if_neg (by omega)]

/-- The bytes of a call that returns. -/
theorem opRead_bytes {s' : State} {disk' : σ} {bytes : List UInt8} (serves : access.Blocks blockSize) (tree : HasTree s d t)
    (small : s.volume.superBlock.sLogBlockSize.toNat ≤ 6) (physical : ∀ x ∈ flat d t, ext4ExtPblock x ≠ 0)
    (blocks : superBlockSize s.volume.superBlock = blockSize) (truncated : truncateSize s.inode size offset = count)
    (short : count < 2^31) (place : offset < 2^63) (boundary : offset + firstLength blockSize count offset = start)
    (returned : opRead access s disk size offset = some (s',disk',bytes)) : ∃ a n, Same s s' ∧
      access.content disk' = access.content disk ∧
      Stored blockSize (lookedHole blockSize (flat d t)) start (offset + count - start) a n ∧ a + n = offset + count - start ∧
      bytes = slice (fun k => if k < start + a then atBlock (access.content disk) blockSize (flat d t) k else 0) offset count := by
  obtain ⟨lost,unserved,kept⟩ := @opRead_result σ access disk _ _ _ _ _ _ _ _ serves tree small physical blocks truncated short place boundary
  have inner : ¬highStart blockSize count offset := fun high => by
    rw [lost high] at returned
    cases returned
  have served : Served access blockSize (flat d t) start (offset + count) := by
    by_contra never
    rw [unserved never] at returned
    cases returned
  obtain ⟨s₁,disk₁,a,n,same,content,stored,result⟩ := kept inner served
  have lengths := firstLength_le blockSize count offset
  rw [result] at returned
  split at returned
  · rename_i ends
    rw [stored_slice _ (by omega) ends,show start - offset + (a + n) = count by omega] at returned
    obtain ⟨rfl,both⟩ := Prod.mk.inj (Option.some.inj returned)
    obtain ⟨rfl,rfl⟩ := Prod.mk.inj both
    exact ⟨a,n,same,content,stored,ends,rfl⟩
  · cases returned

end Call

section Content
variable (device : Nat → UInt8)

/-- Each byte that is returned is the file's, when the disk is read exactly. -/
def Answers (s : State) (extents : List Slot) (size offset : Nat) : Prop :=
  ∀ s' device' bytes, opRead exact s device size offset = some (s',device',bytes) → ∀ i (inside : i < bytes.length),
    bytes[i] = content (superBlockSize s.volume.superBlock) device extents (offset + i)

/-- The call does not return: a first piece whose end is lost in the rounding, or a hole
behind the first piece and an end inside a block. -/
def givesUp (blockSize : Nat) (extents : List Slot) (count offset : Nat) : Prop :=
  highStart blockSize count offset ∨
    (∃ k, offset + firstLength blockSize count offset ≤ k ∧ k < offset + count ∧ inHole blockSize extents k) ∧
      (offset + count) % blockSize ≠ 0

/-- Where the first piece lies in a hole, block 0 holds zeros, and from the first hole behind
it on so does the file. -/
def zerosAgree (blockSize : Nat) (extents : List Slot) (count offset : Nat) : Prop :=
  (∀ k, offset ≤ k → k < offset + firstLength blockSize count offset → inHole blockSize extents k →
    device (k % blockSize) = 0) ∧
  ∀ h k, offset + firstLength blockSize count offset ≤ h → h ≤ k → k < offset + count → inHole blockSize extents h →
    content blockSize device extents k = 0

theorem slice_bytes {α β : Type} (s : α) (device : β) (f c : Nat → UInt8) (offset count : Nat) :
    (∀ s' device' bytes, some (s,device,slice f offset count) = some (s',device',bytes) →
      ∀ i (inside : i < bytes.length), bytes[i] = c (offset + i)) ↔ ∀ k, offset ≤ k → k < offset + count → f k = c k := by
  constructor
  · intro all k least most
    have byte := all s device _ rfl (k - offset) (by rw [slice_length]; omega)
    rw [slice_getElem] at byte
    rwa [show offset + (k - offset) = k by omega] at byte
  · rintro all s' device' bytes equal i inside
    obtain ⟨_,rfl⟩ := Prod.mk.inj (Prod.mk.inj (Option.some.inj equal)).2
    rw [slice_getElem]
    rw [slice_length] at inside
    exact all _ (by omega) (by omega)

/-- The stored bytes are right when block 0 and the file agree with the zeros. -/
theorem parts_agree {hole : Nat → Prop} {blockSize offset start stop a n : Nat} {raw file : Nat → UInt8}
    (stored : Stored blockSize hole start (stop - start) a n) (order : offset ≤ start) (last : start ≤ stop)
    (empty : ∀ k, offset ≤ k → k < stop → hole k → raw k = device (k % blockSize) ∧ file k = 0)
    (mapped : ∀ k, offset ≤ k → k < stop → ¬hole k → raw k = file k) :
    (∀ k, offset ≤ k → k < stop → (if k < start + a then raw k else 0) = file k) ↔
      (∀ k, offset ≤ k → k < start → hole k → device (k % blockSize) = 0) ∧
        ∀ h k, start ≤ h → h ≤ k → k < stop → hole h → file k = 0 := by
  have inside := stored.inside
  constructor
  · intro right
    refine ⟨fun k least before here => ?_,fun h k least order' most here => ?_⟩
    · have byte := right k least (by omega)
      rw [if_pos (by omega),(empty k least (by omega) here).1,(empty k least (by omega) here).2] at byte
      exact byte
    · have late : start + a ≤ h := by
        by_contra early
        have data := stored.mapped (h - start) (by omega)
        rw [show start + (h - start) = h by omega] at data
        exact data here
      have byte := right k (by omega) most
      rw [if_neg (by omega)] at byte
      exact byte.symm
  · rintro ⟨front,back⟩ k least most
    split
    · rename_i early
      rcases Classical.em (hole k) with here | data
      · have before : k < start := by
          by_contra behind
          have data := stored.mapped (k - start) (by omega)
          rw [show start + (k - start) = k by omega] at data
          exact data here
        rw [(empty k least most here).1,(empty k least most here).2]
        exact front k least before here
      · exact mapped k least most data
    · rcases stored.stop with ⟨all,_⟩ | ⟨here,_⟩
      · omega
      · exact (back (start + a) k (Nat.le_add_right _ _) (by omega) most here).symm

/-- An exact disk serves every request. -/
theorem served_exact {blockSize start stop : Nat} {extents : List Slot} (short : stop - start < 2^31) :
    Served exact blockSize extents start stop :=
  fun _ least _ _ _ _ _ _ => Nat.lt_of_le_of_lt (Nat.min_le_left _ _) (by omega)

theorem opRead_content_iff {s : State} {d : Nat} {t : Tree d} {size offset : Nat} (readable : Readable s d t)
    (request : truncateSize s.inode size offset < 2^31) (place : offset < 2^63) : Answers device s (flat d t) size offset ↔
      givesUp (superBlockSize s.volume.superBlock) (flat d t) (truncateSize s.inode size offset) offset ∨
        zerosAgree device (superBlockSize s.volume.superBlock) (flat d t) (truncateSize s.inode size offset) offset := by
  unfold Answers givesUp zerosAgree
  have reach := @truncateSize_inside s.inode size offset request place
  have fits := readable.fits
  have least := superBlockSize_ge readable.small
  have result := @opRead_result _ exact device _ _ _ _ _ _ _ _ (exact_blocks (superBlockSize_le readable.small)) readable.tree
    readable.small readable.physical rfl rfl request place rfl
  generalize superBlockSize s.volume.superBlock = blockSize at *
  generalize truncateSize s.inode size offset = count at *
  have positive : 0 < blockSize := by omega
  have lengths := firstLength_le blockSize count offset
  have low (k : Nat) (least : offset ≤ k) (before : k < offset + count) :
      lookedHole blockSize (flat d t) k ↔ inHole blockSize (flat d t) k := by
    have := reach (by omega)
    exact lookedHole_low (by omega)
  have aligned (more : firstLength blockSize count offset < count) := firstLength_aligned positive more
  generalize first : offset + firstLength blockSize count offset = start at *
  obtain ⟨lost,_,kept⟩ := result
  rcases Classical.em (highStart blockSize count offset) with high | inner
  · refine ⟨fun _ => Or.inl (Or.inl high),fun _ s' device' bytes returned => ?_⟩
    rw [lost high] at returned
    nomatch returned
  · obtain ⟨s',device',a,n,_,_,stored,result⟩ := kept inner (served_exact (by omega))
    rw [exact_content] at result
    replace stored := stored.congr fun k least before => low k (by omega) (by omega)
    have whole := stored.whole fun more => aligned (by omega)
    rw [show start + (offset + count - start) = offset + count by omega] at whole
    rcases eq_or_ne (a + n) (offset + count - start) with ends | beyond
    · rw [result,if_pos ends,stored_slice _ (by omega) ends,show start - offset + (a + n) = count by omega,slice_bytes,
        parts_agree device stored (by omega) (by omega)
          (fun k least before empty => ⟨atBlock_hole ((low k least before).mpr empty),content_hole device empty⟩)
          fun k _ _ data => atBlock_mapped readable.tree.wf (Nat.le_refl _) readable.written positive data]
      refine ⟨Or.inr,fun either => either.resolve_left ?_⟩
      rintro (high | ⟨⟨k,least,most,empty⟩,inside⟩)
      · exact inner high
      · exact (whole.mp ends).elim (fun mapped => mapped k least most empty) inside
    · refine ⟨fun _ => Or.inl (Or.inr ?_),fun _ s'' device'' bytes returned => ?_⟩
      · obtain ⟨somewhere,inside⟩ := not_or.mp (mt whole.mpr beyond)
        refine ⟨?_,inside⟩
        by_contra nowhere
        exact somewhere fun k least most empty => nowhere ⟨k,least,most,empty⟩
      · rw [result,if_neg beyond] at returned
        nomatch returned

end Content

/-- A file of two blocks of which only the second is mapped, to block 100. -/
def sparseFile : State where
  volume := Alloc.oneFree
  inode := ⟨12,false,⟨2048,0,2,0,0,⟨0xf30a,1,4,0,fun _ => ⟨1,1,100⟩⟩⟩⟩
  node := fun _ => ⟨0,0,0,0,fun _ => ⟨0,0,0⟩⟩
  verified := fun _ => false
  count := fun _ => 0

def sparseTree : Tree 0 := [(⟨1,1,100⟩ : Slot)]

theorem sparseFile_readable : Readable sparseFile 0 sparseTree := by
  refine ⟨⟨⟨⟨rfl,rfl,rfl,by decide,by decide,by decide⟩,?_⟩,List.nodup_nil,?_,Or.inl rfl⟩,by decide,?_,?_,by decide⟩
  · intro i x here
    obtain ⟨inside,rfl⟩ := List.getElem?_eq_some_iff.mp here
    have first : i = 0 := Nat.lt_one_iff.mp inside
    subst first
    rfl
  · exact ⟨1,2,by decide,⟨by decide,by decide,by decide⟩,(by decide : 2 ≤ 2^32)⟩
  · exact fun x member => by rw [List.mem_singleton.mp member]; decide
  · exact fun x member => by rw [List.mem_singleton.mp member]; decide

/-- A file of three blocks of which only the first is mapped, to block 100. -/
def shortFile : State := {sparseFile with inode := ⟨12,false,⟨3072,0,2,0,0,⟨0xf30a,1,4,0,fun _ => ⟨0,1,100⟩⟩⟩⟩}

def shortTree : Tree 0 := [(⟨0,1,100⟩ : Slot)]

theorem shortFile_readable : Readable shortFile 0 shortTree := by
  refine ⟨⟨⟨⟨rfl,rfl,rfl,by decide,by decide,by decide⟩,?_⟩,List.nodup_nil,?_,Or.inl rfl⟩,by decide,?_,?_,by decide⟩
  · intro i x here
    obtain ⟨inside,rfl⟩ := List.getElem?_eq_some_iff.mp here
    have first : i = 0 := Nat.lt_one_iff.mp inside
    subst first
    rfl
  · exact ⟨0,1,by decide,⟨by decide,by decide,by decide⟩,(by decide : 1 ≤ 2^32)⟩
  · exact fun x member => by rw [List.mem_singleton.mp member]; decide
  · exact fun x member => by rw [List.mem_singleton.mp member]; decide

/-- From inside the block over the hole behind it to the end of the file. -/
theorem opRead_content_hole : (opRead exact shortFile (fun _ => 7) 2572 500).isSome = true ∧
    Answers (fun _ => 7) shortFile (flat 0 shortTree) 2572 500 := by
  have blocks : superBlockSize shortFile.volume.superBlock = 1024 := by decide
  have count : truncateSize shortFile.inode 2572 500 = 2572 := by decide
  have first : firstLength 1024 2572 500 = 524 := by decide
  have covered (k : Nat) : covers ⟨0,1,100⟩ (k / 1024) ↔ k < 1024 := by
    have start : Slot.eeBlock ⟨0,1,100⟩ = 0 := by decide
    have stop : extentStop ⟨0,1,100⟩ = 1 := by decide
    rw [covers,start,stop]
    omega
  refine ⟨by decide +kernel,(opRead_content_iff (fun _ => 7) shortFile_readable (by decide) (by decide)).mpr (Or.inr ?_)⟩
  rw [blocks,count,zerosAgree,first]
  refine ⟨fun k least before hole => ?_,fun h k least order most hole => content_hole _ fun x member => ?_⟩
  · exact absurd ((covered k).mpr (by omega)) (hole _ (List.mem_singleton_self _))
  · rw [List.mem_singleton.mp member,covered]
    omega

/-- After the hole in the first block the second block reads as zeros. -/
theorem opRead_hole_then_data : Readable sparseFile 0 sparseTree ∧
    content 1024 (fun _ => 7) (flat 0 sparseTree) 1024 = 7 ∧ ¬Answers (fun _ => 7) sparseFile (flat 0 sparseTree) 2048 0 := by
  refine ⟨sparseFile_readable,by decide,fun answers => ?_⟩
  have read : (opRead exact sparseFile (fun _ => 7) 2048 0).map (fun r => r.2.2[1024]?) = some (some 0) := by decide +kernel
  obtain ⟨⟨s',device',bytes⟩,returned,byte⟩ := Option.map_eq_some_iff.mp read
  obtain ⟨inside,zero⟩ := List.getElem?_eq_some_iff.mp byte
  have right := answers s' device' bytes returned 1024 inside
  rw [zero] at right
  exact absurd right (by decide)

/-! The count, over the buffer cache. -/

/-- `PREAD_BLOCK_SIZE` is `super_block_size()`. -/
def preadBlockSize (sb : SuperBlock) (small : sb.sLogBlockSize.toNat ≤ 6) : BlockSize := ⟨sb.sLogBlockSize.toNat,small⟩

theorem preadBlockSize_bytes {sb : SuperBlock} (small : sb.sLogBlockSize.toNat ≤ 6) : (preadBlockSize sb small).bytes = superBlockSize sb :=
  (superBlockSize_eq small).symm

/-- What is left of a request within the file. -/
def expectedCount (inode : Inode) (size offset : Nat) : Nat := min size (inodeGetSize inode - offset)

/-- `op_read` returns the expected count, as an `int`, and stores that many bytes. -/
def Counts (block : BlockSize) (s : State) (c : Disk.Cache) (size offset : Nat) : Prop :=
  ∃ s' c' bytes, opRead (buffered block) s c size offset = some (s',c',bytes) ∧
    bytes.length = expectedCount s.inode size offset ∧ i32 bytes.length = expectedCount s.inode size offset

/-- A request that does not come to its end at the count: the end of the first piece is lost
in the rounding, or some block behind it is a hole and the end lies inside a block. -/
def overruns (blockSize : Nat) (extents : List Slot) (count offset : Nat) : Prop :=
  highStart blockSize count offset ∨
    (∃ k, offset + firstLength blockSize count offset ≤ k ∧ k < offset + count ∧ lookedHole blockSize extents k) ∧
      (offset + count) % blockSize ≠ 0

/-- Two whole blocks behind the first piece and in front of the first hole there lie in one extent. -/
def takesBlocks (blockSize : Nat) (extents : List Slot) (count offset : Nat) : Prop :=
  ∃ k, offset + firstLength blockSize count offset ≤ k ∧ k + 2 * blockSize ≤ offset + count ∧ k % blockSize = 0 ∧
    (∀ h, offset + firstLength blockSize count offset ≤ h → h ≤ k → ¬lookedHole blockSize extents h) ∧
    ∃ x ∈ extents, covers x (k / blockSize % 2^32) ∧ covers x (k / blockSize % 2^32 + 1)

/-- A buffer holds one block: the cache serves a request if no round asks for two. -/
theorem served_buffered {block : BlockSize} {extents : List Slot} {count offset : Nat} :
    Served (buffered block) block.bytes extents (offset + firstLength block.bytes count offset) (offset + count) ↔
      ¬takesBlocks block.bytes extents count offset := by
  have positive := block.pos
  have two (rest len : Nat) : min rest (block.bytes * len) < 2 * block.bytes ↔ rest < 2 * block.bytes ∨ len < 2 := by
    rw [min_lt_iff,Nat.mul_comm,Nat.mul_lt_mul_left positive]
  have ask {x : Slot} {b rest : Nat} : (buffered block).fits ((ext4ExtPblock x + (b - x.eeBlock)) * block.bytes)
      (min rest (block.bytes * (extentStop x - b))) ↔ rest < 2 * block.bytes ∨ extentStop x - b < 2 :=
    (oneBlock_aligned block (Nat.mul_mod_left _ _)).trans (two _ _)
  constructor
  · rintro served ⟨k,least,most,whole,front,x,member,covered,next⟩
    have small := ask.mp (served k least (by omega) whole front x member covered)
    have stop := next.2
    omega
  · intro free k least most whole front x member covered
    refine ask.mpr ?_
    by_contra large
    have start := covered.1
    exact free ⟨k,least,by omega,whole,front,x,member,covered,by omega,by omega⟩

theorem truncateSize_expected (inode : Inode) {size offset : Nat} (fits : offset + size < 2^64 ∨ inodeGetSize inode ≤ offset) :
    truncateSize inode size offset = expectedCount inode size offset := by
  have low := inode.rawInode.iSizeLo.toNat_lt
  have high := inode.rawInode.iSizeHigh.toNat_lt
  have bound : inodeGetSize inode < 2^64 := by
    unfold inodeGetSize
    omega
  rw [truncateSize,expectedCount]
  split
  · omega
  · rename_i inside
    rw [u64_small _ (fits.resolve_right inside),
      show (inodeGetSize inode - offset : Int) = ((inodeGetSize inode - offset : Nat) : Int) by omega,u64_small _ (by omega)]
    split <;> omega

theorem opRead_length {σ : Type} {access : Access σ} {s s' : State} {disk disk' : σ} {size offset : Nat} {bytes : List UInt8}
    (returned : opRead access s disk size offset = some (s',disk',bytes)) : bytes.length = truncateSize s.inode size offset := by
  unfold opRead at returned
  obtain ⟨⟨s₁,disk₁,first⟩,_,returned⟩ := Option.bind_eq_some_iff.mp returned
  obtain ⟨⟨s₂,disk₂,stored⟩,_,returned⟩ := Option.bind_eq_some_iff.mp returned
  simp only at returned
  split at returned
  · rename_i ends
    rw [← (Prod.mk.inj (Prod.mk.inj (Option.some.inj returned)).2).2,ends]
  · nomatch returned

/-- `op_read` returns exactly when the request comes to its end at the count and no round overruns a buffer. -/
theorem opRead_returns_iff {s : State} {d : Nat} {t : Tree d} {size offset : Nat} (tree : HasTree s d t)
    (small : s.volume.superBlock.sLogBlockSize.toNat ≤ 6) (physical : ∀ x ∈ flat d t, ext4ExtPblock x ≠ 0) (c : Disk.Cache)
    (request : truncateSize s.inode size offset < 2^31) (place : offset < 2^63) :
    (∃ s' c' bytes, opRead (buffered (preadBlockSize s.volume.superBlock small)) s c size offset = some (s',c',bytes)) ↔
      ¬overruns (superBlockSize s.volume.superBlock) (flat d t) (truncateSize s.inode size offset) offset ∧
        ¬takesBlocks (superBlockSize s.volume.superBlock) (flat d t) (truncateSize s.inode size offset) offset := by
  have result := @opRead_result _ (buffered (preadBlockSize s.volume.superBlock small)) c _ _ _ _ _ _ _ _
    (buffered_blocks (preadBlockSize s.volume.superBlock small)) tree small physical (preadBlockSize_bytes small).symm rfl request place rfl
  rw [← preadBlockSize_bytes small,← served_buffered]
  unfold overruns
  generalize preadBlockSize s.volume.superBlock small = block at *
  generalize truncateSize s.inode size offset = count at *
  have positive := block.pos
  have lengths := firstLength_le block.bytes count offset
  obtain ⟨lost,unserved,kept⟩ := result
  rcases Classical.em (highStart block.bytes count offset) with high | inner
  · refine ⟨?_,fun ⟨free,_⟩ => absurd (Or.inl high) free⟩
    rintro ⟨s',c',bytes,returned⟩
    rw [lost high] at returned
    nomatch returned
  rcases Classical.em (Served (buffered block) block.bytes (flat d t) (offset + firstLength block.bytes count offset) (offset + count))
    with served | never
  · obtain ⟨s',c',a,n,_,_,stored,returned⟩ := kept inner served
    have whole := stored.whole fun more => firstLength_aligned positive (by omega)
    rw [show offset + firstLength block.bytes count offset + (offset + count - (offset + firstLength block.bytes count offset)) =
      offset + count by omega] at whole
    rw [returned]
    constructor
    · rintro ⟨s'',c'',bytes,some_⟩
      refine ⟨?_,served⟩
      rintro (high | ⟨⟨k,start,stop,hole⟩,inside⟩)
      · exact inner high
      · split at some_
        · rename_i even
          exact (whole.mp even).elim (fun mapped => mapped k start stop hole) inside
        · nomatch some_
    · rintro ⟨free,_⟩
      have even := whole.mpr (by
        by_contra neither
        obtain ⟨somewhere,inside⟩ := not_or.mp neither
        refine somewhere fun k start stop hole => ?_
        exact free (Or.inr ⟨⟨k,start,stop,hole⟩,inside⟩))
      rw [if_pos even]
      exact ⟨_,_,_,rfl⟩
  · refine ⟨?_,fun both => absurd both.2 never⟩
    rintro ⟨s',c',bytes,returned⟩
    rw [unserved never] at returned
    nomatch returned

theorem opRead_counts_iff {s : State} {d : Nat} {t : Tree d} {size offset : Nat} (tree : HasTree s d t)
    (small : s.volume.superBlock.sLogBlockSize.toNat ≤ 6) (physical : ∀ x ∈ flat d t, ext4ExtPblock x ≠ 0) (c : Disk.Cache)
    (request : size < 2^64) (place : offset < 2^63) : Counts (preadBlockSize s.volume.superBlock small) s c size offset ↔
      expectedCount s.inode size offset < 2^31 ∧ (offset + size < 2^64 ∨ inodeGetSize s.inode ≤ offset) ∧
        ¬overruns (superBlockSize s.volume.superBlock) (flat d t) (expectedCount s.inode size offset) offset ∧
        ¬takesBlocks (superBlockSize s.volume.superBlock) (flat d t) (expectedCount s.inode size offset) offset := by
  have bound : inodeGetSize s.inode < 2^64 := by
    have low := s.inode.rawInode.iSizeLo.toNat_lt
    have high := s.inode.rawInode.iSizeHigh.toNat_lt
    unfold inodeGetSize
    omega
  have ends (short : expectedCount s.inode size offset < 2^31) (fits : offset + size < 2^64 ∨ inodeGetSize s.inode ≤ offset) := by
    have returns := @opRead_returns_iff s d t size offset tree small physical c
    rw [truncateSize_expected s.inode fits] at returns
    exact returns short place
  constructor
  · rintro ⟨s',c',bytes,returned,length,code⟩
    have short : expectedCount s.inode size offset < 2^31 := by
      have most := i32_lt bytes.length
      omega
    have fits : offset + size < 2^64 ∨ inodeGetSize s.inode ≤ offset := by
      by_contra wraps
      obtain ⟨beyond,inside⟩ := not_or.mp wraps
      have whole := opRead_length returned
      have kept : truncateSize s.inode size offset = size := by
        have wrapped : u64 (offset + size : Nat) = offset + size - 2^64 := by
          unfold u64
          omega
        rw [truncateSize,if_neg inside,if_neg (by rw [wrapped]; omega)]
      rw [length,kept,expectedCount] at whole
      omega
    exact ⟨short,fits,(ends short fits).mp ⟨s',c',bytes,returned⟩⟩
  · rintro ⟨short,fits,free⟩
    obtain ⟨s',c',bytes,returned⟩ := (ends short fits).mpr free
    have length := (opRead_length returned).trans (truncateSize_expected s.inode fits)
    exact ⟨s',c',bytes,returned,length,by rw [length]; exact i32_small _ (by omega) (by omega)⟩

/-- The end of the first block, and the block behind the hole. -/
theorem opRead_counts_sparse : Counts (preadBlockSize sparseFile.volume.superBlock (by decide)) sparseFile Disk.emptyCache 1048 1000 := by
  refine (opRead_counts_iff sparseFile_readable.tree sparseFile_readable.small sparseFile_readable.physical Disk.emptyCache
    (by decide) (by decide)).mpr ⟨by decide,Or.inl (by decide),?_,?_⟩
  · rintro (⟨_,_,high⟩ | ⟨_,inside⟩)
    · exact absurd high (by decide)
    · exact inside (by decide)
  · rintro ⟨k,least,most,_⟩
    rw [show superBlockSize sparseFile.volume.superBlock = 1024 by decide] at least most
    rw [show expectedCount sparseFile.inode 1048 1000 = 1048 by decide,show firstLength 1024 1048 1000 = 24 by decide] at *
    omega

/-- A file of 1000 bytes without an extent. -/
def holeFile : State where
  volume := Alloc.oneFree
  inode := ⟨12,false,⟨1000,0,0,0,0,⟨0xf30a,0,4,0,fun _ => ⟨0,0,0⟩⟩⟩⟩
  node := fun _ => ⟨0,0,0,0,fun _ => ⟨0,0,0⟩⟩
  verified := fun _ => false
  count := fun _ => 0

/-- A file of two blocks that one extent maps to blocks 100 and 101. -/
def twoBlockFile : State := {sparseFile with inode := ⟨12,false,⟨2048,0,4,0,0,⟨0xf30a,1,4,0,fun _ => ⟨0,2,100⟩⟩⟩⟩}

/-- A hole at the end is stored as a whole block, past the end of the file and of the buffer; two whole blocks
of an extent are copied out of the buffer of the first one. -/
theorem opRead_hole_at_end : (∃ t : Tree 0, HasTree holeFile 0 t ∧ ∀ x ∈ flat 0 t, ext4ExtPblock x ≠ 0) ∧
    expectedCount holeFile.inode 1000 0 = 1000 ∧
    ¬Counts (preadBlockSize holeFile.volume.superBlock (by decide)) holeFile Disk.emptyCache 1000 0 ∧
    (∃ t : Tree 0, HasTree twoBlockFile 0 t ∧ ∀ x ∈ flat 0 t, ext4ExtPblock x ≠ 0) ∧
    expectedCount twoBlockFile.inode 2048 0 = 2048 ∧
    ¬Counts (preadBlockSize twoBlockFile.volume.superBlock (by decide)) twoBlockFile Disk.emptyCache 2048 0 := by
  have fails {block : BlockSize} {s : State} {size offset : Nat}
      (none_ : (opRead (buffered block) s Disk.emptyCache size offset).isNone = true) : ¬Counts block s Disk.emptyCache size offset := by
    rintro ⟨s',c',bytes,returned,_⟩
    rw [returned] at none_
    nomatch none_
  refine ⟨⟨([] : List Slot),⟨⟨⟨rfl,rfl,rfl,by decide,by decide,by decide⟩,nofun⟩,List.nodup_nil,?_,Or.inl rfl⟩,nofun⟩,
    by decide,fails (by decide +kernel),⟨[(⟨0,2,100⟩ : Slot)],⟨⟨⟨rfl,rfl,rfl,by decide,by decide,by decide⟩,?_⟩,List.nodup_nil,?_,
    Or.inl rfl⟩,?_⟩,by decide,fails (by decide +kernel)⟩
  · exact (Nat.zero_le _ : 0 ≤ 2^32)
  · intro i x here
    obtain ⟨inside,rfl⟩ := List.getElem?_eq_some_iff.mp here
    obtain rfl := Nat.lt_one_iff.mp inside
    rfl
  · exact ⟨0,2,by decide,⟨by decide,by decide,by decide⟩,(by decide : 2 ≤ 2^32)⟩
  · exact fun x member => by rw [List.mem_singleton.mp member]; decide

end Ext4Fuse.OpRead
