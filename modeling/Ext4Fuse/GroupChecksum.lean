import Ext4Fuse.Super
import Ext4Fuse.Library.Bytes
import Ext4Fuse.Library.Check
import Mathlib.Data.List.GetD

/-! The checksum of a group descriptor, and the bytes it covers. -/
namespace Ext4Fuse.GroupChecksum
open Machine Ext4Fuse.Types Super Library.Bytes Library.Check

def crc16Tab : List UInt16 := [
  0x0000,0xC0C1,0xC181,0x0140,0xC301,0x03C0,0x0280,0xC241,0xC601,0x06C0,0x0780,0xC741,0x0500,0xC5C1,0xC481,0x0440,
  0xCC01,0x0CC0,0x0D80,0xCD41,0x0F00,0xCFC1,0xCE81,0x0E40,0x0A00,0xCAC1,0xCB81,0x0B40,0xC901,0x09C0,0x0880,0xC841,
  0xD801,0x18C0,0x1980,0xD941,0x1B00,0xDBC1,0xDA81,0x1A40,0x1E00,0xDEC1,0xDF81,0x1F40,0xDD01,0x1DC0,0x1C80,0xDC41,
  0x1400,0xD4C1,0xD581,0x1540,0xD701,0x17C0,0x1680,0xD641,0xD201,0x12C0,0x1380,0xD341,0x1100,0xD1C1,0xD081,0x1040,
  0xF001,0x30C0,0x3180,0xF141,0x3300,0xF3C1,0xF281,0x3240,0x3600,0xF6C1,0xF781,0x3740,0xF501,0x35C0,0x3480,0xF441,
  0x3C00,0xFCC1,0xFD81,0x3D40,0xFF01,0x3FC0,0x3E80,0xFE41,0xFA01,0x3AC0,0x3B80,0xFB41,0x3900,0xF9C1,0xF881,0x3840,
  0x2800,0xE8C1,0xE981,0x2940,0xEB01,0x2BC0,0x2A80,0xEA41,0xEE01,0x2EC0,0x2F80,0xEF41,0x2D00,0xEDC1,0xEC81,0x2C40,
  0xE401,0x24C0,0x2580,0xE541,0x2700,0xE7C1,0xE681,0x2640,0x2200,0xE2C1,0xE381,0x2340,0xE101,0x21C0,0x2080,0xE041,
  0xA001,0x60C0,0x6180,0xA141,0x6300,0xA3C1,0xA281,0x6240,0x6600,0xA6C1,0xA781,0x6740,0xA501,0x65C0,0x6480,0xA441,
  0x6C00,0xACC1,0xAD81,0x6D40,0xAF01,0x6FC0,0x6E80,0xAE41,0xAA01,0x6AC0,0x6B80,0xAB41,0x6900,0xA9C1,0xA881,0x6840,
  0x7800,0xB8C1,0xB981,0x7940,0xBB01,0x7BC0,0x7A80,0xBA41,0xBE01,0x7EC0,0x7F80,0xBF41,0x7D00,0xBDC1,0xBC81,0x7C40,
  0xB401,0x74C0,0x7580,0xB541,0x7700,0xB7C1,0xB681,0x7640,0x7200,0xB2C1,0xB381,0x7340,0xB101,0x71C0,0x7080,0xB041,
  0x5000,0x90C1,0x9181,0x5140,0x9301,0x53C0,0x5280,0x9241,0x9601,0x56C0,0x5780,0x9741,0x5500,0x95C1,0x9481,0x5440,
  0x9C01,0x5CC0,0x5D80,0x9D41,0x5F00,0x9FC1,0x9E81,0x5E40,0x5A00,0x9AC1,0x9B81,0x5B40,0x9901,0x59C0,0x5880,0x9841,
  0x8801,0x48C0,0x4980,0x8941,0x4B00,0x8BC1,0x8A81,0x4A40,0x4E00,0x8EC1,0x8F81,0x4F40,0x8D01,0x4DC0,0x4C80,0x8C41,
  0x4400,0x84C1,0x8581,0x4540,0x8701,0x47C0,0x4680,0x8641,0x8201,0x42C0,0x4380,0x8341,0x4100,0x81C1,0x8081,0x4040]

def ext4Crc16Step (crc : UInt16) (b : UInt8) : UInt16 :=
  (((crc >>> 8) &&& 0xff) ^^^ crc16Tab.getD ((crc ^^^ b.toUInt16) &&& 0xff).toNat 0) &&& 0xffff

def ext4Crc16 (crc : UInt16) (buf : List UInt8) : UInt16 := buf.foldl ext4Crc16Step crc

/-! The step separates states and bytes. -/

theorem crc16Tab_length : crc16Tab.length = 256 := by decide +kernel

/-- The high bytes of the table. -/
def crc16High : List UInt16 := crc16Tab.map fun e => e >>> (8 : UInt16)

theorem crc16High_nodup : crc16High.Nodup := by
  have checked : distinct 0 (crc16High.map UInt16.toNat) = true := by decide +kernel
  exact (distinct_sound checked).1.of_map UInt16.toNat

/-- The entry of the table that a step takes. -/
def entry (crc : UInt16) (b : UInt8) : UInt8 := crc.toUInt8 ^^^ b

theorem entry_eq (crc : UInt16) (b : UInt8) : ((crc ^^^ b.toUInt16) &&& 0xff).toNat = (entry crc b).toNat := by
  have byte : (crc ^^^ b.toUInt16).toUInt8 = entry crc b := by rw [UInt16.toUInt8_xor,entry,UInt8.toUInt8_toUInt16]
  rw [← byte,UInt16.toNat_and,UInt16.toNat_toUInt8]
  exact Nat.and_two_pow_sub_one_eq_mod _ 8

theorem high_eq (crc : UInt16) : (crc >>> 8) &&& (0xff : UInt16) = crc >>> (8 : UInt16) := by
  have bound := crc.toNat_lt
  rw [← UInt16.toNat_inj,UInt16.toNat_and,UInt16.toNat_shiftRight]
  show crc.toNat >>> 8 &&& (2^8 - 1) = crc.toNat >>> 8
  rw [Nat.and_two_pow_sub_one_eq_mod,Nat.shiftRight_eq_div_pow]
  omega

theorem ext4Crc16Step_eq (crc : UInt16) (b : UInt8) :
    ext4Crc16Step crc b = (crc >>> 8) ^^^ crc16Tab.getD (entry crc b).toNat 0 := by
  unfold ext4Crc16Step
  rw [high_eq,entry_eq]
  exact UInt16.and_neg_one

theorem high_high (crc : UInt16) : crc >>> 8 >>> 8 = 0 := by
  have bound := crc.toNat_lt
  rw [← UInt16.toNat_inj,UInt16.toNat_shiftRight,UInt16.toNat_shiftRight]
  show crc.toNat >>> 8 >>> 8 = 0
  rw [Nat.shiftRight_eq_div_pow,Nat.shiftRight_eq_div_pow]
  omega

theorem ext4Crc16Step_high (crc : UInt16) (b : UInt8) :
    ext4Crc16Step crc b >>> 8 = crc16Tab.getD (entry crc b).toNat 0 >>> 8 := by
  rw [ext4Crc16Step_eq,UInt16.shiftRight_xor,high_high,UInt16.zero_xor]

/-- The high byte of the new state tells which entry was taken. -/
theorem entry_of_step {crc crc' : UInt16} {b b' : UInt8} (same : ext4Crc16Step crc b = ext4Crc16Step crc' b') :
    entry crc b = entry crc' b' := by
  have high := congrArg (fun crc : UInt16 => crc >>> (8 : UInt16)) same
  simp only [ext4Crc16Step_high] at high
  have inside (e : UInt8) : e.toNat < crc16High.length := by
    rw [crc16High,List.length_map,crc16Tab_length]
    exact e.toNat_lt
  have value (e : UInt8) : crc16High.get ⟨e.toNat,inside e⟩ = crc16Tab.getD e.toNat 0 >>> 8 := by
    have bound : e.toNat < crc16Tab.length := by rw [crc16Tab_length]; exact e.toNat_lt
    simp only [crc16High,List.get_eq_getElem]
    rw [List.getElem_map,List.getD_eq_getElem _ _ bound]
  rw [← value,← value] at high
  have place := (List.Nodup.get_inj_iff crc16High_nodup).mp high
  rw [Fin.mk.injEq] at place
  exact UInt8.toNat_inj.mp place

theorem uint16_ext {crc crc' : UInt16} (low : crc.toUInt8 = crc'.toUInt8) (high : crc >>> 8 = crc' >>> 8) : crc = crc' := by
  have low := congrArg UInt8.toNat low
  have high := congrArg UInt16.toNat high
  rw [UInt16.toNat_toUInt8,UInt16.toNat_toUInt8] at low
  rw [UInt16.toNat_shiftRight,UInt16.toNat_shiftRight] at high
  have shifted (x : Nat) : x >>> ((8 : UInt16).toNat % 16) = x / 256 := Nat.shiftRight_eq_div_pow x 8
  rw [shifted,shifted] at high
  rw [← UInt16.toNat_inj]
  omega

theorem ext4Crc16Step_separating : Separating ext4Crc16Step where
  state b := by
    intro crc crc' same
    have taken := entry_of_step same
    simp only [ext4Crc16Step_eq,taken,UInt16.xor_left_inj] at same
    exact uint16_ext ((UInt8.xor_left_inj b).mp taken) same
  symbol crc := by
    intro b b' same
    exact (UInt8.xor_right_inj crc.toUInt8).mp (entry_of_step same)

/-! What the checksum covers. `gdesc` holds the 64 bytes of a `struct ext4_group_desc`. -/

def featureRoCompatGdtCsum : UInt32 := 0x0010
def featureIncompat64bit : UInt32 := 0x0080

/-- Where `bg_checksum` is; it takes two bytes. -/
def bgChecksumOffset : Nat := 30

variable (sb : SuperBlock) (sUuid : Vector UInt8 16)

def ext4GdescChecksum (blockGroup : Nat) (gdesc : Nat → UInt8) : UInt16 :=
  if hasRoCompatFeature sb featureRoCompatGdtCsum then
    let crc := ext4Crc16 0xffff sUuid.toList
    let crc := ext4Crc16 crc (leBytes 4 blockGroup)
    let crc := ext4Crc16 crc (slice gdesc 0 bgChecksumOffset)
    if hasIncompatFeature sb featureIncompat64bit then ext4Crc16 crc (slice gdesc 32 (64 - 32)) else crc
  else 0

/-- The descriptor as `super_group_writeback` stores it. -/
def checked (blockGroup : Nat) (gdesc : Nat → UInt8) : Nat → UInt8 :=
  overlay gdesc bgChecksumOffset (leBytes 2 (ext4GdescChecksum sb sUuid blockGroup gdesc).toNat)

/-- `bg_checksum` of the stored descriptor. -/
def storedChecksum (blockGroup : Nat) (gdesc : Nat → UInt8) : Nat :=
  leValue (slice (checked sb sUuid blockGroup gdesc) bgChecksumOffset 2)

def inChecksum (i : Nat) : Prop := bgChecksumOffset ≤ i ∧ i < bgChecksumOffset + 2

/-- Two descriptors differ in the byte `i` and, the checksum aside, in no other. -/
def DifferAt (gdesc gdesc' : Nat → UInt8) (i : Nat) : Prop :=
  gdesc i ≠ gdesc' i ∧ ∀ j, j < 64 → j ≠ i → ¬inChecksum j → gdesc j = gdesc' j

/-- One byte of what is written, or of the group's number, changes the stored checksum. -/
def Covers : Prop :=
  (∀ blockGroup gdesc gdesc' i, blockGroup < 2^32 → i < superGroupDescSize sb → ¬inChecksum i → DifferAt gdesc gdesc' i →
      storedChecksum sb sUuid blockGroup gdesc ≠ storedChecksum sb sUuid blockGroup gdesc') ∧
    ∀ blockGroup blockGroup' gdesc, blockGroup < 2^32 → blockGroup' < 2^32 → Differ (leBytes 4 blockGroup) (leBytes 4 blockGroup') →
      storedChecksum sb sUuid blockGroup gdesc ≠ storedChecksum sb sUuid blockGroup' gdesc

variable {sb sUuid}

theorem storedChecksum_eq (blockGroup : Nat) (gdesc : Nat → UInt8) :
    storedChecksum sb sUuid blockGroup gdesc = (ext4GdescChecksum sb sUuid blockGroup gdesc).toNat := by
  have bound := (ext4GdescChecksum sb sUuid blockGroup gdesc).toNat_lt
  have stored := slice_overlay gdesc bgChecksumOffset (leBytes 2 (ext4GdescChecksum sb sUuid blockGroup gdesc).toNat)
  rw [leBytes_length] at stored
  rw [storedChecksum,checked,stored,leValue_leBytes]
  exact Nat.mod_eq_of_lt bound

theorem storedChecksum_inj {blockGroup blockGroup' : Nat} {gdesc gdesc' : Nat → UInt8} :
    storedChecksum sb sUuid blockGroup gdesc = storedChecksum sb sUuid blockGroup' gdesc' ↔
      ext4GdescChecksum sb sUuid blockGroup gdesc = ext4GdescChecksum sb sUuid blockGroup' gdesc' := by
  rw [storedChecksum_eq,storedChecksum_eq,UInt16.toNat_inj]

/-- The bytes of the descriptor that the checksum is made of. -/
def coveredBytes (sb : SuperBlock) (gdesc : Nat → UInt8) : List UInt8 :=
  slice gdesc 0 bgChecksumOffset ++ if hasIncompatFeature sb featureIncompat64bit then slice gdesc 32 (64 - 32) else []

theorem ext4GdescChecksum_eq (csum : hasRoCompatFeature sb featureRoCompatGdtCsum = true) (blockGroup : Nat)
    (gdesc : Nat → UInt8) : ext4GdescChecksum sb sUuid blockGroup gdesc =
      (sUuid.toList ++ (leBytes 4 blockGroup ++ coveredBytes sb gdesc)).foldl ext4Crc16Step 0xffff := by
  unfold ext4GdescChecksum coveredBytes
  rw [if_pos csum,List.foldl_append,List.foldl_append,List.foldl_append]
  by_cases wide : hasIncompatFeature sb featureIncompat64bit = true
  · rw [if_pos wide]
    simp only [ext4Crc16,if_pos wide]
  · rw [if_neg wide]
    simp only [ext4Crc16,if_neg wide,List.foldl_nil]

/-- Differing descriptors differ in the bytes of a range around the place. -/
theorem DifferAt.piece {gdesc gdesc' : Nat → UInt8} {i : Nat} (differ : DifferAt gdesc gdesc' i) (start count : Nat)
    (low : start ≤ i) (high : i < start + count) (whole : start + count ≤ 64) (beside : ∀ j, start ≤ j → j < start + count → ¬inChecksum j) :
    Differ (slice gdesc start count) (slice gdesc' start count) := by
  obtain ⟨k,rfl⟩ := Nat.exists_eq_add_of_le low
  refine ⟨k,gdesc' (start + k),by rw [slice_length]; omega,?_,?_⟩
  · rw [slice_getElem]
    exact differ.1
  · exact slice_set gdesc gdesc' start count k fun j inside other =>
      differ.2 (start + j) (by omega) (by omega) (beside _ (by omega) (by omega))

theorem DifferAt.same {gdesc gdesc' : Nat → UInt8} {i : Nat} (differ : DifferAt gdesc gdesc' i) (start count : Nat)
    (apart : i < start ∨ start + count ≤ i) (whole : start + count ≤ 64)
    (beside : ∀ j, start ≤ j → j < start + count → ¬inChecksum j) : slice gdesc start count = slice gdesc' start count := by
  refine slice_congr gdesc gdesc' start start count fun j inside => ?_
  exact differ.2 (start + j) (by omega) (by omega) (beside _ (by omega) (by omega))

theorem before_checksum (j : Nat) (_ : 0 ≤ j) (inside : j < 0 + bgChecksumOffset) : ¬inChecksum j := by
  unfold inChecksum
  omega

theorem behind_checksum (j : Nat) (inside : 32 ≤ j) (_ : j < 32 + (64 - 32)) : ¬inChecksum j := by
  unfold inChecksum bgChecksumOffset
  omega

/-- A place in the bytes that are covered. -/
theorem DifferAt.covered {gdesc gdesc' : Nat → UInt8} {i : Nat} (differ : DifferAt gdesc gdesc' i)
    (place : i < bgChecksumOffset ∨ hasIncompatFeature sb featureIncompat64bit = true ∧ 32 ≤ i ∧ i < 64) :
    Differ (coveredBytes sb gdesc) (coveredBytes sb gdesc') := by
  unfold coveredBytes
  rcases place with front | ⟨wide,low,high⟩
  · have rest := differ.same 32 (64 - 32) (Or.inl (Nat.lt_trans front (by decide))) (by decide) behind_checksum
    rw [rest]
    exact (differ.piece 0 bgChecksumOffset (Nat.zero_le _) (by omega) (by decide) before_checksum).append_right _
  · have first := differ.same 0 bgChecksumOffset (Or.inr (Nat.le_trans (by decide) low)) (by decide) before_checksum
    rw [first,if_pos wide,if_pos wide]
    exact (differ.piece 32 (64 - 32) low (by omega) (by decide) behind_checksum).append_left _

/-- A descriptor with a byte behind the first 32 set. -/
def marked (a : UInt8) : Nat → UInt8 := fun i => if i = 32 then a else 0

theorem marked_differ : DifferAt (marked 0) (marked 1) 32 :=
  ⟨by decide,fun j _ other _ => by rw [marked,marked,if_neg other,if_neg other]⟩

theorem checksumCovers_iff (csum : hasRoCompatFeature sb featureRoCompatGdtCsum = true) :
    Covers sb sUuid ↔ sb.sDescSize = 0 ∨ hasIncompatFeature sb featureIncompat64bit = true := by
  constructor
  · intro ⟨told,_⟩
    by_contra neither
    obtain ⟨large,narrow⟩ := not_or.mp neither
    have size : superGroupDescSize sb = 64 := if_neg large
    refine told 0 (marked 0) (marked 1) 32 (by decide) (by rw [size]; decide) (by unfold inChecksum bgChecksumOffset; omega) marked_differ ?_
    rw [storedChecksum_inj,ext4GdescChecksum_eq csum,ext4GdescChecksum_eq csum,coveredBytes,coveredBytes,if_neg narrow,if_neg narrow,
      marked_differ.same 0 bgChecksumOffset (Or.inr (by decide)) (by decide) before_checksum]
  · intro covered
    refine ⟨fun g gdesc gdesc' i _ inside beside differ same => ?_,fun g g' gdesc _ _ differ same => ?_⟩
    · rw [storedChecksum_inj,ext4GdescChecksum_eq csum,ext4GdescChecksum_eq csum] at same
      refine ext4Crc16Step_separating.foldl_differ _ (((differ.covered ?_).append_left _).append_left _) same
      rcases Nat.lt_or_ge i bgChecksumOffset with front | back
      · exact Or.inl front
      · have behind : 32 ≤ i := by
          unfold inChecksum bgChecksumOffset at *
          omega
        unfold superGroupDescSize at inside
        rcases covered with small | wide
        · rw [if_pos small] at inside
          omega
        · refine Or.inr ⟨wide,behind,?_⟩
          split at inside <;> omega
    · rw [storedChecksum_inj,ext4GdescChecksum_eq csum,ext4GdescChecksum_eq csum] at same
      exact ext4Crc16Step_separating.foldl_differ _ ((differ.append_right _).append_left _) same

/-- A superblock with descriptor checksums. -/
def csumSuperBlock (sDescSize : UInt16) (sFeatureIncompat : UInt32) : SuperBlock where
  sBlocksCountLo := 8192
  sBlocksCountHi := 0
  sFreeBlocksCountLo := 0
  sFreeBlocksCountHi := 0
  sFirstDataBlock := 0
  sLogBlockSize := 2
  sBlocksPerGroup := 8192
  sInodesPerGroup := 1024
  sInodeSize := 256
  sDescSize := sDescSize
  sFirstMetaBg := 0
  sReservedGdtBlocks := 0
  sFeatureIncompat := sFeatureIncompat
  sFeatureRoCompat := featureRoCompatGdtCsum

theorem covers_64bit : Covers (csumSuperBlock 64 featureIncompat64bit) (.replicate 16 0) :=
  (checksumCovers_iff (by decide)).mpr (by decide)

/-- Descriptors of 64 bytes without the 64-bit feature: the second half is written unchecked. -/
theorem covers_not : hasRoCompatFeature (csumSuperBlock 64 0) featureRoCompatGdtCsum = true ∧
    ¬Covers (csumSuperBlock 64 0) (.replicate 16 0) := by
  refine ⟨by decide,fun covers => ?_⟩
  refine covers.1 0 (marked 0) (marked 1) 32 (by decide) (by decide) (by unfold inChecksum bgChecksumOffset; omega) marked_differ ?_
  decide +kernel

end Ext4Fuse.GroupChecksum
