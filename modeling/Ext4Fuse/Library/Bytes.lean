import Mathlib.Data.List.Basic
import Mathlib.Algebra.Group.Nat.Defs

/-! Contents addressed by position: a contiguous piece read out of them and a
list laid over them. Every copy between a caller's buffer, a cached block and
a flat device is one of the two. -/
namespace Ext4Fuse.Library.Bytes

variable {α : Type}

/-- The `count` values of `content` from position `start` on. -/
def slice (content : Nat → α) (start count : Nat) : List α :=
  (List.range count).map fun i => content (start + i)

/-- `content` with `values` laid over it from position `start` on. -/
def overlay (content : Nat → α) (start : Nat) (values : List α) : Nat → α :=
  fun i => if start ≤ i then (values[i - start]?).getD (content i) else content i

@[simp] theorem slice_length (content : Nat → α) (start count : Nat) :
    (slice content start count).length = count := by
  simp [slice]

@[simp] theorem slice_zero (content : Nat → α) (start : Nat) : slice content start 0 = [] := by
  simp [slice]

theorem slice_getElem (content : Nat → α) (start count i : Nat)
    (inside : i < (slice content start count).length) :
    (slice content start count)[i] = content (start + i) := by
  simp [slice]

theorem slice_add (content : Nat → α) (start first second : Nat) :
    slice content start (first + second) =
      slice content start first ++ slice content (start + first) second := by
  simp [slice,List.range_add,List.map_append,Nat.add_assoc]

theorem slice_congr (content other : Nat → α) (start place count : Nat)
    (same : ∀ i, i < count → content (start + i) = other (place + i)) :
    slice content start count = slice other place count := by
  apply List.map_congr_left
  intro i member
  exact same i (List.mem_range.mp member)

@[simp] theorem overlay_nil (content : Nat → α) (start : Nat) : overlay content start [] = content := by
  funext i
  simp [overlay]

theorem overlay_before (content : Nat → α) (start : Nat) (values : List α) (i : Nat)
    (before : i < start) : overlay content start values i = content i := by
  simp [overlay,Nat.not_le.mpr before]

theorem overlay_after (content : Nat → α) (start : Nat) (values : List α) (i : Nat)
    (after : start + values.length ≤ i) : overlay content start values i = content i := by
  have outside : values[i - start]? = none := List.getElem?_eq_none (by omega)
  simp [overlay,outside]

theorem overlay_inside (content : Nat → α) (start : Nat) (values : List α) (i : Nat)
    (inside : i < values.length) : overlay content start values (start + i) = values[i] := by
  simp [overlay,List.getElem?_eq_getElem inside]

theorem overlay_append (content : Nat → α) (start : Nat) (first second : List α) :
    overlay (overlay content start first) (start + first.length) second =
      overlay content start (first ++ second) := by
  funext i
  by_cases before : i < start
  · rw [overlay_before _ _ _ _ (by omega),overlay_before _ _ _ _ before,
      overlay_before _ _ _ _ before]
  · obtain ⟨k,rfl⟩ := Nat.exists_eq_add_of_le (Nat.le_of_not_lt before)
    by_cases early : k < first.length
    · rw [overlay_before _ _ _ _ (by omega)]
      simp [overlay,List.getElem?_append_left early]
    · have late : start + first.length ≤ start + k := by omega
      have shifted : start + k - (start + first.length) = k - first.length := by omega
      have outside : first[k]? = none := List.getElem?_eq_none (by omega)
      simp [overlay,late,shifted,outside,List.getElem?_append_right (Nat.le_of_not_lt early)]

theorem overlay_shift (content : Nat → α) (base start : Nat) (values : List α) (i : Nat) :
    overlay (fun j => content (base + j)) start values i =
      overlay content (base + start) values (base + i) := by
  have shifted : base + i - (base + start) = i - start := by omega
  simp [overlay,shifted]

/-- Another content that differs in one place of a piece. -/
theorem slice_set (content other : Nat → α) (start count k : Nat)
    (same : ∀ j, j < count → j ≠ k → content (start + j) = other (start + j)) :
    slice other start count = (slice content start count).set k (other (start + k)) := by
  apply List.ext_getElem
  · simp
  · intro j inside _
    rw [slice_length] at inside
    rw [List.getElem_set,slice_getElem]
    split
    · rename_i here
      rw [here]
    · rename_i elsewhere
      rw [slice_getElem]
      exact (same j inside fun here => elsewhere here.symm).symm

theorem slice_overlay (content : Nat → α) (start : Nat) (values : List α) :
    slice (overlay content start values) start values.length = values := by
  apply List.ext_getElem
  · simp
  · intro i _ inside
    rw [slice_getElem,overlay_inside _ _ _ _ inside]

/-! Numbers as bytes, the lowest first. -/

def leBytes : Nat → Nat → List UInt8
  | 0, _ => []
  | width+1, x => UInt8.ofNat x :: leBytes width (x / 256)

def leValue (bytes : List UInt8) : Nat := bytes.foldr (fun b rest => b.toNat + 256 * rest) 0

@[simp] theorem leBytes_length (width x : Nat) : (leBytes width x).length = width := by
  induction width generalizing x with
  | zero => rfl
  | succ width ih => rw [leBytes,List.length_cons,ih]

theorem leValue_lt (bytes : List UInt8) : leValue bytes < 256^bytes.length := by
  induction bytes with
  | nil => exact Nat.one_pos
  | cons byte bytes ih =>
    have first := byte.toNat_lt
    rw [List.length_cons,Nat.pow_succ]
    change byte.toNat + 256 * leValue bytes < 256^bytes.length * 256
    omega

theorem leValue_leBytes (width x : Nat) : leValue (leBytes width x) = x % 256^width := by
  induction width generalizing x with
  | zero => simp [leBytes,leValue,Nat.mod_one]
  | succ width ih =>
    have rest : leValue (UInt8.ofNat x :: leBytes width (x / 256)) =
        x % 256 + 256 * leValue (leBytes width (x / 256)) := by
      rw [leValue,List.foldr_cons,UInt8.toNat_ofNat']
      rfl
    rw [leBytes,rest,ih,Nat.pow_succ',Nat.mod_mul]

end Ext4Fuse.Library.Bytes
