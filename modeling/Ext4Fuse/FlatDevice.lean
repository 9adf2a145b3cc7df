import Ext4Fuse.Machine
import Ext4Fuse.Library.Bytes

/-! The device as `disk_read` and `disk_write` show it when they read and write all that they
are asked for, at an offset that is an `off_t`. -/
namespace Ext4Fuse.FlatDevice
open Machine Library.Bytes

def i64 (x : Int) : Int := x.bmod (2^64)

theorem i64_nat {x : Nat} (bound : x < 2^63) : i64 x = x := by
  unfold i64
  rw [Int.bmod_def]
  omega

abbrev Device := Nat → UInt8

variable (device : Device)

/-- A negative offset has no result. -/
def diskRead (off : Int) (size : Nat) : Option (List UInt8) :=
  if 0 ≤ off then some (slice device off.toNat size) else none

def diskWrite (off : Int) (bytes : List UInt8) : Option Device :=
  if 0 ≤ off then some (overlay device off.toNat bytes) else none

theorem diskRead_nat (off size : Nat) : diskRead device off size = some (slice device off size) :=
  if_pos (Int.natCast_nonneg off)

theorem diskWrite_nat (off : Nat) (bytes : List UInt8) : diskWrite device off bytes = some (overlay device off bytes) :=
  if_pos (Int.natCast_nonneg off)

/-- Bytes beside those that are written stay. -/
theorem overlay_outside (start : Nat) (values : List UInt8) (i : Nat) (outside : i < start ∨ start + values.length ≤ i) :
    overlay device start values i = device i := by
  rcases outside with before | after
  · exact overlay_before _ _ _ _ before
  · exact overlay_after _ _ _ _ after

theorem slice_overlay_apart (start place count : Nat) (values : List UInt8)
    (apart : place + count ≤ start ∨ start + values.length ≤ place) :
    slice (overlay device start values) place count = slice device place count :=
  slice_congr _ _ _ _ _ fun i inside => overlay_outside device start values (place + i) (by omega)

end Ext4Fuse.FlatDevice
