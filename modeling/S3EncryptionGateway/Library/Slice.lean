import Mathlib

/-!
# Slices of a list

`slice items start stop` are the items at the positions from `start` up to, but not
including, `stop`.  The lemmas are those that ranged reads need: cutting a slice at a
position, a slice of a slice, and slices of two lists that are joined.

`slice_step` is the step of a reader that walks over windows of the items and clips each
to the slice it was asked for.
-/

namespace Slices

open List

variable {β : Type*}

/-- The items from position `start` up to position `stop`. -/
def slice (items : List β) (start stop : ℕ) : List β :=
  (items.drop start).take (stop - start)

variable {items front back : List β} {start mid stop off next : ℕ}

theorem length_slice (items : List β) (start stop : ℕ) :
    (slice items start stop).length = min stop items.length - start := by
  rw [slice, length_take, length_drop]
  omega

theorem slice_of_le (hle : stop ≤ start) : slice items start stop = [] := by
  rw [slice, Nat.sub_eq_zero_of_le hle, take_zero]

theorem slice_zero (hle : items.length ≤ stop) : slice items 0 stop = items := by
  rw [slice, drop_zero, Nat.sub_zero, take_of_length_le hle]

theorem take_slice {count : ℕ} (hle : start + count ≤ stop) :
    (slice items start stop).take count = slice items start (start + count) := by
  rw [slice, slice, take_take]
  congr 1
  omega

theorem drop_slice (items : List β) (start stop count : ℕ) :
    (slice items start stop).drop count = slice items (start + count) stop := by
  rw [slice, slice, drop_take, drop_drop]
  congr 1
  omega

/-- Cutting a slice in two. -/
theorem slice_append_slice (hstart : start ≤ mid) (hstop : mid ≤ stop) :
    slice items start mid ++ slice items mid stop = slice items start stop := by
  have hmid : mid = start + (mid - start) := by omega
  have hlen : stop - start = (mid - start) + (stop - mid) := by omega
  rw [slice, slice, slice, hlen, take_add, drop_drop, ← hmid]

/-- A slice of a slice, with positions of the whole. -/
theorem slice_slice (hstart : off ≤ start) (hstop : stop ≤ next) :
    slice (slice items off next) (start - off) (stop - off) = slice items start stop := by
  rcases le_total stop start with hle | hle
  · rw [slice_of_le (by omega), slice_of_le hle]
  have hoff : start = off + (start - off) := by omega
  rw [slice, slice, slice, drop_take, drop_drop, ← hoff, take_take]
  congr 1
  omega

theorem slice_append_left (hle : stop ≤ front.length) :
    slice (front ++ back) start stop = slice front start stop := by
  rcases le_total stop start with hback | hback
  · rw [slice_of_le hback, slice_of_le hback]
  · rw [slice, slice, drop_append_of_le_length (by omega), take_append_of_le_length]
    rw [length_drop]
    omega

theorem slice_append_right (hle : front.length ≤ start) :
    slice (front ++ back) start stop =
      slice back (start - front.length) (stop - front.length) := by
  rw [slice, slice, drop_append, drop_eq_nil_of_le hle, nil_append]
  congr 1
  omega

/-- The part of a slice that lies in the window from `off` to `next`, and what is behind
the window. -/
theorem slice_step (hwindow : off ≤ next) :
    slice items (max start off) stop =
      slice items (max start off) (min stop next) ++ slice items (max start next) stop := by
  rcases le_total next start with hbefore | hbefore
  · -- the window ends before the slice begins
    have hnone : slice items (max start off) (min stop next) = [] := slice_of_le (by omega)
    rw [hnone, nil_append]
    congr 1
    omega
  · rw [max_eq_right hbefore]
    rcases le_total stop next with hend | hend
    · rw [min_eq_left hend, slice_of_le hend, append_nil]
    · rw [min_eq_right hend, slice_append_slice (by omega) hend]

end Slices
