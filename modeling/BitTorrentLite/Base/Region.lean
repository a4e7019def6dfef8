import Mathlib.Tactic

/-! # Regions of a Byte File

    A file is a list. `slice` reads a region of it and `overwrite` writes one,
    as `seek` followed by `read` or `write` does: a write past the end fills
    the gap with a padding element, and a write of nothing changes nothing.

    The lemmas say what a write does to a later read of the same region, and
    that it leaves every region that lies beside it alone.
-/

namespace Region

variable {α : Type*}

/-- The `n` elements of `f` from position `off` on; fewer at the end of `f`. -/
def slice (f : List α) (off n : ℕ) : List α := (f.drop off).take n

/-- `f` after a write of `d` at position `off`; a gap is filled with `pad`. -/
def overwrite (pad : α) (f : List α) (off : ℕ) (d : List α) : List α :=
  if d.isEmpty then f
  else (f ++ List.replicate (off - f.length) pad).take off ++ d ++ f.drop (off + d.length)

/-! ### Reading -/

theorem slice_length (f : List α) (off n : ℕ) :
    (slice f off n).length = min n (f.length - off) := by
  simp [slice]

/-- A region inside the file is read in full. -/
theorem slice_length_of_le {f : List α} {off n : ℕ} (h : off + n ≤ f.length) :
    (slice f off n).length = n := by
  rw [slice_length]; omega

theorem getElem?_slice (f : List α) (off n k : ℕ) :
    (slice f off n)[k]? = if k < n then f[off + k]? else none := by
  simp [slice, List.getElem?_take]

@[simp] theorem slice_zero (f : List α) (off : ℕ) : slice f off 0 = [] := by
  simp [slice]

/-- A region of a region is a region. -/
theorem slice_slice (f : List α) (o n p m : ℕ) (h : p + m ≤ n) :
    slice (slice f o n) p m = slice f (o + p) m := by
  apply List.ext_getElem?
  intro k
  simp only [getElem?_slice]
  by_cases hk : k < m
  · have hpk : p + k < n := by omega
    simp [hk, hpk, Nat.add_assoc]
  · simp [hk]

/-! ### Writing -/

/-- What every position of the file holds after a write. -/
theorem getElem?_overwrite (pad : α) (f : List α) (off : ℕ) {d : List α} (hd : d ≠ []) (k : ℕ) :
    (overwrite pad f off d)[k]? =
      if k < off then (if k < f.length then f[k]? else some pad)
      else if k < off + d.length then d[k - off]? else f[k]? := by
  -- the part before the write, padded where the file is too short
  have hlen : ((f ++ List.replicate (off - f.length) pad).take off).length = off := by
    simp; omega
  have hne : d.isEmpty = false := by simpa using hd
  simp only [overwrite, hne, Bool.false_eq_true, if_false, List.append_assoc]
  by_cases hk : k < off
  · rw [List.getElem?_append_left (by omega), List.getElem?_take, if_pos hk, if_pos hk]
    by_cases hkf : k < f.length
    · rw [List.getElem?_append_left hkf, if_pos hkf]
    · rw [List.getElem?_append_right (by omega), if_neg hkf,
        List.getElem?_replicate, if_pos (by omega)]
  · rw [List.getElem?_append_right (by omega), hlen, if_neg hk]
    by_cases hkd : k < off + d.length
    · rw [List.getElem?_append_left (by omega), if_pos hkd]
    · rw [List.getElem?_append_right (by omega), if_neg hkd, List.getElem?_drop]
      congr 1; omega

theorem overwrite_nil (pad : α) (f : List α) (off : ℕ) : overwrite pad f off [] = f := by
  simp [overwrite]

/-- A write makes the file reach at least to its own end, and never shorter. -/
theorem overwrite_length (pad : α) (f : List α) (off : ℕ) {d : List α} (hd : d ≠ []) :
    (overwrite pad f off d).length = max f.length (off + d.length) := by
  have hne : d.isEmpty = false := by simpa using hd
  simp only [overwrite, hne, Bool.false_eq_true, if_false, List.length_append, List.length_take,
    List.length_replicate, List.length_drop]
  omega

/-- Reading back the region just written. -/
theorem slice_overwrite_self (pad : α) (f : List α) (off : ℕ) (d : List α) :
    slice (overwrite pad f off d) off d.length = d := by
  by_cases hd : d = []
  · subst hd; simp
  · apply List.ext_getElem?
    intro k
    rw [getElem?_slice, getElem?_overwrite pad f off hd]
    by_cases hk : k < d.length
    · simp [hk]
    · simp [hk]

/-- A region that ends inside the file and before the write is unchanged. -/
theorem slice_overwrite_before (pad : α) (f : List α) {off o n : ℕ} (d : List α)
    (hle : o + n ≤ off) (hf : o + n ≤ f.length) :
    slice (overwrite pad f off d) o n = slice f o n := by
  by_cases hd : d = []
  · subst hd; rw [overwrite_nil]
  · apply List.ext_getElem?
    intro k
    rw [getElem?_slice, getElem?_slice, getElem?_overwrite pad f off hd]
    by_cases hk : k < n
    · simp [hk, show o + k < off by omega, show o + k < f.length by omega]
    · simp [hk]

/-- A region that starts at or after the end of the write is unchanged. -/
theorem slice_overwrite_after (pad : α) (f : List α) {off o : ℕ} (n : ℕ) (d : List α)
    (hle : off + d.length ≤ o) :
    slice (overwrite pad f off d) o n = slice f o n := by
  by_cases hd : d = []
  · subst hd; rw [overwrite_nil]
  · apply List.ext_getElem?
    intro k
    rw [getElem?_slice, getElem?_slice, getElem?_overwrite pad f off hd]
    by_cases hk : k < n
    · simp [hk, show ¬ o + k < off by omega, show ¬ o + k < off + d.length by omega]
    · simp [hk]

end Region
