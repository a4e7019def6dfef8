import BitTorrentLite.Base.Region

/-! # Tiling a File

    Cutting `len` elements into tiles of `sz`, the last one possibly shorter:
    how many tiles there are, how long each is, that they lie side by side,
    and that the tiles put together again are the whole. A file is cut into
    pieces and a piece into blocks by the same arithmetic.
-/

namespace Tiling

open Region

variable {α : Type*}

/-- The number of tiles of `sz` elements that cover `len` elements. -/
def tile_count (len sz : ℕ) : ℕ := (len + sz - 1) / sz

/-- The length of tile `i`. -/
def tile_size (len sz i : ℕ) : ℕ := min sz (len - i * sz)

/-! ### Arithmetic of Tiles -/

/-- Tile `i` exists exactly when it starts before the end. -/
theorem lt_tile_count {len sz i : ℕ} (hsz : 0 < sz) : i < tile_count len sz ↔ i * sz < len := by
  unfold tile_count
  rw [Nat.lt_iff_add_one_le, Nat.le_div_iff_mul_le hsz, Nat.add_mul, Nat.one_mul]
  omega

theorem tile_count_pos {len sz : ℕ} (hsz : 0 < sz) (hlen : 0 < len) : 0 < tile_count len sz := by
  rw [lt_tile_count hsz]; omega

@[simp] theorem tile_count_zero (sz : ℕ) : tile_count 0 sz = 0 := by
  unfold tile_count
  rcases Nat.eq_zero_or_pos sz with h | h
  · simp [h]
  · exact Nat.div_eq_of_lt (by omega)

theorem tile_size_le (len sz i : ℕ) : tile_size len sz i ≤ sz := Nat.min_le_left _ _

theorem tile_size_pos {len sz i : ℕ} (hsz : 0 < sz) (hi : i < tile_count len sz) :
    0 < tile_size len sz i := by
  rw [lt_tile_count hsz] at hi
  unfold tile_size; omega

/-- A tile ends inside the whole. -/
theorem tile_end_le {len sz i : ℕ} (hsz : 0 < sz) (hi : i < tile_count len sz) :
    i * sz + tile_size len sz i ≤ len := by
  rw [lt_tile_count hsz] at hi
  unfold tile_size; omega

/-- Every tile but the last is full. -/
theorem tile_size_full {len sz i : ℕ} (hsz : 0 < sz) (hi : i + 1 < tile_count len sz) :
    tile_size len sz i = sz := by
  rw [lt_tile_count hsz, Nat.add_mul, Nat.one_mul] at hi
  unfold tile_size; omega

/-- The last tile is what the full ones before it leave. -/
theorem tile_size_last {len sz i : ℕ} (hsz : 0 < sz) (hi : i + 1 = tile_count len sz) :
    tile_size len sz i = len - i * sz := by
  have hno : ¬ i + 1 < tile_count len sz := by omega
  rw [lt_tile_count hsz, Nat.add_mul, Nat.one_mul] at hno
  unfold tile_size; omega

/-- A tile ends where the next one starts, or before. -/
theorem tile_end_le_next (len sz : ℕ) {i j : ℕ} (hij : i < j) :
    i * sz + tile_size len sz i ≤ j * sz := by
  have hstep : (i + 1) * sz ≤ j * sz := Nat.mul_le_mul_right sz hij
  have hle := tile_size_le len sz i
  rw [Nat.add_mul, Nat.one_mul] at hstep
  omega

/-- **Tiles partition**: every position lies in one tile, and in no other. -/
theorem existsUnique_tile {len sz x : ℕ} (hsz : 0 < sz) (hx : x < len) :
    ∃! i, i < tile_count len sz ∧ i * sz ≤ x ∧ x < i * sz + tile_size len sz i := by
  have hstart : x / sz * sz ≤ x := Nat.div_mul_le_self x sz
  have hstop : x < (x / sz + 1) * sz := Nat.lt_mul_of_div_lt (Nat.lt_succ_self _) hsz
  rw [Nat.add_mul, Nat.one_mul] at hstop
  refine ⟨x / sz, ⟨(lt_tile_count hsz).mpr (by omega), hstart, ?_⟩, ?_⟩
  · unfold tile_size
    omega
  · rintro j ⟨-, hj, hjx⟩
    have hle := tile_size_le len sz j
    refine (Nat.div_eq_of_lt_le hj ?_).symm
    rw [Nat.add_mul, Nat.one_mul]
    omega

/-- Full tiles before the others. -/
theorem tile_count_mul_add {sz : ℕ} (hsz : 0 < sz) (k r : ℕ) :
    tile_count (k * sz + r) sz = k + tile_count r sz := by
  unfold tile_count
  have hlast : k * sz + r + sz - 1 = r + sz - 1 + k * sz := by omega
  rw [hlast, Nat.add_mul_div_right _ _ hsz, Nat.add_comm]

/-- Tiles of `q` smaller tiles hold, together, as many of these as the whole. -/
theorem sum_first_tile_counts (len : ℕ) {sz : ℕ} (hsz : 0 < sz) (q n : ℕ) :
    ∑ i ∈ Finset.range n, tile_count (tile_size len (q * sz) i) sz
      = tile_count (min len (n * (q * sz))) sz := by
  induction n with
  | zero => simp
  | succ n ih =>
    rw [Finset.sum_range_succ, ih, Nat.succ_mul]
    by_cases hend : len ≤ n * (q * sz)
    -- the whole has ended before
    · have hnone : tile_size len (q * sz) n = 0 := by
        unfold tile_size
        omega
      rw [hnone, tile_count_zero, min_eq_left hend, min_eq_left (by omega), Nat.add_zero]
    -- `n * q` full tiles, and those of the rest
    · have hfull : min len (n * (q * sz)) = n * q * sz + 0 := by
        rw [min_eq_right (by omega), Nat.mul_assoc, Nat.add_zero]
      have hrest : min len (n * (q * sz) + q * sz)
          = n * q * sz + tile_size len (q * sz) n := by
        unfold tile_size
        rw [Nat.mul_assoc]
        omega
      rw [hfull, hrest, tile_count_mul_add hsz, tile_count_mul_add hsz, tile_count_zero,
        Nat.add_zero]

theorem sum_tile_counts {len sz q : ℕ} (hsz : 0 < sz) (hq : 0 < q) :
    ∑ i ∈ Finset.range (tile_count len (q * sz)), tile_count (tile_size len (q * sz) i) sz
      = tile_count len sz := by
  have hpos : 0 < q * sz := Nat.mul_pos hq hsz
  rw [sum_first_tile_counts len hsz, min_eq_left]
  by_contra hlt
  have := (lt_tile_count hpos).mpr (Nat.lt_of_not_le hlt)
  omega

/-! ### Putting Tiles Together -/

/-- The first `n` tiles of a file, one after the other, are its first
    `n * sz` elements. -/
theorem flatMap_first_tiles (f : List α) {sz : ℕ} (hsz : 0 < sz) (n : ℕ)
    (hn : n ≤ tile_count f.length sz) :
    (List.range n).flatMap (fun i => slice f (i * sz) (tile_size f.length sz i))
      = f.take (n * sz) := by
  induction n with
  | zero => simp
  | succ n ih =>
    have hlt : n < tile_count f.length sz := hn
    have htake : f.take ((n + 1) * sz) = f.take (n * sz) ++ (f.drop (n * sz)).take sz := by
      rw [Nat.add_mul, Nat.one_mul, List.take_add]
    have hlast : slice f (n * sz) (tile_size f.length sz n) = (f.drop (n * sz)).take sz := by
      unfold slice tile_size
      rw [← List.length_drop, List.take_eq_take_iff, List.length_drop]
      omega
    rw [List.range_succ, List.flatMap_append, ih hlt.le, htake]
    simp [hlast]

/-- **Tiles cover**: all tiles of a file, in order, are the file. -/
theorem flatMap_tiles (f : List α) {sz : ℕ} (hsz : 0 < sz) :
    (List.range (tile_count f.length sz)).flatMap
      (fun i => slice f (i * sz) (tile_size f.length sz i)) = f := by
  rw [flatMap_first_tiles f hsz _ le_rfl, List.take_eq_self_iff]
  by_contra hlt
  have := (lt_tile_count hsz).mpr (Nat.lt_of_not_le hlt)
  omega

/-- Lists as long as the first `n` tiles are, put together, as long as those. -/
theorem length_flatMap_first_tiles (g : ℕ → List α) {len sz : ℕ} (hsz : 0 < sz) (n : ℕ)
    (hn : n ≤ tile_count len sz) (hg : ∀ i < n, (g i).length = tile_size len sz i) :
    ((List.range n).flatMap g).length = min len (n * sz) := by
  induction n with
  | zero => simp
  | succ n ih =>
    have hlt : n * sz < len := (lt_tile_count hsz).mp hn
    have hprev := ih (by omega) (fun i hi => hg i (by omega))
    have hlast := hg n (by omega)
    rw [List.range_succ, List.flatMap_append, List.length_append, hprev]
    simp only [List.flatMap_cons, List.flatMap_nil, List.append_nil, hlast, tile_size]
    rw [Nat.add_mul, Nat.one_mul]
    omega

/-- Lists as long as the tiles are, put together, as long as the whole. -/
theorem length_flatMap_tiles (g : ℕ → List α) {len sz : ℕ} (hsz : 0 < sz)
    (hg : ∀ i < tile_count len sz, (g i).length = tile_size len sz i) :
    ((List.range (tile_count len sz)).flatMap g).length = len := by
  rw [length_flatMap_first_tiles g hsz _ le_rfl hg, Nat.min_eq_left]
  by_contra hlt
  have := (lt_tile_count hsz).mpr (Nat.lt_of_not_le hlt)
  omega

/-- The tiles are as long as the whole, together. -/
theorem sum_tile_size {len sz : ℕ} (hsz : 0 < sz) :
    ∑ i ∈ Finset.range (tile_count len sz), tile_size len sz i = len := by
  have hflat := length_flatMap_tiles (fun i => List.replicate (tile_size len sz i) ()) hsz
    fun i _ => List.length_replicate
  rw [List.length_flatMap] at hflat
  simp only [List.length_replicate] at hflat
  exact hflat

/-- A file all of whose tiles read as those of `f` starts with `f`. -/
theorem slice_eq_of_tiles {f g : List α} {sz : ℕ} (hsz : 0 < sz)
    (hlen : f.length ≤ g.length)
    (h : ∀ i < tile_count f.length sz,
      slice g (i * sz) (tile_size f.length sz i) = slice f (i * sz) (tile_size f.length sz i)) :
    slice g 0 f.length = f := by
  have hpre : (slice g 0 f.length).length = f.length := slice_length_of_le (by omega)
  calc slice g 0 f.length
      = (List.range (tile_count f.length sz)).flatMap
          (fun i => slice (slice g 0 f.length) (i * sz) (tile_size f.length sz i)) := by
        have hcov := flatMap_tiles (slice g 0 f.length) hsz
        rw [hpre] at hcov
        exact hcov.symm
    _ = (List.range (tile_count f.length sz)).flatMap
          (fun i => slice f (i * sz) (tile_size f.length sz i)) := by
        apply List.flatMap_congr
        intro i hi
        have hend := tile_end_le hsz (List.mem_range.mp hi)
        rw [slice_slice g 0 f.length _ _ hend, Nat.zero_add]
        exact h i (List.mem_range.mp hi)
    _ = f := flatMap_tiles f hsz

/-! ### The List of Tiles -/

/-- The tiles of a file, in order. -/
def tiles (f : List α) (sz : ℕ) : List (List α) :=
  (List.range (tile_count f.length sz)).map fun i =>
    slice f (i * sz) (tile_size f.length sz i)

@[simp] theorem tiles_nil (sz : ℕ) : tiles ([] : List α) sz = [] := by
  unfold tiles
  rw [List.length_nil, tile_count_zero]
  rfl

@[simp] theorem length_tiles (f : List α) (sz : ℕ) :
    (tiles f sz).length = tile_count f.length sz := by
  unfold tiles
  rw [List.length_map, List.length_range]

theorem getElem?_tiles {f : List α} {sz i : ℕ} (hi : i < tile_count f.length sz) :
    (tiles f sz)[i]? = some (slice f (i * sz) (tile_size f.length sz i)) := by
  unfold tiles
  rw [List.getElem?_map, List.getElem?_range hi]
  rfl

/-- One tile more than without the first one. -/
theorem tile_count_succ {len sz : ℕ} (hsz : 0 < sz) (hlen : 0 < len) :
    tile_count len sz = tile_count (len - sz) sz + 1 := by
  unfold tile_count
  rcases Nat.lt_or_ge len sz with hlt | hge
  · rw [Nat.sub_eq_zero_of_le hlt.le, Nat.div_eq_of_lt (show 0 + sz - 1 < sz by omega)]
    exact Nat.div_eq_of_lt_le (by omega) (by omega)
  · rw [show len + sz - 1 = (len - sz + sz - 1) + sz by omega, Nat.add_div_right _ hsz]

/-- The first tile, and the tiles of what comes after it. -/
theorem tiles_cons {f : List α} {sz : ℕ} (hsz : 0 < sz) (hf : f ≠ []) :
    tiles f sz = f.take sz :: tiles (f.drop sz) sz := by
  have hlen : 0 < f.length := List.length_pos_iff.mpr hf
  unfold tiles
  rw [tile_count_succ hsz hlen, List.range_succ_eq_map, List.map_cons, List.map_map,
    List.length_drop]
  refine congrArg₂ List.cons ?_ (List.map_congr_left fun i _ => ?_)
  · unfold slice tile_size
    rw [Nat.zero_mul, List.drop_zero, List.take_eq_take_iff]
    omega
  · show slice f ((i + 1) * sz) (tile_size f.length sz (i + 1)) = _
    unfold slice tile_size
    rw [List.drop_drop, Nat.add_mul, Nat.one_mul, Nat.add_comm sz, Nat.sub_sub, Nat.add_comm sz]

end Tiling
