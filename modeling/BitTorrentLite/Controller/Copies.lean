import BitTorrentLite.Controller.Integrity

/-! # Late Copies of Blocks

    `received_block` does not look at the status of a piece. A block of a piece
    that is done is stored as any other, and when all its blocks have come in
    again the piece is checked and written once more. A right copy carries the
    bytes the file holds at its place; as long as all copies are right, what
    is stored of a piece that is done agrees with the disk, and the second
    check ends as the first one did.
-/

open Machine Region Tiling

namespace BitTorrentLite

/-- `off` is the offset of one of the blocks of piece `i`. -/
def Metadata.Counted (m : Metadata) (i : ℕ) (off : ℤ) : Prop :=
  ∃ b : ℕ, (b : ℤ) < m.count_blocks i ∧ off = Metadata.block_offset b

namespace Controller

open Metadata (block_offset)

/-! ### Right Copies -/

/-- A block of a piece that is done carries the bytes `get_block` reads at its
    place. -/
def RightCopy (c : Controller) (x off : ℤ) (data : Bytes) : Prop :=
  ∀ i : ℕ, x = i → c.piece_status i = 1 → c.Counted i off →
    (data.length : ℤ) = c.block_size i off → c.get_block i off = .ok data

/-- The stored blocks of piece `i` agree with its bytes. -/
def Agrees (c : Controller) (i : ℕ) (piece : Bytes) : Prop :=
  ∀ b < c.block_count i, ∀ d, c.piece_blocks i (block_offset b) = some d →
    d = slice piece (b * 16384) (tile_size (c.piece_size i) 16384 b)

/-- What is known of a piece that is done: it lies on the disk, matches its
    hash, and the copies stored since agree with it. Of a piece too large to
    count, nothing was asked but the hash of no bytes. -/
def Settled (sha1 : Bytes → Bytes) (c : Controller) (i : ℕ) : Prop :=
  (c.count_blocks i ≤ 0 ∧ sha1 [] = c.piece_hash.getD i []) ∨
    (c.count_blocks i = c.block_count i ∧
      c.OnDisk i fun piece => sha1 piece = c.piece_hash.getD i [] ∧ c.Agrees i piece)

/-- What holds between any two calls while all copies are right. -/
structure Copies (sha1 : Bytes → Bytes) (c : Controller) : Prop where
  sized : c.BlocksSized
  settled : ∀ i < c.total_pieces, c.piece_status i = 1 → c.Settled sha1 i

variable {sha1 : Bytes → Bytes} {c c' : Controller} {i j b : ℕ} {off : ℤ} {data piece : Bytes}

/-- A right copy of block `b` is the block as it lies on the disk. -/
theorem RightCopy.eq_slice (hg : c.Consistent) (hi : i < c.total_pieces)
    (hb : b < c.block_count i) (hcopy : c.get_block i (block_offset b) = .ok data)
    (hlen : (data.length : ℤ) = c.block_size i (block_offset b)) {f : Bytes}
    (hf : c.file = some f) :
    data = slice (slice f (c.piece_start i) (c.piece_size i)) (b * 16384)
      (tile_size (c.piece_size i) 16384 b) := by
  have hsize := hg.block_size_eq hi hb
  have hpos := tile_size_pos (by norm_num) hb
  have hne : data ≠ [] := by
    rintro rfl
    rw [hsize, List.length_nil] at hlen
    omega
  obtain ⟨k, f', hk, hserved⟩ := get_block_served hcopy hne
  obtain rfl : i = k := by exact_mod_cast hk
  obtain rfl := Option.some.inj (hf.symm.trans hserved.file)
  exact hserved.block_eq hg hb

/-- The stored blocks of a complete piece, where they agree with its bytes, are
    the piece. -/
theorem Agrees.assembled (h : c.Agrees i piece) (hcount : c.count_blocks i = c.block_count i)
    (hlen : piece.length = c.piece_size i) (hcomp : c.complete i = true) :
    c.assembled i = piece := by
  have hcov := flatMap_tiles piece (show 0 < 16384 by norm_num)
  unfold Controller.assembled
  rw [hcount, Int.toNat_natCast, ← hcov, hlen]
  apply List.flatMap_congr
  intro b hb
  have hb := List.mem_range.mp hb
  obtain ⟨d, hd⟩ := stored_of_complete hcomp (by rw [hcount]; exact_mod_cast hb)
  rw [hd, Option.getD_some]
  exact h b hb d hd

/-- Storing a right copy keeps the agreement. -/
theorem Agrees.store (h : c.Agrees j piece)
    (hcopy : j = i → ∀ b < c.block_count i, off = block_offset b →
      data = slice piece (b * 16384) (tile_size (c.piece_size i) 16384 b)) :
    (c.store i off data).Agrees j piece := by
  intro b hb d hd
  rcases store_cases hd with ⟨rfl, hoff, rfl⟩ | hold
  · exact hcopy rfl b hb hoff.symm
  · exact h b hb d hold

/-! ### Every Call Keeps Them -/

theorem copies_make (sha1 : Bytes → Bytes) {m : Metadata} (hm : m.mode = .LEECHER)
    (disk : Option Bytes) : (make m disk).Copies sha1 where
  sized := (integrity_make sha1 hm disk).sized
  settled := by
    intro i _ hst
    simp [make, hm] at hst

/-- A call that changes no stored block, no file and marks no piece done. -/
theorem Copies.undisturbed (h : c.Copies sha1) (hq : c.Undisturbed c') : c'.Copies sha1 where
  sized := by
    unfold BlocksSized
    rw [hq.toMetadata, hq.piece_blocks]
    exact h.sized
  settled := by
    intro i hi hone
    unfold Settled OnDisk Agrees
    rw [hq.file, hq.piece_blocks, hq.toMetadata]
    exact h.settled i (hq.toMetadata ▸ hi) (hq.done i hone)

/-- The stored blocks of a complete piece make up the piece, or nothing when
    it is too large to count. -/
theorem assembled_cases (hg : c.Consistent) (hs : c.BlocksSized) (hi : i < c.total_pieces)
    (hcomp : c.complete i = true) :
    (c.count_blocks i ≤ 0 ∧ c.assembled i = []) ∨
      (c.count_blocks i = c.block_count i ∧ (c.assembled i).length = c.piece_size i) := by
  rcases hg.count_blocks_cases hi with ⟨-, hcount⟩ | ⟨-, hnone⟩
  · exact .inr ⟨hcount, length_assembled hcount hcomp (hs i hi)⟩
  · refine .inl ⟨hnone, ?_⟩
    unfold Controller.assembled
    rw [Int.toNat_of_nonpos hnone]
    rfl

/-- Writing what was assembled of one piece leaves every other piece as it is. -/
theorem onDisk_write_assembled (hg : c.Consistent) (hs : c.BlocksSized) (hi : i < c.total_pieces)
    (hcomp : c.complete i = true) (hij : i ≠ j) {P : Bytes → Prop} (hv : c.OnDisk j P) :
    (c.write_to_disk i (c.assembled i)).OnDisk j P := by
  rcases assembled_cases hg hs hi hcomp with ⟨-, hnil⟩ | ⟨-, hlen⟩
  · obtain ⟨f, hf, hend, hP⟩ := hv
    refine ⟨f, ?_, hend, hP⟩
    rw [hnil, write_to_disk_file hg, hf, Option.getD_some, overwrite_nil]
  · exact onDisk_write_other hg hij hlen hv

/-- A copy that is stored leaves a piece that is done settled. -/
theorem Settled.store (hg : c.Consistent) (hi : i < c.total_pieces)
    (hlen : (data.length : ℤ) = c.block_size i off)
    (hcopy : j = i → c.Counted i off → c.get_block i off = .ok data) (h : c.Settled sha1 j) :
    (c.store i off data).Settled sha1 j := by
  rcases h with hnone | ⟨hcount, f, hf, hend, hhash, hagrees⟩
  · exact .inl hnone
  · refine .inr ⟨hcount, f, hf, hend, hhash, hagrees.store ?_⟩
    rintro rfl b hb rfl
    have hright := hcopy rfl ⟨b, by rw [hcount]; exact_mod_cast hb, rfl⟩
    exact RightCopy.eq_slice hg hi hb hright hlen hf

/-- A piece that is done and complete again matches its hash again. -/
theorem Settled.hash (h : c.Settled sha1 i) (hcomp : c.complete i = true) :
    sha1 (c.assembled i) = c.piece_hash.getD i [] := by
  rcases h with ⟨hnone, hhash⟩ | ⟨hcount, f, -, hend, hhash, hagrees⟩
  · unfold Controller.assembled
    rw [Int.toNat_of_nonpos hnone]
    exact hhash
  · rw [hagrees.assembled hcount (slice_length_of_le hend) hcomp]
    exact hhash

/-- Dropping the blocks of another piece leaves a piece that is done settled. -/
theorem Settled.settle (h : c.Settled sha1 j) (i status : ℕ) :
    (c.settle i status).Settled sha1 j := by
  rcases h with hnone | ⟨hcount, f, hf, hend, hhash, hagrees⟩
  · exact .inl hnone
  · refine .inr ⟨hcount, f, hf, hend, hhash, fun b hb d hd => ?_⟩
    exact hagrees b hb d (settle_cases hd).2

/-- A piece that is complete and matches is settled once it is written and its
    blocks are dropped. -/
theorem settled_write_self (hg : c.Consistent) (hs : c.BlocksSized) (hi : i < c.total_pieces)
    (hcomp : c.complete i = true) (hhash : sha1 (c.assembled i) = c.piece_hash.getD i []) :
    ((c.write_to_disk i (c.assembled i)).settle i 1).Settled sha1 i := by
  rcases assembled_cases hg hs hi hcomp with ⟨hnone, hnil⟩ | ⟨hcount, hlen⟩
  · rw [hnil] at hhash
    exact .inl ⟨hnone, hhash⟩
  · obtain ⟨f, hf, hend, hmatch⟩ := onDisk_write_self hg hi hlen
      (P := fun piece => sha1 piece = c.piece_hash.getD i []) hhash
    refine .inr ⟨hcount, f, hf, hend, hmatch, fun b hb d hd => ?_⟩
    exact absurd rfl (settle_cases hd).1

/-- Another piece is settled as it was. -/
theorem Settled.write_other (hg : c.Consistent) (hs : c.BlocksSized) (hi : i < c.total_pieces)
    (hcomp : c.complete i = true) (hij : i ≠ j) (h : c.Settled sha1 j) :
    (c.write_to_disk i (c.assembled i)).Settled sha1 j := by
  rcases h with hnone | ⟨hcount, hdisk⟩
  · exact .inl hnone
  · exact .inr ⟨hcount, onDisk_write_assembled hg hs hi hcomp hij hdisk⟩

/-- **Step lemma**: when the block is a right copy, `received_block` keeps
    what is known of the pieces that are done and takes no status back. -/
theorem Copies.received (hg : c.Consistent) (h : c.Copies sha1) {x : ℤ} {done : Bool}
    (hcopy : c.RightCopy x off data) (hrec : Received c sha1 x off data c' done) :
    c'.Copies sha1 ∧ ∀ j, c.piece_status j = 1 → c'.piece_status j = 1 := by
  -- what is known of a piece that is done, once the block is stored
  have stored {i : ℕ} (hx : x = i) (hi : i < c.total_pieces)
      (hlen : (data.length : ℤ) = c.block_size i off) {j : ℕ} (hj : j < c.total_pieces)
      (hone : c.piece_status j = 1) : (c.store i off data).Settled sha1 j := by
    refine (h.settled j hj hone).store hg hi hlen ?_
    rintro rfl hcounted
    exact hcopy j hx hone hcounted hlen
  cases hrec with
  | rejected => exact ⟨h, fun _ hone => hone⟩
  | stored i hx hi _ hlen _ =>
    refine ⟨⟨blocksSized_store hg h.sized hi hlen, ?_⟩, fun _ hone => hone⟩
    exact fun j hj hone => stored hx hi hlen hj hone
  | mismatch i hx hi _ hlen hcomp hhash =>
    refine ⟨⟨blocksSized_settle (blocksSized_store hg h.sized hi hlen) 0, ?_⟩, ?_⟩
    · intro j hj hone
      exact (stored hx hi hlen hj (done_of_update (by decide) hone)).settle i 0
    · intro j hone
      -- a piece that is done would have matched
      have hji : j ≠ i := by
        rintro rfl
        exact hhash ((stored hx hi hlen hi hone).hash hcomp)
      exact (Function.update_of_ne hji ..).trans hone
  | finished i hx hi _ hlen hcomp hhash =>
    have hg₁ : (c.store i off data).Consistent := hg
    have hsized := blocksSized_store hg h.sized hi hlen
    refine ⟨⟨blocksSized_settle (c := (c.store i off data).write_to_disk i _) hsized 1, ?_⟩, ?_⟩
    · intro j hj hone
      by_cases hij : i = j
      · subst hij
        exact settled_write_self hg₁ hsized hi hcomp hhash
      · have hold : c.piece_status j = 1 := (Function.update_of_ne (Ne.symm hij) ..).symm.trans hone
        have hother := (stored hx hi hlen hj hold).write_other hg₁ hsized hi hcomp hij
        exact hother.settle i 1
    · intro j hone
      by_cases hji : j = i
      · rw [hji]
        exact Function.update_self ..
      · exact (Function.update_of_ne hji ..).trans hone

end Controller

end BitTorrentLite
