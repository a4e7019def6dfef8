import BitTorrentLite.Controller.Disk
import BitTorrentLite.Controller.System

/-! # Download Integrity

    A piece is marked done only after its bytes, all of them and no others,
    were written to its own region of the file and matched its hash; no later
    write touches that region. What carries the argument is the size of the
    stored blocks: a block at the offset of block `b` has exactly the size
    of block `b`, so the blocks of a complete piece make up the whole piece
    and a write never runs into a neighbour.
-/

open Machine Region Tiling LTS

namespace BitTorrentLite

namespace Controller

open Metadata (block_offset)

/-- Piece `i` lies on the disk and its bytes
    `[i * piece_length, i * piece_length + piece_length_for(i))` match its hash. -/
def Verified (sha1 : Bytes → Bytes) (c : Controller) (i : ℕ) : Prop :=
  ∃ f, c.file = some f ∧ (i * c.piece_length + c.piece_length_for i).toNat ≤ f.length ∧
    sha1 (slice f (i * c.piece_length).toNat (c.piece_length_for i).toNat)
      = c.piece_hash.getD i []

/-- Every stored block that lies on a block boundary has the size of that block. -/
def BlocksSized (c : Controller) : Prop :=
  ∀ i < c.total_pieces, ∀ b < c.block_count i, ∀ d,
    c.piece_blocks i (block_offset b) = some d → d.length = tile_size (c.piece_size i) 16384 b

/-- Every piece marked done is verified on the disk. -/
def DoneVerified (sha1 : Bytes → Bytes) (c : Controller) : Prop :=
  ∀ i < c.total_pieces, c.piece_status i = 1 → c.Verified sha1 i

variable {sha1 : Bytes → Bytes} {c c' : Controller} {i j : ℕ}

theorem verified_iff (hg : c.Consistent) (hi : i < c.total_pieces) :
    c.Verified sha1 i ↔ c.OnDisk i fun piece => sha1 piece = c.piece_hash.getD i [] := by
  unfold Verified OnDisk
  rw [hg.piece_length_for_eq hi, hg.file_offset_eq]
  norm_cast

/-! ### Stored Blocks -/

/-- Storing a block of the length `received_block` asks for keeps the sizes. -/
theorem blocksSized_store (hg : c.Consistent) (hs : c.BlocksSized) (hi : i < c.total_pieces)
    {off : ℤ} {data : Bytes} (hlen : (data.length : ℤ) = c.block_size i off) :
    (c.store i off data).BlocksSized := by
  intro j hj b hb d hd
  rcases store_cases hd with ⟨rfl, hoff, rfl⟩ | hold
  -- the new block, at the offset of block `b`
  · have hsize := hg.block_size_eq hi hb
    rw [hoff, ← hlen] at hsize
    exact_mod_cast hsize
  · exact hs j hj b hb d hold

/-- Dropping the blocks of a piece keeps the sizes of the others. -/
theorem blocksSized_settle (hs : c.BlocksSized) (status : ℕ) : (c.settle i status).BlocksSized := by
  intro j hj b hb d hd
  exact hs j hj b hb d (settle_cases hd).2

/-- The stored blocks of a complete piece make up exactly the piece. -/
theorem assembled_length (hg : c.Consistent) (hfit : c.CountFits) (hs : c.BlocksSized)
    (hi : i < c.total_pieces) (hcomp : c.complete i = true) :
    (c.assembled i).length = c.piece_size i :=
  length_assembled (hg.count_blocks_eq hfit hi) hcomp (hs i hi)

/-! ### The Invariant -/

/-- What holds between any two calls. -/
structure Integrity (sha1 : Bytes → Bytes) (c : Controller) : Prop where
  sized : c.BlocksSized
  done : c.DoneVerified sha1

theorem integrity_make (sha1 : Bytes → Bytes) {m : Metadata} (hm : m.mode = .LEECHER)
    (disk : Option Bytes) : (make m disk).Integrity sha1 where
  sized := by
    intro i _ b _ d hd
    cases hd
  done := by
    intro i _ hst
    simp [make, hm] at hst

/-- A call that changes no stored block, no file and marks no piece done. -/
theorem Integrity.undisturbed (h : c.Integrity sha1) (hq : c.Undisturbed c') :
    c'.Integrity sha1 where
  sized := by
    unfold BlocksSized
    rw [hq.toMetadata, hq.piece_blocks]
    exact h.sized
  done := by
    intro i hi hone
    unfold Verified
    rw [hq.file, hq.toMetadata]
    exact h.done i (hq.toMetadata ▸ hi) (hq.done i hone)

/-- Every outcome of `received_block` keeps the invariant. -/
theorem Integrity.received (hg : c.Consistent) (hfit : c.CountFits) (h : c.Integrity sha1)
    {x off : ℤ} {data : Bytes} {done : Bool} (hrec : Received c sha1 x off data c' done) :
    c'.Integrity sha1 := by
  cases hrec with
  | rejected => exact h
  | stored i _ hi _ hlen _ =>
    exact ⟨blocksSized_store hg h.sized hi hlen, h.done⟩
  | mismatch i _ hi _ hlen _ _ =>
    refine ⟨blocksSized_settle (blocksSized_store hg h.sized hi hlen) 0, ?_⟩
    intro j hj hone
    simp only [settle_piece_status, store_piece_status, Function.update_apply] at hone
    split at hone
    · cases hone
    · exact h.done j hj hone
  | finished i _ hi _ hlen hcomp hhash =>
    have hg₁ : (c.store i off data).Consistent := hg
    have hstored := blocksSized_store hg h.sized hi hlen
    have hplen := assembled_length (c := c.store i off data) hg hfit hstored hi hcomp
    refine ⟨blocksSized_settle (c := (c.store i off data).write_to_disk i _) hstored 1, ?_⟩
    intro j hj hone
    -- the piece just written, or one whose region the write does not touch
    by_cases hij : i = j
    · subst hij
      exact (verified_iff (c := Controller.write_to_disk (c.store i off data) i _) hg hi).mpr
        (onDisk_write_self hg₁ hi hplen (P := fun piece => sha1 piece = c.piece_hash.getD i [])
          hhash)
    · simp only [announce_piece_status, settle_piece_status, write_to_disk_piece_status,
        store_piece_status, Function.update_apply, if_neg (Ne.symm hij)] at hone
      have hold : (c.store i off data).OnDisk j
          fun piece => sha1 piece = c.piece_hash.getD j [] :=
        (verified_iff hg hj).mp (h.done j hj hone)
      exact (verified_iff (c := Controller.write_to_disk (c.store i off data) i _) hg hj).mpr
        (onDisk_write_other hg₁ hij hplen hold)

/-- **Step lemma**: every call keeps the invariant. -/
theorem Integrity.stepped (hg : c.Consistent) (hfit : c.CountFits) (h : c.Integrity sha1)
    (hstep : Stepped sha1 c c') : c'.Integrity sha1 := by
  rcases hstep.received_or_undisturbed with ⟨x, off, data, done, hrec⟩ | hquiet
  · exact h.received hg hfit hrec
  · exact h.undisturbed hquiet

/-- **Run lemma**: the invariant holds in every state a leecher reaches. -/
theorem reachable_integrity {m : Metadata} (hm : m.mode = .LEECHER) (hg : m.Consistent)
    (hfit : m.CountFits) {disk : Option Bytes} (h : (system sha1 (make m disk)).Reachable c) :
    c.Integrity sha1 := by
  refine System.invariant (I := Integrity sha1) ?_ ?_ c h
  · rintro c rfl
    exact integrity_make sha1 hm disk
  · intro c op c' hr hc hstep
    have hmeta : c.toMetadata = m := reachable_toMetadata hr
    exact hc.stepped (hmeta ▸ hg) (hmeta ▸ hfit) (exec_stepped hstep)

/-- **Download integrity**: in every state a leecher reaches, whatever its peers
    sent in whatever order, each piece marked done matches its hash on the
    disk; when `wait_until_done` returns, every piece of the file does. -/
theorem downloaded_pieces_verified (sha1 : Bytes → Bytes) {m : Metadata}
    (hm : m.mode = .LEECHER) (hg : m.Consistent) (hfit : m.CountFits) (disk : Option Bytes)
    {c : Controller} (h : (system sha1 (make m disk)).Reachable c) :
    (∀ i < c.total_pieces, c.piece_status i = 1 → c.Verified sha1 i) ∧
      (c.wait_until_done = true → ∀ i < c.total_pieces, c.Verified sha1 i) := by
  have hdone := (reachable_integrity hm hg hfit h).done
  refine ⟨hdone, fun hwait i hi => ?_⟩
  exact hdone i hi (wait_until_done_iff.mp hwait i hi)

/-- A one-byte file whose only block has arrived. -/
theorem tiny_downloaded_verified :
    ∃ c : Controller, c.wait_until_done = true ∧ c.Verified id 0 := by
  obtain ⟨c, hr, hwait⟩ := System.Reachable.exists_of_run (exec_step id)
    (.init rfl : (system id (make (.tiny .LEECHER [7]) none)).Reachable _)
    [.received_block 0 0 [7]] (P := wait_until_done) (by decide +kernel)
  have hv := (downloaded_pieces_verified id rfl (Metadata.tiny_consistent _ _)
    (Metadata.tiny_countFits _ _) none hr).2 hwait
  have hmeta : c.toMetadata = .tiny .LEECHER [7] := reachable_toMetadata hr
  exact ⟨c, hwait, hv 0 (by rw [hmeta]; decide)⟩

/-! ### A Piece Too Large to Count -/

/-- A hash that tells the empty string from every other one. -/
def hash_nonempty (x : Bytes) : Bytes := if x.isEmpty then [] else [1]

/-- With one piece of `2^31 - 1` bytes and the hash of the empty string, the
    first block that arrives marks the piece done, and none of it is on the
    disk. -/
theorem oversized_piece_not_verified :
    (Metadata.largest .LEECHER []).Consistent ∧ ∃ c : Controller,
      (system hash_nonempty (make (.largest .LEECHER []) none)).Reachable c ∧
        0 < c.total_pieces ∧ c.piece_status 0 = 1 ∧ ¬ c.Verified hash_nonempty 0 := by
  refine ⟨Metadata.largest_consistent _ _, ?_⟩
  obtain ⟨c, hr, hst⟩ := System.Reachable.exists_of_run (exec_step hash_nonempty)
    (.init rfl : (system hash_nonempty (make (.largest .LEECHER []) none)).Reachable _)
    [.received_block 0 2147483646 [0]] (P := fun c => c.piece_status 0 == 1) (by decide +kernel)
  have hmeta : c.toMetadata = .largest .LEECHER [] := reachable_toMetadata hr
  have hg : c.Consistent := hmeta ▸ Metadata.largest_consistent _ _
  have hpos := hg.total_pieces_pos
  refine ⟨c, hr, hpos, by simpa using hst, fun hv => ?_⟩
  -- verified would mean a region of 2^31 - 1 bytes with the hash of nothing
  obtain ⟨f, -, hend, hhash⟩ := (verified_iff hg hpos).mp hv
  have hlen : (slice f (c.piece_start 0) (c.piece_size 0)).length = c.piece_size 0 :=
    slice_length_of_le hend
  have hsize := hg.piece_size_pos hpos
  have hempty : hash_nonempty (slice f (c.piece_start 0) (c.piece_size 0)) = [] := by
    rw [hhash, hmeta]
    rfl
  unfold hash_nonempty at hempty
  split at hempty
  · rename_i hnil
    rw [List.isEmpty_iff.mp hnil, List.length_nil] at hlen
    omega
  · cases hempty

end Controller

end BitTorrentLite
