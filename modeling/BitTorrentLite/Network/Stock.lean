import BitTorrentLite.TwoParty.Exchange

/-! # What a Client of the Network Has

    Clients that exchange one file: leechers that store blocks of the original
    only, and seeders that have it. A piece that lies on the disk as the
    original has it stays there, whatever the client does next and even when
    its status is taken back, and a piece that is done lies there.
-/

open Machine Region Tiling LTS

namespace BitTorrentLite

namespace Controller

open Metadata (block_offset)

variable {sha1 : Bytes → Bytes} {c c' : Controller} {F : Bytes} {i j b : ℕ} {x off : ℤ}

/-- Piece `i` lies on the disk as the original has it. -/
def Held (F : Bytes) (c : Controller) (i : ℕ) : Prop :=
  i < c.total_pieces ∧ c.OnDisk i (· = c.piece_of F i)

/-- The number of a piece that lies on the disk. -/
def Announces (F : Bytes) (c : Controller) (x : ℤ) : Prop := ∃ i : ℕ, x = i ∧ c.Held F i

/-- What holds at a client between any two calls. -/
structure Stocked (F : Bytes) (c : Controller) : Prop where
  done : ∀ i < c.total_pieces, c.piece_status i = 1 → c.Held F i
  leecher : c.mode = .LEECHER → c.Delivering F
  seeder : c.mode = .SEEDER → c.file = some F

theorem Announces.has (h : c.Announces F x) : c.Has x := by
  obtain ⟨i, rfl, hi, -⟩ := h
  exact Metadata.has_natCast hi

theorem held_of_file (hg : c.Consistent) (ho : c.Original sha1 F) (hf : c.file = some F)
    (hi : i < c.total_pieces) : c.Held F i := by
  have hend := hg.piece_end_le hi
  rw [← ho.length_eq] at hend
  exact ⟨hi, F, hf, hend, rfl⟩

theorem stocked_make {m : Metadata} (hg : m.Consistent) (ho : m.Original sha1 F)
    {disk : Option Bytes} (hdisk : m.mode = .SEEDER → disk = some F) :
    (make m disk).Stocked F where
  done := by
    intro i hi hone
    cases hm : m.mode with
    | LEECHER => simp [make, hm] at hone
    | SEEDER => exact held_of_file (c := make m disk) hg ho (hdisk hm) hi
  leecher := fun hl => delivering_make hg hl disk
  seeder := hdisk

/-! ### Calls That Store Nothing -/

theorem Held.undisturbed (h : c.Held F i) (hq : c.Undisturbed c') : c'.Held F i := by
  unfold Held OnDisk
  rw [hq.toMetadata, hq.file]
  exact h

theorem Stocked.undisturbed (h : c.Stocked F) (hq : c.Undisturbed c') : c'.Stocked F where
  done := by
    intro i hi hone
    rw [hq.toMetadata] at hi
    exact (h.done i hi (hq.done i hone)).undisturbed hq
  leecher := by
    intro hl
    rw [hq.toMetadata] at hl
    exact (h.leecher hl).undisturbed hq
  seeder := by
    intro hs
    rw [hq.toMetadata] at hs
    exact hq.file.trans (h.seeder hs)

/-! ### A Block of the Original Arrives -/

/-- Block `b` of piece `i`, at its place. -/
def BlockOf (F : Bytes) (c : Controller) (x off : ℤ) (data : Bytes) : Prop :=
  ∃ i < c.total_pieces, ∃ b < c.block_count i,
    x = i ∧ off = block_offset b ∧ data = c.block_of F i b

variable {data : Bytes} {done : Bool}

/-- A seeder takes no block. -/
theorem Received.seeder (h : Received c sha1 x off data c' done) (hs : c.mode = .SEEDER) :
    c' = c := by
  cases h with
  | rejected => rfl
  | stored _ _ _ hl => cases hl.symm.trans hs
  | mismatch _ _ _ hl => cases hl.symm.trans hs
  | finished _ _ _ hl => cases hl.symm.trans hs

/-- With the last block a piece is the piece of the original. -/
theorem Genuine.assembled_store (hg : c.Consistent) (hfit : c.CountFits)
    (ho : c.Original sha1 F) (h : c.Genuine F) (hi : i < c.total_pieces)
    (hb : b < c.block_count i)
    (hcomp : (c.store i (block_offset b) (c.block_of F i b)).complete i = true) :
    (c.store i (block_offset b) (c.block_of F i b)).assembled i = c.piece_of F i := by
  have hg₁ : (c.store i (block_offset b) (c.block_of F i b)).Consistent := hg
  have ho₁ : (c.store i (block_offset b) (c.block_of F i b)).Original sha1 F := ho
  exact assembled_genuine hg₁ hfit ho₁ (h.store hb) hi hcomp

/-- What lies on the disk is not damaged by a piece of the original. -/
theorem Held.received (hg : c.Consistent) (hfit : c.CountFits) (ho : c.Original sha1 F)
    (hl : c.mode = .LEECHER) (hc : c.Genuine F) (h : c.Held F j) (hblock : c.BlockOf F x off data)
    (hrec : Received c sha1 x off data c' done) : c'.Held F j := by
  obtain ⟨i, hi, b, hb, rfl, rfl, rfl⟩ := hblock
  have hg₁ : (c.store i (block_offset b) (c.block_of F i b)).Consistent := hg
  rcases received_genuine hg hfit ho hl hc hi hb hrec with ⟨rfl, -⟩ | ⟨rfl, hcomp⟩
  · exact h
  · have hpiece := hc.assembled_store hg hfit ho hi hb hcomp
    have hlen : ((c.store i (block_offset b) (c.block_of F i b)).assembled i).length
        = c.piece_size i := by
      rw [hpiece]
      exact ho.piece_length hg hi
    obtain ⟨hj, hdisk⟩ := h
    refine ⟨hj, ?_⟩
    by_cases hij : i = j
    · subst hij
      exact onDisk_write_self hg₁ hi hlen (P := (· = c.piece_of F i)) hpiece
    · exact onDisk_write_other hg₁ hij hlen (P := (· = c.piece_of F j)) hdisk

/-- **Step lemma** for a block that arrives. -/
theorem Stocked.received (hg : c.Consistent) (hfit : c.CountFits) (ho : c.Original sha1 F)
    (h : c.Stocked F) (hblock : c.BlockOf F x off data)
    (hrec : Received c sha1 x off data c' done) : c'.Stocked F := by
  have hmeta := hrec.toMetadata
  cases hm : c.mode with
  | SEEDER =>
    rw [hrec.seeder hm]
    exact h
  | LEECHER =>
    have hm' : c'.mode = .LEECHER := by rw [hmeta, hm]
    obtain ⟨i, hi, b, hb, rfl, rfl, rfl⟩ := hblock
    have hdel : c'.Delivering F := (h.leecher hm).received hg hfit ho hm hi hb hrec
    refine ⟨?_, fun _ => hdel, ?_⟩
    · intro j hj hone
      exact ⟨hj, hdel.done j hj hone⟩
    · intro hs
      rw [hm'] at hs
      cases hs

/-- A piece that has just been finished lies on the disk. -/
theorem Stocked.finished (hg : c.Consistent) (hfit : c.CountFits) (ho : c.Original sha1 F)
    (h : c.Stocked F) (hblock : c.BlockOf F x off data)
    (hrec : Received c sha1 x off data c' done) (hx : x = i) (hi : i < c.total_pieces)
    (hone : c'.piece_status i = 1) : c'.Announces F x := by
  have hmeta := hrec.toMetadata
  refine ⟨i, hx, ?_⟩
  apply (h.received hg hfit ho hblock hrec).done
  · rw [hmeta]
    exact hi
  · exact hone

/-! ### What Is Served -/

/-- A block of the torrent is served as the original has it, or not at all. -/
theorem Stocked.get_block (hg : c.Consistent) (h : c.Stocked F)
    (hb : c.IsBlock x off) {d : Bytes} (hget : c.get_block x off = .ok d) (hne : d ≠ []) :
    c.BlockOf F x off d := by
  obtain ⟨i, hi, b, hb, rfl, rfl⟩ := hb
  refine ⟨i, hi, b, hb, rfl, rfl, ?_⟩
  obtain ⟨i', f, hii, hserved⟩ := get_block_served hget hne
  obtain rfl : i = i' := by exact_mod_cast hii
  obtain ⟨-, f', hf', -, hpiece⟩ := h.done i hi hserved.done
  obtain rfl := Option.some.inj (hserved.file.symm.trans hf')
  -- the region read is block `b` of the region of the piece
  rw [hserved.block_eq hg hb, hpiece]
  exact (Metadata.block_of_eq c.toMetadata F i hb).symm

end Controller

end BitTorrentLite
