import BitTorrentLite.Controller.Delivery

/-! # The Size of the Output File

    `write_to_disk` creates the file at its full size, and a piece of the
    original ends inside it. A leecher that starts without a file, or with one
    of this size, has never another, so once all its pieces are those of the
    original its file is the original and nothing else.
-/

open Region

namespace BitTorrentLite.Controller

variable {sha1 : Bytes → Bytes} {c c' : Controller} {F f : Bytes} {i b : ℕ}

/-- The file, if there is one, has the length of the torrent. -/
def Sized (c : Controller) : Prop := ∀ f, c.file = some f → f.length = c.length.toNat

theorem Sized.undisturbed (h : c.Sized) (hq : c.Undisturbed c') : c'.Sized := by
  unfold Sized
  rw [hq.file, hq.toMetadata]
  exact h

/-- Writing inside a file of this size. -/
theorem overwrite_sized {n off : ℕ} {piece : Bytes} (hf : f.length = n)
    (hend : off + piece.length ≤ n) : (overwrite 0 f off piece).length = n := by
  by_cases hne : piece = []
  · rw [hne, overwrite_nil]
    exact hf
  · rw [overwrite_length _ _ _ hne, hf]
    exact max_eq_left hend

/-- **Step lemma**: a block of the original leaves the size as it is. -/
theorem Sized.received (hg : c.Consistent) (hfit : c.CountFits) (ho : c.Original sha1 F)
    (hl : c.mode = .LEECHER) (hgen : c.Genuine F) (h : c.Sized) (hi : i < c.total_pieces)
    (hb : b < c.block_count i) {done : Bool}
    (hrec : Received c sha1 i (Metadata.block_offset b) (c.block_of F i b) c' done) :
    c'.Sized := by
  rcases received_genuine hg hfit ho hl hgen hi hb hrec with ⟨rfl, -⟩ | ⟨rfl, hcomp⟩
  · exact h
  -- the piece is written in its place
  · have hg₁ : (c.store i (Metadata.block_offset b) (c.block_of F i b)).Consistent := hg
    have ho₁ : (c.store i (Metadata.block_offset b) (c.block_of F i b)).Original sha1 F := ho
    have hpiece := assembled_genuine hg₁ hfit ho₁ (hgen.store hb) hi hcomp
    have hlen := ho₁.piece_length hg₁ hi
    have hend := hg₁.piece_end_le hi
    have hold : (c.file.getD (List.replicate c.length.toNat 0)).length = c.length.toNat := by
      cases hfile : c.file with
      | none => exact List.length_replicate
      | some f => exact h f hfile
    intro f hf
    have hwritten := write_to_disk_file (c := c.store i _ _) (i := i) hg₁
      ((c.store i (Metadata.block_offset b) (c.block_of F i b)).assembled i)
    obtain rfl := Option.some.inj (hf.symm.trans hwritten)
    apply overwrite_sized hold
    rw [hpiece, hlen]
    exact hend

/-- A file of this size that begins with the original is the original. -/
theorem Sized.eq_original (h : c.Sized) (ho : c.Original sha1 F) (hf : c.file = some f)
    (hslice : slice f 0 F.length = F) : f = F := by
  have hlen : f.length = F.length := (h f hf).trans ho.length_eq.symm
  rw [← hslice]
  unfold slice
  rw [List.drop_zero, ← hlen, List.take_length]

end BitTorrentLite.Controller
