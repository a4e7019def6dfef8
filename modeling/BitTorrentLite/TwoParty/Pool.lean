import BitTorrentLite.Controller.Delivery
import BitTorrentLite.Swarm.Stranding

/-! # The Pool of Blocks

    The blocks `next_request` may hand out are finitely many. A request takes
    one out of the pool, a release puts at most one back, and no other step of
    a thread puts one there unless it takes back a status or drops the blocks
    of a piece.
-/

open Machine

namespace BitTorrentLite

open Metadata (block_offset)

/-- The blocks of a torrent: the piece and the number of each. -/
def Metadata.blocks (m : Metadata) : Finset (Σ _ : ℕ, ℕ) :=
  (Finset.range m.total_pieces).sigma fun i => Finset.range (m.block_count i)

namespace Controller

/-- The blocks that are missing and not in flight. -/
def pool (c : Controller) : Finset (Σ _ : ℕ, ℕ) :=
  c.blocks.filter fun x => c.piece_status x.1 ≠ 1 ∧
    c.piece_blocks x.1 (block_offset x.2) = none ∧ block_offset x.2 ∉ c.inflight x.1

variable {sha1 : Bytes → Bytes} {c c' : Controller} {i j b : ℕ} {off o : ℤ}

theorem mem_pool (hg : c.Consistent) (hfit : c.CountFits) :
    ⟨i, b⟩ ∈ c.pool ↔ b < c.block_count i ∧ c.Available i (block_offset b) := by
  unfold pool Metadata.blocks
  rw [Finset.mem_filter, Finset.mem_sigma, Finset.mem_range, Finset.mem_range]
  constructor
  · intro h
    obtain ⟨⟨hi, hb⟩, hmissing, hstored, hflight⟩ := h
    refine ⟨hb, hi, hmissing, ⟨b, ?_, rfl⟩, hstored, hflight⟩
    rw [hg.count_blocks_eq hfit hi]
    exact_mod_cast hb
  · intro h
    obtain ⟨hb, ha⟩ := h
    exact ⟨⟨ha.piece, hb⟩, ha.missing, ha.not_stored, ha.not_inflight⟩

theorem pool_card_le (c : Controller) :
    c.pool.card ≤ ∑ i ∈ Finset.range c.total_pieces, c.block_count i := by
  apply (Finset.card_filter_le _ _).trans
  unfold Metadata.blocks
  rw [Finset.card_sigma]
  simp only [Finset.card_range, le_refl]

/-- What is available after the step was so before, or is one block. -/
theorem pool_card_succ (d : Controller) (hg : c.Consistent) (hfit : c.CountFits)
    (hmeta : d.toMetadata = c.toMetadata)
    (h : ∀ i off, d.Available i off → c.Available i off ∨ (i = j ∧ off = o)) :
    d.pool.card ≤ c.pool.card + 1 := by
  have hg' : d.Consistent := hmeta ▸ hg
  have hfit' : d.CountFits := hmeta ▸ hfit
  have hone : (d.pool \ c.pool).card ≤ 1 := by
    rw [Finset.card_le_one]
    -- two blocks that have come to the pool are the same block
    have hnew : ∀ x ∈ d.pool \ c.pool,
        x.1 = j ∧ block_offset x.2 = o ∧ x.2 < c.block_count j := by
      intro x hx
      obtain ⟨i, b⟩ := x
      obtain ⟨hin, hout⟩ := Finset.mem_sdiff.mp hx
      obtain ⟨hb, ha⟩ := (mem_pool hg' hfit').mp hin
      rw [hmeta] at hb
      rcases h i _ ha with hwas | ⟨rfl, hoff⟩
      · exact absurd ((mem_pool hg hfit).mpr ⟨hb, hwas⟩) hout
      · exact ⟨rfl, hoff, hb⟩
    intro x hx y hy
    obtain ⟨hxi, hxo, hxb⟩ := hnew x hx
    obtain ⟨hyi, hyo, hyb⟩ := hnew y hy
    have hb := Metadata.block_offset_inj hg hxb hyb (hxo.trans hyo.symm)
    exact Sigma.ext (hxi.trans hyi.symm) (heq_of_eq hb)
  have hsplit := Finset.card_le_card_sdiff_add_card (s := d.pool) (t := c.pool)
  omega

theorem pool_card_mono (d : Controller) (hg : c.Consistent) (hfit : c.CountFits)
    (hmeta : d.toMetadata = c.toMetadata)
    (h : ∀ i off, d.Available i off → c.Available i off) : d.pool.card ≤ c.pool.card := by
  have hg' : d.Consistent := hmeta ▸ hg
  have hfit' : d.CountFits := hmeta ▸ hfit
  apply Finset.card_le_card
  intro x hx
  obtain ⟨i, b⟩ := x
  obtain ⟨hb, ha⟩ := (mem_pool hg' hfit').mp hx
  rw [hmeta] at hb
  exact (mem_pool hg hfit).mpr ⟨hb, h i _ ha⟩

/-- A request takes its block out of the pool. -/
theorem pool_card_claim (hg : c.Consistent) (hfit : c.CountFits) (ha : c.Available i off) :
    (c.claim i off).pool.card < c.pool.card := by
  obtain ⟨b, hb, rfl⟩ := ha.block_lt hg hfit
  have hg' : (c.claim i (block_offset b)).Consistent := hg
  apply Finset.card_lt_card
  rw [Finset.ssubset_iff_of_subset]
  · refine ⟨⟨i, b⟩, (mem_pool hg hfit).mpr ⟨hb, ha⟩, ?_⟩
    intro hin
    obtain ⟨-, hstill⟩ := (mem_pool hg' hfit).mp hin
    apply hstill.not_inflight
    rw [claim_inflight, Function.update_self]
    exact Finset.mem_insert_self ..
  · intro x hx
    obtain ⟨j, b'⟩ := x
    obtain ⟨hb', ha'⟩ := (mem_pool hg' hfit).mp hx
    exact (mem_pool hg hfit).mpr ⟨hb', available_claim ha' ha⟩

/-- A release puts at most one block back. -/
theorem pool_card_release (hg : c.Consistent) (hfit : c.CountFits) (i : ℕ) (off : ℤ) :
    (c.release i off).pool.card ≤ c.pool.card + 1 := by
  refine pool_card_succ (c.release i off) (j := i) (o := off) hg hfit rfl ?_
  intro j o ha
  rcases available_release ha with hwas | ⟨hj, ho, -⟩
  · exact .inl hwas
  · exact .inr ⟨hj, ho⟩

/-- And none when the piece is done. -/
theorem pool_card_release_done (hg : c.Consistent) (hfit : c.CountFits) (off : ℤ)
    (hdone : c.piece_status i = 1) : (c.release i off).pool.card ≤ c.pool.card := by
  refine pool_card_mono (c.release i off) hg hfit rfl ?_
  intro j o ha
  rcases available_release ha with hwas | ⟨hj, -, hmissing⟩
  · exact hwas
  · exact absurd (hj ▸ hdone) hmissing.missing

/-- The store of the Bitfield handler puts nothing back when the piece was not
    done. -/
theorem pool_card_clear (hg : c.Consistent) (hfit : c.CountFits) (hmissing : c.piece_status i ≠ 1) :
    (pool { c with piece_status := Function.update c.piece_status i 0 }).card ≤ c.pool.card := by
  refine pool_card_mono { c with piece_status := Function.update c.piece_status i 0 } hg hfit rfl ?_
  intro j o ha
  refine ⟨ha.piece, ?_, ha.block, ha.not_stored, ha.not_inflight⟩
  intro hdone
  by_cases hij : j = i
  · exact hmissing (hij ▸ hdone)
  · exact ha.missing ((Function.update_of_ne hij ..).trans hdone)

/-- A block of the original puts nothing back. -/
theorem pool_card_received {F : Bytes} (hg : c.Consistent) (hfit : c.CountFits)
    (ho : c.Original sha1 F) (hl : c.mode = .LEECHER) (h : c.Genuine F) (hi : i < c.total_pieces)
    (hb : b < c.block_count i) {done : Bool}
    (hrec : Received c sha1 i (block_offset b) (c.block_of F i b) c' done) :
    c'.pool.card ≤ c.pool.card := by
  apply pool_card_mono c' hg hfit hrec.toMetadata
  intro j o ha
  rcases received_genuine hg hfit ho hl h hi hb hrec with ⟨rfl, -⟩ | ⟨rfl, -⟩
  · exact available_store ha
  · have hij : j ≠ i := by
      rintro rfl
      apply ha.missing
      rw [finish_piece_status, Function.update_self]
    exact available_store
      (available_settle hij ⟨ha.piece, ha.missing, ha.block, ha.not_stored, ha.not_inflight⟩)

end Controller

end BitTorrentLite
