import BitTorrentLite.Controller.AnyTorrent
import BitTorrentLite.Swarm.Replies
import BitTorrentLite.Transfer.Torrent

/-! # Whether What Is Served Is Verified

    A leecher serves the pieces it has marked done, and it marks no piece done
    that does not match its hash. A seeder starts with every piece done and
    does not look at its file. Both take the offset of a Request as it comes,
    and a negative one reaches back before the piece.
-/

open Machine Region LTS

namespace BitTorrentLite

/-- The bytes of a reply lie in the region of the piece asked for, and that
    piece is verified. -/
structure Controller.FromVerified (sha1 : Bytes → Bytes) (c : Controller) (req : IncomingRequest)
    (block : Bytes) : Prop where
  piece : c.Has req.piece_index
  verified : c.VerifiedAt sha1 req.piece_index.toNat
  start : 0 ≤ req.block_offset
  inside : req.block_offset + block.length ≤ c.piece_length_for req.piece_index
  bytes : ∃ f, c.file = some f ∧ block = slice f
    (req.piece_index * c.piece_length + req.block_offset).toNat block.length

/-- `get_block` comes to the point where it reads the file. -/
structure Metadata.Reads (m : Metadata) (req : IncomingRequest) : Prop where
  piece : m.Has req.piece_index
  before_end : req.block_offset < m.piece_length_for req.piece_index
  size_nonneg : 0 ≤ m.block_size req.piece_index req.block_offset
  offset_nonneg : 0 ≤ req.piece_index * m.piece_length + req.block_offset

/-- A request that has a leecher read, from its start on or later, a piece that
    is verified once it is done; and a seeder a piece its file matches. -/
structure Metadata.AsksForVerified (sha1 : Bytes → Bytes) (m : Metadata) (disk : Option Bytes)
    (req : IncomingRequest) : Prop where
  leecher : m.mode = .LEECHER → m.Reads req →
    0 ≤ req.block_offset ∧ m.Workable sha1 req.piece_index.toNat
  seeder : m.mode = .SEEDER → m.Reads req → ∀ f, disk = some f →
    req.piece_index * m.piece_length + req.block_offset
      + m.block_size req.piece_index req.block_offset ≤ f.length →
    0 ≤ req.block_offset ∧ (Controller.make m disk).VerifiedAt sha1 req.piece_index.toNat

section provenance

variable {sha1 : Bytes → Bytes} {c : Controller} {m : Metadata} {disk : Option Bytes}
  {req : IncomingRequest} {block : Bytes}

theorem Controller.Served.reads {i : ℕ} {f : Bytes} (hi : req.piece_index = i)
    (h : c.Served i req.block_offset f block) : c.Reads req where
  piece := by
    rw [hi]
    exact Metadata.has_natCast h.piece
  before_end := by rw [hi]; exact h.inside
  size_nonneg := by rw [hi]; exact h.size_nonneg
  offset_nonneg := by rw [hi]; exact h.offset_nonneg

/-- What is read at an offset inside a verified piece. -/
theorem Controller.Served.fromVerified {i : ℕ} {f : Bytes} (hint : FitsInt c.piece_length)
    (hi : req.piece_index = i) (h : c.Served i req.block_offset f block)
    (hstart : 0 ≤ req.block_offset) (hv : c.VerifiedAt sha1 i) :
    c.FromVerified sha1 req block := by
  have hlen := h.length
  have hsize := Metadata.block_size_of_inside (Metadata.piece_length_for_fits hint i).2 hstart
    h.inside
  refine ⟨(h.reads hi).piece, ?_, hstart, ?_, f, h.file, ?_⟩
  · rw [hi, Int.toNat_natCast]
    exact hv
  · rw [hi]
    omega
  · have hread : (c.block_size i req.block_offset).toNat = block.length := by omega
    rw [hi, ← hread]
    exact h.bytes

/-! ### What Each Client Knows -/

theorem Metadata.AsksForVerified.leecher_verified (hm : c.mode = .LEECHER)
    (hc : c.Trusted sha1) (hreq : c.AsksForVerified sha1 disk req) {i : ℕ} {f : Bytes}
    (hi : req.piece_index = i) (h : c.Served i req.block_offset f block) :
    0 ≤ req.block_offset ∧ c.VerifiedAt sha1 i := by
  obtain ⟨hstart, hw⟩ := hreq.leecher hm (h.reads hi)
  rw [hi, Int.toNat_natCast] at hw
  exact ⟨hstart, hc.done i h.piece hw h.done (lt_of_le_of_lt hstart h.inside)⟩

/-- A block that was read and is not empty ends where the file does, or before. -/
theorem Controller.Served.end_le {i : ℕ} {f : Bytes}
    (h : c.Served i req.block_offset f block) (hne : block ≠ []) :
    i * c.piece_length + req.block_offset + c.block_size i req.block_offset ≤ f.length := by
  have hpos := List.length_pos_iff.mpr hne
  have hlen := h.length
  have hstart := h.offset_nonneg
  have hread : block.length ≤ f.length - (i * c.piece_length + req.block_offset).toNat := by
    rw [h.bytes, slice_length]
    exact min_le_right _ _
  omega

theorem Metadata.AsksForVerified.seeder_verified (hm : c.mode = .SEEDER) (hfile : c.file = disk)
    (hreq : c.AsksForVerified sha1 disk req) {i : ℕ} {f : Bytes} (hi : req.piece_index = i)
    (h : c.Served i req.block_offset f block) (hne : block ≠ []) :
    0 ≤ req.block_offset ∧ c.VerifiedAt sha1 i := by
  obtain ⟨hstart, f', hf', hv⟩ := hreq.seeder hm (h.reads hi) f (hfile ▸ h.file)
    (by rw [hi]; exact h.end_le hne)
  rw [hi, Int.toNat_natCast] at hv
  exact ⟨hstart, f', hfile.trans hf', hv⟩

/-! ### Any Other Request -/

/-- Before its end, the length computed for an offset of a piece is not zero. -/
theorem Metadata.block_size_ne_zero (hint : FitsInt m.piece_length) {x off : ℤ}
    (hoff : FitsInt off) (hlt : off < m.piece_length_for x) : m.block_size x off ≠ 0 := by
  obtain ⟨hlow, -⟩ := hoff
  obtain ⟨-, hhigh⟩ := m.piece_length_for_fits hint x
  unfold Metadata.block_size block_length
  rw [int32_eq_bmod, Int.bmod_def]
  split <;> omega

/-- A seeder answers it with bytes that start before the piece, or of a piece
    that does not match. -/
theorem not_fromVerified (hint : FitsInt m.piece_length) (hm : m.mode = .SEEDER)
    (hoff : FitsInt req.block_offset) (hreq : ¬ m.AsksForVerified sha1 disk req) :
    ∃ block, (Controller.make m disk).get_block req.piece_index req.block_offset = .ok block ∧
      block ≠ [] ∧ ¬ (Controller.make m disk).FromVerified sha1 req block := by
  have hbad : ∃ f, disk = some f ∧ m.Reads req ∧
      req.piece_index * m.piece_length + req.block_offset
        + m.block_size req.piece_index req.block_offset ≤ f.length ∧
      ¬ (0 ≤ req.block_offset ∧
        (Controller.make m disk).VerifiedAt sha1 req.piece_index.toNat) := by
    by_contra hnone
    refine hreq ⟨fun hl => absurd (hm.symm.trans hl) (by decide),
      fun _ hreads f hf hend => ?_⟩
    by_contra hno
    exact hnone ⟨f, hf, hreads, hend, hno⟩
  obtain ⟨f, rfl, hreads, hend, hno⟩ := hbad
  obtain ⟨i, hi, hit⟩ := hreads.piece.nat
  have hsize := hreads.size_nonneg
  have hstart := hreads.offset_nonneg
  have hnonzero := Metadata.block_size_ne_zero hint hoff hreads.before_end
  let block := slice f (req.piece_index * m.piece_length + req.block_offset).toNat
    (m.block_size req.piece_index req.block_offset).toNat
  have hlen : (block.length : ℤ) = m.block_size req.piece_index req.block_offset := by
    rw [slice_length_of_le (by omega)]
    omega
  have hserved : (Controller.make m (some f)).Served i req.block_offset f block :=
    { piece := hit
      done := by simp [Controller.make, hm]
      inside := hi ▸ hreads.before_end
      file := rfl
      size_nonneg := hi ▸ hsize
      offset_nonneg := hi ▸ hstart
      bytes := by rw [← hi]; rfl
      length := by rw [← hi]; exact hlen }
  refine ⟨block, by rw [hi]; exact hserved.get_block, ?_, fun h => hno ⟨h.start, h.verified⟩⟩
  intro hnil
  rw [hnil, List.length_nil] at hlen
  omega

end provenance

namespace Swarm

open Controller

variable {sha1 : Bytes → Bytes} {m : Metadata} {disk : Option Bytes} {s : Swarm}

theorem reachable_trusted (hint : FitsInt m.piece_length) (hm : m.mode = .LEECHER)
    (h : (system sha1 m disk).Reachable s) : s.ctl.Trusted sha1 := by
  refine (controller_invariant (I := fun c => c.toMetadata = m ∧ c.Trusted sha1)
    ⟨rfl, trusted_make hm disk⟩ ?_ h).2
  rintro c c' ⟨hmeta, hc⟩ hst
  exact ⟨hst.toMetadata.trans hmeta, hc.stepped (hmeta ▸ hint) hst⟩

theorem reachable_seeder_file (hm : m.mode = .SEEDER) (h : (system sha1 m disk).Reachable s) :
    s.ctl.file = disk := by
  refine (controller_invariant (I := fun c => c.toMetadata = m ∧ c.file = disk)
    ⟨rfl, rfl⟩ ?_ h).2
  rintro c c' ⟨hmeta, hfile⟩ hst
  exact ⟨hst.toMetadata.trans hmeta, (hst.seeder_file (hmeta ▸ hm)).trans hfile⟩

/-- What is read for such a request in a reachable state is verified. -/
theorem fromVerified_of_get_block (hint : FitsInt m.piece_length)
    (h : (system sha1 m disk).Reachable s) {req : IncomingRequest} {block : Bytes}
    (hreq : m.AsksForVerified sha1 disk req)
    (hget : s.ctl.get_block req.piece_index req.block_offset = .ok block) (hne : block ≠ []) :
    s.ctl.FromVerified sha1 req block := by
  have hmeta := reachable_toMetadata h
  obtain ⟨i, f, hi, hserved⟩ := get_block_served hget hne
  have hread : 0 ≤ req.block_offset ∧ s.ctl.VerifiedAt sha1 i := by
    rw [← hmeta] at hreq
    cases hm : m.mode with
    | LEECHER =>
      exact hreq.leecher_verified (hmeta ▸ hm) (reachable_trusted hint hm h) hi hserved
    | SEEDER =>
      exact hreq.seeder_verified (hmeta ▸ hm) (reachable_seeder_file hm h) hi hserved hne
  exact hserved.fromVerified (hmeta ▸ hint) hi hread.1 hread.2

/-- **Only verified data is served**: over every run whose accepted Requests
    ask for verified bytes, every block that is sent was read from the region
    of a verified piece. To any other Request a seeder answers with bytes that
    start before the piece asked for, or with bytes of a piece that does not
    match. -/
theorem serves_verified (sha1 : Bytes → Bytes) (t : Torrent) (mode : Mode)
    (disk : Option Bytes) :
    (∀ s, (serving sha1 (t.metadata mode) disk
        ((t.metadata mode).AsksForVerified sha1 disk)).Reachable s →
      ∀ id st kept req rest block call,
        s.threads id = some ⟨st, .send_piece kept req rest block call⟩ →
        ∃ s₀ ls, (serving sha1 (t.metadata mode) disk
            ((t.metadata mode).AsksForVerified sha1 disk)).Reachable s₀ ∧
          (serving sha1 (t.metadata mode) disk
            ((t.metadata mode).AsksForVerified sha1 disk)).Path s₀ ls s ∧
          s₀.ctl.FromVerified sha1 req block) ∧
    (mode = .SEEDER → ∀ req, FitsInt req.block_offset →
      ¬ (t.metadata mode).AsksForVerified sha1 disk req →
      ∃ block, (make (t.metadata mode) disk).get_block req.piece_index req.block_offset
          = .ok block ∧
        block ≠ [] ∧ ¬ (make (t.metadata mode) disk).FromVerified sha1 req block) := by
  have hint : FitsInt (t.metadata mode).piece_length := int32_fits _
  refine ⟨fun s hs id st kept req rest block call ht => ?_,
    fun hm req hoff hreq => not_fromVerified hint hm hoff hreq⟩
  obtain ⟨hreq, s₀, ls, hr, hpath, hget, hne⟩ := reply_read_before hs ht
  exact ⟨s₀, ls, hr, hpath, fromVerified_of_get_block hint hr.of_restrict hreq hget hne⟩

/-- A torrent of the one byte `7`, with the identity for a hash. -/
def seven : Torrent := { length := 1, piece_length := 1, pieces := [[7]] }

/-- A seeder whose file is that byte sends it, and it is verified. -/
theorem seven_verified : ∃ s₀ : Swarm, s₀.ctl.FromVerified id ⟨0, 0, 1⟩ [7] := by
  have hverified : (make (seven.metadata .SEEDER) (some [7])).VerifiedAt id 0 :=
    ⟨[7], rfl, by decide +kernel, by decide +kernel, by decide +kernel⟩
  have hasked : (seven.metadata .SEEDER).AsksForVerified id (some [7]) ⟨0, 0, 1⟩ := by
    constructor
    · intro hleecher
      cases hleecher
    · intro _ _ _ _ _
      exact ⟨le_refl 0, hverified⟩
  obtain ⟨s, hr, hs⟩ := System.Reachable.exists_of_run
    (System.guarded_step (acceptsOnly_of_asked_for_one hasked) next_step)
    (.init rfl : (serving id (seven.metadata .SEEDER) (some [7])
      ((seven.metadata .SEEDER).AsksForVerified id (some [7]))).Reachable _) (ask 1)
    (P := fun s => s.reply_of 0 == some (⟨0, 0, 1⟩, [7])) (by decide +kernel)
  obtain ⟨st, kept, rest, call, ht⟩ := reply_of_some (eq_of_beq hs)
  obtain ⟨s₀, -, -, -, hfrom⟩ :=
    (serves_verified id seven .SEEDER (some [7])).1 s hr 0 st kept _ rest _ call ht
  exact ⟨s₀, hfrom⟩

/-- **The file of a seeder is not checked**: with the byte `8` in its file it
    sends that, which is nowhere the byte of a verified piece. -/
theorem unchecked_file_served : ∃ s, (system id (seven.metadata .SEEDER) (some [8])).Reachable s ∧
    s.reply_of 0 = some (⟨0, 0, 1⟩, [8]) ∧
    ∀ s₀, (system id (seven.metadata .SEEDER) (some [8])).Reachable s₀ →
      ∀ i < s₀.ctl.total_pieces, ¬ s₀.ctl.VerifiedAt id i := by
  obtain ⟨s, hr, hs⟩ := System.Reachable.exists_of_run next_step
    (.init rfl : (system id (seven.metadata .SEEDER) (some [8])).Reachable _) (ask 1)
    (P := fun s => s.reply_of 0 == some (⟨0, 0, 1⟩, [8])) (by decide +kernel)
  refine ⟨s, hr, eq_of_beq hs, fun s₀ hr₀ i hi hv => ?_⟩
  obtain ⟨f, hf, -, -, hhash⟩ := hv
  rw [reachable_seeder_file rfl hr₀] at hf
  obtain rfl := Option.some.inj hf
  rw [reachable_toMetadata hr₀] at hi hhash
  obtain rfl : i = 0 := Nat.lt_one_iff.mp hi
  exact absurd hhash (by decide +kernel)

end Swarm

end BitTorrentLite
