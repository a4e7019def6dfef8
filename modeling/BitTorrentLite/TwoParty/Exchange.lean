import BitTorrentLite.Controller.Delivery
import BitTorrentLite.Swarm.Safety
import BitTorrentLite.TwoParty.Conservation

/-! # What a Seeder and a Leecher Say

    The messages of an exchange in which one side has the whole file and the
    other wants it: the seeder sends a Bitfield with every piece, Unchoke and
    the blocks it is asked for; the leecher sends a Bitfield, Interested, Have
    and requests for blocks of the torrent.
-/

open Machine Region

namespace BitTorrentLite

open Controller

namespace Metadata

/-- The piece and the offset of a block of the torrent. -/
def IsBlock (m : Metadata) (x off : ℤ) : Prop :=
  ∃ i < m.total_pieces, ∃ b < m.block_count i, x = i ∧ off = block_offset b

/-- The bits of every piece are set. -/
def Full (m : Metadata) (bf : ℕ → Bool) : Prop := ∀ i < m.total_pieces, bf i = true

/-- The payload of a Piece message for a block of the file `F`. -/
def Carries (m : Metadata) (F : Bytes) (p : Bytes) : Prop :=
  8 ≤ p.length ∧ ∃ i < m.total_pieces, ∃ b < m.block_count i,
    ntohl p 0 = i ∧ ntohl p 4 = block_offset b ∧ p.drop 8 = m.block_of F i b

variable {m : Metadata} {sha1 : Bytes → Bytes} {F : Bytes} {i b : ℕ} {x off : ℤ}

theorem isBlock_block (hi : i < m.total_pieces) (hb : b < m.block_count i) :
    m.IsBlock i (block_offset b) := ⟨i, hi, b, hb, rfl, rfl⟩

/-- A block of the torrent lies inside it. -/
theorem IsBlock.inside (hg : m.Consistent) (h : m.IsBlock x off) : m.Inside x off := by
  obtain ⟨i, hi, b, hb, rfl, rfl⟩ := h
  have hlt := Consistent.block_start_lt hb
  refine ⟨has_natCast hi, ?_, ?_⟩
  · rw [hg.block_offset_eq hb]
    omega
  · rw [hg.block_offset_eq hb, hg.piece_length_for_eq hi]
    exact_mod_cast hlt

/-- Its piece leaves room to count, so `received_block` can be handed it. -/
theorem IsBlock.blockOk (hg : m.Consistent) (hfit : m.CountFits) (h : m.IsBlock x off) (len : ℕ) :
    m.BlockOk x off len := by
  have hin := h.inside hg
  obtain ⟨i, hi, b, hb, rfl, rfl⟩ := h
  exact ⟨hin.fits hg, .inr ⟨hin, hfit i hi⟩⟩

theorem IsBlock.fits (hg : m.Consistent) (h : m.IsBlock x off) : FitsInt x ∧ FitsInt off := by
  have hint := hg.pieces_int
  obtain ⟨i, hi, b, hb, rfl, rfl⟩ := h
  exact ⟨⟨by omega, by omega⟩, int32_fits _⟩

theorem Has.fits (hg : m.Consistent) (h : m.Has x) : FitsInt x := by
  have hint := hg.pieces_int
  obtain ⟨i, rfl, hi⟩ := h.nat
  exact ⟨by omega, by omega⟩

end Metadata

/-- A message a seeder of the file `F` sends. -/
def FromSeeder (m : Metadata) (F : Bytes) (msg : PeerMessage) : Prop :=
  match msg.id with
  | .Bitfield => ∀ old, m.Full (decode_bitfield old msg.payload)
  | .Unchoke => True
  | .Piece => m.Carries F msg.payload
  | _ => False

/-- A message a leecher sends to a seeder. -/
def FromLeecher (m : Metadata) (msg : PeerMessage) : Prop :=
  match msg.id with
  | .Bitfield => True
  | .Interested => True
  | .Have => 4 ≤ msg.payload.length → 0 ≤ ntohl msg.payload 0
  | .Request => 12 ≤ msg.payload.length ∧ m.IsBlock (ntohl msg.payload 0) (ntohl msg.payload 4)
  | _ => False

variable {m : Metadata} {sha1 : Bytes → Bytes} {F : Bytes} {i b : ℕ} {x off : ℤ}

/-- The Piece message for a block. -/
theorem fromSeeder_piece (hg : m.Consistent) (hi : i < m.total_pieces)
    (hb : b < m.block_count i) :
    FromSeeder m F (build_piece_msg i (Metadata.block_offset b) (m.block_of F i b)) := by
  obtain ⟨hx, hoff⟩ := (Metadata.isBlock_block hi hb).fits hg
  obtain ⟨-, hlen, hkey⟩ := delivers_build hx hoff (m.block_of F i b)
  obtain ⟨h₀, h₄⟩ := Prod.mk.inj hkey
  exact ⟨hlen, i, hi, b, hb, h₀, h₄, rfl⟩

/-- The Request for a block. -/
theorem fromLeecher_request (hg : m.Consistent) (h : m.IsBlock x off) (len : ℤ) :
    FromLeecher m (build_request x off len) := by
  obtain ⟨hx, hoff⟩ := h.fits hg
  obtain ⟨-, hlen, hkey⟩ := requests_build hx hoff len
  obtain ⟨h₀, h₄⟩ := Prod.mk.inj hkey
  refine ⟨hlen, ?_⟩
  rw [h₀, h₄]
  exact h

/-- The Have for a piece. -/
theorem fromLeecher_have (hg : m.Consistent) (h : m.Has x) : FromLeecher m (build_have x) := by
  intro _
  have hx : ntohl (htonl x ++ []) 0 = x := ntohl_first (h.fits hg) []
  rw [List.append_nil] at hx
  show 0 ≤ ntohl (htonl x) 0
  rw [hx]
  exact h.1

/-- What a seeder sends does a leecher no harm. -/
theorem FromSeeder.messageOk (hg : m.Consistent) (hfit : m.CountFits) {st : PeerState}
    {msg : PeerMessage} (h : FromSeeder m F msg) : MessageOk m st msg := by
  rcases msg with ⟨mid, p⟩
  cases mid with
  | Piece =>
    obtain ⟨-, i, hi, b, hb, hx, hoff, -⟩ := h
    intro _
    refine .inr ?_
    rw [show ntohl p 0 = i from hx, show ntohl p 4 = Metadata.block_offset b from hoff]
    exact (Metadata.isBlock_block hi hb).blockOk hg hfit _
  | Have | Request => exact h.elim
  | _ => trivial

/-- What a leecher sends does a seeder no harm. -/
theorem FromLeecher.messageOk (hg : m.Consistent) {st : PeerState} {msg : PeerMessage}
    (h : FromLeecher m msg) : MessageOk m st msg := by
  rcases msg with ⟨mid, p⟩
  cases mid with
  | Have => exact h
  | Request => exact fun _ => .inr (h.2.inside hg)
  | Piece => exact h.elim
  | _ => trivial

end BitTorrentLite
