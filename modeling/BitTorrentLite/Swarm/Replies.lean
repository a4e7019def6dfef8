import BitTorrentLite.Controller.Geometry
import BitTorrentLite.Swarm.Safety
import BitTorrentLite.Swarm.Serving

/-! # Requests and Replies

    `get_block` is given the piece and the offset of a Request but not its
    length: the reply carries the block from the offset on, 16 KiB or what is
    left of the piece. A Piece message matches the Request it answers when the
    Request asks for just that.
-/

open Machine Region LTS

namespace BitTorrentLite

/-- The reply carries the bytes of the file that were asked for, and they lie
    inside the piece. -/
structure Controller.Replied (c : Controller) (req : IncomingRequest) (block : Bytes) : Prop where
  piece : c.Has req.piece_index
  start : 0 ≤ req.block_offset
  inside : req.block_offset + req.block_length ≤ c.piece_length_for req.piece_index
  length : (block.length : ℤ) = req.block_length
  bytes : ∃ f, c.file = some f ∧ block = slice f
    (req.piece_index * c.piece_length + req.block_offset).toNat req.block_length.toNat

/-- A request for a piece of the torrent that asks, at an offset inside the
    piece, for what is sent from there on; at a negative offset, for something
    before the file or so far away that the length computed is negative. -/
def Metadata.AsksWhatIsSent (m : Metadata) (req : IncomingRequest) : Prop :=
  m.Has req.piece_index →
    (0 ≤ req.block_offset → req.block_offset < m.piece_length_for req.piece_index →
      req.block_length = min 16384 (m.piece_length_for req.piece_index - req.block_offset)) ∧
    (req.block_offset < 0 → req.piece_index * m.piece_length + req.block_offset < 0 ∨
      m.block_size req.piece_index req.block_offset < 0)

section replies

variable {c : Controller} {m : Metadata} {req : IncomingRequest} {block : Bytes}

/-- The length computed for an offset inside a piece. -/
theorem Metadata.Consistent.block_size_inside (hg : m.Consistent) {x off : ℤ}
    (h : m.Inside x off) : m.block_size x off = min 16384 (m.piece_length_for x - off) := by
  obtain ⟨i, rfl, hi⟩ := h.1.nat
  have hint := hg.piece_size_int (i := i)
  exact Metadata.block_size_of_inside (by rw [hg.piece_length_for_eq hi]; exact hint) h.2.1 h.2.2

/-- What `get_block` answers to such a request is the reply to it. -/
theorem replied_of_get_block (hg : c.Consistent) (hreq : c.AsksWhatIsSent req)
    (hget : c.get_block req.piece_index req.block_offset = .ok block) (hne : block ≠ []) :
    c.Replied req block := by
  obtain ⟨i, f, hi, hserved⟩ := Controller.get_block_served hget hne
  have hhas : c.Has req.piece_index := by
    rw [hi]
    exact Metadata.has_natCast hserved.piece
  obtain ⟨hlen, hneg⟩ := hreq hhas
  have hoff := hserved.offset_nonneg
  have hsize := hserved.size_nonneg
  have hinside := hserved.inside
  have hlength := hserved.length
  rw [← hi] at hoff hsize hinside hlength
  have hstart : 0 ≤ req.block_offset := by
    by_contra hlt
    rcases hneg (by omega) with h | h <;> omega
  have hblock := hg.block_size_inside ⟨hhas, hstart, hinside⟩
  have hlen := hlen hstart hinside
  refine ⟨hhas, hstart, by omega, by rw [hlength, hblock, hlen], f, hserved.file, ?_⟩
  rw [hlen, ← hblock, hi]
  exact hserved.bytes

/-- A request that does not ask for what is sent is still within reach. -/
theorem reach_of_not_asks (hg : m.Consistent) (hoff : FitsInt req.block_offset)
    (hreq : ¬ m.AsksWhatIsSent req) : m.Has req.piece_index ∧
      req.block_offset < m.piece_length_for req.piece_index ∧
      0 ≤ req.piece_index * m.piece_length + req.block_offset ∧
      0 < m.block_size req.piece_index req.block_offset ∧
      (req.block_offset < 0 ∨
        req.block_length ≠ m.block_size req.piece_index req.block_offset) := by
  unfold Metadata.AsksWhatIsSent at hreq
  rw [Classical.not_imp, not_and_or] at hreq
  obtain ⟨hhas, hbad⟩ := hreq
  refine ⟨hhas, ?_⟩
  rcases hbad with hlen | hneg
  · -- inside the piece, with another length
    rw [Classical.not_imp, Classical.not_imp] at hlen
    obtain ⟨hstart, hinside, hlen⟩ := hlen
    have hin : m.Inside req.piece_index req.block_offset := ⟨hhas, hstart, hinside⟩
    have hplace := mul_nonneg hhas.1 (hg.piece_length_pos.trans' zero_le_one)
    have hsize := hg.block_size_inside hin
    exact ⟨hinside, by omega, hin.block_size_pos hg, .inr (by rw [hsize]; exact hlen)⟩
  · -- before the piece, but not before the file
    rw [Classical.not_imp, not_or, not_lt, not_lt] at hneg
    obtain ⟨hlt, hplace, hsize⟩ := hneg
    obtain ⟨i, hi, hit⟩ := hhas.nat
    have hint := hg.piece_size_int (i := i)
    have hpos := hg.piece_size_pos hit
    have hplen : m.piece_length_for req.piece_index = m.piece_size i := by
      rw [hi]
      exact hg.piece_length_for_eq hit
    obtain ⟨hlow, -⟩ := hoff
    refine ⟨by omega, hplace, ?_, .inl hlt⟩
    unfold Metadata.block_size block_length at hsize ⊢
    rw [int32_eq_bmod, hplen, Int.bmod_def] at hsize ⊢
    split at hsize <;> omega

/-- A seeder with a long enough file answers it, and the reply does not match. -/
theorem not_replied (hg : m.Consistent) (hm : m.mode = .SEEDER) (hoff : FitsInt req.block_offset)
    (hreq : ¬ m.AsksWhatIsSent req) : ∃ f block,
      (Controller.make m (some f)).get_block req.piece_index req.block_offset = .ok block ∧
        block ≠ [] ∧ ¬ (Controller.make m (some f)).Replied req block := by
  obtain ⟨hhas, hinside, hplace, hsize, hbad⟩ := reach_of_not_asks hg hoff hreq
  obtain ⟨i, hi, hit⟩ := hhas.nat
  rw [hi] at hinside hplace hsize hbad
  let start := (i * m.piece_length + req.block_offset).toNat
  let size := (m.block_size i req.block_offset).toNat
  let f : Bytes := List.replicate (start + size) 0
  have hlen : (slice f start size).length = size :=
    slice_length_of_le (by rw [List.length_replicate])
  have hserved : (Controller.make m (some f)).Served i req.block_offset f (slice f start size) :=
    { piece := hit
      done := by simp [Controller.make, hm]
      inside := hinside
      file := rfl
      size_nonneg := hsize.le
      offset_nonneg := hplace
      bytes := rfl
      length := by rw [hlen]; exact Int.toNat_of_nonneg hsize.le }
  refine ⟨f, slice f start size, by rw [hi]; exact hserved.get_block, ?_, fun h => ?_⟩
  · intro hnil
    rw [hnil, List.length_nil] at hlen
    omega
  · rcases hbad with hneg | hother
    · exact absurd h.start (by omega)
    · have hreply := h.length
      rw [hlen, Int.toNat_of_nonneg hsize.le] at hreply
      exact hother hreply.symm

end replies

/-- **A reply matches its Request**: over every run whose accepted Requests ask
    for what is sent, every block that is sent was read, for its Request, from
    the file at the place asked for. Any other Request gets a reply from some
    seeder that does not match. -/
theorem Swarm.reply_matches (sha1 : Bytes → Bytes) {m : Metadata} (hg : m.Consistent)
    (disk : Option Bytes) :
    (∀ s, (serving sha1 m disk m.AsksWhatIsSent).Reachable s →
      ∀ id st kept req rest block call,
        s.threads id = some ⟨st, .send_piece kept req rest block call⟩ →
        ∃ s₀ ls, (serving sha1 m disk m.AsksWhatIsSent).Reachable s₀ ∧
          (serving sha1 m disk m.AsksWhatIsSent).Path s₀ ls s ∧ s₀.ctl.Replied req block) ∧
    (m.mode = .SEEDER → ∀ req, FitsInt req.block_offset → ¬ m.AsksWhatIsSent req →
      ∃ f block,
        (Controller.make m (some f)).get_block req.piece_index req.block_offset = .ok block ∧
          block ≠ [] ∧ ¬ (Controller.make m (some f)).Replied req block) := by
  refine ⟨fun s hs id st kept req rest block call ht => ?_,
    fun hm req hoff hreq => not_replied hg hm hoff hreq⟩
  obtain ⟨hreq, s₀, ls, hr, hpath, hget, hne⟩ := reply_read_before hs ht
  have hmeta := reachable_toMetadata hr.of_restrict
  exact ⟨s₀, ls, hr, hpath, replied_of_get_block (hmeta ▸ hg) (hmeta ▸ hreq) hget hne⟩

namespace Swarm

/-- A seeder and a peer that is interested and asks for `len` bytes of piece 0. -/
def ask (len : ℤ) : List Action :=
  [.connect, .thread 0 (.shaken true), .thread 0 .call, .thread 0 (.sent true), .thread 0 .call,
    .thread 0 .call] ++ hear 0 ⟨.Interested, []⟩ [.sent true]
    ++ [.thread 0 (.recv (some (build_request 0 0 len))), .thread 0 .call]

/-- The reply a thread is about to send. -/
def reply_of (s : Swarm) (id : ℕ) : Option (IncomingRequest × Bytes) :=
  (s.threads id).bind fun t => t.pc.reply

theorem reply_of_some {s : Swarm} {id : ℕ} {req : IncomingRequest} {block : Bytes}
    (h : s.reply_of id = some (req, block)) :
    ∃ st kept rest call, s.threads id = some ⟨st, .send_piece kept req rest block call⟩ := by
  obtain ⟨⟨st, pc⟩, ht, hreply⟩ := Option.bind_eq_some_iff.mp h
  cases pc with
  | send_piece kept req' rest block' call =>
    obtain ⟨rfl, rfl⟩ := Prod.mk.inj (Option.some.inj hreply)
    exact ⟨st, kept, rest, call, ht⟩
  | _ => cases hreply

/-- Among the Requests, only the one for the first byte of piece 0. -/
def asked_for_one (_ : Swarm) : Action → Bool
  | .thread _ (.recv (some ⟨.Request, payload⟩)) => payload == (build_request 0 0 1).payload
  | _ => true

theorem acceptsOnly_of_asked_for_one {P : IncomingRequest → Prop} (hP : P ⟨0, 0, 1⟩) (s : Swarm)
    (a : Action) (h : s.asked_for_one a = true) : s.AcceptsOnly P a := by
  unfold AcceptsOnly
  split
  · rename_i id payload
    intro t _ _ _
    have hpayload : payload = (build_request 0 0 1).payload := eq_of_beq h
    have hdecoded : (⟨ntohl payload 0, ntohl payload 4, ntohl payload 8⟩ : IncomingRequest)
        = ⟨0, 0, 1⟩ := by
      rw [hpayload]
      decide +kernel
    rw [hdecoded]
    exact hP
  · trivial

/-- The one byte of a one-byte file is asked for and sent. -/
theorem tiny_reply : ∃ s, (serving id (.tiny .SEEDER [7]) (some [7])
      (Metadata.AsksWhatIsSent (.tiny .SEEDER [7]))).Reachable s ∧
    s.reply_of 0 = some (⟨0, 0, 1⟩, [7]) ∧ ∃ s₀ : Swarm, s₀.ctl.Replied ⟨0, 0, 1⟩ [7] := by
  have hasked : Metadata.AsksWhatIsSent (.tiny .SEEDER [7]) ⟨0, 0, 1⟩ := fun _ => by decide +kernel
  obtain ⟨s, hr, hs⟩ := System.Reachable.exists_of_run
    (System.guarded_step (acceptsOnly_of_asked_for_one hasked) next_step)
    (.init rfl : (serving id (.tiny .SEEDER [7]) (some [7])
      (Metadata.AsksWhatIsSent (.tiny .SEEDER [7]))).Reachable _) (ask 1)
    (P := fun s => s.reply_of 0 == some (⟨0, 0, 1⟩, [7])) (by decide +kernel)
  have hs := eq_of_beq hs
  obtain ⟨st, kept, rest, call, ht⟩ := reply_of_some hs
  obtain ⟨s₀, -, -, -, hreplied⟩ := (reply_matches id (Metadata.tiny_consistent .SEEDER [7])
    (some [7])).1 s hr 0 st kept _ rest _ call ht
  exact ⟨s, hr, hs, s₀, hreplied⟩

/-- **The length is ignored**: a peer that asks a seeder of a one-byte file for
    five bytes is sent one. -/
theorem length_ignored : (Metadata.tiny .SEEDER [7]).Consistent ∧ ∃ s,
    (system id (.tiny .SEEDER [7]) (some [7])).Reachable s ∧
      s.reply_of 0 = some (⟨0, 0, 5⟩, [7]) := by
  refine ⟨Metadata.tiny_consistent _ _, ?_⟩
  obtain ⟨s, hr, hs⟩ := System.Reachable.exists_of_run next_step
    (.init rfl : (system id (.tiny .SEEDER [7]) (some [7])).Reachable _) (ask 5)
    (P := fun s => s.reply_of 0 == some (⟨0, 0, 5⟩, [7])) (by decide +kernel)
  exact ⟨s, hr, eq_of_beq hs⟩

end Swarm

end BitTorrentLite
