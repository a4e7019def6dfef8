import BitTorrentLite.Controller.Integrity
import BitTorrentLite.Swarm.Provenance

/-! # The Check of a Seeder

    `seederCheck` reads the file of a seeder piece by piece and compares the
    hashes. `run_seeder` does not call it. Here is what it decides, and what a
    seeder that did call it could rely on: it would send nothing but verified
    bytes, whatever its peers ask for from the start of a piece on.
-/

open Machine Region LTS

namespace BitTorrentLite

namespace Controller

/-! ## The Check -/

/-- The loop of `seederCheck` over the last `k` pieces, with what the stream
    has not read yet. -/
def check_pieces (c : Controller) (sha1 : Bytes → Bytes) : ℕ → Bytes → Except Fault Bool
  | 0, _ => .ok true
  | k + 1, rest =>
    let i := c.total_pieces - (k + 1)
    let plen := c.piece_length_for i
    -- `string piece(plen, ...)` of a negative length
    if plen < 0 then .error .length_error
    else
      let piece := rest.take plen.toNat
      -- `gcount`
      if (piece.length : ℤ) ≠ plen then .ok false
      else if sha1 piece ≠ c.piece_hash.getD i [] then .ok false
      else check_pieces c sha1 k (rest.drop plen.toNat)

/-- `seederCheck`: that the file cannot be opened is reported, and the reads
    return nothing. -/
def seederCheck (c : Controller) (sha1 : Bytes → Bytes) : Except Fault Bool :=
  if c.mode ≠ .SEEDER then .ok false
  else c.check_pieces sha1 c.total_pieces (c.file.getD [])

variable {sha1 : Bytes → Bytes} {c : Controller} {f : Bytes}

/-- Piece `i` is in `f`, with its hash. -/
def Matches (sha1 : Bytes → Bytes) (c : Controller) (f : Bytes) (i : ℕ) : Prop :=
  c.piece_start i + c.piece_size i ≤ f.length ∧
    sha1 (slice f (c.piece_start i) (c.piece_size i)) = c.piece_hash.getD i []

theorem check_pieces_succ (hg : c.Consistent) {k : ℕ} (hk : k < c.total_pieces) (rest : Bytes) :
    c.check_pieces sha1 (k + 1) rest =
      if (rest.take (c.piece_size (c.total_pieces - (k + 1)))).length
          ≠ c.piece_size (c.total_pieces - (k + 1)) then .ok false
      else if sha1 (rest.take (c.piece_size (c.total_pieces - (k + 1))))
          ≠ c.piece_hash.getD (c.total_pieces - (k + 1)) [] then .ok false
      else c.check_pieces sha1 k (rest.drop (c.piece_size (c.total_pieces - (k + 1)))) := by
  rw [check_pieces]
  dsimp only
  rw [hg.piece_length_for_eq (by omega), if_neg (by omega), Int.toNat_natCast]
  simp only [ne_eq, Nat.cast_inj]

/-- The stream goes on at the next piece. -/
theorem drop_piece (hg : c.Consistent) {i : ℕ} (hi : i + 1 < c.total_pieces) (f : Bytes) :
    (f.drop (c.piece_start i)).drop (c.piece_size i) = f.drop (c.piece_start (i + 1)) := by
  have hsize : c.piece_size i = c.piece_length.toNat := by
    have hlast : (i : ℤ) < c.total_pieces - 1 := by omega
    have hlen := hg.piece_length_for_eq (i := i) (by omega)
    unfold Metadata.piece_length_for at hlen
    rw [if_pos hlast] at hlen
    omega
  rw [List.drop_drop, hsize]
  unfold Metadata.piece_start
  rw [Nat.add_mul, Nat.one_mul]

/-- **The loop**: it goes through when each of the pieces it has left is in the
    file, with its hash. -/
theorem check_pieces_iff (hg : c.Consistent) {k : ℕ} (hk : k ≤ c.total_pieces) {rest : Bytes}
    (hrest : k ≠ 0 → rest = f.drop (c.piece_start (c.total_pieces - k))) :
    c.check_pieces sha1 k rest = .ok true ↔
      ∀ i, c.total_pieces - k ≤ i → i < c.total_pieces → c.Matches sha1 f i := by
  induction k generalizing rest with
  | zero =>
    constructor
    · intro _ i hle hlt
      omega
    · intro _
      rfl
  | succ k ih =>
    obtain rfl := hrest (Nat.succ_ne_zero k)
    rw [check_pieces_succ hg (by omega)]
    obtain ⟨first, hfirst⟩ : ∃ first, c.total_pieces - (k + 1) = first := ⟨_, rfl⟩
    rw [hfirst]
    have hlt : first < c.total_pieces := by omega
    -- what is read is the piece, where the file is long enough
    have hread : (f.drop (c.piece_start first)).take (c.piece_size first)
        = slice f (c.piece_start first) (c.piece_size first) := rfl
    have hlong : (slice f (c.piece_start first) (c.piece_size first)).length = c.piece_size first ↔
        c.piece_start first + c.piece_size first ≤ f.length := by
      have hpos := hg.piece_size_pos hlt
      rw [slice_length]
      omega
    have hnext : k ≠ 0 → (f.drop (c.piece_start first)).drop (c.piece_size first)
        = f.drop (c.piece_start (c.total_pieces - k)) := by
      intro hne
      rw [drop_piece hg (by omega), show first + 1 = c.total_pieces - k by omega]
    have hgoes := ih (by omega) hnext
    rw [hread]
    constructor
    · intro hok i hle hi
      split at hok
      · cases hok
      · rename_i hlen
        split at hok
        · cases hok
        · rename_i hhash
          rw [not_not] at hlen hhash
          by_cases hi' : i = first
          · rw [hi']
            exact ⟨hlong.mp hlen, hhash⟩
          · exact hgoes.mp hok i (by omega) hi
    · intro hall
      obtain ⟨hend, hhash⟩ := hall first le_rfl hlt
      rw [if_neg (not_not.mpr (hlong.mpr hend)), if_neg (not_not.mpr hhash)]
      apply hgoes.mpr
      intro i hle hi
      exact hall i (by omega) hi

/-- **What the check decides**: that this is a seeder, and that every piece of
    its file matches its hash. -/
theorem seederCheck_iff (hg : c.Consistent) :
    c.seederCheck sha1 = .ok true ↔
      c.mode = .SEEDER ∧ ∀ i < c.total_pieces, c.Verified sha1 i := by
  unfold seederCheck
  split
  · rename_i hm
    simp [hm]
  · rename_i hm
    rw [not_not] at hm
    have hstart : c.total_pieces ≠ 0 →
        c.file.getD [] = (c.file.getD []).drop (c.piece_start (c.total_pieces - c.total_pieces)) := by
      intro _
      simp [Metadata.piece_start]
    rw [check_pieces_iff hg le_rfl hstart]
    simp only [hm, true_and, Nat.sub_self, Nat.zero_le, true_imp_iff]
    constructor
    · intro hall i hi
      obtain ⟨hend, hhash⟩ := hall i hi
      cases hf : c.file with
      | none =>
        have hpos := hg.piece_size_pos hi
        rw [hf] at hend
        simp at hend
        omega
      | some f =>
        rw [hf] at hend hhash
        exact (verified_iff hg hi).mpr ⟨f, hf, hend, hhash⟩
    · intro hall i hi
      obtain ⟨f, hf, hend, hhash⟩ := (verified_iff hg hi).mp (hall i hi)
      rw [hf]
      exact ⟨hend, hhash⟩

/-! ## A Seeder That Passed It -/

/-- On such a file, a request from the start of a piece on asks for verified
    bytes. -/
theorem asksForVerified_of_check {m : Metadata} {disk : Option Bytes} (hg : m.Consistent)
    (hcheck : (make m disk).seederCheck sha1 = .ok true) {req : IncomingRequest}
    (hreq : 0 ≤ req.block_offset) : m.AsksForVerified sha1 disk req := by
  obtain ⟨hs, hall⟩ := (seederCheck_iff (c := make m disk) hg).mp hcheck
  constructor
  · intro hl
    rw [show m.mode = .SEEDER from hs] at hl
    cases hl
  · intro _ hreads f _ _
    obtain ⟨i, hi, hlt⟩ := hreads.piece.nat
    refine ⟨hreq, ?_⟩
    rw [hi, Int.toNat_natCast]
    obtain ⟨f', hf', hend, hhash⟩ := hall i hlt
    have hplace : 0 ≤ i * m.piece_length :=
      mul_nonneg (Int.natCast_nonneg i) (hg.piece_length_pos.trans' zero_le_one)
    refine ⟨f', hf', hplace, ?_, hhash⟩
    have hsize := hg.piece_length_for_eq hlt
    show i * m.piece_length + m.piece_length_for i ≤ f'.length
    have hend : (i * m.piece_length + m.piece_length_for i).toNat ≤ f'.length := hend
    omega

end Controller

namespace Swarm

open Controller

/-- The requests a thread takes in start inside a piece, not before it. -/
def FromStart (req : IncomingRequest) : Prop := 0 ≤ req.block_offset

/-- **A seeder that passed the check** sends nothing but verified bytes: over
    every run whose accepted Requests do not reach back before a piece, every
    block that is sent was read, for its Request, from the region of a piece
    whose bytes match its hash. -/
theorem checked_seeder_serves_verified (sha1 : Bytes → Bytes) {m : Metadata} (hg : m.Consistent)
    {disk : Option Bytes} (hcheck : (make m disk).seederCheck sha1 = .ok true) {s : Swarm}
    (h : (serving sha1 m disk FromStart).Reachable s) {id : ℕ} {st : PeerState}
    {kept rest : List IncomingRequest} {req : IncomingRequest} {block : Bytes} {call : ServeCall}
    (ht : s.threads id = some ⟨st, .send_piece kept req rest block call⟩) :
    ∃ s₀ ls, (serving sha1 m disk FromStart).Reachable s₀ ∧
      (serving sha1 m disk FromStart).Path s₀ ls s ∧ s₀.ctl.FromVerified sha1 req block := by
  obtain ⟨hreq, s₀, ls, hr, hpath, hget, hne⟩ := reply_read_before h ht
  have hint : FitsInt m.piece_length := by
    have hpos := hg.piece_length_pos
    have hlt := hg.piece_length_int
    constructor <;> omega
  exact ⟨s₀, ls, hr, hpath, fromVerified_of_get_block hint hr.of_restrict
    (asksForVerified_of_check hg hcheck hreq) hget hne⟩

/-- The seeder of the byte `7` passes the check, and sends it. -/
theorem tiny_checked_seeder : (make (.tiny .SEEDER [7]) (some [7])).seederCheck id = .ok true ∧
    ∃ s₀ : Swarm, s₀.ctl.FromVerified id ⟨0, 0, 1⟩ [7] := by
  have hcheck : (make (.tiny .SEEDER [7]) (some [7])).seederCheck id = .ok true := by decide +kernel
  obtain ⟨s, hr, hs⟩ := System.Reachable.exists_of_run
    (System.guarded_step (acceptsOnly_of_asked_for_one (show FromStart ⟨0, 0, 1⟩ from le_refl 0))
      next_step)
    (.init rfl : (serving id (.tiny .SEEDER [7]) (some [7]) FromStart).Reachable _) (ask 1)
    (P := fun s => s.reply_of 0 == some (⟨0, 0, 1⟩, [7])) (by decide +kernel)
  obtain ⟨st, kept, rest, call, ht⟩ := reply_of_some (eq_of_beq hs)
  obtain ⟨s₀, -, -, -, hfrom⟩ := checked_seeder_serves_verified id
    (Metadata.tiny_consistent .SEEDER [7]) hcheck hr ht
  exact ⟨hcheck, s₀, hfrom⟩

end Swarm

end BitTorrentLite
