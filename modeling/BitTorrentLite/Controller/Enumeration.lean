import BitTorrentLite.Controller.Recovery

/-! # Enumerating the Missing Blocks

    Repeated calls of `next_request` go through the blocks that are missing
    and not in flight, in the order of the file, and return each of them once.
    This needs the block arithmetic to be exact, which it is while a piece
    leaves room for the addition in `count_blocks`: then the blocks partition
    the file, and no `int` on the way overflows.
-/

open Machine Region Tiling

namespace BitTorrentLite

namespace Metadata

/-- The numbers of the torrent agree, and its pieces leave room for the addition
    in `count_blocks`. The hashes play no part. -/
structure Roomy (m : Metadata) : Prop where
  piece_length_pos : 1 ≤ m.piece_length
  piece_length_le : m.piece_length ≤ 2 ^ 31 - 1 - 16384
  length_pos : 1 ≤ m.length
  length_int64 : m.length < 2 ^ 63
  pieces_int : m.total_pieces < 2 ^ 31
  pieces : m.total_pieces = tile_count m.length.toNat m.piece_length.toNat

/-- Block `b` of piece `i` as `next_request` returns it. -/
def request (m : Metadata) (i b : ℕ) : BlockRequest :=
  ⟨i, block_offset b, m.block_size i (block_offset b)⟩

/-- The part of the file that block `b` of piece `i` takes up. -/
def block_range (m : Metadata) (i b : ℕ) : Set ℤ :=
  Set.Ico (i * m.piece_length + b * 16384)
    (i * m.piece_length + b * 16384 + min 16384 (m.piece_length_for i - b * 16384))

/-- Every number the search in piece `i` computes is in the range of its type. -/
structure Exact (m : Metadata) (i : ℕ) : Prop where
  last : FitsInt (m.total_pieces - 1)
  start : FitsInt64 (m.piece_length * i)
  remaining : FitsInt64 (m.length - m.piece_length * i)
  piece_length : FitsInt (if (i : ℤ) < m.total_pieces - 1 then m.piece_length
    else m.length - m.piece_length * i)
  sum : FitsInt (m.piece_length_for i + block_length)
  sum_less : FitsInt (m.piece_length_for i + block_length - 1)
  offset : ∀ b : ℕ, (b : ℤ) < m.count_blocks i → FitsInt (b * block_length)
  left : ∀ b : ℕ, (b : ℤ) < m.count_blocks i →
    FitsInt (m.piece_length_for i - b * block_length)

/-! ### Exact Arithmetic -/

namespace Roomy

variable {m : Metadata} {i b : ℕ}

/-- With as many hashes as pieces, the numbers are consistent. -/
theorem consistent (h : m.Roomy) :
    Consistent { m with piece_hash := List.replicate m.total_pieces [] } where
  piece_length_pos := h.piece_length_pos
  piece_length_int := by
    have := h.piece_length_le
    show m.piece_length < 2 ^ 31
    omega
  length_pos := h.length_pos
  length_int64 := h.length_int64
  pieces_int := h.pieces_int
  pieces := h.pieces
  hashes := List.length_replicate

theorem piece_length_for_eq (h : m.Roomy) (hi : i < m.total_pieces) :
    m.piece_length_for i = m.piece_size i := h.consistent.piece_length_for_eq hi

theorem piece_size_le (h : m.Roomy) : (m.piece_size i : ℤ) ≤ 2 ^ 31 - 1 - 16384 :=
  le_trans h.consistent.piece_size_le h.piece_length_le

theorem tile_count_eq (h : m.Roomy) (hi : i < m.total_pieces) :
    tile_count (m.piece_length_for i).toNat 16384 = m.block_count i := by
  rw [h.piece_length_for_eq hi, Int.toNat_natCast]
  rfl

theorem count_blocks_eq (h : m.Roomy) (hi : i < m.total_pieces) :
    m.count_blocks i = m.block_count i := by
  have hplen := h.piece_length_for_eq hi
  have hle := h.piece_size_le (i := i)
  exact count_blocks_of_pos hplen (by omega)

theorem block_offset_eq (h : m.Roomy) (hb : b < m.block_count i) :
    block_offset b = (b * 16384 : ℕ) := h.consistent.block_offset_eq hb

/-- What `next_request` returns for a block, in exact numbers. -/
theorem request_eq (h : m.Roomy) (hi : i < m.total_pieces) (hb : b < m.block_count i) :
    m.request i b = ⟨i, (b * 16384 : ℕ), min 16384 (m.piece_length_for i - (b * 16384 : ℕ))⟩ := by
  have hlt := Consistent.block_start_lt hb
  have hplen := h.piece_length_for_eq hi
  have hle := h.piece_size_le (i := i)
  unfold request
  rw [h.block_offset_eq hb, block_size_of_inside (by omega) (by omega) (by omega)]

theorem exact (h : m.Roomy) (hi : i < m.total_pieces) : m.Exact i := by
  have hplen := h.piece_length_for_eq hi
  have hle := h.piece_size_le (i := i)
  have hpos := h.piece_length_pos
  have hmax := h.length_int64
  have hpieces := h.pieces_int
  have hleft : m.length - m.piece_length * i = (m.length.toNat - m.piece_start i : ℕ) :=
    h.consistent.remaining_eq hi
  have hblock : ∀ b : ℕ, (b : ℤ) < m.count_blocks i → b * 16384 < m.piece_size i := by
    intro b hb
    rw [h.count_blocks_eq hi] at hb
    exact Consistent.block_start_lt (by exact_mod_cast hb)
  constructor
  case last => constructor <;> omega
  case start =>
    have hstart : 0 ≤ m.piece_length * i := Int.mul_nonneg (by omega) (Int.natCast_nonneg i)
    constructor <;> omega
  case remaining => constructor <;> omega
  case piece_length =>
    split
    · have := h.piece_length_le
      constructor <;> omega
    · rename_i hlast
      have hsize : m.length - m.piece_length * i = m.piece_size i :=
        h.consistent.last_piece_eq hi hlast
      rw [hsize]
      constructor <;> omega
  case sum =>
    unfold block_length
    constructor <;> omega
  case sum_less =>
    unfold block_length
    constructor <;> omega
  case offset =>
    intro b hb
    have := hblock b hb
    unfold block_length
    constructor <;> omega
  case left =>
    intro b hb
    have := hblock b hb
    unfold block_length
    constructor <;> omega

/-! ### The Blocks of the File -/

/-- The range of a block, by the tiling of its piece. -/
theorem mem_block_range (h : m.Roomy) (hi : i < m.total_pieces) (hb : b < m.block_count i)
    {x : ℕ} : (x : ℤ) ∈ m.block_range i b ↔ m.piece_start i + b * 16384 ≤ x ∧
      x < m.piece_start i + b * 16384 + tile_size (m.piece_size i) 16384 b := by
  have hpos := h.piece_length_pos
  have hlt := Consistent.block_start_lt hb
  have hstart : (i : ℤ) * m.piece_length = (m.piece_start i : ℕ) := by
    unfold piece_start
    push_cast
    rw [Int.toNat_of_nonneg (by omega)]
  unfold block_range tile_size
  rw [Set.mem_Ico, hstart, h.piece_length_for_eq hi]
  omega

/-- **Blocks partition**: every byte of the file lies in one block, and in no
    other. -/
theorem existsUnique_block (h : m.Roomy) {x : ℤ} (hx : 0 ≤ x) (hlt : x < m.length) :
    ∃! p : ℕ × ℕ, p.1 < m.total_pieces ∧ p.2 < m.block_count p.1 ∧ x ∈ m.block_range p.1 p.2 := by
  obtain ⟨n, rfl⟩ := Int.eq_ofNat_of_zero_le hx
  have hsz : 0 < m.piece_length.toNat := h.consistent.piece_length_nat_pos
  have hpiece : ∃! i, i < m.total_pieces ∧ m.piece_start i ≤ n ∧
      n < m.piece_start i + m.piece_size i := by
    rw [h.pieces]
    exact existsUnique_tile hsz (by omega)
  obtain ⟨i, ⟨hi, hstart, hstop⟩, hionly⟩ := hpiece
  have hblock : ∃! b, b < m.block_count i ∧ b * 16384 ≤ n - m.piece_start i ∧
      n - m.piece_start i < b * 16384 + tile_size (m.piece_size i) 16384 b :=
    existsUnique_tile (by norm_num) (by omega)
  obtain ⟨b, ⟨hb, hbstart, hbstop⟩, hbonly⟩ := hblock
  refine ⟨(i, b), ⟨hi, hb, (h.mem_block_range hi hb).mpr ⟨by omega, by omega⟩⟩, ?_⟩
  rintro ⟨j, k⟩ ⟨hj, hk, hmem⟩
  change j < m.total_pieces at hj
  change k < m.block_count j at hk
  obtain ⟨hfrom, hto⟩ := (h.mem_block_range hj hk).mp hmem
  -- the block lies in its piece, so the piece is the one the byte lies in
  have hend : k * 16384 + tile_size (m.piece_size j) 16384 k ≤ m.piece_size j :=
    tile_end_le (by norm_num) hk
  have hj' : m.piece_start j ≤ n ∧ n < m.piece_start j + m.piece_size j := by omega
  obtain rfl : j = i := hionly j ⟨hj, hj'⟩
  have hk' : k * 16384 ≤ n - m.piece_start j ∧
      n - m.piece_start j < k * 16384 + tile_size (m.piece_size j) 16384 k := by omega
  obtain rfl : k = b := hbonly k ⟨hk, hk'⟩
  rfl

theorem block_range_subset (h : m.Roomy) (hi : i < m.total_pieces) (hb : b < m.block_count i) :
    m.block_range i b ⊆ Set.Ico 0 m.length := by
  intro x hx
  have hpos := h.piece_length_pos
  have hlt := Consistent.block_start_lt hb
  have hend : m.piece_start i + m.piece_size i ≤ m.length.toNat := h.consistent.piece_end_le hi
  have hstart : 0 ≤ (i : ℤ) * m.piece_length := Int.mul_nonneg (Int.natCast_nonneg i) (by omega)
  have hnonneg : 0 ≤ x := by
    have := hx.1
    omega
  obtain ⟨n, rfl⟩ := Int.eq_ofNat_of_zero_le hnonneg
  obtain ⟨-, hstop⟩ := (h.mem_block_range hi hb).mp hx
  have htile : b * 16384 + tile_size (m.piece_size i) 16384 b ≤ m.piece_size i :=
    tile_end_le (by norm_num) hb
  rw [Set.mem_Ico]
  omega

end Roomy

end Metadata

namespace Controller

open Metadata (block_offset)

variable {c c' : Controller} {bf : ℕ → Bool} {i j b k : ℕ} {req : BlockRequest}
  {reqs : List BlockRequest}

/-! ## One Call -/

/-- A search over the numbers below `n` finds the first one. -/
theorem findSome?_range {α : Type} {f : ℕ → Option α} {n : ℕ} {a : α}
    (h : (List.range n).findSome? f = some a) :
    ∃ k < n, f k = some a ∧ ∀ j < k, f j = none := by
  obtain ⟨l₁, k, l₂, hsplit, hk, hnone⟩ := List.findSome?_eq_some_iff.mp h
  have hlen : l₁.length < n := by
    have := congrArg List.length hsplit
    simp only [List.length_range, List.length_append, List.length_cons] at this
    omega
  -- the numbers before the one that is found are the smaller ones
  have hget : ∀ j < l₁.length, l₁[j]? = some j := by
    intro j hj
    have happend : (l₁ ++ k :: l₂)[j]? = l₁[j]? := List.getElem?_append_left hj
    rw [← happend, ← hsplit, List.getElem?_range (by omega)]
  have hkeq : k = l₁.length := by
    have := List.getElem?_range hlen
    rw [hsplit, List.getElem?_append_right le_rfl, Nat.sub_self] at this
    exact Option.some.inj this
  subst hkeq
  exact ⟨_, hlen, hk, fun j hj => hnone j (List.mem_of_getElem? (hget j hj))⟩

/-- Block `b` of piece `i` is missing, not in flight, and the peer has the piece. -/
structure OnOffer (c : Controller) (bf : ℕ → Bool) (i b : ℕ) : Prop where
  open_block : (⟨i, b⟩ : Σ _ : ℕ, ℕ) ∈ c.open_blocks
  bit : bf i = true

/-- One block comes before another in the file. -/
def Earlier (i b j k : ℕ) : Prop := i < j ∨ (i = j ∧ b < k)

theorem OnOffer.available (h : c.OnOffer bf i b) : c.Available i (block_offset b) := by
  obtain ⟨hi, hb, hst, hns, hni⟩ := mem_open_blocks.mp h.open_block
  exact ⟨hi, hst, ⟨b, hb, rfl⟩, hns, hni⟩

/-- **Search order**: `next_request` returns the first block on offer. -/
theorem next_request_first (h : c.next_request bf = (c', some req)) :
    ∃ i b, c.OnOffer bf i b ∧ req = c.request i b ∧ c' = c.claim i (block_offset b) ∧
      ∀ j k, c.OnOffer bf j k → (j = i ∧ k = b) ∨ Earlier i b j k := by
  unfold next_request at h
  split at h
  · cases h
  split at h
  · cases h
  rename_i req' hfind
  obtain ⟨rfl, hreq⟩ := Prod.mk.inj h
  obtain rfl := Option.some.inj hreq
  obtain ⟨i, hi, hpiece, hpieces⟩ := findSome?_range hfind
  unfold next_block at hpiece
  split at hpiece
  · cases hpiece
  rename_i hguard
  obtain ⟨hbf, hst⟩ := not_or.mp hguard
  obtain ⟨b, hb, hblock, hblocks⟩ := findSome?_range hpiece
  split at hblock
  · rename_i hopen
    obtain rfl := Option.some.inj hblock
    simp only [open_block, Bool.and_eq_true, Option.isNone_iff_eq_none,
      decide_eq_true_eq] at hopen
    have hoffer : c.OnOffer bf i b :=
      ⟨mem_open_blocks.mpr ⟨hi, by omega, hst, hopen.1, hopen.2⟩, by simpa using hbf⟩
    refine ⟨i, b, hoffer, rfl, by simp, fun j k hjk => ?_⟩
    rcases Nat.lt_trichotomy j i with hlt | rfl | hgt
    · -- the search passed over piece `j`
      have := next_block_none (hpieces j hlt) hjk.available
      rw [hjk.bit] at this
      cases this
    · rcases Nat.lt_trichotomy k b with hlt | rfl | hgt
      · -- the search passed over block `k`
        obtain ⟨-, -, -, hns, hni⟩ := mem_open_blocks.mp hjk.open_block
        have hpassed := hblocks k hlt
        simp [open_block, hns, hni] at hpassed
      · exact .inl ⟨rfl, rfl⟩
      · exact .inr (.inr ⟨rfl, hgt⟩)
    · exact .inr (.inl hgt)
  · cases hblock

/-! ## Repeated Calls -/

/-- `next_request` is called until it returns nothing: what it returns, and the
    state that is left. -/
inductive Drained (bf : ℕ → Bool) : Controller → List BlockRequest → Controller → Prop where
  | done {c c' : Controller} : c.next_request bf = (c', none) → Drained bf c [] c'
  | more {c c₁ c' : Controller} {req : BlockRequest} {reqs : List BlockRequest} :
      c.next_request bf = (c₁, some req) → Drained bf c₁ reqs c' → Drained bf c (req :: reqs) c'

/-- The order of the requests in the file. -/
def Before (r s : BlockRequest) : Prop :=
  r.piece_index < s.piece_index ∨
    (r.piece_index = s.piece_index ∧ r.block_offset < s.block_offset)

theorem OnOffer.block_lt (hr : c.Roomy) (h : c.OnOffer bf i b) :
    i < c.total_pieces ∧ b < c.block_count i := by
  obtain ⟨hi, hb, -⟩ := mem_open_blocks.mp h.open_block
  rw [hr.count_blocks_eq hi] at hb
  exact ⟨hi, by exact_mod_cast hb⟩

/-- A call takes the block it returns off the offer, and no other. -/
theorem onOffer_claim (hr : c.Roomy) (h : c.OnOffer bf i b) :
    (c.claim i (block_offset b)).OnOffer bf j k ↔ c.OnOffer bf j k ∧ ¬ (j = i ∧ k = b) := by
  constructor
  · intro h'
    have hsub := (open_blocks_claim h.available).subset h'.open_block
    refine ⟨⟨hsub, h'.bit⟩, ?_⟩
    rintro ⟨rfl, rfl⟩
    obtain ⟨-, -, -, -, hni⟩ := mem_open_blocks.mp h'.open_block
    exact hni (by simp)
  · rintro ⟨h', hne⟩
    have hoff : ¬ (j = i ∧ block_offset k = block_offset b) := by
      rintro ⟨rfl, hoff⟩
      rw [hr.block_offset_eq (h.block_lt hr).2, hr.block_offset_eq (h'.block_lt hr).2] at hoff
      exact hne ⟨rfl, by omega⟩
    obtain ⟨hj, hst, -, hns, hni⟩ := h'.available.of_claim hoff
    obtain ⟨-, hk, -⟩ := mem_open_blocks.mp h'.open_block
    exact ⟨mem_open_blocks.mpr ⟨hj, hk, hst, hns, hni⟩, h'.bit⟩

theorem before_of_earlier (hr : c.Roomy) (h : c.OnOffer bf i b) (h' : c.OnOffer bf j k)
    (hearlier : Earlier i b j k) : Before (c.request i b) (c.request j k) := by
  rcases hearlier with hlt | ⟨rfl, hlt⟩
  · exact .inl (Int.ofNat_lt.mpr hlt)
  · refine .inr ⟨rfl, ?_⟩
    show block_offset b < block_offset k
    rw [hr.block_offset_eq (h.block_lt hr).2, hr.block_offset_eq (h'.block_lt hr).2]
    omega

/-- **The search drains the offer**: each call takes the first block on offer
    away, and they are finitely many. -/
theorem drained_onOffer (bf : ℕ → Bool) (hm : c.mode = .LEECHER) (hr : c.Roomy) :
    ∃ reqs c', Drained bf c reqs c' ∧ reqs.Pairwise Before ∧
      ∀ req, req ∈ reqs ↔ ∃ i b, c.OnOffer bf i b ∧ req = c.request i b := by
  induction hn : c.open_blocks.card using Nat.strong_induction_on generalizing c with
  | _ n ih =>
    cases hreq : c.next_request bf with
    | mk c₁ found =>
    cases found with
    | none =>
      refine ⟨[], c₁, .done hreq, .nil, fun req => iff_of_false List.not_mem_nil ?_⟩
      rintro ⟨i, b, hoffer, -⟩
      -- a call that finds nothing would have found this block
      have := (next_request_none hreq).2 hm i _ hoffer.available
      rw [hoffer.bit] at this
      cases this
    | some req =>
      obtain ⟨i, b, hoffer, rfl, rfl, hfirst⟩ := next_request_first hreq
      have hless := Finset.card_lt_card (open_blocks_claim hoffer.available)
      obtain ⟨reqs, c', hdrained, hsorted, hmem⟩ :=
        ih _ (hn ▸ hless) (c := c.claim i (block_offset b)) hm hr rfl
      refine ⟨_ :: reqs, c', .more hreq hdrained, List.pairwise_cons.mpr ⟨?_, hsorted⟩, ?_⟩
      · intro req hin
        obtain ⟨j, k, hjk, rfl⟩ := (hmem req).mp hin
        obtain ⟨hjk, hne⟩ := (onOffer_claim hr hoffer).mp hjk
        exact before_of_earlier hr hoffer hjk ((hfirst j k hjk).resolve_left hne)
      · intro req
        rw [List.mem_cons, hmem]
        constructor
        · rintro (rfl | ⟨j, k, hjk, rfl⟩)
          · exact ⟨i, b, hoffer, rfl⟩
          · exact ⟨j, k, ((onOffer_claim hr hoffer).mp hjk).1, rfl⟩
        · rintro ⟨j, k, hjk, rfl⟩
          by_cases hsame : j = i ∧ k = b
          · obtain ⟨rfl, rfl⟩ := hsame
            exact .inl rfl
          · exact .inr ⟨j, k, (onOffer_claim hr hoffer).mpr ⟨hjk, hsame⟩, rfl⟩

/-- A block of the torrent, by exact arithmetic, that is missing and not in
    flight, of a piece the peer has. -/
structure Wanted (c : Controller) (bf : ℕ → Bool) (i b : ℕ) : Prop where
  piece : i < c.total_pieces
  block : b < tile_count (c.piece_length_for i).toNat 16384
  bit : bf i = true
  not_done : c.piece_status i ≠ 1
  not_stored : c.piece_blocks i (b * 16384 : ℕ) = none
  not_inflight : ((b * 16384 : ℕ) : ℤ) ∉ c.inflight i

theorem onOffer_iff_wanted (hr : c.Roomy) : c.OnOffer bf i b ↔ c.Wanted bf i b := by
  constructor
  · intro h
    obtain ⟨hi, hb⟩ := h.block_lt hr
    obtain ⟨-, -, hst, hns, hni⟩ := mem_open_blocks.mp h.open_block
    rw [hr.block_offset_eq hb] at hns hni
    exact ⟨hi, by rw [hr.tile_count_eq hi]; exact hb, h.bit, hst, hns, hni⟩
  · intro h
    have hi := h.piece
    have hb : b < c.block_count i := hr.tile_count_eq hi ▸ h.block
    refine ⟨mem_open_blocks.mpr ⟨hi, ?_, h.not_done, ?_, ?_⟩, h.bit⟩
    · rw [hr.count_blocks_eq hi]
      exact_mod_cast hb
    · rw [hr.block_offset_eq hb]
      exact h.not_stored
    · rw [hr.block_offset_eq hb]
      exact h.not_inflight

/-- **Enumeration**: in every state of a leecher, reachable or not, and for
    every bitfield, calling `next_request` until it returns nothing yields, in
    the order of the file and each once, precisely the missing blocks of the
    pieces the peer has, each with its length; no number on the way overflows;
    and the blocks of all pieces partition the file. -/
theorem next_request_enumerates (hm : c.mode = .LEECHER) (hr : c.Roomy) (bf : ℕ → Bool) :
    (∃ reqs c', Drained bf c reqs c' ∧ reqs.Pairwise Before ∧
      ∀ req, req ∈ reqs ↔ ∃ i b, c.Wanted bf i b ∧
        req = ⟨i, (b * 16384 : ℕ), min 16384 (c.piece_length_for i - (b * 16384 : ℕ))⟩) ∧
    (∀ i < c.total_pieces, c.Exact i) ∧
    (∀ i < c.total_pieces, ∀ b < tile_count (c.piece_length_for i).toNat 16384,
      1 ≤ min 16384 (c.piece_length_for i - (b * 16384 : ℕ)) ∧
        min 16384 (c.piece_length_for i - (b * 16384 : ℕ)) ≤ 16384 ∧
        c.block_range i b ⊆ Set.Ico 0 c.length) ∧
    ∀ x, 0 ≤ x → x < c.length → ∃! p : ℕ × ℕ, p.1 < c.total_pieces ∧
      p.2 < tile_count (c.piece_length_for p.1).toNat 16384 ∧ x ∈ c.block_range p.1 p.2 := by
  refine ⟨?_, fun i hi => hr.exact hi, fun i hi b hb => ?_, fun x hx hlt => ?_⟩
  · obtain ⟨reqs, c', hdrained, hsorted, hmem⟩ := drained_onOffer bf hm hr
    refine ⟨reqs, c', hdrained, hsorted, fun req => (hmem req).trans ?_⟩
    constructor
    · rintro ⟨i, b, hoffer, rfl⟩
      obtain ⟨hi, hb⟩ := hoffer.block_lt hr
      exact ⟨i, b, (onOffer_iff_wanted hr).mp hoffer, hr.request_eq hi hb⟩
    · rintro ⟨i, b, hwanted, rfl⟩
      have hoffer := (onOffer_iff_wanted hr).mpr hwanted
      obtain ⟨hi, hb⟩ := hoffer.block_lt hr
      exact ⟨i, b, hoffer, (hr.request_eq hi hb).symm⟩
  · have hb : b < c.block_count i := hr.tile_count_eq hi ▸ hb
    have hlt := Metadata.Consistent.block_start_lt hb
    have hplen := hr.piece_length_for_eq hi
    exact ⟨by omega, min_le_left _ _, hr.block_range_subset hi hb⟩
  · obtain ⟨p, ⟨hp, hb, hin⟩, honly⟩ := hr.existsUnique_block hx hlt
    refine ⟨p, ⟨hp, by rw [hr.tile_count_eq hp]; exact hb, hin⟩, ?_⟩
    rintro q ⟨hq, hqb, hqin⟩
    exact honly q ⟨hq, by rw [← hr.tile_count_eq hq]; exact hqb, hqin⟩

/-- A file of 30000 bytes in two pieces. -/
def two_pieces : Metadata where
  mode := .LEECHER
  total_pieces := 2
  piece_length := 20000
  length := 30000
  piece_hash := [[], []]

theorem two_pieces_roomy : two_pieces.Roomy where
  piece_length_pos := by norm_num [two_pieces]
  piece_length_le := by norm_num [two_pieces]
  length_pos := by norm_num [two_pieces]
  length_int64 := by norm_num [two_pieces]
  pieces_int := by norm_num [two_pieces]
  pieces := show 2 = tile_count 30000 20000 by decide

/-- Nothing is there, so all three blocks are returned, with the lengths they
    have at the ends of the pieces. -/
theorem two_pieces_enumerated : ∃ reqs c', Drained (fun _ => true) (make two_pieces none) reqs c' ∧
    ⟨0, 16384, 3616⟩ ∈ reqs ∧ ⟨1, 0, 10000⟩ ∈ reqs := by
  obtain ⟨reqs, c', hdrained, -, hmem⟩ :=
    (next_request_enumerates (c := make two_pieces none) rfl two_pieces_roomy fun _ => true).1
  have hwanted : ∀ i b : ℕ, i < 2 →
      b < tile_count (two_pieces.piece_length_for i).toNat 16384 →
      (make two_pieces none).Wanted (fun _ => true) i b :=
    fun i b hi hb => ⟨hi, hb, rfl, show 0 ≠ 1 by decide, rfl, Finset.notMem_empty _⟩
  refine ⟨reqs, c', hdrained, ?_, ?_⟩
  · exact (hmem _).mpr ⟨0, 1, hwanted 0 1 (by decide) (by decide +kernel), by decide +kernel⟩
  · exact (hmem _).mpr ⟨1, 0, hwanted 1 0 (by decide) (by decide +kernel), by decide +kernel⟩

end Controller

end BitTorrentLite
