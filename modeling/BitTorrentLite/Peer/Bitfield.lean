import BitTorrentLite.Peer.Loop

/-! # The Bitfield Message

    `get_bitfield` packs the pieces that are done into bytes and the Bitfield
    handler reads them back: the peer sees exactly the pieces that are done.
-/

open Machine

namespace BitTorrentLite

/-! ### Bits of a Byte -/

/-- Bit `k` of a byte, counted from the highest one, as the handler reads it. -/
def high_bit (byte : UInt8) (k : ℕ) : Bool := (byte >>> UInt8.ofNat (7 - k)) &&& 1 == 1

theorem high_bit_eq_testBit (byte : UInt8) {k : ℕ} (hk : k < 8) :
    high_bit byte k = byte.toNat.testBit (7 - k) := by
  have hshift : (7 - k) % 2 ^ 8 % 8 = 7 - k := by omega
  have heq : (byte >>> UInt8.ofNat (7 - k)) &&& 1 = 1 ↔ byte.toNat >>> (7 - k) % 2 = 1 := by
    rw [← UInt8.toNat_inj]
    simp only [UInt8.toNat_and, UInt8.toNat_shiftRight, UInt8.toNat_ofNat']
    rw [hshift]
    show byte.toNat >>> (7 - k) &&& 1 = 1 ↔ _
    rw [Nat.and_one_is_mod]
  unfold high_bit
  rw [Nat.testBit_eq_decide_div_mod_eq, ← Nat.shiftRight_eq_div_pow, beq_eq_decide]
  exact decide_eq_decide.mpr heq

/-- Setting one bit leaves the others as they are. -/
theorem high_bit_or (byte : UInt8) {k l : ℕ} (hk : k < 8) (hl : l < 8) :
    high_bit (byte ||| UInt8.ofNat (1 <<< (7 - l))) k = (high_bit byte k || decide (k = l)) := by
  have hpow : (UInt8.ofNat (1 <<< (7 - l))).toNat = 2 ^ (7 - l) := by
    rw [Nat.one_shiftLeft, UInt8.toNat_ofNat', Nat.mod_eq_of_lt]
    exact Nat.pow_lt_pow_right (by norm_num) (by omega)
  rw [high_bit_eq_testBit _ hk, high_bit_eq_testBit _ hk, UInt8.toNat_or, hpow, Nat.testBit_or,
    Nat.testBit_two_pow]
  congr 1
  exact decide_eq_decide.mpr (by omega)

/-! ### The Bytes of the Message -/

/-- Bit `i` of a bitfield, where it has it. -/
def bit_at (bf : Bytes) (i : ℕ) : Bool := (bf[i / 8]?).any fun byte => high_bit byte (i % 8)

theorem bit_at_modify (bf : Bytes) {i j : ℕ} (hi : i / 8 < bf.length) :
    bit_at (bf.modify (i / 8) (· ||| UInt8.ofNat (1 <<< (7 - i % 8)))) j
      = (bit_at bf j || decide (j = i)) := by
  unfold bit_at
  rw [List.getElem?_modify]
  by_cases hj : i / 8 = j / 8
  · rw [← hj, List.getElem?_eq_getElem hi]
    simp only [if_pos, Option.map_eq_map, Option.map_some, Option.any_some]
    rw [high_bit_or _ (Nat.mod_lt _ (by norm_num)) (Nat.mod_lt _ (by norm_num))]
    congr 1
    exact decide_eq_decide.mpr (by omega)
  · have hne : j ≠ i := by
      rintro rfl
      exact hj rfl
    simp [hj, hne]

namespace Controller

/-- One step of the loop of `get_bitfield`. -/
def mark (c : Controller) (bf : Bytes) (i : ℕ) : Bytes :=
  if c.piece_status i = 1 then bf.modify (i / 8) (· ||| UInt8.ofNat (1 <<< (7 - i % 8))) else bf

theorem mark_length (c : Controller) (bf : Bytes) (i : ℕ) : (c.mark bf i).length = bf.length := by
  unfold mark
  split
  · exact List.length_modify ..
  · rfl

/-- A step sets the bit of its piece, if that is done. -/
theorem bit_at_mark (c : Controller) (bf : Bytes) {i j : ℕ} (hi : i / 8 < bf.length) :
    bit_at (c.mark bf i) j = (bit_at bf j || decide (j = i ∧ c.piece_status i = 1)) := by
  unfold mark
  split
  · rename_i hst
    rw [bit_at_modify bf hi]
    simp [hst]
  · rename_i hst
    simp [hst]

/-- After the first `n` pieces, their bits are set where they are done. -/
theorem bit_at_marked (c : Controller) (bf : Bytes) {n : ℕ} (hn : n ≤ 8 * bf.length)
    (hbf : ∀ j, bit_at bf j = false) (j : ℕ) :
    bit_at ((List.range n).foldl c.mark bf) j = decide (j < n ∧ c.piece_status j = 1) ∧
      ((List.range n).foldl c.mark bf).length = bf.length := by
  induction n with
  | zero => simp [hbf]
  | succ n ih =>
    obtain ⟨hbit, hlen⟩ := ih (by omega)
    rw [List.range_succ, List.foldl_append, List.foldl_cons, List.foldl_nil]
    refine ⟨?_, (mark_length c _ n).trans hlen⟩
    rw [bit_at_mark c _ (by omega), hbit, ← Bool.decide_or]
    refine decide_eq_decide.mpr ?_
    constructor
    · rintro (⟨hlt, hst⟩ | ⟨rfl, hst⟩)
      · exact ⟨by omega, hst⟩
      · exact ⟨by omega, hst⟩
    · rintro ⟨hlt, hst⟩
      rcases Nat.lt_succ_iff_lt_or_eq.mp hlt with hlt | rfl
      · exact .inl ⟨hlt, hst⟩
      · exact .inr ⟨rfl, hst⟩

/-- The loop of `get_bitfield`, over a vector with room for a bit for each
    piece: it keeps the size, and sets the bits of the pieces that are done. -/
theorem bit_at_filled (c : Controller) {k : ℕ} (hk : c.total_pieces ≤ 8 * k) (j : ℕ) :
    ((List.range c.total_pieces).foldl c.mark (List.replicate k 0)).length = k ∧
      bit_at ((List.range c.total_pieces).foldl c.mark (List.replicate k 0)) j
        = decide (j < c.total_pieces ∧ c.piece_status j = 1) := by
  have hzero : ∀ j, bit_at (List.replicate k 0) j = false := by
    intro j
    unfold bit_at
    rw [List.getElem?_replicate]
    split
    · simp [high_bit]
    · rfl
  have hroom : c.total_pieces ≤ 8 * (List.replicate k (0 : UInt8)).length := by
    rw [List.length_replicate]
    exact hk
  obtain ⟨hbit, hlen⟩ := bit_at_marked c _ hroom hzero j
  exact ⟨hlen.trans List.length_replicate, hbit⟩

/-- A bit of the bitfield is set where the piece is done. -/
theorem bit_at_get_bitfield (c : Controller) {i : ℕ} (hi : i < c.total_pieces) :
    bit_at c.get_bitfield i = decide (c.piece_status i = 1) := by
  refine (c.bit_at_filled (k := (c.total_pieces + 7) / 8) (by omega) i).2.trans ?_
  exact decide_eq_decide.mpr (and_iff_right hi)

theorem get_bitfield_length (c : Controller) :
    c.get_bitfield.length = (c.total_pieces + 7) / 8 :=
  (c.bit_at_filled (by omega) 0).1

end Controller

/-! ### Reading Them Back -/

/-- Bit `7 - i % 8` of byte `i / 8`. -/
def wire_bit (payload : Bytes) (i : ℕ) : Bool :=
  (payload.getD (i / 8) 0).toNat.testBit (7 - i % 8)

variable {old : ℕ → Bool} {payload : Bytes} {i : ℕ}

theorem bit_at_eq_wire_bit (payload : Bytes) (i : ℕ) : bit_at payload i = wire_bit payload i := by
  unfold bit_at wire_bit
  rw [List.getD_eq_getElem?_getD]
  cases payload[i / 8]? with
  | none => simp
  | some byte => exact high_bit_eq_testBit byte (Nat.mod_lt _ (by norm_num))

/-- What the handler makes of a payload of any length. -/
theorem decode_bitfield_eq (old : ℕ → Bool) (payload : Bytes) (i : ℕ) :
    decode_bitfield old payload i
      = if ((i / 8 : ℕ) : ℤ) < int32 payload.length then wire_bit payload i else old i := by
  unfold decode_bitfield wire_bit
  rw [← high_bit_eq_testBit _ (Nat.mod_lt i (by norm_num))]
  rfl

/-- A payload whose length is an `int` sets the bits it has. -/
theorem decode_bitfield_of_lt (hlen : payload.length < 2 ^ 31) :
    decode_bitfield old payload i
      = if i / 8 < payload.length then wire_bit payload i else old i := by
  rw [decode_bitfield_eq, int32_of_fits ⟨by omega, by omega⟩]
  simp only [Nat.cast_lt]

/-- The bits of the bitfield past the last piece are zero. -/
theorem Controller.get_bitfield_spare (c : Controller) (hi : c.total_pieces ≤ i) :
    wire_bit c.get_bitfield i = false := by
  rw [← bit_at_eq_wire_bit]
  refine (c.bit_at_filled (k := (c.total_pieces + 7) / 8) (by omega) i).2.trans ?_
  exact decide_eq_false fun h => absurd h.1 (by omega)

/-- The peer reads back exactly the pieces that are done. -/
theorem Controller.decode_get_bitfield (c : Controller) (hn : c.total_pieces < 2 ^ 31)
    (old : ℕ → Bool) (hi : i < c.total_pieces) :
    decode_bitfield old c.get_bitfield i = decide (c.piece_status i = 1) := by
  have hlen := c.get_bitfield_length
  rw [decode_bitfield_of_lt (by omega), if_pos (by omega), ← bit_at_eq_wire_bit,
    c.bit_at_get_bitfield hi]

/-- A bit for each piece of the torrent, and spare bits that are zero. -/
def Metadata.BitfieldOf (m : Metadata) (bf : Bytes) : Prop :=
  bf.length = (m.total_pieces + 7) / 8 ∧
    ∀ i, m.total_pieces ≤ i → i < 8 * bf.length → wire_bit bf i = false

theorem Controller.bitfieldOf_get_bitfield (c : Controller) : c.BitfieldOf c.get_bitfield :=
  ⟨c.get_bitfield_length, fun _ hi _ => c.get_bitfield_spare hi⟩

/-! ## The Codec -/

namespace Controller

/-- The size of the vector of `get_bitfield`, as an `int`. -/
def num_bytes (c : Controller) : ℤ := (int32 (c.total_pieces + 7)).tdiv 8

/-- `get_bitfield`, for which a vector of that size is made. -/
def get_bitfield_sized (c : Controller) : Except Fault Bytes :=
  if c.num_bytes < 0 then .error .length_error
  else .ok ((List.range c.total_pieces).foldl c.mark (List.replicate c.num_bytes.toNat 0))

/-- `get_bitfield` returns a bit for each piece and spare bits that are zero,
    from which the handler learns the pieces that are done. -/
def Packs (c : Controller) : Prop :=
  ∃ bf, c.get_bitfield_sized = .ok bf ∧ bf.length = (c.total_pieces + 7) / 8 ∧
    (∀ i, c.total_pieces ≤ i → i < 8 * bf.length → wire_bit bf i = false) ∧
    ∀ (m : Metadata) (st : PeerState), m.total_pieces = c.total_pieces →
      ∀ i < m.total_pieces,
        (handle_bitfield m st bf).state.peer_bitfield i = decide (c.piece_status i = 1)

theorem num_bytes_of_lt {c : Controller} (hn : c.total_pieces + 7 < 2 ^ 31) :
    c.num_bytes = ((c.total_pieces + 7) / 8 : ℕ) := by
  unfold num_bytes
  rw [int32_of_fits ⟨by omega, by omega⟩]
  exact (Int.ofNat_tdiv (c.total_pieces + 7) 8).symm

/-- The sum wraps around for the last numbers of pieces. -/
theorem num_bytes_neg {c : Controller} (hint : c.total_pieces < 2 ^ 31)
    (hn : 2 ^ 31 ≤ c.total_pieces + 7) : c.num_bytes < 0 := by
  have hwrap : int32 (c.total_pieces + 7) = c.total_pieces + 7 - 2 ^ 32 := by
    rw [int32_eq_bmod, Int.bmod_def]
    split <;> omega
  unfold num_bytes
  rw [← neg_neg (int32 _), Int.neg_tdiv, Int.tdiv_eq_ediv_of_nonneg (by omega)]
  omega

theorem packs_iff {c : Controller} (hint : c.total_pieces < 2 ^ 31) :
    c.Packs ↔ c.total_pieces + 7 < 2 ^ 31 := by
  constructor
  · rintro ⟨bf, hbf, -⟩
    by_contra hn
    unfold get_bitfield_sized at hbf
    rw [if_pos (num_bytes_neg hint (by omega))] at hbf
    cases hbf
  · intro hn
    have hsize := num_bytes_of_lt hn
    have hsized : c.get_bitfield_sized = .ok c.get_bitfield := by
      unfold get_bitfield_sized
      rw [if_neg (by omega), hsize, Int.toNat_natCast]
      rfl
    have hlen := c.get_bitfield_length
    refine ⟨_, hsized, hlen, fun i hi _ => c.get_bitfield_spare hi, fun m st hm i hi => ?_⟩
    exact c.decode_get_bitfield hint _ (hm ▸ hi)

end Controller

/-- The handler overwrites the bits that are in the payload, and no others. -/
def Metadata.Unpacks (m : Metadata) (payload : Bytes) : Prop :=
  ∀ (st : PeerState), ∀ i < m.total_pieces,
    (handle_bitfield m st payload).state.peer_bitfield i
      = if i / 8 < payload.length then wire_bit payload i else st.peer_bitfield i

/-- Its length as an `int` covers what the payload has of the bits. -/
def Metadata.Covers (m : Metadata) (payload : Bytes) : Prop :=
  m.total_pieces = 0 ∨ (min payload.length ((m.total_pieces + 7) / 8) : ℕ) ≤ int32 payload.length

/-- A size is at least its `int`. -/
theorem int32_size_le (n : ℕ) : int32 n ≤ n := by
  rw [int32_eq_bmod, Int.bmod_def]
  split <;> omega

theorem unpacks_iff {m : Metadata} : m.Unpacks payload ↔ m.Covers payload := by
  have hle := int32_size_le payload.length
  constructor
  · intro h
    by_contra hno
    obtain ⟨hn, hlen⟩ := not_or.mp hno
    have hsome : payload.length ≠ 0 := by
      intro h0
      rw [h0, int32_of_fits ⟨by omega, by omega⟩] at hlen
      omega
    -- the first bit past the length as an `int`, if the peer had the opposite
    let i := 8 * (int32 payload.length).toNat
    have hbit := h { peer_bitfield := fun i => !wire_bit payload i } i (by omega)
    have hold : (handle_bitfield m { peer_bitfield := fun i => !wire_bit payload i }
        payload).state.peer_bitfield i = !wire_bit payload i :=
      (decode_bitfield_eq _ _ _).trans (if_neg (by omega))
    rw [hold, if_pos (by omega)] at hbit
    exact Bool.not_ne_self _ hbit
  · intro h st i hi
    refine (decode_bitfield_eq _ _ _).trans (if_congr ?_ rfl rfl)
    rcases h with hn | hlen <;> omega

/-- The codec is right up to the last seven numbers of pieces, for the payloads
    whose length is not negative as an `int`. -/
theorem bitfield_codec (c : Controller) (hint : c.total_pieces < 2 ^ 31) (payload : Bytes) :
    (c.Packs ∧ c.Unpacks payload) ↔ c.total_pieces + 7 < 2 ^ 31 ∧ c.Covers payload :=
  and_congr (Controller.packs_iff hint) unpacks_iff

/-! ### The Largest Number of Pieces, and a Long Payload -/

/-- A torrent of `n` pieces of 16 KiB, of which none is done. -/
def pieces_of_16_KiB (n : ℕ) : Metadata where
  mode := .LEECHER
  total_pieces := n
  piece_length := 16384
  length := 16384 * n
  piece_hash := []

/-- Nine pieces, and a payload that has the bits of the first eight. -/
theorem nine_pieces_codec :
    (Controller.make (pieces_of_16_KiB 9) none).total_pieces < 2 ^ 31 ∧
      (Controller.make (pieces_of_16_KiB 9) none).Packs ∧
      (Controller.make (pieces_of_16_KiB 9) none).Unpacks [129] :=
  have hint : (Controller.make (pieces_of_16_KiB 9) none).total_pieces < 2 ^ 31 := by
    show 9 < 2 ^ 31
    norm_num
  ⟨hint, (bitfield_codec (Controller.make (pieces_of_16_KiB 9) none) hint [129]).mpr
    ⟨by show 9 + 7 < 2 ^ 31; norm_num,
      .inr (by rw [int32_of_fits ⟨by simp, by simp⟩]; simp)⟩⟩

/-- For the largest number of pieces the vector would have a negative size, and
    of a payload of `2^31` bytes not even the first bit is read. -/
theorem bitfield_not_packed_or_read :
    (Controller.make (pieces_of_16_KiB 2147483647) none).get_bitfield_sized
        = .error .length_error ∧
      ¬ (Controller.make (pieces_of_16_KiB 2147483647) none).Packs ∧
      ¬ (pieces_of_16_KiB 1).Unpacks (List.replicate (2 ^ 31) 128) := by
  have hint : (Controller.make (pieces_of_16_KiB 2147483647) none).total_pieces < 2 ^ 31 := by
    show 2147483647 < 2 ^ 31
    norm_num
  refine ⟨?_, ?_, ?_⟩
  · unfold Controller.get_bitfield_sized
    exact if_pos (Controller.num_bytes_neg hint (by show 2 ^ 31 ≤ 2147483647 + 7; norm_num))
  · rw [Controller.packs_iff hint]
    show ¬ 2147483647 + 7 < 2 ^ 31
    norm_num
  · rw [unpacks_iff]
    have hneg : int32 ((2 ^ 31 : ℕ) : ℤ) = -2 ^ 31 := by
      rw [int32_eq_bmod, Int.bmod_def]
      norm_num
    rintro (hn | hlen)
    · cases hn
    · rw [List.length_replicate, hneg] at hlen
      omega

end BitTorrentLite
