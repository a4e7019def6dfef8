import BitTorrentLite.Controller.Recovery

/-! # The Block Store

    What `piece_blocks` holds of a piece are its blocks, each at its offset and
    of its length, as long as every block that is accepted is one of them and
    none comes late for a finished piece. `received_block` does not check
    this: the one gate is the length, which it computes from the offset it was
    given. So the runs considered here are those whose accepted blocks are
    regular; one irregular block that is accepted breaks the store.
-/

open Machine Region Tiling LTS

namespace BitTorrentLite.Controller

open Metadata (block_offset)

/-- What the block store keeps. -/
structure StoreSound (c : Controller) : Prop where
  /-- Every key is the offset of a block, and the data has the block's length. -/
  keys : ∀ i < c.total_pieces, ∀ off d, c.piece_blocks i off = some d →
    ∃ b : ℕ, (b : ℤ) < c.count_blocks i ∧ off = b * 16384 ∧
      (d.length : ℤ) = min 16384 (c.piece_length_for i - b * 16384)
  /-- No key is in flight. -/
  apart : ∀ i < c.total_pieces, ∀ off d, c.piece_blocks i off = some d → off ∉ c.inflight i
  /-- A finished piece holds no block. -/
  freed : ∀ i < c.total_pieces, c.piece_status i = 1 → ∀ off, c.piece_blocks i off = none
  /-- The blocks of a piece take no more memory than the piece has bytes. -/
  memory : ∀ i < c.total_pieces, ∀ offs : Finset ℤ,
    ((∑ off ∈ offs, ((c.piece_blocks i off).getD []).length : ℕ) : ℤ) ≤ c.piece_length_for i

/-- The block at `off` is one of piece `i`, and not late for a piece that has
    others. -/
def Regular (c : Controller) (i : ℕ) (off : ℤ) : Prop :=
  (∃ b : ℕ, (b : ℤ) < c.count_blocks i ∧ off = b * 16384) ∧
    (c.piece_status i = 1 → c.count_blocks i = 1)

/-- The blocks the store is meant for: one that is accepted is regular, unless
    no block of the piece is counted, where nothing is ever kept. -/
def Op.Regular (c : Controller) : Op → Prop
  | .received_block x off data => (data.length : ℤ) = c.block_size x off →
      ∀ i : ℕ, x = i → 0 < c.count_blocks i → c.Regular i off
  | _ => True

/-! ### The Invariant -/

/-- What holds between any two calls when accepted blocks are regular. -/
structure BlocksRegular (c : Controller) : Prop where
  keys : ∀ i < c.total_pieces, ∀ off d, c.piece_blocks i off = some d →
    ∃ b : ℕ, (b : ℤ) < c.count_blocks i ∧ off = b * 16384 ∧
      (d.length : ℤ) = min 16384 (c.piece_length_for i - b * 16384)
  freed : ∀ i < c.total_pieces, c.piece_status i = 1 → ∀ off, c.piece_blocks i off = none
  /-- No piece has all its blocks stored. -/
  incomplete : ∀ i < c.total_pieces, 0 < c.count_blocks i →
    ∃ b : ℕ, (b : ℤ) < c.count_blocks i ∧ c.piece_blocks i (block_offset b) = none

section invariant

variable {sha1 : Bytes → Bytes} {c c' : Controller} {i : ℕ} {off : ℤ} {data : Bytes}

theorem blocksRegular_make {m : Metadata} (disk : Option Bytes) :
    (make m disk).BlocksRegular where
  keys := by
    intro i _ off d hd
    cases hd
  freed := fun i _ _ off => rfl
  incomplete := fun i _ hpos => ⟨0, hpos, rfl⟩

/-- The offset and the size of a block that `count_blocks` counts. -/
theorem block_offset_of_lt (hg : c.Consistent) (hi : i < c.total_pieces) {b : ℕ}
    (hb : (b : ℤ) < c.count_blocks i) : block_offset b = b * 16384 ∧
      c.block_size i (b * 16384) = min 16384 (c.piece_length_for i - b * 16384) := by
  have hle := hg.count_blocks_le hi
  have hb : b < c.block_count i := by omega
  have hlt := Metadata.Consistent.block_start_lt hb
  have hint := hg.piece_size_int (i := i)
  refine ⟨by rw [hg.block_offset_eq hb]; push_cast; ring, ?_⟩
  rw [Metadata.block_size, hg.piece_length_for_eq hi, int32_of_fits (by constructor <;> omega)]
  rfl

/-- A call that leaves the blocks alone and finishes no piece. -/
theorem BlocksRegular.frame (h : c.BlocksRegular) (hmeta : c'.toMetadata = c.toMetadata)
    (hblocks : c'.piece_blocks = c.piece_blocks)
    (hstatus : ∀ j, c'.piece_status j = 1 → c.piece_status j = 1) : c'.BlocksRegular where
  keys := by
    rw [hmeta, hblocks]
    exact h.keys
  freed := by
    rw [hmeta, hblocks]
    exact fun j hj hst => h.freed j hj (hstatus j hst)
  incomplete := by
    rw [hmeta, hblocks]
    exact h.incomplete

/-- A piece whose blocks are dropped. -/
theorem BlocksRegular.settle (h : c.BlocksRegular) (i : ℕ) (off : ℤ) (data : Bytes) (status : ℕ) :
    ((c.store i off data).settle i status).BlocksRegular where
  keys := by
    intro j hj o d hd
    obtain ⟨hji, hd⟩ := settle_cases hd
    exact h.keys j hj o d ((store_cases hd).resolve_left fun hnew => hji hnew.1)
  freed := by
    intro j hj hst o
    by_cases hji : j = i
    · subst hji
      simp only [settle_piece_blocks, Function.update_self]
    · simp only [settle_piece_status, store_piece_status, Function.update_of_ne hji] at hst
      simp only [settle_piece_blocks, store_piece_blocks, Function.update_of_ne hji]
      exact h.freed j hj hst o
  incomplete := by
    intro j hj hpos
    by_cases hji : j = i
    · subst hji
      exact ⟨0, hpos, by simp only [settle_piece_blocks, Function.update_self]⟩
    · simp only [settle_piece_blocks, store_piece_blocks, Function.update_of_ne hji]
      exact h.incomplete j hj hpos

/-- A regular block is stored. -/
theorem BlocksRegular.store (hg : c.Consistent) (h : c.BlocksRegular) (hi : i < c.total_pieces)
    (hlen : (data.length : ℤ) = c.block_size i off) (hreg : c.Regular i off)
    (hinc : (c.store i off data).complete i = false) : (c.store i off data).BlocksRegular := by
  obtain ⟨⟨b, hb, rfl⟩, hone⟩ := hreg
  obtain ⟨hoff, hsize⟩ := block_offset_of_lt hg hi hb
  obtain ⟨b', hb', hmiss⟩ := missing_of_not_complete hinc
  refine ⟨?_, ?_, ?_⟩
  · intro j hj o d hd
    rcases store_cases hd with ⟨rfl, rfl, rfl⟩ | hold
    · exact ⟨b, hb, rfl, by rw [hlen, hsize]; rfl⟩
    · exact h.keys j hj o d hold
  · intro j hj hst o
    by_cases hji : j = i
    · -- its only block would have completed the piece
      subst hji
      have hcount := hone hst
      have hb'b : b' = b := by
        have hb' : (b' : ℤ) < c.count_blocks j := hb'
        omega
      rw [hb'b, hoff] at hmiss
      simp only [store_piece_blocks, Function.update_self] at hmiss
      cases hmiss
    · simp only [store_piece_blocks, Function.update_of_ne hji]
      exact h.freed j hj hst o
  · intro j hj hpos
    by_cases hji : j = i
    · subst hji
      exact ⟨b', hb', hmiss⟩
    · simp only [store_piece_blocks, Function.update_of_ne hji]
      exact h.incomplete j hj hpos

/-- **Step lemma**: every call whose block is regular keeps the blocks regular. -/
theorem BlocksRegular.exec (hg : c.Consistent) (h : c.BlocksRegular) {op : Op}
    (hreg : op.Regular c) (hexec : op.exec sha1 c = .ok c') : c'.BlocksRegular := by
  rcases exec_cases hexec with ⟨x, off, data, done, rfl, hrec⟩ | hquiet
  · cases hrec with
    | rejected => exact h
    | stored i hx hi _ hlen hinc =>
      subst hx
      obtain ⟨b, hb, -⟩ := missing_of_not_complete hinc
      have hb : (b : ℤ) < c.count_blocks i := hb
      exact h.store hg hi hlen (hreg hlen i rfl (by omega)) hinc
    | mismatch i => exact h.settle i off data 0
    | finished i => exact (h.settle i off data 1).frame rfl rfl fun j hj => hj
  · exact h.frame hquiet.toMetadata hquiet.piece_blocks hquiet.done

/-- **Run lemma**: in every state that calls with regular blocks lead to. -/
theorem reachable_blocksRegular {m : Metadata} (hg : m.Consistent) {disk : Option Bytes}
    (h : ((system sha1 (make m disk)).restrict Op.Regular).Reachable c) : c.BlocksRegular := by
  refine System.invariant (I := BlocksRegular) ?_ ?_ c h
  · rintro c rfl
    exact blocksRegular_make disk
  · rintro c op c' hr hc ⟨hreg, hstep⟩
    have hmeta : c.toMetadata = m := reachable_toMetadata hr.of_restrict
    exact hc.exec (hmeta ▸ hg) hreg hstep

/-- Blocks at different places take together no more than the piece. -/
theorem BlocksRegular.memory (hg : c.Consistent) (h : c.BlocksRegular) (hi : i < c.total_pieces)
    (offs : Finset ℤ) :
    ((∑ off ∈ offs, ((c.piece_blocks i off).getD []).length : ℕ) : ℤ) ≤ c.piece_length_for i := by
  have hsize : ∑ b ∈ Finset.range (c.block_count i), tile_size (c.piece_size i) 16384 b
      = c.piece_size i := sum_tile_size (by norm_num)
  let offset (b : ℕ) : ℤ := b * 16384
  let size (off : ℤ) : ℕ := ((c.piece_blocks i off).getD []).length
  have hinj : Set.InjOn offset (Finset.range (c.block_count i)) := by
    intro b _ b' _ heq
    have heq : (b : ℤ) * 16384 = b' * 16384 := heq
    omega
  -- off the block boundaries nothing is stored
  have hoff : ∀ off ∈ offs, off ∉ (Finset.range (c.block_count i)).image offset → size off = 0 := by
    intro off _ hnot
    cases hd : c.piece_blocks i off with
    | none => simp only [size, hd, Option.getD_none, List.length_nil]
    | some d =>
      obtain ⟨b, hb, rfl, -⟩ := h.keys i hi off d hd
      have hle := hg.count_blocks_le hi
      exact absurd (Finset.mem_image_of_mem offset (Finset.mem_range.mpr (by omega))) hnot
  have hblock : ∀ b ∈ Finset.range (c.block_count i),
      size (offset b) ≤ tile_size (c.piece_size i) 16384 b := by
    intro b _
    cases hd : c.piece_blocks i (offset b) with
    | none => simp only [size, hd, Option.getD_none, List.length_nil, Nat.zero_le]
    | some d =>
      obtain ⟨b', -, hb', hlen⟩ := h.keys i hi _ d hd
      have hb' : (b : ℤ) * 16384 = b' * 16384 := hb'
      rw [hg.piece_length_for_eq hi] at hlen
      simp only [size, hd, Option.getD_some]
      unfold tile_size
      omega
  have hsum : ∑ off ∈ offs, size off ≤ c.piece_size i := by
    calc ∑ off ∈ offs, size off
        ≤ ∑ off ∈ (Finset.range (c.block_count i)).image offset, size off :=
          Finset.sum_le_sum_of_ne_zero fun off hmem hne => by
            by_contra hnot
            exact hne (hoff off hmem hnot)
      _ = ∑ b ∈ Finset.range (c.block_count i), size (offset b) := Finset.sum_image hinj
      _ ≤ ∑ b ∈ Finset.range (c.block_count i), tile_size (c.piece_size i) 16384 b :=
          Finset.sum_le_sum hblock
      _ = c.piece_size i := hsize
  rw [hg.piece_length_for_eq hi]
  exact_mod_cast hsum

theorem BlocksRegular.storeSound (hg : c.Consistent) (h : c.BlocksRegular)
    (hopen : c.InflightOpen) : c.StoreSound where
  keys := h.keys
  apart := by
    intro i hi off d hd hmem
    rw [(hopen i hi off hmem).2] at hd
    cases hd
  freed := h.freed
  memory := fun i hi offs => h.memory hg hi offs

/-! ### An Irregular Block -/

/-- One irregular block that is accepted breaks the store. -/
theorem BlocksRegular.irregular (hg : c.Consistent) (h : c.BlocksRegular)
    (hm : c.mode = .LEECHER) (hi : i < c.total_pieces)
    (hlen : (data.length : ℤ) = c.block_size i off) (hpos : 0 < c.count_blocks i)
    (hirr : ¬ c.Regular i off) {done : Bool}
    (hrec : c.received_block sha1 i off data = .ok (c', done)) : ¬ c'.StoreSound := by
  -- the piece still misses a block
  have hmiss : ∃ b : ℕ, (b : ℤ) < c.count_blocks i ∧
      (c.store i off data).piece_blocks i (block_offset b) = none := by
    simp only [store_piece_blocks, Function.update_self, Function.update_apply]
    by_cases hst : c.piece_status i = 1 ∧ c.count_blocks i ≠ 1
    · have hnone := h.freed i hi hst.1
      have h₀ := (block_offset_of_lt hg hi (b := 0) (by omega)).1
      have h₁ := (block_offset_of_lt hg hi (b := 1) (by omega)).1
      by_cases hzero : block_offset 0 = off
      · exact ⟨1, by omega, by rw [if_neg (by omega), hnone]⟩
      · exact ⟨0, by omega, by rw [if_neg hzero, hnone]⟩
    · obtain ⟨b, hb, hnone⟩ := h.incomplete i hi hpos
      refine ⟨b, hb, ?_⟩
      have hne : block_offset b ≠ off := by
        rintro rfl
        refine hirr ⟨⟨b, hb, (block_offset_of_lt hg hi hb).1⟩, fun hst' => ?_⟩
        by_contra hcount
        exact hst ⟨hst', hcount⟩
      rw [if_neg hne, hnone]
  have hinc : (c.store i off data).complete i = false := by
    obtain ⟨b, hb, hnone⟩ := hmiss
    refine List.all_eq_false.mpr ⟨b, List.mem_range.mpr ?_, by simp [hnone]⟩
    show b < (c.count_blocks i).toNat
    omega
  intro hs
  cases received_block_ok hrec with
  | rejected hno =>
    rcases hno with hseeder | hwrong
    · rw [hm] at hseeder
      cases hseeder
    · exact hwrong hlen
  | stored j hj =>
    obtain rfl : i = j := Int.ofNat_inj.mp hj
    have hkey : (c.store i off data).piece_blocks i off = some data := by
      simp only [store_piece_blocks, Function.update_self]
    obtain ⟨b, hb, hoff, -⟩ := hs.keys i hi off data hkey
    refine hirr ⟨⟨b, hb, hoff⟩, fun hst => ?_⟩
    rw [hs.freed i hi hst off] at hkey
    cases hkey
  | mismatch j hj _ _ _ hcomp | finished j hj _ _ _ hcomp =>
    obtain rfl : i = j := Int.ofNat_inj.mp hj
    rw [hinc] at hcomp
    cases hcomp

end invariant

/-- **The block store is sound** over every run whose accepted blocks are
    regular; and in a state of such a run, an irregular block that is accepted
    breaks it. -/
theorem store_sound (sha1 : Bytes → Bytes) {m : Metadata} (hm : m.mode = .LEECHER)
    (hg : m.Consistent) (disk : Option Bytes) {c : Controller}
    (hr : ((system sha1 (make m disk)).restrict Op.Regular).Reachable c) :
    c.StoreSound ∧
    ∀ (i : ℕ) (off : ℤ) (data : Bytes) (c' : Controller) (done : Bool), i < c.total_pieces →
      (data.length : ℤ) = c.block_size i off → 0 < c.count_blocks i → ¬ c.Regular i off →
      c.received_block sha1 i off data = .ok (c', done) → ¬ c'.StoreSound := by
  have hmeta : c.toMetadata = m := reachable_toMetadata hr.of_restrict
  have hregular := reachable_blocksRegular hg hr
  subst hmeta
  exact ⟨hregular.storeSound hg (reachable_inflightOpen hr.of_restrict),
    fun i off data c' done hi hlen hpos hirr hrec =>
      hregular.irregular hg hm hi hlen hpos hirr hrec⟩

/-- A one-byte file, whose block is asked for and arrives. -/
theorem tiny_store_sound : ∃ c : Controller,
    ((system id (make (.tiny .LEECHER [7]) none)).restrict Op.Regular).Reachable c ∧
    c.piece_status 0 = 1 ∧ c.StoreSound := by
  let blocks (c : Controller) : Op → Bool
    | .received_block x off _ => x == 0 && off == 0 && c.count_blocks 0 == 1
    | _ => true
  have hblocks : ∀ c op, blocks c op = true → op.Regular c := by
    rintro c op h
    cases op with
    | received_block x off data =>
      simp only [blocks, Bool.and_eq_true, beq_iff_eq] at h
      obtain ⟨⟨rfl, rfl⟩, hcount⟩ := h
      intro _ i hi _
      obtain rfl : 0 = i := Int.ofNat_inj.mp hi
      exact ⟨⟨0, by rw [Nat.cast_zero, hcount]; decide, rfl⟩, fun _ => hcount⟩
    | _ => trivial
  obtain ⟨c, hr, hst⟩ := System.Reachable.exists_of_run
    (System.guarded_step hblocks (exec_step id))
    (.init rfl : ((system id (make (.tiny .LEECHER [7]) none)).restrict Op.Regular).Reachable _)
    [.next_request fun _ => true, .received_block 0 0 [7]]
    (P := fun c => c.piece_status 0 == 1) (by decide +kernel)
  exact ⟨c, hr, by simpa using hst,
    (store_sound id rfl (Metadata.tiny_consistent _ _) none hr).1⟩

/-- **An irregular block**: two bytes at offset -1 have the length asked for
    there, and are stored. -/
theorem negative_offset_stored : (Metadata.tiny .LEECHER [7]).Consistent ∧ ∃ c : Controller,
    (system id (make (.tiny .LEECHER [7]) none)).Reachable c ∧ ¬ c.StoreSound := by
  refine ⟨Metadata.tiny_consistent _ _, ?_⟩
  obtain ⟨c, hr, hkey⟩ := System.Reachable.exists_of_run (exec_step id)
    (.init rfl : (system id (make (.tiny .LEECHER [7]) none)).Reachable _)
    [.received_block 0 (-1) [0, 0]] (P := fun c => c.piece_blocks 0 (-1) == some [0, 0])
    (by decide +kernel)
  have hmeta : c.toMetadata = .tiny .LEECHER [7] := reachable_toMetadata hr
  refine ⟨c, hr, fun hs => ?_⟩
  obtain ⟨b, -, hoff, -⟩ := hs.keys 0 (by rw [hmeta]; decide) (-1) [0, 0] (by simpa using hkey)
  omega

end BitTorrentLite.Controller
