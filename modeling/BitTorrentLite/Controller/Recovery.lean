import BitTorrentLite.Controller.Integrity

/-! # What a Failed Block Leaves Behind

    A block of the wrong length changes nothing. When the last block of a
    piece arrives and the hash does not match, the piece starts over: no block
    of it is stored, and none is in flight either, although `received_block`
    takes only one offset off the in-flight set. This is so because in-flight
    offsets belong to blocks that are not stored, and a complete piece has no
    such block. From there `next_request`, called again and again, offers the
    blocks `count_blocks` counts.
-/

open Machine Region LTS

namespace BitTorrentLite.Controller

open Metadata (block_offset)

variable {sha1 : Bytes → Bytes} {c c' : Controller} {i : ℕ} {off : ℤ} {data : Bytes}

/-! ### In-Flight Offsets -/

/-- Every offset in flight is that of a block of the piece that is not stored. -/
def InflightOpen (c : Controller) : Prop :=
  ∀ i < c.total_pieces, ∀ off ∈ c.inflight i,
    (∃ b : ℕ, (b : ℤ) < c.count_blocks i ∧ off = block_offset b) ∧ c.piece_blocks i off = none

theorem inflightOpen_make (m : Metadata) (disk : Option Bytes) : (make m disk).InflightOpen := by
  intro i _ off hoff
  simp [make] at hoff

/-- A block put into the store is taken off the in-flight set, and the offsets
    left there are of other blocks. -/
theorem InflightOpen.store (h : c.InflightOpen) (i : ℕ) (off : ℤ) (data : Bytes) :
    (c.store i off data).InflightOpen := by
  intro j hj o ho
  by_cases hji : j = i
  · subst hji
    simp only [store_inflight, Function.update_self, Finset.mem_erase] at ho
    obtain ⟨hblock, hnone⟩ := h j hj o ho.2
    refine ⟨hblock, ?_⟩
    simp only [store_piece_blocks, Function.update_self, Function.update_of_ne ho.1]
    exact hnone
  · simp only [store_inflight, Function.update_of_ne hji] at ho
    simp only [store_piece_blocks, Function.update_of_ne hji]
    exact h j hj o ho

theorem InflightOpen.settle (h : c.InflightOpen) (i status : ℕ) :
    (c.settle i status).InflightOpen := by
  intro j hj o ho
  obtain ⟨hblock, hnone⟩ := h j hj o ho
  refine ⟨hblock, ?_⟩
  by_cases hji : j = i
  · subst hji
    simp only [settle_piece_blocks, Function.update_self]
  · simp only [settle_piece_blocks, Function.update_of_ne hji]
    exact hnone

/-- **Step lemma**: every call keeps the offsets in flight open. -/
theorem InflightOpen.stepped (h : c.InflightOpen) (hst : Stepped sha1 c c') :
    c'.InflightOpen := by
  cases hst with
  | queues n q => exact h
  | claim i off _ ha =>
    intro j hj o ho
    by_cases hji : j = i
    · subst hji
      simp only [claim_inflight, Function.update_self, Finset.mem_insert] at ho
      rcases ho with rfl | ho
      · exact ⟨ha.block, ha.not_stored⟩
      · exact h j hj o ho
    · simp only [claim_inflight, Function.update_of_ne hji] at ho
      exact h j hj o ho
  | release i off hi =>
    intro j hj o ho
    by_cases hji : j = i
    · subst hji
      simp only [release_inflight, Function.update_self, Finset.mem_erase] at ho
      exact h j hj o ho.2
    · simp only [release_inflight, Function.update_of_ne hji] at ho
      exact h j hj o ho
  | received x off data c' done hrec =>
    cases hrec with
    | rejected => exact h
    | stored i => exact h.store i off data
    | mismatch i => exact (h.store i off data).settle i 0
    -- writing and announcing touch neither the blocks nor the in-flight sets
    | finished i => exact (h.store i off data).settle i 1
  | clear i hi => exact h

/-- **Run lemma**: in every reachable state. -/
theorem reachable_inflightOpen {m : Metadata} {disk : Option Bytes}
    (h : (system sha1 (make m disk)).Reachable c) : c.InflightOpen := by
  refine System.invariant (I := InflightOpen) ?_ ?_ c h
  · rintro c rfl
    exact inflightOpen_make m disk
  · intro c op c' _ hc hstep
    exact hc.stepped (exec_stepped hstep)

/-- Nothing of a complete piece is in flight. -/
theorem InflightOpen.of_complete (h : c.InflightOpen) (hi : i < c.total_pieces)
    (hcomp : c.complete i = true) : c.inflight i = ∅ := by
  refine Finset.eq_empty_of_forall_notMem fun off hoff => ?_
  obtain ⟨⟨b, hb, rfl⟩, hnone⟩ := h i hi off hoff
  obtain ⟨d, hd⟩ := stored_of_complete hcomp hb
  rw [hnone] at hd
  cases hd

/-- Nothing of a piece that is done is in flight. -/
def DoneIdle (c : Controller) : Prop :=
  ∀ i < c.total_pieces, c.piece_status i = 1 → c.inflight i = ∅

theorem DoneIdle.store (h : c.DoneIdle) (i : ℕ) (off : ℤ) (data : Bytes) :
    (c.store i off data).DoneIdle := by
  intro j hj hone
  have hnone := h j hj hone
  by_cases hji : j = i
  · subst hji
    rw [store_inflight, Function.update_self, hnone]
    rfl
  · rw [store_inflight, Function.update_of_ne hji]
    exact hnone

/-- **Step lemma**: a piece is finished when all its blocks are stored, so
    nothing of it is in flight, and no block of it is handed out after that. -/
theorem DoneIdle.stepped (hopen : c.InflightOpen) (h : c.DoneIdle) (hst : Stepped sha1 c c') :
    c'.DoneIdle := by
  cases hst with
  | queues n q => exact h
  | claim i off _ ha =>
    intro j hj hone
    have hji : j ≠ i := by
      rintro rfl
      rw [claim_piece_status, Function.update_self] at hone
      cases hone
    rw [claim_inflight, Function.update_of_ne hji]
    exact h j hj (done_of_update (by decide) hone)
  | release i off hi =>
    intro j hj hone
    have hnone := h j hj hone
    by_cases hji : j = i
    · subst hji
      rw [release_inflight, Function.update_self, hnone]
      rfl
    · rw [release_inflight, Function.update_of_ne hji]
      exact hnone
  | clear i hi =>
    intro j hj hone
    exact h j hj (done_of_update (by decide) hone)
  | received x off data c' done hrec =>
    cases hrec with
    | rejected => exact h
    | stored i => exact h.store i off data
    | mismatch i =>
      intro j hj hone
      exact h.store i off data j hj (done_of_update (by decide) hone)
    | finished i hx hi hl hlen hcomp hhash =>
      intro j hj hone
      by_cases hji : j = i
      · subst hji
        exact (hopen.store j off data).of_complete hi hcomp
      · have hwas : (c.store i off data).piece_status j = 1 := by
          rw [← hone]
          exact (Function.update_of_ne hji ..).symm
        exact h.store i off data j hj hwas

/-! ### A Piece That Does Not Match -/

/-- `c'` is `c` with piece `i` as it was before anything of it was requested. -/
structure Restarted (c : Controller) (i : ℕ) (c' : Controller) : Prop where
  toMetadata : c'.toMetadata = c.toMetadata
  file : c'.file = c.file
  crnt_peer : c'.crnt_peer = c.crnt_peer
  send_haves : c'.send_haves = c.send_haves
  others : ∀ j, j ≠ i → c'.piece_status j = c.piece_status j ∧
    c'.piece_blocks j = c.piece_blocks j ∧ c'.inflight j = c.inflight j
  piece_status : c'.piece_status i = 0
  piece_blocks : ∀ off, c'.piece_blocks i off = none
  inflight : c'.inflight i = ∅

theorem restarted_of_mismatch (h : c.InflightOpen) (hi : i < c.total_pieces)
    (hcomp : (c.store i off data).complete i = true) :
    c.Restarted i ((c.store i off data).settle i 0) where
  toMetadata := rfl
  file := rfl
  crnt_peer := rfl
  send_haves := rfl
  others := by
    intro j hj
    refine ⟨?_, ?_, ?_⟩
    · simp only [settle_piece_status, store_piece_status, Function.update_of_ne hj]
    · simp only [settle_piece_blocks, store_piece_blocks, Function.update_of_ne hj]
    · exact Function.update_of_ne hj ..
  piece_status := Function.update_self ..
  piece_blocks := fun off => by simp only [settle_piece_blocks, Function.update_self]
  inflight := (h.store i off data).of_complete hi hcomp

/-! ### Offering the Blocks Again -/

/-- The blocks that `n` calls of `next_request` return. -/
def requests (bit_field : ℕ → Bool) : ℕ → Controller → List BlockRequest
  | 0, _ => []
  | n + 1, c =>
    (c.next_request bit_field).2.toList ++ requests bit_field n (c.next_request bit_field).1

/-- The blocks that `next_request` may hand out, each by its piece and number. -/
def open_blocks (c : Controller) : Finset (Σ _ : ℕ, ℕ) :=
  (Finset.range c.total_pieces).sigma fun i =>
    (Finset.range (c.count_blocks i).toNat).filter fun b =>
      c.piece_status i ≠ 1 ∧ c.open_block i (block_offset b) = true

theorem mem_open_blocks {b : ℕ} :
    (⟨i, b⟩ : Σ _ : ℕ, ℕ) ∈ c.open_blocks ↔ i < c.total_pieces ∧ (b : ℤ) < c.count_blocks i ∧
      c.piece_status i ≠ 1 ∧ c.piece_blocks i (block_offset b) = none ∧
        block_offset b ∉ c.inflight i := by
  simp only [open_blocks, open_block, Finset.mem_sigma, Finset.mem_range, Finset.mem_filter,
    Bool.and_eq_true, Option.isNone_iff_eq_none, decide_eq_true_eq, Int.lt_toNat]

/-- A block that is handed out is not open any more, and no other one opens. -/
theorem open_blocks_claim (ha : c.Available i off) :
    (c.claim i off).open_blocks ⊂ c.open_blocks := by
  obtain ⟨hi, hst, ⟨b, hb, rfl⟩, hns, hni⟩ := ha
  refine Finset.ssubset_iff_of_subset ?_ |>.mpr
    ⟨⟨i, b⟩, mem_open_blocks.mpr ⟨hi, hb, hst, hns, hni⟩, fun hmem => ?_⟩
  · rintro ⟨j, k⟩ hmem
    obtain ⟨hj, hk, hstj, hnsj, hnij⟩ := mem_open_blocks.mp hmem
    by_cases hji : j = i
    · subst hji
      simp only [claim_inflight, Function.update_self, Finset.mem_insert, not_or] at hnij
      exact mem_open_blocks.mpr ⟨hj, hk, hst, hnsj, hnij.2⟩
    · simp only [claim_inflight, claim_piece_status, Function.update_of_ne hji] at hnij hstj
      exact mem_open_blocks.mpr ⟨hj, hk, hstj, hnsj, hnij⟩
  · obtain ⟨-, -, -, -, hnot⟩ := mem_open_blocks.mp hmem
    simp only [claim_inflight, Function.update_self, Finset.mem_insert, true_or,
      not_true_eq_false] at hnot

/-- A block that stays available while another one is claimed. -/
theorem Available.of_claim {j : ℕ} {o : ℤ} (h : c.Available j o) (hne : ¬(j = i ∧ o = off)) :
    (c.claim i off).Available j o := by
  obtain ⟨hj, hst, hblock, hns, hni⟩ := h
  refine ⟨hj, ?_, hblock, hns, ?_⟩
  · by_cases hji : j = i
    · subst hji
      simp only [claim_piece_status, Function.update_self]
      decide
    · simp only [claim_piece_status, Function.update_of_ne hji]
      exact hst
  · by_cases hji : j = i
    · subst hji
      simp only [claim_inflight, Function.update_self, Finset.mem_insert, not_or]
      exact ⟨fun ho => hne ⟨rfl, ho⟩, hni⟩
    · simp only [claim_inflight, Function.update_of_ne hji]
      exact hni

/-- **Every available block is offered**: each call takes one open block away,
    and they are finitely many. -/
theorem offered {bf : ℕ → Bool} (hm : c.mode = .LEECHER) (ha : c.Available i off)
    (hbf : bf i = true) : ∃ n, ⟨i, off, c.block_size i off⟩ ∈ c.requests bf n := by
  induction hn : c.open_blocks.card using Nat.strong_induction_on generalizing c with
  | _ n ih =>
    rcases next_request_cases c bf with ⟨-, hnone⟩ | ⟨j, o, -, haj, -, hreq⟩
    · -- a call that finds nothing would have found this block
      rw [hnone hm i off ha] at hbf
      cases hbf
    · by_cases heq : i = j ∧ off = o
      · obtain ⟨rfl, rfl⟩ := heq
        refine ⟨1, ?_⟩
        simp only [requests, hreq, Option.toList_some, List.append_nil, List.mem_singleton]
      · have hless := Finset.card_lt_card (open_blocks_claim haj)
        obtain ⟨k, hk⟩ := ih _ (hn ▸ hless) (c := c.claim j o) hm (ha.of_claim heq) rfl
        refine ⟨k + 1, ?_⟩
        simp only [requests, hreq, List.mem_append]
        exact .inr hk

/-- What is offered is a block that `count_blocks` counts. -/
theorem of_mem_requests {bf : ℕ → Bool} {req : BlockRequest} {n : ℕ} (h : req ∈ c.requests bf n) :
    ∃ i < c.total_pieces, 0 < c.count_blocks i ∧ req.piece_index = i := by
  induction n generalizing c with
  | zero => cases h
  | succ n ih =>
    rcases next_request_cases c bf with ⟨hreq, -⟩ | ⟨j, o, -, ha, -, hreq⟩
    · simp only [requests, hreq, Option.toList_none, List.nil_append] at h
      exact ih h
    · simp only [requests, hreq, Option.toList_some, List.singleton_append, List.mem_cons] at h
      rcases h with rfl | h
      · obtain ⟨b, hb, -⟩ := ha.block
        exact ⟨j, ha.piece, by omega, rfl⟩
      · exact ih (c := c.claim j o) h

/-- Repeated calls for a peer that has piece `i` offer every block of 16 KiB of
    it, the last one with the length it has. -/
def OffersAll (c : Controller) (i : ℕ) : Prop :=
  ∀ bf : ℕ → Bool, bf i = true → ∀ b < c.block_count i, ∃ n,
    ⟨i, (b * 16384 : ℕ), min 16384 (c.piece_length_for i - (b * 16384 : ℕ))⟩ ∈ c.requests bf n

/-- A piece that starts over is offered in full where `count_blocks` does not
    overflow, and not at all where it does. -/
theorem Restarted.offersAll_iff (hm : c.mode = .LEECHER) (hg : c.Consistent)
    (hi : i < c.total_pieces) (h : c.Restarted i c') :
    c'.OffersAll i ↔ c.piece_length_for i ≤ 2 ^ 31 - 16384 := by
  have hmeta := h.toMetadata
  have hg' : c'.Consistent := hmeta ▸ hg
  have hi' : i < c'.total_pieces := hmeta ▸ hi
  have hm' : c'.mode = .LEECHER := hmeta ▸ hm
  have hlen : c'.piece_length_for i = c.piece_length_for i := by rw [hmeta]
  rw [← hlen]
  rcases hg'.count_blocks_cases hi' with ⟨hfit, hcount⟩ | ⟨hlarge, hcount⟩
  · refine iff_of_true (fun bf hbf b hb => ?_) hfit
    have havail : c'.Available i (block_offset b) :=
      { piece := hi'
        missing := by rw [h.piece_status]; decide
        block := ⟨b, by rw [hcount]; omega, rfl⟩
        not_stored := h.piece_blocks _
        not_inflight := by rw [h.inflight]; exact Finset.notMem_empty _ }
    have hsize : c'.block_size i (block_offset b)
        = min 16384 (c'.piece_length_for i - (b * 16384 : ℕ)) := by
      have hlt := Metadata.Consistent.block_start_lt hb
      have hint := hg'.piece_size_int (i := i)
      rw [Metadata.block_size, hg'.block_offset_eq hb, hg'.piece_length_for_eq hi',
        int32_of_fits (by constructor <;> omega)]
      rfl
    have hoffered := offered hm' havail hbf
    rwa [hsize, hg'.block_offset_eq hb] at hoffered
  · refine iff_of_false (fun hall => ?_) (by omega)
    obtain ⟨n, hn⟩ := hall (fun _ => true) rfl 0 (hg'.block_count_pos hi')
    obtain ⟨j, -, hpos, hj⟩ := of_mem_requests hn
    obtain rfl : i = j := Int.ofNat_inj.mp hj
    omega

/-- **Error paths of `received_block`**: in every reachable state, a block of
    the wrong length changes nothing, and a block that completes its piece with
    the wrong hash leaves the piece as it was before anything was requested, and
    everything else alone; the blocks are then offered again where
    `count_blocks` does not overflow. -/
theorem received_block_errors (sha1 : Bytes → Bytes) {m : Metadata} (hm : m.mode = .LEECHER)
    (hg : m.Consistent) (disk : Option Bytes) {c : Controller}
    (hr : (system sha1 (make m disk)).Reachable c) {i : ℕ} (hi : i < m.total_pieces) (off : ℤ)
    (data : Bytes) :
    ((data.length : ℤ) ≠ c.block_size i off →
      c.received_block sha1 i off data = .ok (c, false)) ∧
    ((data.length : ℤ) = c.block_size i off → (c.store i off data).complete i = true →
      sha1 ((c.store i off data).assembled i) ≠ c.piece_hash.getD i [] →
      ∃ c', c.received_block sha1 i off data = .ok (c', false) ∧ c.Restarted i c' ∧
        (c'.OffersAll i ↔ c.piece_length_for i ≤ 2 ^ 31 - 16384)) := by
  have hmeta : c.toMetadata = m := reachable_toMetadata hr
  subst hmeta
  refine ⟨received_block_wrong_length, fun hlen hcomp hhash => ?_⟩
  have hrestarted := restarted_of_mismatch (reachable_inflightOpen hr) hi hcomp
  exact ⟨_, received_block_mismatch hm hi hlen hcomp hhash, hrestarted,
    hrestarted.offersAll_iff hm hg hi⟩

/-- A one-byte file: the wrong byte arrives while the block is in flight, and
    the block is offered again. -/
theorem tiny_received_errors : ∃ c : Controller,
    (system id (make (.tiny .LEECHER [7]) none)).Reachable c ∧ c.inflight 0 = {0} ∧
    c.received_block id 0 0 [8, 8] = .ok (c, false) ∧
    ∃ c', c.received_block id 0 0 [8] = .ok (c', false) ∧ c.Restarted 0 c' ∧ c'.OffersAll 0 := by
  obtain ⟨c, hr, hc⟩ := System.Reachable.exists_of_run (exec_step id)
    (.init rfl : (system id (make (.tiny .LEECHER [7]) none)).Reachable _)
    [.next_request fun _ => true]
    (P := fun c => c.inflight 0 == {0} && (c.store 0 0 [8]).complete 0 &&
      (c.store 0 0 [8]).assembled 0 == [8]) (by decide +kernel)
  simp only [Bool.and_eq_true, beq_iff_eq] at hc
  obtain ⟨⟨hinflight, hcomp⟩, hbytes⟩ := hc
  have hmeta : c.toMetadata = .tiny .LEECHER [7] := reachable_toMetadata hr
  have hsize : c.block_size 0 0 = 1 := by
    rw [hmeta]
    decide +kernel
  have herrors := received_block_errors id rfl (Metadata.tiny_consistent .LEECHER [7]) none hr
    (i := 0) (by decide) 0
  have hhash : id ((c.store 0 0 [8]).assembled 0) ≠ c.piece_hash.getD 0 [] := by
    rw [hbytes, hmeta]
    decide
  obtain ⟨c', hrec, hrestarted, hoffers⟩ := (herrors [8]).2 hsize.symm hcomp hhash
  have hfit : c.piece_length_for 0 ≤ 2 ^ 31 - 16384 := by
    rw [hmeta]
    decide +kernel
  exact ⟨c, hr, hinflight, (herrors [8, 8]).1 (by rw [Nat.cast_zero, hsize]; decide), c', hrec,
    hrestarted, hoffers.mpr hfit⟩

/-- **A piece too large to count**: after a mismatch, none of its blocks is
    ever offered. -/
theorem oversized_piece_not_offered :
    (Metadata.largest .LEECHER [0]).Consistent ∧ ∃ c c' : Controller,
      (system hash_nonempty (make (.largest .LEECHER [0]) none)).Reachable c ∧
      c.received_block hash_nonempty 0 2147483646 [0] = .ok (c', false) ∧ c.Restarted 0 c' ∧
      ¬ c'.OffersAll 0 := by
  have hg := Metadata.largest_consistent .LEECHER [0]
  have hpos : 0 < (Metadata.largest .LEECHER [0]).total_pieces := hg.total_pieces_pos
  have hr : (system hash_nonempty (make (.largest .LEECHER [0]) none)).Reachable
    (make (.largest .LEECHER [0]) none) := .init rfl
  have hlen : (([0] : Bytes).length : ℤ)
      = (make (.largest .LEECHER [0]) none).block_size (0 : ℕ) 2147483646 := by decide +kernel
  have hcomp : ((make (.largest .LEECHER [0]) none).store 0 2147483646 [0]).complete 0 = true := by
    decide +kernel
  have hhash : hash_nonempty
      (((make (.largest .LEECHER [0]) none).store 0 2147483646 [0]).assembled 0)
        ≠ (make (.largest .LEECHER [0]) none).piece_hash.getD 0 [] := by decide +kernel
  have hrestarted := restarted_of_mismatch (reachable_inflightOpen hr) hpos hcomp
  refine ⟨hg, _, _, hr, received_block_mismatch rfl hpos hlen hcomp hhash, hrestarted, ?_⟩
  rw [hrestarted.offersAll_iff rfl hg hpos]
  decide +kernel

end BitTorrentLite.Controller
