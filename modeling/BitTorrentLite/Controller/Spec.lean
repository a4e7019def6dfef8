import BitTorrentLite.Controller.Model

/-! # What the Controller's Methods Do

    One lemma per method that says everything a call can do, guards included,
    so that the arguments about runs never unfold a method. The small
    state updates the methods are made of come with their frame lemmas.
-/

open Machine Region

namespace BitTorrentLite.Controller

open Metadata (block_offset)

/-! ### Frame Lemmas -/

section frame

variable (c : Controller) (i status : ℕ) (off : ℤ) (data piece : Bytes)

@[simp] theorem claim_inflight : (c.claim i off).inflight
    = Function.update c.inflight i (insert off (c.inflight i)) := rfl
@[simp] theorem claim_piece_status : (c.claim i off).piece_status
    = Function.update c.piece_status i 2 := rfl

@[simp] theorem release_inflight : (c.release i off).inflight
    = Function.update c.inflight i ((c.inflight i).erase off) := rfl

@[simp] theorem store_toMetadata : (c.store i off data).toMetadata = c.toMetadata := rfl
@[simp] theorem store_inflight : (c.store i off data).inflight
    = Function.update c.inflight i ((c.inflight i).erase off) := rfl
@[simp] theorem store_piece_status : (c.store i off data).piece_status = c.piece_status := rfl
@[simp] theorem store_piece_blocks : (c.store i off data).piece_blocks
    = Function.update c.piece_blocks i (Function.update (c.piece_blocks i) off (some data)) := rfl

@[simp] theorem settle_toMetadata : (c.settle i status).toMetadata = c.toMetadata := rfl
@[simp] theorem settle_piece_status : (c.settle i status).piece_status
    = Function.update c.piece_status i status := rfl
@[simp] theorem settle_piece_blocks : (c.settle i status).piece_blocks
    = Function.update c.piece_blocks i (fun _ => none) := rfl

@[simp] theorem announce_toMetadata : (c.announce i).toMetadata = c.toMetadata := rfl
@[simp] theorem announce_piece_status : (c.announce i).piece_status = c.piece_status := rfl

@[simp] theorem write_to_disk_toMetadata :
    (c.write_to_disk i piece).toMetadata = c.toMetadata := rfl
@[simp] theorem write_to_disk_piece_status :
    (c.write_to_disk i piece).piece_status = c.piece_status := rfl

end frame

section blocks

variable {c : Controller} {i j status : ℕ} {off o : ℤ} {data d : Bytes}

/-- A block in the store is the one that was put there last, or was there before. -/
theorem store_cases (h : (c.store i off data).piece_blocks j o = some d) :
    (j = i ∧ o = off ∧ d = data) ∨ c.piece_blocks j o = some d := by
  rw [store_piece_blocks] at h
  by_cases hji : j = i
  · subst hji
    rw [Function.update_self] at h
    by_cases ho : o = off
    · rw [ho, Function.update_self] at h
      exact .inl ⟨rfl, ho, (Option.some.inj h).symm⟩
    · rw [Function.update_of_ne ho] at h
      exact .inr h
  · rw [Function.update_of_ne hji] at h
    exact .inr h

/-- A block that is left when a piece is settled belongs to another one. -/
theorem settle_cases (h : (c.settle i status).piece_blocks j o = some d) :
    j ≠ i ∧ c.piece_blocks j o = some d := by
  rw [settle_piece_blocks] at h
  by_cases hji : j = i
  · rw [hji, Function.update_self] at h
    cases h
  · rw [Function.update_of_ne hji] at h
    exact ⟨hji, h⟩

/-- Every counted block of a complete piece is stored. -/
theorem stored_of_complete (h : c.complete i = true) {b : ℕ} (hb : (b : ℤ) < c.count_blocks i) :
    ∃ d, c.piece_blocks i (block_offset b) = some d := by
  have hstored := List.all_eq_true.mp h b (List.mem_range.mpr (by omega))
  exact Option.isSome_iff_exists.mp hstored

/-- A piece that is not complete misses a block, if any is counted. -/
theorem missing_of_not_complete (h : c.complete i = false) :
    ∃ b : ℕ, (b : ℤ) < c.count_blocks i ∧ c.piece_blocks i (block_offset b) = none := by
  obtain ⟨b, hb, hnone⟩ := List.all_eq_false.mp h
  have hb := List.mem_range.mp hb
  exact ⟨b, by omega, by simpa using hnone⟩

end blocks

/-- A status that is set to something else than 1 makes no piece done. -/
theorem done_of_update {status : ℕ → ℕ} {i n j : ℕ} (hn : n ≠ 1)
    (hj : Function.update status i n j = 1) : status j = 1 := by
  by_cases hji : j = i
  · subst hji
    rw [Function.update_self] at hj
    exact absurd hj hn
  · rwa [Function.update_of_ne hji] at hj

/-- A call whose result is there has succeeded. -/
theorem toOption_some {α : Type} {x : Except Fault α} {a : α} (h : x.toOption = some a) :
    x = .ok a := by
  cases x with
  | error e => cases h
  | ok b => exact congrArg _ (Option.some.inj h)

/-! ### Vector Access -/

theorem index_ok {m : Metadata} {x : ℤ} {i : ℕ} :
    m.index x = .ok i ↔ x = i ∧ i < m.total_pieces := by
  unfold Metadata.index
  constructor
  · intro h
    split at h
    · simp only [Except.ok.injEq] at h
      omega
    · cases h
  · rintro ⟨rfl, hi⟩
    rw [if_pos (by omega)]
    simp

theorem index_natCast {m : Metadata} {i : ℕ} (hi : i < m.total_pieces) :
    m.index (i : ℤ) = .ok i := index_ok.mpr ⟨rfl, hi⟩

/-! ### Requests -/

/-- A missing, unclaimed block: one that `next_request` may hand out. -/
structure Available (c : Controller) (i : ℕ) (off : ℤ) : Prop where
  piece : i < c.total_pieces
  missing : c.piece_status i ≠ 1
  block : ∃ b : ℕ, (b : ℤ) < c.count_blocks i ∧ off = block_offset b
  not_stored : c.piece_blocks i off = none
  not_inflight : off ∉ c.inflight i

theorem next_block_some {c : Controller} {bf : ℕ → Bool} {i : ℕ} {req : BlockRequest}
    (hi : i < c.total_pieces) (h : c.next_block bf i = some req) :
    ∃ off, c.Available i off ∧ bf i = true ∧ req = ⟨i, off, c.block_size i off⟩ := by
  unfold next_block at h
  split at h
  · cases h
  · rename_i hguard
    obtain ⟨hbf, hst⟩ := not_or.mp hguard
    obtain ⟨b, hb, hreq⟩ := List.exists_of_findSome?_eq_some h
    split at hreq
    -- the block passed both tests: it is neither stored nor in flight
    · rename_i hopen
      simp only [open_block, Bool.and_eq_true, Option.isNone_iff_eq_none,
        decide_eq_true_eq] at hopen
      have hcount : (b : ℤ) < c.count_blocks i := by
        have := List.mem_range.mp hb
        omega
      have havail : c.Available i (block_offset b) :=
        { piece := hi
          missing := hst
          block := ⟨b, hcount, rfl⟩
          not_stored := hopen.1
          not_inflight := hopen.2 }
      exact ⟨block_offset b, havail, by simpa using hbf, (Option.some.inj hreq).symm⟩
    · cases hreq

theorem next_block_none {c : Controller} {bf : ℕ → Bool} {i : ℕ} (h : c.next_block bf i = none)
    {off : ℤ} (ha : c.Available i off) : bf i = false := by
  obtain ⟨-, hst, ⟨b, hcount, rfl⟩, hns, hni⟩ := ha
  unfold next_block at h
  split at h
  · rename_i hguard
    exact hguard.resolve_right hst
  -- the search went over every block, so over this one
  · have hb := List.findSome?_eq_none_iff.mp h b (List.mem_range.mpr (by omega))
    simp [open_block, hns, hni] at hb

/-- `next_request` that finds a block: one of a piece the peer has that was
    available, and the block is now claimed. -/
theorem next_request_some {c c' : Controller} {bf : ℕ → Bool} {req : BlockRequest}
    (h : c.next_request bf = (c', some req)) :
    c.mode = .LEECHER ∧ ∃ i off, c.Available i off ∧ bf i = true ∧
      req = ⟨i, off, c.block_size i off⟩ ∧ c' = c.claim i off := by
  unfold next_request at h
  split at h
  · cases h
  · rename_i hmode
    have hmode' : c.mode = .LEECHER := by
      cases hm : c.mode with
      | LEECHER => rfl
      | SEEDER => exact absurd hm hmode
    split at h
    · cases h
    · rename_i req' hfind
      obtain ⟨i, hi, hblock⟩ := List.exists_of_findSome?_eq_some hfind
      obtain ⟨off, ha, hbf, rfl⟩ := next_block_some (List.mem_range.mp hi) hblock
      obtain ⟨rfl, hreq⟩ := Prod.mk.inj h
      exact ⟨hmode', i, off, ha, hbf, (Option.some.inj hreq).symm, by simp⟩

/-- `next_request` that finds nothing changes nothing, and for a leecher no
    piece the peer has holds an available block. -/
theorem next_request_none {c c' : Controller} {bf : ℕ → Bool}
    (h : c.next_request bf = (c', none)) :
    c' = c ∧ (c.mode = .LEECHER → ∀ i off, c.Available i off → bf i = false) := by
  unfold next_request at h
  split at h
  · rename_i hmode
    obtain ⟨rfl, -⟩ := Prod.mk.inj h
    refine ⟨rfl, fun hl => ?_⟩
    rw [hmode] at hl
    cases hl
  · split at h
    · rename_i hfind
      obtain ⟨rfl, -⟩ := Prod.mk.inj h
      refine ⟨rfl, fun _ i off ha => ?_⟩
      exact next_block_none
        (List.findSome?_eq_none_iff.mp hfind i (List.mem_range.mpr ha.piece)) ha
    · cases h

/-- The two outcomes of `next_request`. -/
theorem next_request_cases (c : Controller) (bf : ℕ → Bool) :
    (c.next_request bf = (c, none) ∧
      (c.mode = .LEECHER → ∀ i off, c.Available i off → bf i = false)) ∨
    ∃ i off, c.mode = .LEECHER ∧ c.Available i off ∧ bf i = true ∧
      c.next_request bf = (c.claim i off, some ⟨i, off, c.block_size i off⟩) := by
  cases hreq : c.next_request bf with
  | mk d req =>
  cases req with
  | none =>
    obtain ⟨rfl, hnone⟩ := next_request_none hreq
    exact .inl ⟨rfl, hnone⟩
  | some req =>
    obtain ⟨hm, i, off, ha, hbf, rfl, rfl⟩ := next_request_some hreq
    exact .inr ⟨i, off, hm, ha, hbf, rfl⟩

/-- A leecher is offered a block exactly when an available one is on offer. -/
theorem next_request_isSome_iff {c : Controller} (hm : c.mode = .LEECHER) {bf : ℕ → Bool} :
    (c.next_request bf).2.isSome ↔ ∃ i off, c.Available i off ∧ bf i = true := by
  cases hreq : c.next_request bf with
  | mk c' req =>
  cases req with
  | none =>
    simp only [Option.isSome_none, Bool.false_eq_true, false_iff]
    rintro ⟨i, off, ha, hbf⟩
    have := (next_request_none hreq).2 hm i off ha
    rw [this] at hbf
    cases hbf
  | some req =>
    obtain ⟨-, i, off, ha, hbf, -⟩ := next_request_some hreq
    simp only [Option.isSome_some, true_iff]
    exact ⟨i, off, ha, hbf⟩

/-- `release_in_flight` of a valid index erases the one offset. -/
theorem release_in_flight_ok {c c' : Controller} {x off : ℤ}
    (h : c.release_in_flight x off = .ok c') :
    ∃ i : ℕ, x = i ∧ i < c.total_pieces ∧ c' = c.release i off := by
  unfold release_in_flight at h
  obtain ⟨i, hidx, heq⟩ := map_ok h
  obtain ⟨hx, hi⟩ := index_ok.mp hidx
  exact ⟨i, hx, hi, heq⟩

/-- The Bitfield handler's store sets one status to 0. -/
theorem clear_status_ok {c c' : Controller} {x : ℤ} (h : c.clear_status x = .ok c') :
    ∃ i : ℕ, x = i ∧ i < c.total_pieces ∧
      c' = { c with piece_status := Function.update c.piece_status i 0 } := by
  unfold clear_status at h
  obtain ⟨i, hidx, heq⟩ := map_ok h
  obtain ⟨hx, hi⟩ := index_ok.mp hidx
  exact ⟨i, hx, hi, heq⟩

/-! ### Blocks Received -/

/-- Every outcome of `received_block`. -/
inductive Received (c : Controller) (sha1 : Bytes → Bytes) (x off : ℤ) (data : Bytes) :
    Controller → Bool → Prop where
  /-- A seeder, or a block of the wrong length: nothing happens. -/
  | rejected : (c.mode = .SEEDER ∨ (data.length : ℤ) ≠ c.block_size x off) →
      Received c sha1 x off data c false
  /-- The piece still misses a block. -/
  | stored (i : ℕ) : x = i → i < c.total_pieces → c.mode = .LEECHER →
      (data.length : ℤ) = c.block_size i off → (c.store i off data).complete i = false →
      Received c sha1 x off data (c.store i off data) false
  /-- The piece is complete and does not match its hash. -/
  | mismatch (i : ℕ) : x = i → i < c.total_pieces → c.mode = .LEECHER →
      (data.length : ℤ) = c.block_size i off → (c.store i off data).complete i = true →
      sha1 ((c.store i off data).assembled i) ≠ c.piece_hash.getD i [] →
      Received c sha1 x off data ((c.store i off data).settle i 0) false
  /-- The piece is complete and verified. -/
  | finished (i : ℕ) : x = i → i < c.total_pieces → c.mode = .LEECHER →
      (data.length : ℤ) = c.block_size i off → (c.store i off data).complete i = true →
      sha1 ((c.store i off data).assembled i) = c.piece_hash.getD i [] →
      Received c sha1 x off data
        ((((c.store i off data).write_to_disk i ((c.store i off data).assembled i)).settle i 1
          ).announce i) true

theorem received_block_ok {c c' : Controller} {sha1 : Bytes → Bytes} {x off : ℤ} {data : Bytes}
    {done : Bool} (h : c.received_block sha1 x off data = .ok (c', done)) :
    Received c sha1 x off data c' done := by
  unfold received_block at h
  split at h
  · rename_i hm
    obtain ⟨rfl, rfl⟩ := Prod.mk.inj (Except.ok.inj h)
    exact .rejected (.inl hm)
  · rename_i hm
    have hm' : c.mode = .LEECHER := by
      cases hmode : c.mode with
      | LEECHER => rfl
      | SEEDER => exact absurd hmode hm
    split at h
    · rename_i hlen
      obtain ⟨rfl, rfl⟩ := Prod.mk.inj (Except.ok.inj h)
      exact .rejected (.inr hlen)
    · rename_i hlen
      rw [not_not] at hlen
      obtain ⟨i, hidx, htake⟩ := map_ok h
      obtain ⟨rfl, hi⟩ := index_ok.mp hidx
      -- the two tests of `take_block`: complete, and the hash
      unfold take_block at htake
      dsimp only at htake
      split at htake
      · rename_i hinc
        obtain ⟨rfl, rfl⟩ := Prod.mk.inj htake
        exact .stored i rfl hi hm' hlen (by simpa using hinc)
      · rename_i hcomp
        split at htake
        · rename_i hhash
          obtain ⟨rfl, rfl⟩ := Prod.mk.inj htake
          exact .mismatch i rfl hi hm' hlen (by simpa using hcomp) hhash
        · rename_i hhash
          obtain ⟨rfl, rfl⟩ := Prod.mk.inj htake
          exact .finished i rfl hi hm' hlen (by simpa using hcomp) (by simpa using hhash)

/-- A block for a piece of the torrent is taken or rejected. -/
theorem received_block_natCast {c : Controller} {sha1 : Bytes → Bytes} {i : ℕ} {off : ℤ}
    {data : Bytes} (hi : i < c.total_pieces) : ∃ r, c.received_block sha1 i off data = .ok r := by
  unfold received_block
  split
  · exact ⟨_, rfl⟩
  · split
    · exact ⟨_, rfl⟩
    · rw [index_natCast hi]
      exact ⟨_, rfl⟩

/-- A block of the wrong length is not looked at. -/
theorem received_block_wrong_length {c : Controller} {sha1 : Bytes → Bytes} {x off : ℤ}
    {data : Bytes} (hlen : (data.length : ℤ) ≠ c.block_size x off) :
    c.received_block sha1 x off data = .ok (c, false) := by
  unfold received_block
  rw [if_pos hlen, ite_self]

/-- A piece that is complete and does not match its hash starts over. -/
theorem received_block_mismatch {c : Controller} {sha1 : Bytes → Bytes} {i : ℕ} {off : ℤ}
    {data : Bytes} (hm : c.mode = .LEECHER) (hi : i < c.total_pieces)
    (hlen : (data.length : ℤ) = c.block_size i off)
    (hcomp : (c.store i off data).complete i = true)
    (hhash : sha1 ((c.store i off data).assembled i) ≠ c.piece_hash.getD i []) :
    c.received_block sha1 i off data = .ok ((c.store i off data).settle i 0, false) := by
  unfold received_block
  rw [if_neg (by rw [hm]; decide), if_neg (not_not.mpr hlen), index_natCast hi]
  show Except.ok (c.take_block sha1 i off data) = _
  unfold take_block
  dsimp only
  rw [hcomp, if_neg (by decide)]
  exact congrArg _ (if_pos hhash)

/-- No method changes what the constructor was given. -/
theorem Received.toMetadata {c c' : Controller} {sha1 : Bytes → Bytes} {x off : ℤ} {data : Bytes}
    {done : Bool} (h : Received c sha1 x off data c' done) : c'.toMetadata = c.toMetadata := by
  cases h <;> simp

/-! ### Blocks Served -/

/-- What `get_block` answers with, if with anything: the bytes of the file
    where the block lies, all of them there. -/
structure Served (c : Controller) (i : ℕ) (off : ℤ) (f d : Bytes) : Prop where
  piece : i < c.total_pieces
  done : c.piece_status i = 1
  inside : off < c.piece_length_for i
  file : c.file = some f
  size_nonneg : 0 ≤ c.block_size i off
  offset_nonneg : 0 ≤ i * c.piece_length + off
  bytes : d = slice f (i * c.piece_length + off).toNat (c.block_size i off).toNat
  length : (d.length : ℤ) = c.block_size i off

theorem get_block_served {c : Controller} {x off : ℤ} {d : Bytes}
    (h : c.get_block x off = .ok d) (hd : d ≠ []) :
    ∃ (i : ℕ) (f : Bytes), x = i ∧ c.Served i off f d := by
  unfold get_block at h
  cases hidx : c.index x with
  | error e => rw [hidx] at h; cases h
  | ok i =>
    rw [hidx] at h
    obtain ⟨hx, hi⟩ := index_ok.mp hidx
    dsimp only at h
    split at h
    · exact absurd (Except.ok.inj h).symm hd
    · rename_i hst
      split at h
      · exact absurd (Except.ok.inj h).symm hd
      · rename_i hoff
        split at h
        · exact absurd (Except.ok.inj h).symm hd
        · rename_i f hf
          split at h
          · cases h
          · rename_i hsize
            split at h
            · exact absurd (Except.ok.inj h).symm hd
            · rename_i hpos
              have h := Except.ok.inj h
              -- the file may be too short for the block, which is then not served
              split at h
              · exact absurd h.symm hd
              · rename_i hlen
                rw [not_not] at hlen hst
                exact ⟨i, f, hx,
                  { piece := hi
                    done := hst
                    inside := by omega
                    file := hf
                    size_nonneg := by omega
                    offset_nonneg := by omega
                    bytes := h.symm
                    length := by rw [← h]; exact hlen }⟩

theorem Served.get_block {c : Controller} {i : ℕ} {off : ℤ} {f d : Bytes}
    (h : c.Served i off f d) : c.get_block i off = .ok d := by
  have hlen := h.length
  have hbytes := h.bytes
  unfold Controller.get_block
  rw [index_natCast h.piece]
  dsimp only
  rw [if_neg (by simpa using h.done), if_neg (not_le.mpr h.inside), h.file]
  dsimp only
  rw [if_neg (not_lt.mpr h.size_nonneg), if_neg (not_lt.mpr h.offset_nonneg), ← hbytes,
    if_neg (not_not.mpr hlen)]

/-! ### Completion -/

theorem wait_until_done_iff {c : Controller} :
    c.wait_until_done = true ↔ ∀ i < c.total_pieces, c.piece_status i = 1 := by
  simp [wait_until_done]

theorem all_done_iff {c : Controller} :
    c.all_done = true ↔ c.mode = .LEECHER ∧
      ∀ i < c.total_pieces, c.piece_status i ≠ 2 ∧ c.piece_status i ≠ 0 := by
  cases hm : c.mode <;> simp [all_done, hm]

end BitTorrentLite.Controller
