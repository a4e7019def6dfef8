import BitTorrentLite.Controller.Copies
import BitTorrentLite.Swarm.System

/-! # Verified Pieces Stay Verified

    `piece_status[i] = 1` says that piece `i` is on the disk and verified.
    Two steps can take it back: the unlocked store of the Bitfield handler,
    when the piece was completed after the handler's `next_request`, and
    `received_block`, when blocks of a piece that is already done come in
    again and are not the right ones. In runs where no Bitfield handler stores
    to a piece that is done and late copies of blocks carry the bytes on the
    disk, a verified piece stays so, is still served, and `all_done` never
    goes back.
-/

open Machine Region LTS

namespace BitTorrentLite

namespace Controller

variable {sha1 : Bytes → Bytes} {c c' : Controller} {i : ℕ}

/-! ### The File Never Shrinks -/

/-- The file is there, and at least as long as `f`. -/
def FileCovers (c : Controller) (f : Bytes) : Prop :=
  ∃ f', c.file = some f' ∧ f.length ≤ f'.length

theorem FileCovers.write_to_disk {f : Bytes} (h : c.FileCovers f) (i : ℕ) (piece : Bytes) :
    (c.write_to_disk i piece).FileCovers f := by
  obtain ⟨f', hf', hle⟩ := h
  have hold : c.file.getD (List.replicate c.length.toNat 0) = f' := by rw [hf', Option.getD_some]
  refine ⟨_, rfl, ?_⟩
  rw [hold]
  split
  · exact hle
  · by_cases hne : piece = []
    · rw [hne, overwrite_nil]
      exact hle
    · rw [overwrite_length _ _ _ hne]
      exact le_trans hle (le_max_left _ _)

theorem FileCovers.stepped {f : Bytes} (h : c.FileCovers f) (hst : Stepped sha1 c c') :
    c'.FileCovers f := by
  cases hst with
  | queues | claim | release | clear => exact h
  | received x off data c' done hrec =>
    cases hrec with
    | rejected | stored | mismatch => exact h
    | finished i => exact FileCovers.write_to_disk (c := c.store i off data) h i _

/-- A block that is served is served as long as its piece is done and the file
    has not become shorter. -/
theorem served_again {x off : ℤ} {d : Bytes} (hmeta : c'.toMetadata = c.toMetadata)
    (h : c.get_block x off = .ok d) (hd : d ≠ [])
    (hdone : ∀ i, c.piece_status i = 1 → c'.piece_status i = 1)
    (hfile : ∀ f, c.FileCovers f → c'.FileCovers f) :
    ∃ d', d' ≠ [] ∧ c'.get_block x off = .ok d' := by
  obtain ⟨i, f, rfl, hs⟩ := get_block_served h hd
  obtain ⟨f', hf', hle⟩ := hfile f ⟨f, hs.file, le_rfl⟩
  -- the same region of the file as it is now
  let d' := slice f' (i * c.piece_length + off).toNat (c.block_size i off).toNat
  have hlen : d'.length = d.length := by
    have hlong := hs.length
    have hcut := hs.bytes ▸ slice_length f (i * c.piece_length + off).toNat
      (c.block_size i off).toNat
    have hcut' := slice_length f' (i * c.piece_length + off).toNat (c.block_size i off).toNat
    change (slice f' _ _).length = _
    omega
  have hserved : c'.Served i off f' d' :=
    { piece := hmeta ▸ hs.piece
      done := hdone i hs.done
      inside := hmeta ▸ hs.inside
      file := hf'
      size_nonneg := hmeta ▸ hs.size_nonneg
      offset_nonneg := hmeta ▸ hs.offset_nonneg
      bytes := by rw [hmeta]
      length := by rw [hlen, hmeta]; exact hs.length }
  refine ⟨d', ?_, hserved.get_block⟩
  intro hnil
  rw [hnil, List.length_nil] at hlen
  exact hd (List.length_eq_zero_iff.mp hlen.symm)

/-! ### Status Values -/

/-- A status is 0, 1 or 2. -/
def StatusRange (c : Controller) : Prop := ∀ i, c.piece_status i ≤ 2

theorem StatusRange.update {n : ℕ} (h : c.StatusRange) (hn : n ≤ 2) (i : ℕ) :
    ∀ j, Function.update c.piece_status i n j ≤ 2 := by
  intro j
  by_cases hj : j = i
  · rw [hj, Function.update_self]
    exact hn
  · rw [Function.update_of_ne hj]
    exact h j

theorem StatusRange.stepped (h : c.StatusRange) (hst : Stepped sha1 c c') : c'.StatusRange := by
  cases hst with
  | queues | release => exact h
  | claim i off => exact h.update le_rfl i
  | clear i => exact h.update (Nat.zero_le 2) i
  | received x off data c' done hrec =>
    cases hrec with
    | rejected | stored => exact h
    | mismatch i => exact h.update (Nat.zero_le 2) i
    | finished i => exact h.update (Nat.le_succ 1) i

/-- `all_done` says that every status is 1. -/
theorem all_done_iff_verified (hr : c.StatusRange) :
    c.all_done = true ↔ c.mode = .LEECHER ∧ ∀ i < c.total_pieces, c.piece_status i = 1 := by
  rw [all_done_iff]
  refine and_congr_right fun _ => forall₂_congr fun i _ => ?_
  have := hr i
  omega

end Controller

/-! ## Steps That Spare What Is Done -/

open Controller

/-- The condition on a step: the Bitfield handler stores to a piece that is not
    done, and a block that arrives for a piece that is done is a right copy. -/
def PC.Sparing (c : Controller) : PC → Prop
  | .bitfield_store req => ∀ i : ℕ, req.piece_index = i → c.piece_status i ≠ 1
  | .received x off data => c.RightCopy x off data
  | _ => True

/-- `PC.Sparing`, computed; a copy is compared whatever its length. -/
def PC.sparing (c : Controller) : PC → Bool
  | .bitfield_store req => c.piece_status req.piece_index.toNat != 1
  | .received x off data => c.piece_status x.toNat != 1 ||
    (c.get_block x off).toOption == some data
  | _ => true

theorem PC.Sparing.of_computed {c : Controller} {pc : PC} (h : pc.sparing c = true) :
    pc.Sparing c := by
  cases pc with
  | bitfield_store req =>
    intro i hi
    change (c.piece_status req.piece_index.toNat != 1) = true at h
    rw [hi, Int.toNat_natCast] at h
    simpa using h
  | received x off data =>
    intro i hi hone _ _
    change (c.piece_status x.toNat != 1 || (c.get_block x off).toOption == some data) = true at h
    rw [hi, Int.toNat_natCast, hone] at h
    exact toOption_some (by simpa using h)
  | _ => trivial

section moves

variable {sha1 : Bytes → Bytes} {c c' : Controller} {peer_id : ℕ} {st st' : PeerState}
  {pc pc' : PC} {inp : Input}

theorem status_claim {i j : ℕ} {off : ℤ} (ha : c.Available i off) (hj : c.piece_status j = 1) :
    (c.claim i off).piece_status j = 1 := by
  -- a piece that is requested from is not done
  have hne : j ≠ i := by
    rintro rfl
    exact ha.missing hj
  rw [claim_piece_status, Function.update_of_ne hne]
  exact hj

/-- **Step lemma**: a sparing step keeps what is known of the pieces that are
    done. -/
theorem Move.copies (h : Move sha1 c peer_id st pc inp c' st' pc') (hg : c.Consistent)
    (hc : c.Copies sha1) (hok : pc.Sparing c) : c'.Copies sha1 := by
  cases h
  case block_received x off data done hrec => exact (hc.received hg hok hrec).1
  case request_some i off _ _ _ => exact hc.undisturbed (c.undisturbed_claim i off)
  case have_some i off _ _ _ => exact hc.undisturbed (c.undisturbed_claim i off)
  case bitfield_some i off _ _ _ => exact hc.undisturbed (c.undisturbed_claim i off)
  case bitfield_stored req i _ _ => exact hc.undisturbed (c.undisturbed_clear i)
  all_goals first
    | exact hc.undisturbed (c.undisturbed_release _ _)
    | exact hc.undisturbed (c.undisturbed_queues _ _)

/-- **Step lemma**: a sparing step takes no status back. -/
theorem Move.status_kept (h : Move sha1 c peer_id st pc inp c' st' pc') (hg : c.Consistent)
    (hc : c.Copies sha1) (hok : pc.Sparing c) {j : ℕ} (hj : c.piece_status j = 1) :
    c'.piece_status j = 1 := by
  cases h
  case request_some i off _ ha _ => exact status_claim ha hj
  case have_some i off _ ha _ => exact status_claim ha hj
  case bitfield_some i off _ ha _ => exact status_claim ha hj
  case bitfield_stored req i hi _ =>
    have hne : j ≠ i := by
      rintro rfl
      exact hok j hi hj
    exact (Function.update_of_ne hne ..).trans hj
  case block_received x off data done hrec => exact (hc.received hg hok hrec).2 j hj
  all_goals exact hj

end moves

/-! ## Runs -/

namespace Swarm

variable {sha1 : Bytes → Bytes} {m : Metadata} {disk : Option Bytes} {s s' : Swarm} {a : Action}

/-- The thread that moves, if any, takes a sparing step. -/
def Sparing (s : Swarm) : Action → Prop
  | .connect => True
  | .thread id _ => ∀ t, s.threads id = some t → t.pc.Sparing s.ctl

/-- `Sparing`, computed. -/
def sparing (s : Swarm) : Action → Bool
  | .connect => true
  | .thread id _ => (s.threads id).all fun t => t.pc.sparing s.ctl

theorem sparing_of_computed (s : Swarm) (a : Action) (h : s.sparing a = true) : s.Sparing a := by
  cases a with
  | connect => trivial
  | thread id inp =>
    intro t ht
    change (s.threads id).all _ = true at h
    rw [ht, Option.all_some] at h
    exact .of_computed h

theorem Stepped.copies (hg : s.ctl.Consistent) (hc : s.ctl.Copies sha1) (hok : s.Sparing a)
    (h : Stepped sha1 s a s') : s'.ctl.Copies sha1 := by
  cases h with
  | connected => exact hc.undisturbed (s.ctl.undisturbed_queues _ _)
  | moved id inp t t' c' ht hmove => exact hmove.copies hg hc (hok t ht)

theorem Stepped.status_kept (hg : s.ctl.Consistent) (hc : s.ctl.Copies sha1) (hok : s.Sparing a)
    (h : Stepped sha1 s a s') {i : ℕ} (hi : s.ctl.piece_status i = 1) :
    s'.ctl.piece_status i = 1 := by
  cases h with
  | connected => exact hi
  | moved id inp t t' c' ht hmove => exact hmove.status_kept hg hc (hok t ht) hi

/-- **Run lemma**: in runs of sparing steps, what is stored of a piece that is done
    agrees with the disk. -/
theorem reachable_copies (hm : m.mode = .LEECHER) (hg : m.Consistent)
    (h : ((system sha1 m disk).restrict Sparing).Reachable s) : s.ctl.Copies sha1 := by
  refine System.invariant (I := fun s => s.ctl.Copies sha1) ?_ ?_ s h
  · rintro s rfl
    exact copies_make sha1 hm disk
  · intro s a s' hr hc hst
    have hg' : s.ctl.Consistent := (reachable_toMetadata hr.of_restrict) ▸ hg
    exact (next_stepped hst.2).copies hg' hc hst.1

theorem reachable_statusRange (h : (system sha1 m disk).Reachable s) : s.ctl.StatusRange := by
  refine controller_invariant ?_ (fun _ _ hc hst => hc.stepped hst) h
  intro i
  simp only [Controller.make]
  split <;> omega

/-- **Verified pieces stay verified**: in every run of sparing steps of a
    leecher, from any state it reaches, a status of 1 stays 1, a block that is
    served stays served, and `all_done` stays true. -/
theorem verified_piece_stays (sha1 : Bytes → Bytes) {m : Metadata} (hm : m.mode = .LEECHER)
    (hg : m.Consistent) (disk : Option Bytes) {s s' : Swarm} {ls : List Action}
    (hs : ((system sha1 m disk).restrict Sparing).Reachable s)
    (hp : ((system sha1 m disk).restrict Sparing).Path s ls s') :
    (∀ i, s.ctl.piece_status i = 1 → s'.ctl.piece_status i = 1) ∧
      (∀ x off d, s.ctl.get_block x off = .ok d → d ≠ [] →
        ∃ d', d' ≠ [] ∧ s'.ctl.get_block x off = .ok d') ∧
      (s.ctl.all_done = true → s'.ctl.all_done = true) := by
  have h : (system sha1 m disk).Reachable s := hs.of_restrict
  have hreach : (system sha1 m disk).Reachable s' := hp.of_restrict.reachable h
  have hmeta : s'.ctl.toMetadata = s.ctl.toMetadata :=
    (reachable_toMetadata hreach).trans (reachable_toMetadata h).symm
  have hkept : ∀ i, s.ctl.piece_status i = 1 → s'.ctl.piece_status i = 1 := by
    intro i hi
    -- along the path, the states stay reachable by sparing steps
    refine (hp.stable (P := fun s => ((system sha1 m disk).restrict Sparing).Reachable s ∧
      s.ctl.piece_status i = 1) ?_ ⟨hs, hi⟩).2
    rintro s a s' ⟨hr, hone⟩ hst
    have hg' : s.ctl.Consistent := (reachable_toMetadata hr.of_restrict) ▸ hg
    exact ⟨.step hr hst,
      (next_stepped hst.2).status_kept hg' (reachable_copies hm hg hr) hst.1 hone⟩
  have hfile : ∀ f, s.ctl.FileCovers f → s'.ctl.FileCovers f := by
    intro f hf
    refine hp.stable (P := fun s => s.ctl.FileCovers f) ?_ hf
    intro s a s' hs hst
    exact hs.stepped (next_stepped hst.2).controller
  refine ⟨hkept, ?_, ?_⟩
  · intro x off d hblock hd
    exact served_again hmeta hblock hd hkept hfile
  · rw [all_done_iff_verified (reachable_statusRange h),
      all_done_iff_verified (reachable_statusRange hreach), hmeta]
    exact fun hall => ⟨hall.1, fun i hi => hkept i (hall.2 i hi)⟩

/-- One peer delivers the two pieces of the file, and a second one connects. -/
def pair_steps : List Action :=
  first_of_pair ++ greet 1
    ++ [.thread 0 (.recv (some (build_piece_msg 1 0 [8]))), .thread 0 .call]

/-- A second copy of the first block, the right one, arrives from the other
    peer: it is stored, checked and written again. -/
theorem pair_verified_stays : ∃ s s' : Swarm,
    ((system id (.pair .LEECHER [7] [8]) none).restrict Sparing).Reachable s ∧
      ((system id (.pair .LEECHER [7] [8]) none).restrict Sparing).Path s
        [.thread 1 (.recv (some (build_piece_msg 0 0 [7]))), .thread 1 .call] s' ∧
      s.ctl.all_done = true ∧ s'.ctl.piece_status 0 = 1 ∧ s'.ctl.all_done = true := by
  have hstep : ∀ s a s', System.guarded sparing (next id) s a = some s' →
      ((system id (.pair .LEECHER [7] [8]) none).restrict Sparing).step s a s' :=
    System.guarded_step sparing_of_computed next_step
  obtain ⟨s, hr, hs⟩ := System.Reachable.exists_of_run hstep (.init rfl) pair_steps
    (P := fun s => s.ctl.all_done && s.ctl.piece_status 0 == 1 &&
      (System.run (System.guarded sparing (next id)) s
        [.thread 1 (.recv (some (build_piece_msg 0 0 [7]))), .thread 1 .call]).isSome)
    (by decide +kernel)
  simp only [Bool.and_eq_true, beq_iff_eq] at hs
  obtain ⟨⟨hdone, hone⟩, hrun⟩ := hs
  obtain ⟨s', hrun⟩ := Option.isSome_iff_exists.mp hrun
  have hp := System.Path.of_run hstep hrun
  obtain ⟨hkept, -, hall⟩ := verified_piece_stays id rfl (Metadata.pair_consistent _ _ _) none hr hp
  exact ⟨s, s', hr, hp, hdone, hkept 0 hone, hall hdone⟩

/-- Two peers, of which the first delivers the one block of the file. -/
def deliver_steps : List Action :=
  greet 0 ++ greet 1 ++ hear 0 ⟨.Bitfield, [128]⟩ [.call, .call, .call]
    ++ hear 0 ⟨.Unchoke, []⟩ [.call, .sent true, .call]
    ++ [.thread 0 (.recv (some (build_piece_msg 0 0 [7]))), .thread 0 .call]

/-- A second copy of the block, not the right one, arrives from the other peer
    and takes the verified piece back. -/
theorem late_block_takes_back : ∃ s s' : Swarm, ∃ ls : List Action,
    (system id (.tiny .LEECHER [7]) none).Reachable s ∧
      (system id (.tiny .LEECHER [7]) none).Path s ls s' ∧
      s.ctl.piece_status 0 = 1 ∧ s.ctl.all_done = true ∧
      s'.ctl.piece_status 0 = 0 ∧ s'.ctl.all_done = false := by
  obtain ⟨s, hr, hs⟩ := System.Reachable.exists_of_run next_step
    (.init rfl : (system id (.tiny .LEECHER [7]) none).Reachable _) deliver_steps
    (P := fun s => s.ctl.all_done && s.ctl.piece_status 0 == 1 &&
      (System.run (next id) s
        [.thread 1 (.recv (some (build_piece_msg 0 0 [8]))), .thread 1 .call]).any
        fun s' => s'.ctl.piece_status 0 == 0 && !s'.ctl.all_done) (by decide +kernel)
  simp only [Bool.and_eq_true, beq_iff_eq, Option.any_eq_true, Bool.not_eq_true'] at hs
  obtain ⟨⟨hdone, hone⟩, s', hrun, hzero, hnot⟩ := hs
  exact ⟨s, s', _, hr, .of_run next_step hrun, hone, hdone, hzero, hnot⟩

end Swarm

end BitTorrentLite
