import BitTorrentLite.Swarm.Stability
import BitTorrentLite.Transfer.Torrent

/-! # A File Delivered

    From a file to its copy: a seeder and a leecher are built from the torrent
    that `create_torrent` wrote of the file. The leecher asks for blocks with
    any bitfield, and what the seeder answers to a block is handed to it at
    any time after it asked: in any order, again, or after the block was
    released. Every answer is accepted, and once nothing is left to request
    the copy is the file.
-/

open Machine Region Tiling LTS

namespace BitTorrentLite

open Controller
open Metadata (block_offset)

/-- A leecher's controller, with the blocks it has issued so far. -/
structure Session where
  ctl : Controller
  issued : List BlockRequest

namespace Session

/-- A step of the leecher. -/
inductive Call where
  | next_request (bit_field : ℕ → Bool)
  /-- The seeder's answer to an issued block arrives. -/
  | received_block (req : BlockRequest)
  | release_in_flight (req : BlockRequest)

/-- The state after a call, if it is possible; `S` answers the requests. -/
def next (sha1 : Bytes → Bytes) (S : Controller) (s : Session) : Call → Option Session
  | .next_request bf =>
    let (c, req) := s.ctl.next_request bf
    some ⟨c, s.issued ++ req.toList⟩
  | .received_block req =>
    if req ∈ s.issued then do
      let d ← (S.get_block req.piece_index req.block_offset).toOption
      let (c, _) ← (s.ctl.received_block sha1 req.piece_index req.block_offset d).toOption
      return ⟨c, s.issued⟩
    else none
  | .release_in_flight req =>
    if req ∈ s.issued then do
      let c ← (s.ctl.release_in_flight req.piece_index req.block_offset).toOption
      return ⟨c, s.issued⟩
    else none

/-- The runs of a leecher whose controller starts as `L`. -/
def system (sha1 : Bytes → Bytes) (S L : Controller) : System Session Call where
  init := fun s => s = ⟨L, []⟩
  step := fun s call s' => s.next sha1 S call = some s'

/-- What one step can do. -/
inductive Stepped (sha1 : Bytes → Bytes) (S : Controller) (s : Session) : Session → Prop where
  | nothing : Stepped sha1 S s s
  | issued (i : ℕ) (off : ℤ) : s.ctl.mode = .LEECHER → s.ctl.Available i off →
      Stepped sha1 S s ⟨s.ctl.claim i off, s.issued ++ [⟨i, off, s.ctl.block_size i off⟩]⟩
  | received (req : BlockRequest) (d : Bytes) (c' : Controller) (done : Bool) :
      req ∈ s.issued → S.get_block req.piece_index req.block_offset = .ok d →
      Received s.ctl sha1 req.piece_index req.block_offset d c' done →
      Stepped sha1 S s ⟨c', s.issued⟩
  | released (i : ℕ) (off : ℤ) : i < s.ctl.total_pieces →
      Stepped sha1 S s ⟨s.ctl.release i off, s.issued⟩

section runs

variable {sha1 : Bytes → Bytes} {S L : Controller} {s s' : Session} {F : Bytes}

theorem next_stepped {call : Call} (h : s.next sha1 S call = some s') : Stepped sha1 S s s' := by
  cases call with
  | next_request bf =>
    have hs' : s' = ⟨(s.ctl.next_request bf).1, s.issued ++ (s.ctl.next_request bf).2.toList⟩ :=
      (Option.some.inj h).symm
    rcases next_request_cases s.ctl bf with ⟨hreq, -⟩ | ⟨i, off, hl, ha, -, hreq⟩
    · rw [hreq, Option.toList_none, List.append_nil] at hs'
      subst hs'
      exact .nothing
    · rw [hreq] at hs'
      subst hs'
      exact .issued i off hl ha
  | received_block req =>
    simp only [next] at h
    split at h
    · rename_i hmem
      obtain ⟨d, hd, h⟩ := Option.bind_eq_some_iff.mp h
      obtain ⟨⟨c', done⟩, hc, h⟩ := Option.bind_eq_some_iff.mp h
      obtain rfl := Option.some.inj h
      exact .received req d c' done hmem (toOption_some hd) (received_block_ok (toOption_some hc))
    · cases h
  | release_in_flight req =>
    simp only [next] at h
    split at h
    · obtain ⟨c', hc, h⟩ := Option.bind_eq_some_iff.mp h
      obtain rfl := Option.some.inj h
      obtain ⟨i, -, hi, rfl⟩ := release_in_flight_ok (toOption_some hc)
      exact .released i req.block_offset hi
    · cases h

/-- A computed step is a step. -/
theorem next_step (s : Session) (call : Call) (s' : Session)
    (h : s.next sha1 S call = some s') : (system sha1 S L).step s call s' := h

/-- A step of the session is at most one call on the controller. -/
theorem Stepped.controller (h : Stepped sha1 S s s') :
    s'.ctl = s.ctl ∨ Controller.Stepped sha1 s.ctl s'.ctl := by
  cases h with
  | nothing => exact .inl rfl
  | issued i off hl ha => exact .inr (.claim i off hl ha)
  | received req d c' done _ _ hrec => exact .inr (.received _ _ d c' done hrec)
  | released i off hi => exact .inr (.release i off hi)

/-! ## The Invariant -/

/-- A block of the torrent, as it is requested. -/
def OfTorrent (m : Metadata) (req : BlockRequest) : Prop :=
  ∃ i < m.total_pieces, ∃ b < m.block_count i,
    req = ⟨i, block_offset b, m.block_size i (block_offset b)⟩

/-- What holds in every state of a session about the file `F`. -/
structure Sound (m : Metadata) (F : Bytes) (s : Session) : Prop where
  toMetadata : s.ctl.toMetadata = m
  status : s.ctl.StatusRange
  delivering : s.ctl.Delivering F
  issued : ∀ req ∈ s.issued, OfTorrent m req

section steps

variable {m : Metadata} (hl : m.mode = .LEECHER) (hg : m.Consistent) (hfit : m.CountFits)
  (ho : m.Original sha1 F)
  (hS : ∀ i < m.total_pieces, ∀ b < m.block_count i,
    S.get_block i (block_offset b) = .ok (m.block_of F i b))

include hl hg hfit ho hS

/-- **Step lemma**: every step keeps the invariant. -/
theorem Sound.stepped (h : s.Sound m F) (hst : Stepped sha1 S s s') : s'.Sound m F := by
  have hrange : s'.ctl.StatusRange := by
    rcases hst.controller with heq | hc
    · rw [heq]
      exact h.status
    · exact h.status.stepped hc
  obtain ⟨hm, -, hdel, hissued⟩ := h
  subst hm
  cases hst with
  | nothing => exact ⟨rfl, hrange, hdel, hissued⟩
  | issued i off _ ha =>
    refine ⟨rfl, hrange, hdel.claim i off, fun req hreq => ?_⟩
    rcases List.mem_append.mp hreq with hreq | hreq
    · exact hissued req hreq
    · obtain rfl := List.mem_singleton.mp hreq
      obtain ⟨b, hb, rfl⟩ := ha.block_lt hg hfit
      exact ⟨i, ha.piece, b, hb, rfl⟩
  -- an issued block, so the answer is a block of the original
  | received req d c' done hmem hd hrec =>
    obtain ⟨i, hi, b, hb, rfl⟩ := hissued req hmem
    have hblock := hS i hi b hb
    obtain rfl := Except.ok.inj (hd.symm.trans hblock)
    exact ⟨hrec.toMetadata, hrange, hdel.received hg hfit ho hl hi hb hrec, hissued⟩
  | released i off hi => exact ⟨rfl, hrange, hdel.release i off, hissued⟩

/-- **Run lemma**: it holds in every reachable state. -/
theorem reachable_sound {disk : Option Bytes} (h : (system sha1 S (make m disk)).Reachable s) :
    s.Sound m F := by
  refine System.invariant (I := Sound m F) ?_ ?_ s h
  · rintro s rfl
    refine ⟨rfl, fun i => ?_, delivering_make hg hl disk, fun req hreq => nomatch hreq⟩
    simp only [make, hl]
    decide
  · intro s call s' _ hs hst
    exact hs.stepped hl hg hfit ho hS (next_stepped hst)

/-! ## What It Gives -/

/-- The block is stored, and finishes its piece if it is the last one. -/
def Accepted (c : Controller) (req : BlockRequest) (d : Bytes) (c' : Controller) : Prop :=
  let i := req.piece_index.toNat
  (c' = c.store i req.block_offset d ∧ c'.complete i = false) ∨
    (c' = c.finish i req.block_offset d ∧ c'.piece_status i = 1)

/-- Every issued block is answered with the bytes asked for, and the answer is
    accepted. -/
theorem Sound.answered (h : s.Sound m F) {req : BlockRequest} (hreq : req ∈ s.issued) :
    ∃ d, S.get_block req.piece_index req.block_offset = .ok d ∧
      (d.length : ℤ) = req.block_length ∧ ∃ c' done,
        s.ctl.received_block sha1 req.piece_index req.block_offset d = .ok (c', done) ∧
          Accepted s.ctl req d c' := by
  obtain ⟨rfl, -, hdel, hissued⟩ := h
  obtain ⟨i, hi, b, hb, rfl⟩ := hissued req hreq
  obtain ⟨⟨c', done⟩, hrec⟩ :
      ∃ r, s.ctl.received_block sha1 i (block_offset b) (s.ctl.block_of F i b) = .ok r :=
    received_block_natCast hi
  refine ⟨_, hS i hi b hb, ?_, c', done, hrec, ?_⟩
  · rw [Metadata.block_of_length hg ho hi hb, hg.block_size_eq hi hb]
  · rcases received_genuine hg hfit ho hl hdel.genuine hi hb (received_block_ok hrec) with
      ⟨rfl, hinc⟩ | ⟨rfl, -⟩
    · exact .inl ⟨rfl, hinc⟩
    · exact .inr ⟨rfl, Function.update_self ..⟩

omit hS in
/-- Where nothing is in flight and nothing left to request, all is done. -/
theorem Sound.all_done (h : s.Sound m F)
    (hidle : ∀ i < s.ctl.total_pieces, s.ctl.inflight i = ∅)
    (hnone : (s.ctl.next_request fun _ => true).2 = none) : s.ctl.all_done = true := by
  obtain ⟨rfl, hstatus, hdel, -⟩ := h
  refine (all_done_iff_verified hstatus).mpr ⟨hl, fun i hi => ?_⟩
  -- a piece that is not done would have a block to request
  by_contra hmiss
  obtain ⟨off, ha⟩ := hdel.missing hg hfit hi hmiss (hidle i hi)
  have hsome : (s.ctl.next_request fun _ => true).2.isSome :=
    (next_request_isSome_iff hl).mpr ⟨i, off, ha, rfl⟩
  rw [hnone] at hsome
  cases hsome

omit hl hfit hS in
/-- Where all is done, the output file is the original. -/
theorem Sound.output (h : s.Sound m F) (hdone : s.ctl.all_done = true) :
    slice (s.ctl.file.getD []) 0 F.length = F := by
  obtain ⟨rfl, hstatus, hdel, -⟩ := h
  obtain ⟨f, hf, hslice⟩ :=
    hdel.file_eq hg ho ((all_done_iff_verified hstatus).mp hdone).2
  rw [hf]
  exact hslice

end steps

/-- A torrent without pieces: nothing is ever issued. -/
theorem reachable_no_pieces {m : Metadata} {disk : Option Bytes} (hm : m.total_pieces = 0)
    (h : (system sha1 S (make m disk)).Reachable s) :
    s.ctl.toMetadata = m ∧ s.issued = [] := by
  refine System.invariant (I := fun s => s.ctl.toMetadata = m ∧ s.issued = []) ?_ ?_ s h
  · rintro s rfl
    exact ⟨rfl, rfl⟩
  · intro s call s' _ hs hst
    obtain ⟨rfl, hissued⟩ := hs
    cases next_stepped hst with
    | nothing => exact ⟨rfl, hissued⟩
    | issued i off _ ha =>
      have := ha.piece
      omega
    | received req d c' done hmem =>
      rw [hissued] at hmem
      cases hmem
    | released i off hi => exact ⟨rfl, hissued⟩

end runs

/-! ## End to End -/

/-- What is promised of a state: `S` serves every issued block and the answer
    is accepted; all is done where nothing is in flight or left to request;
    and then the output file is `F`. -/
structure Delivered (sha1 : Bytes → Bytes) (S : Controller) (F : Bytes) (s : Session) : Prop where
  answered : ∀ req ∈ s.issued, ∃ d, S.get_block req.piece_index req.block_offset = .ok d ∧
    (d.length : ℤ) = req.block_length ∧ ∃ c' done,
      s.ctl.received_block sha1 req.piece_index req.block_offset d = .ok (c', done) ∧
        Accepted s.ctl req d c'
  all_done : (∀ i < s.ctl.total_pieces, s.ctl.inflight i = ∅) →
    (s.ctl.next_request fun _ => true).2 = none → s.ctl.all_done = true
  output : s.ctl.all_done = true → slice (s.ctl.file.getD []) 0 F.length = F

/-- **End-to-end delivery**: whatever `parse_torrent` returns of the torrent
    `create_torrent` writes of a file `F`, a leecher built from it that is
    handed a seeder's answers gets exactly `F`, over every run. -/
theorem file_delivered (SHA1 : Bytes → Digest) {filename tracker_url F : Bytes} {data : Text}
    (hdata : data.bytes = create_torrent SHA1 filename tracker_url F)
    (hF : 20 * tile_count F.length standard_piece_length < 2 ^ 31) :
    (tracker_url.length < 2 ^ 31 → filename.length < 2 ^ 31 →
      ∃ t, Parse.Yields (parse_torrent data) (.ok t)) ∧
    ∀ t, Parse.Yields (parse_torrent data) (.ok t) → ∀ (disk : Option Bytes) (s : Session),
      (system (sha1 SHA1) (make (t.metadata .SEEDER) (some F))
        (make (t.metadata .LEECHER) disk)).Reachable s →
      s.Delivered (sha1 SHA1) (make (t.metadata .SEEDER) (some F)) F := by
  refine ⟨fun hurl hname => ?_, fun t ht disk s hr => ?_⟩
  · obtain ⟨t, ht, -⟩ := created_parses hdata hF hurl hname
    exact ⟨t, ht⟩
  have hcreated := created_of_parsed hdata hF ht
  by_cases hne : F = []
  · -- no pieces: there is nothing to ask for and nothing to compare
    have hnone : (t.metadata .LEECHER).total_pieces = 0 := by
      show t.pieces.length = 0
      rw [hcreated.total_pieces, hne, List.length_nil, tile_count_zero]
    obtain ⟨hm, hissued⟩ := reachable_no_pieces hnone hr
    refine ⟨?_, fun _ _ => ?_, fun _ => ?_⟩
    · rw [hissued]
      intro req hreq
      cases hreq
    · refine all_done_iff.mpr ⟨by rw [hm]; rfl, fun i hi => ?_⟩
      rw [hm, hnone] at hi
      exact absurd hi (Nat.not_lt_zero i)
    · rw [hne, List.length_nil, slice_zero]
  · have hl : (t.metadata .LEECHER).mode = .LEECHER := rfl
    have hg := hcreated.consistent hne hF .LEECHER
    have hfit := hcreated.countFits hne hF .LEECHER
    have ho := hcreated.original .LEECHER
    have hseeds := seeding_make (m := t.metadata .SEEDER) rfl F
    have hS : ∀ i < (t.metadata .LEECHER).total_pieces, ∀ b < (t.metadata .LEECHER).block_count i,
        (make (t.metadata .SEEDER) (some F)).get_block i (block_offset b)
          = .ok ((t.metadata .LEECHER).block_of F i b) :=
      fun i hi b hb => hseeds.get_block (hcreated.consistent hne hF .SEEDER)
        (hcreated.original .SEEDER) hi hb
    have hs := reachable_sound hl hg hfit ho hS hr
    exact ⟨fun req hreq => hs.answered hl hg hfit ho hS hreq, hs.all_done hl hg hfit ho,
      hs.output hg ho⟩

/-- A digest that tells nothing. -/
def null_digest (_ : Bytes) : Digest := .zero

/-- The torrent file of a file of one byte. -/
def tiny_data : Text := ⟨create_torrent null_digest (ascii "f") (ascii "u") [7], by decide +kernel⟩

/-- What the parser reads of it. -/
def tiny_torrent : Torrent :=
  entries_effect torrent_effect 1 (created_torrent null_digest (ascii "f") (ascii "u") [7]) {}

theorem tiny_data_parsed : Parse.Yields (parse_torrent tiny_data) (.ok tiny_torrent) := by
  have htorrent : IsTorrent (created_torrent null_digest (ascii "f") (ascii "u") [7])
      (created_info null_digest (ascii "f") [7]) :=
    created_isTorrent (by decide) (by decide) (by decide)
  have hbytes := create_torrent_eq null_digest (ascii "f") (ascii "u") [7]
  have hparse : parse_torrent tiny_data (tiny_data.size + 1) = pure tiny_torrent :=
    parse_torrent_encode htorrent hbytes (Nat.lt_succ_self _)
  exact ⟨tiny_data.size + 1, congrArg ExceptT.run hparse⟩

/-- A session about it in which the block is asked for and answered. -/
theorem tiny_file_delivered : Parse.Yields (parse_torrent tiny_data) (.ok tiny_torrent) ∧
    ∃ s : Session, (system (sha1 null_digest) (make (tiny_torrent.metadata .SEEDER) (some [7]))
      (make (tiny_torrent.metadata .LEECHER) none)).Reachable s ∧
    s.issued = [⟨0, 0, 1⟩] ∧ s.ctl.all_done = true ∧ slice (s.ctl.file.getD []) 0 1 = [7] := by
  obtain ⟨s, hr, hs⟩ := System.Reachable.exists_of_run next_step
    (.init rfl : (system (sha1 null_digest) (make (tiny_torrent.metadata .SEEDER) (some [7]))
      (make (tiny_torrent.metadata .LEECHER) none)).Reachable _)
    [.next_request fun _ => true, .received_block ⟨0, 0, 1⟩]
    (P := fun s => s.ctl.all_done && s.issued == [⟨0, 0, 1⟩]) (by decide +kernel)
  simp only [Bool.and_eq_true, beq_iff_eq] at hs
  have hdata : tiny_data.bytes = create_torrent null_digest (ascii "f") (ascii "u") [7] := rfl
  have hdelivered := (file_delivered null_digest hdata (by decide)).2 tiny_torrent
    tiny_data_parsed none s hr
  exact ⟨tiny_data_parsed, s, hr, hs.2, hs.1, hdelivered.output hs.1⟩

end Session

end BitTorrentLite
