import BitTorrentLite.Controller.FileSize
import BitTorrentLite.Network.Delivery
import BitTorrentLite.Transfer.Session
import BitTorrentLite.TwoParty.Termination

/-! # From the File to Its Copies

    `create_torrent` writes the torrent of a file, `parse_torrent` reads it, and
    the clients that are started with what it returned exchange the file. A
    leecher that starts without a file ends with exactly this one: in a network
    of any clients, once it is through with `wait_until_done`; alone with a
    seeder, in every run, after a bounded number of steps.
-/

open Machine Region Tiling LTS

namespace BitTorrentLite

open Controller

/-! ## The Size of the File over Runs -/

section moves

variable {sha1 : Bytes → Bytes} {F : Bytes} {c c' : Controller} {peer_id : ℕ}
  {st st' : PeerState} {pc pc' : PC} {inp : Input}

/-- Only `received_block` writes. -/
theorem Leeching.sized (hl : c.mode = .LEECHER) (hg : c.Consistent) (hfit : c.CountFits)
    (ho : c.Original sha1 F) (h : Leeching F peer_id c st pc)
    (hmove : Move sha1 c peer_id st pc inp c' st' pc') (hsized : c.Sized) : c'.Sized := by
  rcases hmove.received_or_undisturbed with ⟨x, off, data, done, rfl, hrec⟩ | hq
  · obtain ⟨-, -, i, hi, b, hb, rfl, rfl, rfl⟩ := h.point
    exact hsized.received hg hfit ho hl h.delivering.genuine hi hb hrec
  · exact hsized.undisturbed hq

end moves

namespace Duo

variable {sha1 : Bytes → Bytes} {F : Bytes} {m : Metadata} {A B : Party}
  {ab ba : List PeerMessage} {d : Duo}

theorem Linked.sized_A {p : Party} {ab' ba' : List PeerMessage} {ev : Event}
    (hl : m.mode = .LEECHER) (hg : m.Consistent) (hfit : m.CountFits) (ho : m.Original sha1 F)
    (hA : A.ctl.toMetadata = m) (hd : Linked F m ⟨A, B, ab, ba⟩)
    (halone : Alone ⟨A, B, ab, ba⟩ (.A ev)) (h : A.Turned sha1 B.closed ba ab ev p ba' ab')
    (hsized : A.ctl.Sized) : p.ctl.Sized := by
  subst hA
  cases h with
  | called _ _ c' t' hmove => exact hd.leecher.sized hl hg hfit ho hmove hsized
  | sent _ _ c' t' hmove => exact hd.leecher.sized hl hg hfit ho hmove hsized
  | received msg _ _ c' t' hmove => exact hd.leecher.sized hl hg hfit ho hmove hsized
  | hung_up _ c' t' _ hmove => exact hd.leecher.sized hl hg hfit ho hmove hsized
  | others => exact halone.elim

/-- A leecher that starts without a file. -/
theorem exchange_sized (hl : m.mode = .LEECHER) (hg : m.Consistent) (hfit : m.CountFits)
    (ho : m.Original sha1 F)
    (h : (exchange_runs sha1 m none F).Reachable d) : d.A.ctl.Sized := by
  refine System.invariant (I := fun d => d.A.ctl.Sized) ?_ ?_ d h
  · intro d hd
    obtain rfl : d = exchange m none F := hd
    intro f hf
    cases hf
  · intro d l d' hr hsized hst
    have hd := reachable_linked hl hg hfit ho hr
    obtain ⟨hA, -⟩ := reachable_toMetadata hr.of_restrict
    cases next_stepped hst.2 with
    | A ev p ab ba hturn => exact hd.sized_A hl hg hfit ho hA hst.1 hturn hsized
    | B => exact hsized

/-- The file where no step is left. -/
theorem exchange_end_file (hl : m.mode = .LEECHER) (hg : m.Consistent) (hfit : m.CountFits)
    (ho : m.Original sha1 F)
    (h : (exchange_runs sha1 m none F).Reachable d)
    (hstuck : (exchange_runs sha1 m none F).Stuck d) :
    d.A.closed = true ∧ d.B.closed = true ∧ d.A.ctl.file = some F := by
  obtain ⟨hA, hB, -, f, hf, hslice⟩ := exchange_end hl hg hfit ho h hstuck
  obtain ⟨hmeta, -⟩ : d.A.ctl.toMetadata = m ∧ d.B.ctl.toMetadata = m.seeder :=
    reachable_toMetadata h.of_restrict
  have heq := (exchange_sized hl hg hfit ho h).eq_original (hmeta ▸ ho) hf hslice
  rw [heq] at hf
  exact ⟨hA, hB, hf⟩

end Duo

/-- A client of a network. -/
theorem Swarm.Fair.sized {sha1 : Bytes → Bytes} {F : Bytes} {s s' : Swarm} {a : Action}
    (hm : s.ctl.Describes sha1 F) (h : s.Fair F) (hst : Stepped sha1 s a s')
    (hl : s.ctl.mode = .LEECHER) (hsized : s.ctl.Sized) : s'.ctl.Sized := by
  cases hst with
  | connected => exact hsized
  | moved id inp t t' c' ht hmove =>
    rcases hmove.received_or_undisturbed with ⟨x, off, data, done, hpc, hrec⟩ | hq
    · have hspeaks := h.speaks id t ht
      rw [hpc] at hspeaks
      obtain ⟨i, hi, b, hb, rfl, rfl, rfl⟩ := hspeaks
      exact hsized.received hm.consistent hm.fits hm.original hl (h.stocked.leecher hl).genuine hi hb
        hrec
    · exact hsized.undisturbed hq

section network

variable {ι : Type} [DecidableEq ι] {sha1 : Bytes → Bytes} {m : Metadata} {F : Bytes}
  {cs : Clients ι F} {n : Network ι Swarm ℕ PeerMessage}

theorem network_sized (hm : m.Describes sha1 F)
    (h : (Network.system (clients sha1 m cs)).Reachable n) {i : ι} (hl : cs.mode i = .LEECHER)
    (hdisk : cs.disk i = none) : (n.node i).ctl.Sized := by
  refine System.invariant (I := fun s => s.ctl.Sized) ?_ ?_ _ (network_alone hm h i)
  · intro s hs
    obtain rfl : s = Swarm.start _ _ := hs
    intro f hf
    change cs.disk i = some f at hf
    rw [hdisk] at hf
    cases hf
  · intro s a s' hr hsized hst
    have hmeta : s.ctl.toMetadata = m.playing (cs.mode i) :=
      Swarm.reachable_toMetadata hr.of_restrict
    have hm' : s.ctl.Describes sha1 F := hmeta ▸ hm.playing _
    have hl' : s.ctl.mode = .LEECHER := by
      rw [hmeta]
      exact hl
    exact hst.1.1.sized hm' (Swarm.next_stepped hst.2) hl' hsized

end network

/-! ## End to End -/

section torrent

variable {SHA1 : Bytes → Digest} {filename tracker_url F : Bytes} {data : Text} {t : Torrent}

/-- What `parse_torrent` returns of the torrent of a file describes the file. -/
theorem created_describes (hdata : data.bytes = create_torrent SHA1 filename tracker_url F)
    (hF : 20 * tile_count F.length standard_piece_length < 2 ^ 31) (hne : F ≠ [])
    (ht : Parse.Yields (parse_torrent data) (.ok t)) (mode : Mode) :
    (t.metadata mode).Describes (sha1 SHA1) F := by
  have hcreated := created_of_parsed hdata hF ht
  exact ⟨hcreated.consistent hne hF mode, hcreated.countFits hne hF mode, hcreated.original mode⟩

/-- A file of standard pieces has as many blocks as it holds 16 KiB. -/
theorem created_blocks (hdata : data.bytes = create_torrent SHA1 filename tracker_url F)
    (hF : 20 * tile_count F.length standard_piece_length < 2 ^ 31)
    (ht : Parse.Yields (parse_torrent data) (.ok t)) (mode : Mode) :
    ∑ i ∈ Finset.range (t.metadata mode).total_pieces, (t.metadata mode).block_count i
      = tile_count F.length 16384 := by
  have hcreated := created_of_parsed hdata hF ht
  have hcount : ∀ i, (t.metadata mode).block_count i
      = tile_count (tile_size F.length (2 * 16384) i) 16384 := by
    intro i
    show tile_count (tile_size t.length.toNat (int32 t.piece_length).toNat i) 16384 = _
    rw [hcreated.length, hcreated.metadata_piece_length]
    rfl
  have htotal : (t.metadata mode).total_pieces = tile_count F.length (2 * 16384) :=
    hcreated.total_pieces
  have hsum : ∑ i ∈ Finset.range (tile_count F.length (2 * 16384)),
      tile_count (tile_size F.length (2 * 16384) i) 16384 = tile_count F.length 16384 :=
    sum_tile_counts (by norm_num) (by norm_num)
  rw [htotal, ← hsum]
  exact Finset.sum_congr rfl fun i _ => hcount i

end torrent

/-- **From the file to its copies**: in a network of clients started with what
    `parse_torrent` returns of the torrent `create_torrent` writes of the file
    `F`, a leecher that starts without a file and is through with
    `wait_until_done` has the file `F`, no more and no less. -/
theorem torrent_network_delivers (SHA1 : Bytes → Digest) {filename tracker_url F : Bytes}
    {data : Text} (hdata : data.bytes = create_torrent SHA1 filename tracker_url F)
    (hF : 20 * tile_count F.length standard_piece_length < 2 ^ 31) (hne : F ≠ []) {t : Torrent}
    (ht : Parse.Yields (parse_torrent data) (.ok t)) {ι : Type} [DecidableEq ι]
    {cs : Clients ι F} {n : Network ι Swarm ℕ PeerMessage}
    (h : (Network.system (clients (sha1 SHA1) (t.metadata .LEECHER) cs)).Reachable n) {i : ι}
    (hl : cs.mode i = .LEECHER) (hdisk : cs.disk i = none)
    (hdone : (n.node i).ctl.wait_until_done = true) : (n.node i).ctl.file = some F := by
  have hm := created_describes hdata hF hne ht .LEECHER
  have hdesc := network_describes hm h i
  have hl' : (n.node i).ctl.mode = .LEECHER := by
    rw [network_toMetadata hm h i]
    exact hl
  obtain ⟨f, hf, hslice⟩ := (network_fair hm h i).file_eq hdesc hl' hdone
  have heq := (network_sized hm h hl hdisk).eq_original hdesc.original hf hslice
  rw [heq] at hf
  exact hf

/-- **A download that ends**: of the torrent of a file `F`, a leecher without a
    file and a seeder, alone with each other, take at most 46 steps and 17 for
    each 16 KiB of the file, in whatever order they move; every run comes to a
    state where no step is left, and there both have closed the connection and
    the leecher has the file `F`. -/
theorem torrent_exchange_delivers (SHA1 : Bytes → Digest) {filename tracker_url F : Bytes}
    {data : Text} (hdata : data.bytes = create_torrent SHA1 filename tracker_url F)
    (hF : 20 * tile_count F.length standard_piece_length < 2 ^ 31) (hne : F ≠ []) {t : Torrent}
    (ht : Parse.Yields (parse_torrent data) (.ok t)) {ls : List Turn} {d : Duo}
    (hp : (Duo.exchange_runs (sha1 SHA1) (t.metadata .LEECHER) none F).Path
      (Duo.exchange (t.metadata .LEECHER) none F) ls d) :
    ls.length ≤ 46 + 17 * tile_count F.length 16384 ∧
      (∃ ls' d', (Duo.exchange_runs (sha1 SHA1) (t.metadata .LEECHER) none F).Path d ls' d' ∧
        (Duo.exchange_runs (sha1 SHA1) (t.metadata .LEECHER) none F).Stuck d') ∧
      ((Duo.exchange_runs (sha1 SHA1) (t.metadata .LEECHER) none F).Stuck d →
        d.A.closed = true ∧ d.B.closed = true ∧ d.A.ctl.file = some F) := by
  obtain ⟨hg, hfit, ho⟩ := created_describes hdata hF hne ht .LEECHER
  have hr := Duo.exchange_reachable hp
  refine ⟨?_, Duo.exchange_ends rfl hg hfit ho hr, ?_⟩
  · have hlen := Duo.exchange_length_le rfl hg hfit ho hp
    rw [created_blocks hdata hF ht .LEECHER] at hlen
    exact hlen
  · intro hstuck
    exact Duo.exchange_end_file rfl hg hfit ho hr hstuck

/-! ### A File of One Byte -/

/-- The steps of the leecher and the seeder, once they have met. -/
def tiny_copies : List (NetEvent Bool ℕ Action) :=
  couple_greets ++ [leech (.recv (some ⟨.Bitfield, [128]⟩)), leech .call, leech .call, leech .call,
    leech .call, leech .call, leech (.recv (some ⟨.Unchoke, []⟩)), leech .call, leech (.sent true),
    seed (.recv (some (build_request 0 0 1))), seed .call, seed (.sent true), leech .call,
    leech .call, leech .call, leech (.recv (some (build_piece_msg 0 0 [7]))), leech .call]

/-- It is copied by the two clients of a network. -/
theorem tiny_torrent_network : ∃ n : Network Bool Swarm ℕ PeerMessage,
    (n.node true).ctl.file = some [7] := by
  have hdata : Session.tiny_data.bytes
      = create_torrent Session.null_digest (ascii "f") (ascii "u") [7] := rfl
  obtain ⟨n, hr, hdone⟩ := System.Reachable.exists_of_run Network.next_step
    (.init rfl : (Network.system (clients (sha1 Session.null_digest)
      (Session.tiny_torrent.metadata .LEECHER) (couple [7]))).Reachable _)
    tiny_copies (P := fun n => (n.node true).ctl.wait_until_done)
    (by decide +kernel)
  exact ⟨n, torrent_network_delivers Session.null_digest hdata (by decide) (by decide)
    Session.tiny_data_parsed hr rfl rfl hdone⟩

/-- And by two clients that are alone. -/
theorem tiny_torrent_exchange : ∃ (ls : List Turn) (d : Duo), ls.length ≤ 63 ∧
    d.A.closed = true ∧ d.B.closed = true ∧ d.A.ctl.file = some [7] := by
  have hdata : Session.tiny_data.bytes
      = create_torrent Session.null_digest (ascii "f") (ascii "u") [7] := rfl
  obtain ⟨-, ⟨ls, d, hp, hstuck⟩, -⟩ := torrent_exchange_delivers Session.null_digest hdata
    (by decide) (by decide) Session.tiny_data_parsed (.nil _)
  obtain ⟨hlen, -, hend⟩ := torrent_exchange_delivers Session.null_digest hdata
    (by decide) (by decide) Session.tiny_data_parsed hp
  exact ⟨ls, d, hlen, hend hstuck⟩

end BitTorrentLite
