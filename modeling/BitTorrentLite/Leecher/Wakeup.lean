import BitTorrentLite.LTS.Monitor
import BitTorrentLite.Controller.Integrity
import BitTorrentLite.Swarm.System
import BitTorrentLite.TwoParty.Leecher

/-! # Waiting for the Download

    The main thread of a leecher waits in `wait_until_done` for all pieces to
    be done, while the peer threads take their turns in any order. Only
    `received_block` calls `cv.notify_all`, and only where its loop over the
    statuses and `all_done` find nothing left; that is enough: the main thread
    is never blocked once the download is complete. When it has returned, the
    whole file is verified, and stays so whatever the peers go on to send.
-/

open Machine LTS

namespace BitTorrentLite

namespace Controller

/-! ## Notifying -/

/-- The end of `received_block` after a piece is done: it gets to
    `cv.notify_all` where no status is 0 or 2 and `all_done` holds. -/
def notified (c : Controller) : Bool :=
  ((List.range c.total_pieces).all fun i => !(c.piece_status i == 0 || c.piece_status i == 2))
    && c.all_done

/-- The call of `received_block` notifies. -/
def received_block_notifies (c : Controller) (sha1 : Bytes → Bytes) (piece_index block_offset : ℤ)
    (data : Bytes) : Bool :=
  match c.received_block sha1 piece_index block_offset data with
  | .ok (c', true) => c'.notified
  | _ => false

variable {sha1 : Bytes → Bytes} {c c' : Controller} {x off : ℤ} {data : Bytes} {i : ℕ}

theorem notified_of_wait_until_done (hl : c.mode = .LEECHER) (h : c.wait_until_done = true) :
    c.notified = true := by
  have hone := wait_until_done_iff.mp h
  unfold notified
  rw [Bool.and_eq_true]
  constructor
  · simp only [List.all_eq_true, List.mem_range]
    intro i hi
    simp [hone i hi]
  · apply all_done_iff.mpr
    refine ⟨hl, ?_⟩
    intro i hi
    simp [hone i hi]

/-- A block that completes the download is one that notifies. -/
theorem received_block_wakes {done : Bool}
    (hrec : c.received_block sha1 x off data = .ok (c', done)) (hwas : c.wait_until_done = false)
    (hnow : c'.wait_until_done = true) : c.received_block_notifies sha1 x off data = true := by
  unfold received_block_notifies
  rw [hrec]
  cases received_block_ok hrec with
  | rejected => exact absurd (hwas.symm.trans hnow) (by decide)
  | stored => exact absurd (hwas.symm.trans hnow) (by decide)
  | mismatch i _ hi _ _ _ _ =>
    -- the piece is not done now
    have hone := wait_until_done_iff.mp hnow i hi
    simp at hone
  | finished i _ _ hl _ _ _ => exact notified_of_wait_until_done hl hnow

/-! ## Verified Pieces Stay Verified -/

/-- A piece that is verified on the disk stays so, also when it is no longer
    marked done: only verified pieces are written. -/
theorem Stepped.verified (hg : c.Consistent) (hfit : c.CountFits) (h : c.Integrity sha1)
    (hstep : Stepped sha1 c c') (hi : i < c.total_pieces) (hv : c.Verified sha1 i) :
    c'.Verified sha1 i := by
  rcases hstep.received_or_undisturbed with ⟨x, off, data, done, hrec⟩ | hquiet
  · cases hrec with
    | rejected => exact hv
    | stored => exact hv
    | mismatch => exact hv
    | finished j _ hj _ hlen hcomp hhash =>
      have hg' : (c.store j off data).Consistent := hg
      have hplen := assembled_length (c := c.store j off data) hg hfit
        (blocksSized_store hg h.sized hj hlen) hj hcomp
      apply (verified_iff (c := Controller.write_to_disk (c.store j off data) j _) hg hi).mpr
      by_cases hij : j = i
      · subst hij
        exact onDisk_write_self hg' hj hplen
          (P := fun piece => sha1 piece = c.piece_hash.getD j []) hhash
      · exact onDisk_write_other hg' hij hplen ((verified_iff hg hi).mp hv)
  · unfold Verified
    rw [hquiet.file, hquiet.toMetadata]
    exact hv

end Controller

/-- The next step of a thread at this point of the loop notifies. -/
def PC.notifies (sha1 : Bytes → Bytes) (c : Controller) : PC → Bool
  | .received piece_index block_offset data =>
    c.received_block_notifies sha1 piece_index block_offset data
  | _ => false

variable {sha1 : Bytes → Bytes}

/-- A step of a thread that completes the download notifies. -/
theorem Thread.advance_notifies {c c' : Controller} {id : ℕ} {t t' : Thread} {inp : Input}
    (h : t.advance sha1 c id inp = some (.ok (c', t'))) (hwas : c.wait_until_done = false)
    (hnow : c'.wait_until_done = true) : t.pc.notifies sha1 c = true := by
  obtain ⟨i, hi, hnot⟩ : ∃ i < c.total_pieces, c.piece_status i ≠ 1 := by
    by_contra hall
    push Not at hall
    rw [Controller.wait_until_done_iff.mpr hall] at hwas
    cases hwas
  have hmove := advance_move h
  have hone := Controller.wait_until_done_iff.mp hnow i (hmove.toMetadata ▸ hi)
  rcases hmove.newly_done hone with hold | ⟨x, off, data, hpc⟩
  · exact absurd hold hnot
  · obtain ⟨st, pc⟩ := t
    obtain rfl : pc = .received x off data := hpc
    cases inp with
    | call =>
      obtain ⟨⟨d, done⟩, hrec, heq⟩ := map_ok (Option.some.inj h)
      cases heq
      exact Controller.received_block_wakes hrec hwas hnow
    | sent ok => cases h
    | recv msg => cases msg <;> cases h
    | shaken ok => cases h

namespace Swarm

/-! ## The Main Thread -/

/-- The client, and its main thread in `wait_until_done`. -/
def waiting (sha1 : Bytes → Bytes) (m : Metadata) (disk : Option Bytes) :
    Monitor Swarm Action where
  sys := system sha1 m disk
  pred := fun s => s.ctl.wait_until_done
  notifies := fun s a => match a with
    | .connect => false
    | .thread id _ => (s.threads id).any fun t => t.pc.notifies sha1 s.ctl

variable {m : Metadata} {disk : Option Bytes}

theorem waiting_attentive : (waiting sha1 m disk).Attentive := by
  intro s a s' _ hst hwas hnow
  obtain ⟨r, hr, hs'⟩ := Option.bind_eq_some_iff.mp hst
  cases a with
  | connect =>
    cases hr
    obtain rfl := Option.some.inj hs'
    -- a new peer changes no status
    exact absurd (hwas.symm.trans hnow) (by decide)
  | thread id inp =>
    obtain ⟨t, ht, hr⟩ := Option.bind_eq_some_iff.mp hr
    obtain ⟨r', hadv, rfl⟩ := Option.map_eq_some_iff.mp hr
    cases r' with
    | error e => cases hs'
    | ok r' =>
      obtain ⟨c', t'⟩ := r'
      obtain rfl := Option.some.inj hs'
      show (s.threads id).any _ = true
      rw [ht]
      exact Thread.advance_notifies hadv hwas hnow

/-- Between the steps of a leecher. -/
theorem reachable_integrity (hl : m.mode = .LEECHER) (hg : m.Consistent) (hfit : m.CountFits)
    {s : Swarm} (h : (system sha1 m disk).Reachable s) : s.ctl.Integrity sha1 := by
  have hboth : s.ctl.toMetadata = m ∧ s.ctl.Integrity sha1 := by
    refine controller_invariant (I := fun c => c.toMetadata = m ∧ c.Integrity sha1) ?_ ?_ h
    · exact ⟨rfl, Controller.integrity_make sha1 hl disk⟩
    · intro c c' hc hst
      exact ⟨hst.toMetadata.trans hc.1, hc.2.stepped (hc.1 ▸ hg) (hc.1 ▸ hfit) hst⟩
  exact hboth.2

/-- Whatever happens afterwards, a verified file stays verified. -/
theorem verified_stays (hl : m.mode = .LEECHER) (hg : m.Consistent) (hfit : m.CountFits)
    {s s' : Swarm} {ls : List Action} (h : (system sha1 m disk).Reachable s)
    (hp : (system sha1 m disk).Path s ls s')
    (hv : ∀ i < m.total_pieces, s.ctl.Verified sha1 i) :
    ∀ i < m.total_pieces, s'.ctl.Verified sha1 i := by
  induction hp with
  | nil => exact hv
  | cons hst _ ih =>
    apply ih (.step h hst)
    intro i hi
    have hmeta := reachable_toMetadata h
    exact (next_stepped hst).controller.verified (hmeta ▸ hg) (hmeta ▸ hfit)
      (reachable_integrity hl hg hfit h) (hmeta ▸ hi) (hv i hi)

/-- **The main thread of a leecher** in `wait_until_done`, under every
    interleaving of the peer threads and whatever the peers send: while it is
    blocked the download is not complete; when the download is complete, it has
    returned or is about to test, and a test returns as long as nothing is taken
    back; and once it has returned, every piece on the disk matches its hash,
    also after later steps of the peer threads. -/
theorem wait_until_done_wakes (sha1 : Bytes → Bytes) {m : Metadata} (hl : m.mode = .LEECHER)
    (hg : m.Consistent) (hfit : m.CountFits) (disk : Option Bytes) {x : Monitor.Watched Swarm}
    (h : (waiting sha1 m disk).system.Reachable x) :
    (x.waiter = .blocked → x.state.ctl.wait_until_done = false) ∧
      (x.state.ctl.wait_until_done = true → x.waiter = .returned ∨ (x.waiter = .testing ∧
        ∀ x', (waiting sha1 m disk).system.step x .test x' → x' = ⟨x.state, .returned⟩)) ∧
      (x.waiter = .returned → ∀ i < m.total_pieces, x.state.ctl.Verified sha1 i) := by
  refine ⟨waiting_attentive.blocked h, waiting_attentive.returns h, ?_⟩
  intro hw
  obtain ⟨s, ls, hs, hpred, hpath⟩ := Monitor.returned h hw
  apply verified_stays hl hg hfit hs hpath
  intro i hi
  have hmeta := reachable_toMetadata hs
  exact (reachable_integrity hl hg hfit hs).done i (hmeta ▸ hi)
    (Controller.wait_until_done_iff.mp hpred i (hmeta ▸ hi))

/-- The main thread is blocked while the last block of two arrives, and is told. -/
theorem pair_wait_wakes : ∃ x x' : Monitor.Watched Swarm, x.waiter = .blocked ∧
    x.state.ctl.wait_until_done = false ∧
    (waiting id (.pair .LEECHER [7] [8]) none).system.step x (.thread (.thread 0 .call)) x' ∧
    x'.state.ctl.wait_until_done = true ∧ x'.waiter = .testing := by
  obtain ⟨s, hr, hs⟩ := System.Reachable.exists_of_run next_step
    (.init rfl : (system id (.pair .LEECHER [7] [8]) none).Reachable _)
    (first_of_pair ++ [.thread 0 (.recv (some (build_piece_msg 1 0 [8])))])
    (P := fun s => !s.ctl.wait_until_done &&
      (s.next id (.thread 0 .call)).any fun s' => s'.ctl.wait_until_done) (by decide +kernel)
  obtain ⟨hwas, hs⟩ := (Bool.and_eq_true _ _).mp hs
  obtain ⟨s', hst, hnow⟩ := (Option.any_eq_true _ _).mp hs
  have hwas : s.ctl.wait_until_done = false := by simpa using hwas
  have hblocked : (waiting id (.pair .LEECHER [7] [8]) none).system.Reachable ⟨s, .blocked⟩ :=
    .step (Monitor.reachable_testing hr) (.failed s hwas)
  have hstep := Monitor.Stepped.thread (M := waiting id (.pair .LEECHER [7] [8]) none) s
    (.thread 0 .call) s' .blocked hst
  refine ⟨_, _, rfl, hwas, hstep, hnow, ?_⟩
  have hend := (wait_until_done_wakes id rfl (Metadata.pair_consistent _ _ _)
    (Metadata.pair_countFits _ _ _) none (.step hblocked hstep)).2.1 hnow
  rcases hend with hw | ⟨hw, -⟩
  · cases Waiter.returned_of_told (w := .blocked) hw
  · exact hw

end Swarm

end BitTorrentLite
