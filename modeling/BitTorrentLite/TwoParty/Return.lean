import BitTorrentLite.Leecher.Wakeup
import BitTorrentLite.TwoParty.Termination

/-! # The Leecher Returns

    An empty leecher and a seeder, alone with each other, together with the
    main thread of the leecher, which waits in `wait_until_done`. Unless it
    keeps waking up for no reason, the three come to an end in every order of
    their steps, and there the main thread has returned with the whole file.
-/

open Region LTS

namespace BitTorrentLite

open Controller

namespace Party

variable {sha1 : Bytes → Bytes} {p p' : Party}

/-! ## Notifying -/

theorem take_notifies {inp : Input} (h : p.take sha1 inp = some p')
    (hwas : p.ctl.wait_until_done = false) (hnow : p'.ctl.wait_until_done = true) :
    p.thread.pc.notifies sha1 p.ctl = true := by
  obtain ⟨⟨c', t'⟩, hadv, rfl⟩ := Option.map_eq_some_iff.mp h
  obtain ⟨r, hr, hok⟩ := Option.bind_eq_some_iff.mp hadv
  cases r with
  | error e => cases hok
  | ok r =>
    obtain rfl := Option.some.inj hok
    exact Thread.advance_notifies hr hwas hnow

/-- A step of the thread that completes the download notifies. -/
theorem turn_notifies {other_closed : Bool} {inbox outbox inbox' outbox' : List PeerMessage}
    {ev : Event} (h : p.turn sha1 other_closed inbox outbox ev = some (p', inbox', outbox'))
    (hev : ∀ op, ev ≠ .other op) (hwas : p.ctl.wait_until_done = false)
    (hnow : p'.ctl.wait_until_done = true) : p.thread.pc.notifies sha1 p.ctl = true := by
  cases ev with
  | call =>
    obtain ⟨q, hq, heq⟩ := Option.map_eq_some_iff.mp h
    cases heq
    exact take_notifies hq hwas hnow
  | send =>
    obtain ⟨q, hq, heq⟩ := Option.map_eq_some_iff.mp h
    cases heq
    exact take_notifies hq hwas hnow
  | recv =>
    cases inbox with
    | nil => cases h
    | cons msg rest =>
      obtain ⟨q, hq, heq⟩ := Option.map_eq_some_iff.mp h
      cases heq
      exact take_notifies hq hwas hnow
  | hangup =>
    change (if inbox.isEmpty && other_closed then
      (p.take sha1 (.recv none)).map fun p' => (p', inbox, outbox) else none) = _ at h
    split at h
    · obtain ⟨q, hq, heq⟩ := Option.map_eq_some_iff.mp h
      cases heq
      exact take_notifies hq hwas hnow
    · cases h
  | other op => exact absurd rfl (hev op)

end Party

namespace Duo

variable {sha1 : Bytes → Bytes} {m : Metadata} {disk : Option Bytes} {F : Bytes}

/-- The exchange, and the main thread of the leecher. -/
def waiting (sha1 : Bytes → Bytes) (m : Metadata) (disk : Option Bytes) (F : Bytes) :
    Monitor Duo Turn where
  sys := exchange_runs sha1 m disk F
  pred := fun d => d.A.ctl.wait_until_done
  notifies := fun d l => match l with
    | .A _ => d.A.thread.pc.notifies sha1 d.A.ctl
    | .B _ => false

theorem waiting_attentive : (waiting sha1 m disk F).Attentive := by
  intro d l d' _ hst hwas hnow
  obtain ⟨halone, hst⟩ := hst
  cases l with
  | A ev =>
    obtain ⟨⟨p, ba, ab⟩, hp, rfl⟩ := Option.map_eq_some_iff.mp hst
    apply Party.turn_notifies hp ?_ hwas hnow
    rintro op rfl
    exact halone
  | B ev =>
    obtain ⟨⟨p, ab, ba⟩, hp, rfl⟩ := Option.map_eq_some_iff.mp hst
    -- the seeder does not touch the leecher's controller
    exact absurd (hwas.symm.trans hnow) (by decide)

/-! ## The End -/

/-- The runs of the exchange and the main thread without spurious wake-ups. -/
abbrev waiting_runs (sha1 : Bytes → Bytes) (m : Metadata) (disk : Option Bytes) (F : Bytes) :
    System (Monitor.Watched Duo) (MonitorEvent Turn) :=
  (waiting sha1 m disk F).system.restrict Monitor.Caused

/-- What is left to do for the three. -/
def waiting_charge (x : Monitor.Watched Duo) : ℕ := 2 * x.state.charge + x.waiter.due

section runs

variable (hl : m.mode = .LEECHER) (hg : m.Consistent) (hfit : m.CountFits) (ho : m.Original sha1 F)

include hl hg hfit ho

theorem waiting_charged (x : Monitor.Watched Duo) (ev : MonitorEvent Turn)
    (x' : Monitor.Watched Duo) (hr : (waiting_runs sha1 m disk F).Reachable x)
    (hst : (waiting_runs sha1 m disk F).step x ev x') : waiting_charge x' < waiting_charge x :=
  Monitor.ranked charge (fun _ _ _ hs hst => charged hl hg hfit ho hs hst) hr hst

theorem waiting_length_le {ls : List (MonitorEvent Turn)} {x : Monitor.Watched Duo}
    (hp : (waiting_runs sha1 m disk F).Path ⟨exchange m disk F, .testing⟩ ls x) :
    ls.length ≤ 93 + 34 * ∑ i ∈ Finset.range m.total_pieces, m.block_count i := by
  have hlen := hp.length_le waiting_charge (waiting_charged hl hg hfit ho) (.init ⟨rfl, rfl⟩)
  have hstart : waiting_charge ⟨exchange m disk F, .testing⟩
      = 2 * (17 * (exchange m disk F).A.ctl.pool.card + 46) + 1 := by
    unfold waiting_charge
    rw [exchange_charge]
    rfl
  have hpool := pool_card_le (exchange m disk F).A.ctl
  change _ ≤ ∑ i ∈ Finset.range m.total_pieces, m.block_count i at hpool
  omega

/-- Where the three can do nothing more, the main thread has returned. -/
theorem waiting_end {x : Monitor.Watched Duo} (hr : (waiting_runs sha1 m disk F).Reachable x)
    (hstuck : (waiting_runs sha1 m disk F).Stuck x) :
    x.waiter = .returned ∧ x.state.A.closed = true ∧ x.state.B.closed = true ∧
      ∃ f, x.state.A.ctl.file = some f ∧ slice f 0 F.length = F := by
  have hd : (exchange_runs sha1 m disk F).Reachable x.state :=
    Monitor.reachable_state hr.of_restrict
  obtain ⟨hA, hB, hdone, hfile⟩ := exchange_end hl hg hfit ho hd (Monitor.stuck_iff.mp hstuck).1
  exact ⟨waiting_attentive.returned_of_stuck hr hstuck hdone, hA, hB, hfile⟩

end runs

/-- **The leecher returns**: an empty leecher, its main thread in
    `wait_until_done` and a seeder alone with it take no more steps than the
    size of the torrent allows, spurious wake-ups apart, in whatever order they
    move; and where no step is left, which every run comes to, `wait_until_done`
    has returned, both peer threads have closed the connection and the file
    begins with the original. -/
theorem leecher_returns (sha1 : Bytes → Bytes) {m : Metadata} {F : Bytes}
    (hl : m.mode = .LEECHER) (hg : m.Consistent) (hfit : m.CountFits) (ho : m.Original sha1 F)
    (disk : Option Bytes) {ls : List (MonitorEvent Turn)} {x : Monitor.Watched Duo}
    (hp : (waiting_runs sha1 m disk F).Path ⟨exchange m disk F, .testing⟩ ls x) :
    ls.length ≤ 93 + 34 * ∑ i ∈ Finset.range m.total_pieces, m.block_count i ∧
      (∃ ls' x', (waiting_runs sha1 m disk F).Path x ls' x' ∧
        (waiting_runs sha1 m disk F).Stuck x') ∧
      ((waiting_runs sha1 m disk F).Stuck x →
        x.waiter = .returned ∧ x.state.A.closed = true ∧ x.state.B.closed = true ∧
          ∃ f, x.state.A.ctl.file = some f ∧ slice f 0 F.length = F) := by
  have hr : (waiting_runs sha1 m disk F).Reachable x := hp.reachable (.init ⟨rfl, rfl⟩)
  refine ⟨waiting_length_le hl hg hfit ho hp, ?_, ?_⟩
  · exact System.exists_stuck waiting_charge (waiting_charged hl hg hfit ho) hr
  · intro hstuck
    exact waiting_end hl hg hfit ho hr hstuck

/-- With a file of two pieces. -/
theorem pair_leecher_returns : ∃ (ls : List (MonitorEvent Turn)) (x : Monitor.Watched Duo),
    ls.length ≤ 161 ∧ x.waiter = .returned ∧
      ∃ f, x.state.A.ctl.file = some f ∧ slice f 0 2 = [7, 8] := by
  have hcount : ∑ i ∈ Finset.range (Metadata.pair .LEECHER [7] [8]).total_pieces,
      (Metadata.pair .LEECHER [7] [8]).block_count i = 2 := by decide
  obtain ⟨-, ⟨ls, x, hp, hstuck⟩, -⟩ := leecher_returns id rfl (Metadata.pair_consistent _ _ _)
    (Metadata.pair_countFits _ _ _) Metadata.pair_original none (.nil _)
  obtain ⟨hlen, -, hend⟩ := leecher_returns id rfl (Metadata.pair_consistent _ _ _)
    (Metadata.pair_countFits _ _ _) Metadata.pair_original none hp
  obtain ⟨hw, -, -, f, hf, hslice⟩ := hend hstuck
  rw [hcount] at hlen
  exact ⟨ls, x, hlen, hw, f, hf, hslice⟩

end Duo

end BitTorrentLite
