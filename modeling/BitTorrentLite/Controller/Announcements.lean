import BitTorrentLite.Controller.System
import BitTorrentLite.Peer.Bitfield

/-! # No Announcement Is Lost

    Peer threads register, take the bitfield, drain their Have queue again and
    again and unregister, while any of them completes pieces. A log of the
    completions, and for each thread where in the log it registered, the
    bitfield it took and what it drained, are recorded beside the controller;
    no method reads them.

    What a thread has drained and what is still queued for it is the part of
    the log since it registered. Registration comes before the bitfield, so a
    piece that is done is in the bitfield or in that part.
-/

open Machine LTS

namespace BitTorrentLite

open Controller

/-! ## Recorded Runs -/

/-- What is recorded of a registered thread. -/
structure Registration where
  peer_id : ℕ
  /-- The number of completions before it registered. -/
  since : ℕ
  /-- The bitfield it took, once it has. -/
  bitfield : Option Bytes
  /-- All it has drained so far, in order. -/
  drained : List ℤ

/-- A peer thread, by what it does with the announcements. -/
inductive Announcee where
  | idle
  | registered (r : Registration)
  | unregistered

/-- The controller and the threads, with the completions so far. -/
structure Announcements where
  ctl : Controller
  log : List ℤ
  threads : ℕ → Announcee

namespace Announcements

/-- The calls of the threads, by the number of the thread. -/
inductive Call where
  | register_peer (t : ℕ)
  | get_bitfield (t : ℕ)
  | drain_haves (t : ℕ)
  | unregister_peer (t : ℕ)
  | received_block (piece_index block_offset : ℤ) (data : Bytes)
  | next_request (bit_field : ℕ → Bool)
  | release_in_flight (piece_index block_offset : ℤ)
  | clear_status (piece_index : ℤ)

/-- Thread `t` goes on as `a`. -/
def update (s : Announcements) (c : Controller) (t : ℕ) (a : Announcee) : Announcements :=
  ⟨c, s.log, Function.update s.threads t a⟩

/-- The state after a call, if the thread makes it at this point. -/
def next (sha1 : Bytes → Bytes) (s : Announcements) : Call → Option Announcements
  | .register_peer t =>
    match s.threads t with
    | .idle =>
      let (c, id) := s.ctl.register_peer
      some (s.update c t (.registered ⟨id, s.log.length, none, []⟩))
    | _ => none
  | .get_bitfield t =>
    match s.threads t with
    | .registered ⟨id, since, none, drained⟩ =>
      some (s.update s.ctl t (.registered ⟨id, since, some s.ctl.get_bitfield, drained⟩))
    | _ => none
  | .drain_haves t =>
    match s.threads t with
    | .registered ⟨id, since, some bf, drained⟩ =>
      let (c, haves) := s.ctl.drain_haves id
      some (s.update c t (.registered ⟨id, since, some bf, drained ++ haves⟩))
    | _ => none
  | .unregister_peer t =>
    match s.threads t with
    | .registered r => some (s.update (s.ctl.unregister_peer r.peer_id) t .unregistered)
    | _ => none
  | .received_block x off data => do
    let (c, done) ← (s.ctl.received_block sha1 x off data).toOption
    -- `received_block` returns true when it has set `piece_status[x]` to 1
    return ⟨c, if done then s.log ++ [x] else s.log, s.threads⟩
  | .next_request bf => some { s with ctl := (s.ctl.next_request bf).1 }
  | .release_in_flight x off => do
    let c ← (s.ctl.release_in_flight x off).toOption
    return { s with ctl := c }
  | .clear_status x => do
    let c ← (s.ctl.clear_status x).toOption
    return { s with ctl := c }

/-- The runs of any number of threads on one controller. -/
def system (sha1 : Bytes → Bytes) (m : Metadata) (disk : Option Bytes) :
    System Announcements Call where
  init := fun s => s = ⟨make m disk, [], fun _ => .idle⟩
  step := fun s call s' => s.next sha1 call = some s'

/-! ### What a Call Can Do -/

/-- One step: every call of a thread on its own queue, a completed piece, or a
    call that touches neither queues nor log and finishes no piece. -/
inductive Stepped (sha1 : Bytes → Bytes) (s : Announcements) : Announcements → Prop where
  | registered (t : ℕ) : s.threads t = .idle →
      Stepped sha1 s (s.update s.ctl.register_peer.1 t
        (.registered ⟨s.ctl.crnt_peer, s.log.length, none, []⟩))
  | opened (t id since : ℕ) (drained : List ℤ) :
      s.threads t = .registered ⟨id, since, none, drained⟩ →
      Stepped sha1 s (s.update s.ctl t
        (.registered ⟨id, since, some s.ctl.get_bitfield, drained⟩))
  | drained (t id since : ℕ) (bf : Bytes) (drained : List ℤ) :
      s.threads t = .registered ⟨id, since, some bf, drained⟩ →
      Stepped sha1 s (s.update (s.ctl.drain_haves id).1 t
        (.registered ⟨id, since, some bf, drained ++ (s.ctl.send_haves id).getD []⟩))
  | unregistered (t : ℕ) (r : Registration) : s.threads t = .registered r →
      Stepped sha1 s (s.update (s.ctl.unregister_peer r.peer_id) t .unregistered)
  | completed (i : ℕ) (c : Controller) : i < s.ctl.total_pieces →
      c.toMetadata = s.ctl.toMetadata → c.crnt_peer = s.ctl.crnt_peer →
      c.send_haves = (fun id => (s.ctl.send_haves id).map (· ++ [(i : ℤ)])) →
      (∀ j, j ≠ i → c.piece_status j = s.ctl.piece_status j) →
      Stepped sha1 s ⟨c, s.log ++ [(i : ℤ)], s.threads⟩
  | quiet (c : Controller) : c.toMetadata = s.ctl.toMetadata → c.crnt_peer = s.ctl.crnt_peer →
      c.send_haves = s.ctl.send_haves →
      (∀ j, c.piece_status j = 1 → s.ctl.piece_status j = 1) →
      Stepped sha1 s { s with ctl := c }

variable {sha1 : Bytes → Bytes} {m : Metadata} {disk : Option Bytes} {s s' : Announcements}

/-- A block that does not finish a piece is quiet, one that does is announced. -/
theorem stepped_received {x off : ℤ} {data : Bytes} {c : Controller} {done : Bool}
    (h : Received s.ctl sha1 x off data c done) :
    Stepped sha1 s ⟨c, if done then s.log ++ [x] else s.log, s.threads⟩ := by
  cases h with
  | rejected => exact .quiet s.ctl rfl rfl rfl fun _ hj => hj
  | stored i => exact .quiet _ rfl rfl rfl fun _ hj => hj
  | mismatch i =>
    have hdone (j : ℕ) (hj : ((s.ctl.store i off data).settle i 0).piece_status j = 1) :
        s.ctl.piece_status j = 1 := done_of_update (by decide) hj
    exact .quiet _ rfl rfl rfl hdone
  | finished i hx hi =>
    subst hx
    refine .completed i _ hi rfl rfl rfl fun j hj => ?_
    simp only [announce_piece_status, settle_piece_status, write_to_disk_piece_status,
      store_piece_status, Function.update_of_ne hj]

theorem next_stepped {call : Call} (h : s.next sha1 call = some s') : Stepped sha1 s s' := by
  cases call with
  | register_peer t =>
    simp only [next] at h
    split at h
    · rename_i ht
      obtain rfl := Option.some.inj h
      exact .registered t ht
    · cases h
  | get_bitfield t =>
    simp only [next] at h
    split at h
    · rename_i id since drained ht
      obtain rfl := Option.some.inj h
      exact .opened t id since drained ht
    · cases h
  | drain_haves t =>
    simp only [next] at h
    split at h
    · rename_i id since bf drained ht
      obtain rfl := Option.some.inj h
      exact .drained t id since bf drained ht
    · cases h
  | unregister_peer t =>
    simp only [next] at h
    split at h
    · rename_i r ht
      obtain rfl := Option.some.inj h
      exact .unregistered t r ht
    · cases h
  | received_block x off data =>
    obtain ⟨⟨c, done⟩, hc, h⟩ := Option.bind_eq_some_iff.mp h
    obtain rfl := Option.some.inj h
    exact stepped_received (received_block_ok (toOption_some hc))
  | next_request bf =>
    obtain rfl := Option.some.inj h
    rcases next_request_cases s.ctl bf with ⟨hreq, -⟩ | ⟨i, off, -, -, -, hreq⟩
    · rw [hreq]
      exact .quiet s.ctl rfl rfl rfl fun _ hj => hj
    · rw [hreq]
      exact .quiet _ rfl rfl rfl fun _ hj => done_of_update (by decide) hj
  | release_in_flight x off =>
    obtain ⟨c, hc, h⟩ := Option.bind_eq_some_iff.mp h
    obtain rfl := Option.some.inj h
    obtain ⟨i, -, -, rfl⟩ := release_in_flight_ok (toOption_some hc)
    exact .quiet _ rfl rfl rfl fun _ hj => hj
  | clear_status x =>
    obtain ⟨c, hc, h⟩ := Option.bind_eq_some_iff.mp h
    obtain rfl := Option.some.inj h
    obtain ⟨i, -, -, rfl⟩ := clear_status_ok (toOption_some hc)
    exact .quiet _ rfl rfl rfl fun _ hj => done_of_update (by decide) hj

/-- A computed call is a step. -/
theorem next_step (s : Announcements) (call : Call) (s' : Announcements)
    (h : s.next sha1 call = some s') : (system sha1 m disk).step s call s' := h

/-! ## The Invariant -/

/-- What holds of a registered thread: nothing is missing between the log and
    what it has drained or will drain. -/
structure Informed (s : Announcements) (r : Registration) : Prop where
  since : r.since ≤ s.log.length
  id : r.peer_id < s.ctl.crnt_peer
  /-- What it has drained and what is queued for it, in order, is the part of
      the log since it registered. -/
  queue : ∃ q, s.ctl.send_haves r.peer_id = some q ∧ r.drained ++ q = s.log.drop r.since
  /-- A piece that is done is in the bitfield it took, or in that part. -/
  pieces : ∀ bf, r.bitfield = some bf → ∀ i < s.ctl.total_pieces, s.ctl.piece_status i = 1 →
    bit_at bf i = true ∨ (i : ℤ) ∈ s.log.drop r.since

/-- Every registered thread is informed, and no two threads share a peer id. -/
structure AllInformed (s : Announcements) : Prop where
  informed : ∀ t r, s.threads t = .registered r → s.Informed r
  distinct : ∀ t t' r r', s.threads t = .registered r → s.threads t' = .registered r' →
    r.peer_id = r'.peer_id → t = t'

/-- The threads after thread `t` went on: itself, or another one as it was. -/
theorem update_threads {c : Controller} {t t' : ℕ} {a : Announcee} {r : Registration}
    (h : (s.update c t a).threads t' = .registered r) :
    (t' = t ∧ a = .registered r) ∨ (t' ≠ t ∧ s.threads t' = .registered r) := by
  by_cases ht : t' = t
  · subst ht
    exact .inl ⟨rfl, (Function.update_self ..).symm.trans h⟩
  · exact .inr ⟨ht, (Function.update_of_ne ht ..).symm.trans h⟩

/-- A thread that keeps its peer id, or gives it up, shares it with no other. -/
theorem AllInformed.distinct_update (h : s.AllInformed) {c : Controller} {t : ℕ} {a : Announcee}
    (ha : ∀ r, a = .registered r → ∃ r₀, s.threads t = .registered r₀ ∧ r₀.peer_id = r.peer_id) :
    ∀ t₁ t₂ r₁ r₂, (s.update c t a).threads t₁ = .registered r₁ →
      (s.update c t a).threads t₂ = .registered r₂ → r₁.peer_id = r₂.peer_id → t₁ = t₂ := by
  have hold : ∀ t' r, (s.update c t a).threads t' = .registered r →
      ∃ r₀, s.threads t' = .registered r₀ ∧ r₀.peer_id = r.peer_id := by
    intro t' r ht'
    rcases update_threads ht' with ⟨rfl, hr⟩ | ⟨-, hr⟩
    · exact ha r hr
    · exact ⟨r, hr, rfl⟩
  intro t₁ t₂ r₁ r₂ h₁ h₂ hid
  obtain ⟨o₁, ho₁, hid₁⟩ := hold t₁ r₁ h₁
  obtain ⟨o₂, ho₂, hid₂⟩ := hold t₂ r₂ h₂
  exact h.distinct t₁ t₂ o₁ o₂ ho₁ ho₂ (hid₁.trans (hid.trans hid₂.symm))

/-- A thread stays informed where a call leaves its queue and the log alone,
    and finishes no piece. -/
theorem Informed.frame {r : Registration} (h : s.Informed r) (hlog : s'.log = s.log)
    (hmeta : s'.ctl.toMetadata = s.ctl.toMetadata) (hcrnt : s.ctl.crnt_peer ≤ s'.ctl.crnt_peer)
    (hqueue : s'.ctl.send_haves r.peer_id = s.ctl.send_haves r.peer_id)
    (hstatus : ∀ i, s'.ctl.piece_status i = 1 → s.ctl.piece_status i = 1) : s'.Informed r where
  since := by
    rw [hlog]
    exact h.since
  id := h.id.trans_le hcrnt
  queue := by
    rw [hlog, hqueue]
    exact h.queue
  pieces := by
    intro bf hbf i hi hst
    rw [hmeta] at hi
    rw [hlog]
    exact h.pieces bf hbf i hi (hstatus i hst)

/-- A piece that is finished is queued for every registered thread. -/
theorem Informed.completed {r : Registration} (h : s.Informed r) {i : ℕ} {c : Controller}
    (hmeta : c.toMetadata = s.ctl.toMetadata) (hcrnt : c.crnt_peer = s.ctl.crnt_peer)
    (hhaves : c.send_haves = fun id => (s.ctl.send_haves id).map (· ++ [(i : ℤ)]))
    (hstatus : ∀ j, j ≠ i → c.piece_status j = s.ctl.piece_status j) :
    Informed ⟨c, s.log ++ [(i : ℤ)], s.threads⟩ r := by
  obtain ⟨hsince, hid, ⟨q, hq, hlog⟩, hpieces⟩ := h
  have hdrop : (s.log ++ [(i : ℤ)]).drop r.since = s.log.drop r.since ++ [(i : ℤ)] :=
    List.drop_append_of_le_length hsince
  refine ⟨by simp; omega, by rw [hcrnt]; exact hid, ⟨q ++ [(i : ℤ)], ?_, ?_⟩,
    fun bf hbf j hj hst => ?_⟩
  · rw [hhaves]
    simp only [hq, Option.map_some]
  · rw [hdrop, ← hlog, List.append_assoc]
  · -- the new completion is queued; the others were there before
    rw [hdrop, List.mem_append]
    by_cases hji : j = i
    · exact .inr (.inr (by rw [hji]; exact List.mem_singleton_self _))
    · rw [hmeta] at hj
      rcases hpieces bf hbf j hj ((hstatus j hji).symm.trans hst) with hbit | hmem
      · exact .inl hbit
      · exact .inr (.inl hmem)

/-- A new thread has an empty queue, and nothing has been finished since. -/
theorem AllInformed.registered (h : s.AllInformed) (t : ℕ) :
    (s.update s.ctl.register_peer.1 t
      (.registered ⟨s.ctl.crnt_peer, s.log.length, none, []⟩)).AllInformed := by
  refine ⟨fun t' r hr => ?_, ?_⟩
  · rcases update_threads hr with ⟨rfl, heq⟩ | ⟨-, hr⟩
    · obtain rfl := Announcee.registered.inj heq
      exact ⟨le_rfl, Nat.lt_succ_self _, ⟨[], Function.update_self .., by simp [update]⟩,
        fun bf hbf => nomatch hbf⟩
    · have hold := h.informed t' r hr
      exact hold.frame rfl rfl (Nat.le_succ _)
        (Function.update_of_ne (Nat.ne_of_lt hold.id) ..) fun _ hst => hst
  · -- the new id is above all the others
    have hnew : ∀ t' r, t' ≠ t → s.threads t' = .registered r → r.peer_id ≠ s.ctl.crnt_peer :=
      fun t' r _ hr => Nat.ne_of_lt (h.informed t' r hr).id
    intro t₁ t₂ r₁ r₂ h₁ h₂ hid
    rcases update_threads h₁ with ⟨rfl, heq₁⟩ | ⟨hne₁, hr₁⟩ <;>
      rcases update_threads h₂ with ⟨rfl, heq₂⟩ | ⟨hne₂, hr₂⟩
    · rfl
    · obtain rfl := Announcee.registered.inj heq₁
      exact absurd hid.symm (hnew t₂ r₂ hne₂ hr₂)
    · obtain rfl := Announcee.registered.inj heq₂
      exact absurd hid (hnew t₁ r₁ hne₁ hr₁)
    · exact h.distinct t₁ t₂ r₁ r₂ hr₁ hr₂ hid

/-- A thread that goes on, with its own queue changed at most. -/
theorem AllInformed.updated (h : s.AllInformed) {t : ℕ} {r₀ : Registration} {a : Announcee}
    {c : Controller} (ht : s.threads t = .registered r₀)
    (hsame : ∀ r, a = .registered r → r.peer_id = r₀.peer_id)
    (hmine : ∀ r, a = .registered r → (s.update c t a).Informed r)
    (hmeta : c.toMetadata = s.ctl.toMetadata) (hcrnt : c.crnt_peer = s.ctl.crnt_peer)
    (hqueues : ∀ id, id ≠ r₀.peer_id → c.send_haves id = s.ctl.send_haves id)
    (hstatus : c.piece_status = s.ctl.piece_status) : (s.update c t a).AllInformed := by
  refine ⟨fun t' r hr => ?_, h.distinct_update fun r hr => ⟨r₀, ht, (hsame r hr).symm⟩⟩
  rcases update_threads hr with ⟨rfl, heq⟩ | ⟨hne, hr⟩
  · exact hmine r heq
  · have hother : r.peer_id ≠ r₀.peer_id := fun heq => hne (h.distinct t' t r r₀ hr ht heq)
    exact (h.informed t' r hr).frame rfl hmeta hcrnt.ge (hqueues _ hother)
      fun i hst => by rw [← hstatus]; exact hst

/-- **Step lemma**: every call keeps the threads informed. -/
theorem AllInformed.stepped (h : s.AllInformed) (hst : Stepped sha1 s s') : s'.AllInformed := by
  cases hst with
  | registered t => exact h.registered t
  | opened t id since drained ht =>
    refine h.updated ht (fun r hr => ?_) (fun r hr => ?_) rfl rfl (fun _ _ => rfl) rfl
    · obtain rfl := Announcee.registered.inj hr
      rfl
    · -- the pieces that are done are those of the bitfield
      obtain rfl := Announcee.registered.inj hr
      have hold := h.informed t _ ht
      refine ⟨hold.since, hold.id, hold.queue, fun bf hbf i hi hst => .inl ?_⟩
      obtain rfl := Option.some.inj hbf
      have hst : s.ctl.piece_status i = 1 := hst
      rw [bit_at_get_bitfield s.ctl hi, hst]
      rfl
  | drained t id since bf drained ht =>
    refine h.updated ht (fun r hr => ?_) (fun r hr => ?_) rfl rfl
      (fun _ hne => Function.update_of_ne hne ..) rfl
    · obtain rfl := Announcee.registered.inj hr
      rfl
    · -- what was queued is now drained
      obtain rfl := Announcee.registered.inj hr
      have hold := h.informed t _ ht
      obtain ⟨q, hq, hlog⟩ := hold.queue
      have hq : s.ctl.send_haves id = some q := hq
      refine ⟨hold.since, hold.id, ⟨[], Function.update_self .., ?_⟩, hold.pieces⟩
      rw [hq, Option.getD_some, List.append_nil]
      exact hlog
  | unregistered t r₀ ht =>
    exact h.updated ht (fun r hr => nomatch hr) (fun r hr => nomatch hr) rfl rfl
      (fun _ hne => Function.update_of_ne hne ..) rfl
  | completed i c hi hmeta hcrnt hhaves hstatus =>
    exact ⟨fun t r hr => (h.informed t r hr).completed hmeta hcrnt hhaves hstatus, h.distinct⟩
  | quiet c hmeta hcrnt hhaves hstatus =>
    exact ⟨fun t r hr => (h.informed t r hr).frame rfl hmeta hcrnt.ge (congrFun hhaves _) hstatus,
      h.distinct⟩

/-- **Run lemma**: they are informed in every reachable state. -/
theorem reachable_allInformed (h : (system sha1 m disk).Reachable s) : s.AllInformed := by
  refine System.invariant (I := AllInformed) ?_ ?_ s h
  · rintro s rfl
    exact ⟨fun t r hr => (nomatch hr), fun t t' r r' hr => (nomatch hr)⟩
  · intro s call s' _ hs hst
    exact hs.stepped (next_stepped hst)

/-- **No announcement is lost**: what a registered thread has drained and what
    is queued for it are the pieces completed since it registered, in order; and
    a piece that is done is in the bitfield it took or among these. -/
theorem no_lost_announcement (h : (system sha1 m disk).Reachable s) {t : ℕ} {r : Registration}
    (ht : s.threads t = .registered r) :
    ∃ q, s.ctl.send_haves r.peer_id = some q ∧ r.drained ++ q = s.log.drop r.since ∧
      ∀ bf, r.bitfield = some bf → ∀ i < s.ctl.total_pieces, s.ctl.piece_status i = 1 →
        bit_at bf i = true ∨ (i : ℤ) ∈ r.drained ++ q := by
  obtain ⟨-, -, ⟨q, hq, hlog⟩, hpieces⟩ := (reachable_allInformed h).informed t r ht
  exact ⟨q, hq, hlog, by rw [hlog]; exact hpieces⟩

/-- Two threads of a leecher of a one-byte file: the first one drains the Have
    of the piece, the second one, which registers later, has it in its bitfield. -/
theorem tiny_announced : ∃ (s : Announcements) (r r' : Registration),
    (system id (.tiny .LEECHER [7]) none).Reachable s ∧ s.ctl.piece_status 0 = 1 ∧
    s.threads 0 = .registered r ∧ r.drained = [0] ∧
    s.threads 1 = .registered r' ∧ r'.drained = [] ∧ r'.bitfield = some [128] ∧
    ∃ q, r.drained ++ q = s.log.drop r.since := by
  obtain ⟨s, hr, hs⟩ := System.Reachable.exists_of_run next_step
    (.init rfl : (system id (.tiny .LEECHER [7]) none).Reachable _)
    [.register_peer 0, .get_bitfield 0, .received_block 0 0 [7], .register_peer 1,
      .get_bitfield 1, .drain_haves 0, .drain_haves 1]
    (P := fun s => s.ctl.piece_status 0 == 1 &&
      (match s.threads 0, s.threads 1 with
        | .registered r, .registered r' =>
          r.drained == [0] && r'.drained == [] && r'.bitfield == some [128]
        | _, _ => false)) (by decide +kernel)
  simp only [Bool.and_eq_true, beq_iff_eq] at hs
  obtain ⟨hst, hs⟩ := hs
  split at hs
  · rename_i r r' h₀ h₁
    simp only [Bool.and_eq_true, beq_iff_eq] at hs
    obtain ⟨q, -, hq, -⟩ := no_lost_announcement hr h₀
    exact ⟨s, r, r', hr, hst, h₀, hs.1.1, h₁, hs.1.2, hs.2, q, hq⟩
  · cases hs

end Announcements

end BitTorrentLite
