import BitTorrentLite.TwoParty.Leecher
import BitTorrentLite.TwoParty.Seeder

/-! # Deadlock Freedom

    An empty leecher A and a seeder B of the original file, alone with each
    other. When nothing is on its way and both threads rest, the leecher has
    everything: it is interested, so the seeder has unchoked it; nothing is
    pending, so nothing is in flight; and the last Unchoke or Piece it handled
    left no block to ask for, although it knows that the seeder has them all.
-/

open Machine LTS

namespace BitTorrentLite

open Controller

/-- The seeder's side of a torrent. -/
def Metadata.seeder (m : Metadata) : Metadata := { m with mode := .SEEDER }

theorem Metadata.Consistent.seeder {m : Metadata} (hg : m.Consistent) : m.seeder.Consistent :=
  ⟨hg.piece_length_pos, hg.piece_length_int, hg.length_pos, hg.length_int64, hg.pieces_int,
    hg.pieces, hg.hashes⟩

section moves

variable {sha1 : Bytes → Bytes} {c c' : Controller} {peer_id : ℕ} {st st' : PeerState}
  {pc pc' : PC} {inp : Input}

/-- Only a message changes what a thread knows of its peer. -/
theorem Move.hears_nothing (h : Move sha1 c peer_id st pc inp c' st' pc')
    (hinp : ∀ msg, inp ≠ .recv (some msg)) :
    st'.peer_bitfield = st.peer_bitfield ∧ st'.peer_choking = st.peer_choking := by
  cases h
  case request_sent hst' => exact hst' ▸ ⟨rfl, rfl⟩
  all_goals first
    | exact ⟨rfl, rfl⟩
    | exact absurd rfl (hinp _)

/-- What a message of a seeder changes. -/
theorem Arrives.heard {F : Bytes} {msg : PeerMessage} (harr : Arrives c.toMetadata F st msg)
    (h : Move sha1 c peer_id st pc (.recv (some msg)) c' st' pc') :
    (msg.id = .Bitfield ∧ c.Full st'.peer_bitfield ∧ st'.peer_choking = st.peer_choking) ∨
      (msg.id = .Unchoke ∧ st'.peer_bitfield = st.peer_bitfield ∧ st'.peer_choking = false) ∨
      (msg.id = .Piece ∧ st'.peer_bitfield = st.peer_bitfield ∧
        st'.peer_choking = st.peer_choking) := by
  have hsent := harr.sent
  cases h
  case ignored hign =>
    rcases msg with ⟨mid, p⟩
    cases mid with
    | Piece => exact .inr (.inr ⟨rfl, rfl, rfl⟩)
    | Bitfield => exact hign.elim
    | Unchoke => exact hign.elim
    | _ => exact hsent.elim
  case got_unchoke => exact .inr (.inl ⟨rfl, rfl, rfl⟩)
  case got_bitfield => exact .inl ⟨rfl, hsent _, rfl⟩
  case got_piece => exact .inr (.inr ⟨rfl, rfl, rfl⟩)
  all_goals exact hsent.elim

/-- A thread that has ended takes no step. -/
theorem Move.not_closed (h : Move sha1 c peer_id st pc inp c' st' pc') : pc ≠ .closed := by
  cases h <;> exact PC.noConfusion

end moves

/-! ## The Invariant -/

namespace Duo

/-- How far the seeder's Bitfield has come: it is read, or it is the first
    message on its way, or still to be sent. -/
inductive Introduced (m : Metadata) (d : Duo) : Prop where
  | read : m.Full d.A.thread.state.peer_bitfield → (∀ msg ∈ d.ba, msg.id ≠ .Bitfield) →
      ¬ d.B.thread.pc.Opening → Introduced m d
  | on_the_way (bf : PeerMessage) (rest : List PeerMessage) :
      d.A.thread.state.peer_choking = true → d.ba = bf :: rest → bf.id = .Bitfield →
      (∀ msg ∈ rest, msg.id ≠ .Bitfield) → ¬ d.B.thread.pc.Opening → Introduced m d
  | to_be_sent : d.A.thread.state.peer_choking = true → d.ba = [] →
      d.B.thread.pc.Opening → Introduced m d

/-- What links the two sides, between any two steps. -/
structure Linked (F : Bytes) (m : Metadata) (d : Duo) : Prop where
  leecher : Leeching F d.A.id d.A.ctl d.A.thread.state d.A.thread.pc
  seeder : Serving F d.B.id d.B.ctl d.B.thread.state d.B.thread.pc
  from_leecher : ∀ msg ∈ d.ab, FromLeecher m msg
  from_seeder : ∀ msg ∈ d.ba, FromSeeder m F msg
  introduced : d.Introduced m
  /-- Once the seeder does not choke, the leecher is told. -/
  unchoked : d.B.thread.state.am_choking = false → d.B.thread.pc = .send_unchoke ∨
    (∃ msg ∈ d.ba, msg.id = .Unchoke) ∨ d.A.thread.state.peer_choking = false
  /-- Before that, nothing is asked and nothing answered. -/
  not_asked : d.A.thread.state.peer_choking = true → (∀ msg ∈ d.ab, msg.id ≠ .Request) ∧
    d.B.thread.state.incoming_requests = [] ∧ ∀ msg ∈ d.ba, msg.id ≠ .Piece
  /-- The leecher leaves first. -/
  left : d.B.thread.pc.Left → d.A.thread.pc = .closed

variable {sha1 : Bytes → Bytes} {F : Bytes} {m : Metadata} {A B : Party}
  {ab ba : List PeerMessage}

/-- The next message reaches the leecher as a seeder's. -/
theorem Linked.arrives {msg : PeerMessage} (hA : A.ctl.toMetadata = m)
    (hd : Linked F m ⟨A, B, ab, msg :: ba⟩) :
    Arrives A.ctl.toMetadata F A.thread.state msg where
  sent := by
    rw [hA]
    exact hd.from_seeder msg (List.mem_cons_self ..)
  -- the Bitfield is the first message the seeder sends, and the only one of its kind
  early := by
    intro hid
    cases hd.introduced with
    | read _ hnone _ => exact absurd hid (hnone msg (List.mem_cons_self ..))
    | on_the_way _ _ hchoking _ _ _ _ => exact hchoking
    | to_be_sent hchoking _ _ => exact hchoking
  late := by
    intro hid
    by_contra hchoking
    rw [Bool.not_eq_false] at hchoking
    exact (hd.not_asked hchoking).2.2 msg (List.mem_cons_self ..) hid

/-- The leecher calls a method or sends. -/
theorem Linked.moved_A {p : Party} {ab' : List PeerMessage} (hd : Linked F m ⟨A, B, ab, ba⟩)
    (hopen : A.thread.pc ≠ .closed)
    (hleech : Leeching F p.id p.ctl p.thread.state p.thread.pc)
    (hbf : p.thread.state.peer_bitfield = A.thread.state.peer_bitfield)
    (hchoking : p.thread.state.peer_choking = A.thread.state.peer_choking)
    (hout : ∀ msg ∈ ab', msg ∈ ab ∨
      (FromLeecher m msg ∧ (msg.id = .Request → A.thread.state.peer_choking = false))) :
    Linked F m ⟨p, B, ab', ba⟩ where
  leecher := hleech
  seeder := hd.seeder
  from_leecher := by
    intro msg hmsg
    rcases hout msg hmsg with hold | hnew
    · exact hd.from_leecher msg hold
    · exact hnew.1
  from_seeder := hd.from_seeder
  introduced := by
    cases hd.introduced with
    | read hfull hnone hop => exact .read (hbf ▸ hfull) hnone hop
    | on_the_way bf rest hch hba hid hnone hop =>
      exact .on_the_way bf rest (hchoking.trans hch) hba hid hnone hop
    | to_be_sent hch hba hop => exact .to_be_sent (hchoking.trans hch) hba hop
  unchoked := by
    intro hB
    rcases hd.unchoked hB with hpc | hmsg | hch
    · exact .inl hpc
    · exact .inr (.inl hmsg)
    · exact .inr (.inr (hchoking.trans hch))
  not_asked := by
    intro hch
    have hwas := hchoking.symm.trans hch
    obtain ⟨hab, hin, hba⟩ := hd.not_asked hwas
    refine ⟨fun msg hmsg hid => ?_, hin, hba⟩
    -- a Request is sent by a leecher that is not choked
    rcases hout msg hmsg with hold | hnew
    · exact hab msg hold hid
    · have hnot := hnew.2 hid
      rw [hwas] at hnot
      cases hnot
  left := fun hleft => absurd (hd.left hleft) hopen

/-- The leecher reads a message. -/
theorem Linked.read_A {p : Party} {msg : PeerMessage} (hd : Linked F m ⟨A, B, ab, msg :: ba⟩)
    (hopen : A.thread.pc ≠ .closed)
    (hleech : Leeching F p.id p.ctl p.thread.state p.thread.pc)
    (hheard : (msg.id = .Bitfield ∧ m.Full p.thread.state.peer_bitfield ∧
        p.thread.state.peer_choking = A.thread.state.peer_choking) ∨
      (msg.id = .Unchoke ∧ p.thread.state.peer_bitfield = A.thread.state.peer_bitfield ∧
        p.thread.state.peer_choking = false) ∨
      (msg.id = .Piece ∧ p.thread.state.peer_bitfield = A.thread.state.peer_bitfield ∧
        p.thread.state.peer_choking = A.thread.state.peer_choking)) :
    Linked F m ⟨p, B, ab, ba⟩ where
  leecher := hleech
  seeder := hd.seeder
  from_leecher := hd.from_leecher
  from_seeder := fun msg hmsg => hd.from_seeder msg (List.mem_cons_of_mem _ hmsg)
  introduced := by
    cases hd.introduced with
    | read hfull hnone hop =>
      refine .read ?_ (fun msg hmsg => hnone msg (List.mem_cons_of_mem _ hmsg)) hop
      rcases hheard with ⟨-, hnew, -⟩ | ⟨-, hbf, -⟩ | ⟨-, hbf, -⟩
      · exact hnew
      · exact hbf ▸ hfull
      · exact hbf ▸ hfull
    | on_the_way bf rest _ hba hid hnone hop =>
      -- this is the Bitfield
      obtain ⟨rfl, rfl⟩ := List.cons.inj hba
      refine .read ?_ hnone hop
      rcases hheard with ⟨-, hnew, -⟩ | ⟨hid', -⟩ | ⟨hid', -⟩
      · exact hnew
      · rw [hid] at hid'
        cases hid'
      · rw [hid] at hid'
        cases hid'
    | to_be_sent _ hba _ => cases hba
  unchoked := by
    intro hB
    rcases hd.unchoked hB with hpc | ⟨u, hu, hid⟩ | hch
    · exact .inl hpc
    · -- the Unchoke is this message, or still on its way
      rcases List.mem_cons.mp hu with rfl | hu
      · rcases hheard with ⟨hid', -⟩ | ⟨-, -, hch⟩ | ⟨hid', -⟩
        · rw [hid] at hid'
          cases hid'
        · exact .inr (.inr hch)
        · rw [hid] at hid'
          cases hid'
      · exact .inr (.inl ⟨u, hu, hid⟩)
    · rcases hheard with ⟨-, -, hsame⟩ | ⟨-, -, hnew⟩ | ⟨-, -, hsame⟩
      · exact .inr (.inr (hsame.trans hch))
      · exact .inr (.inr hnew)
      · exact .inr (.inr (hsame.trans hch))
  not_asked := by
    intro hch
    have hwas : A.thread.state.peer_choking = true := by
      rcases hheard with ⟨-, -, hsame⟩ | ⟨-, -, hnew⟩ | ⟨-, -, hsame⟩
      · exact hsame.symm.trans hch
      · rw [show p.thread.state.peer_choking = true from hch] at hnew
        cases hnew
      · exact hsame.symm.trans hch
    obtain ⟨hab, hin, hba⟩ := hd.not_asked hwas
    exact ⟨hab, hin, fun msg hmsg => hba msg (List.mem_cons_of_mem _ hmsg)⟩
  left := fun hleft => absurd (hd.left hleft) hopen

/-- A step of the seeder's thread that sends `out`, and reads from `ab`. -/
theorem Linked.moved_B {p : Party} {ab' out : List PeerMessage}
    (hd : Linked F m ⟨A, B, ab, ba⟩) (hab : ∀ msg ∈ ab', msg ∈ ab)
    (hserve : Serving F p.id p.ctl p.thread.state p.thread.pc)
    (hsend : ∀ msg ∈ out, FromSeeder m F msg ∧
      (msg.id = .Piece → B.thread.state.incoming_requests ≠ []))
    (hopening : (p.thread.pc.Opening ∧ B.thread.pc.Opening ∧ out = []) ∨
      (¬ p.thread.pc.Opening ∧ ¬ B.thread.pc.Opening ∧ ∀ msg ∈ out, msg.id ≠ .Bitfield) ∨
      (¬ p.thread.pc.Opening ∧ B.thread.pc.Opening ∧ ∃ bf, out = [bf] ∧ bf.id = .Bitfield))
    (hunchoke : p.thread.state.am_choking = false → p.thread.pc = .send_unchoke ∨
      (B.thread.state.am_choking = false ∧
        (B.thread.pc = .send_unchoke → ∃ msg ∈ out, msg.id = .Unchoke)))
    (hasked : B.thread.state.incoming_requests = [] → (∀ msg ∈ ab, msg.id ≠ .Request) →
      p.thread.state.incoming_requests = [])
    (hleft : p.thread.pc.Left → A.thread.pc = .closed) :
    Linked F m ⟨A, p, ab', ba ++ out⟩ where
  leecher := hd.leecher
  seeder := hserve
  from_leecher := fun msg hmsg => hd.from_leecher msg (hab msg hmsg)
  from_seeder := by
    intro msg hmsg
    rcases List.mem_append.mp hmsg with hold | hnew
    · exact hd.from_seeder msg hold
    · exact (hsend msg hnew).1
  introduced := by
    have append {msgs : List PeerMessage} (hmsgs : ∀ msg ∈ msgs, msg.id ≠ .Bitfield)
        (hout : ∀ msg ∈ out, msg.id ≠ .Bitfield) : ∀ msg ∈ msgs ++ out, msg.id ≠ .Bitfield := by
      intro msg hmsg
      rcases List.mem_append.mp hmsg with hold | hnew
      · exact hmsgs msg hold
      · exact hout msg hnew
    cases hd.introduced with
    | read hfull hnone hop =>
      rcases hopening with ⟨-, hwas, -⟩ | ⟨hnow, -, hout⟩ | ⟨-, hwas, -⟩
      · exact absurd hwas hop
      · exact .read hfull (append hnone hout) hnow
      · exact absurd hwas hop
    | on_the_way bf rest hch hba hid hnone hop =>
      rcases hopening with ⟨-, hwas, -⟩ | ⟨hnow, -, hout⟩ | ⟨-, hwas, -⟩
      · exact absurd hwas hop
      · refine .on_the_way bf (rest ++ out) hch ?_ hid (append hnone hout) hnow
        rw [show ba = bf :: rest from hba]
        rfl
      · exact absurd hwas hop
    | to_be_sent hch hba hop =>
      obtain rfl : ba = [] := hba
      rcases hopening with ⟨hnow, -, rfl⟩ | ⟨-, hwas, -⟩ | ⟨hnow, -, bf, rfl, hid⟩
      · exact .to_be_sent hch rfl hnow
      · exact absurd hop hwas
      · refine .on_the_way bf [] hch rfl hid (fun msg hmsg => ?_) hnow
        cases hmsg
  unchoked := by
    intro hB
    rcases hunchoke hB with hpc | ⟨hwas, hout⟩
    · exact .inl hpc
    · rcases hd.unchoked hwas with hpc | ⟨u, hu, hid⟩ | hch
      · obtain ⟨u, hu, hid⟩ := hout hpc
        exact .inr (.inl ⟨u, List.mem_append_right _ hu, hid⟩)
      · exact .inr (.inl ⟨u, List.mem_append_left _ hu, hid⟩)
      · exact .inr (.inr hch)
  not_asked := by
    intro hch
    obtain ⟨hreq, hin, hpiece⟩ := hd.not_asked hch
    refine ⟨fun msg hmsg => hreq msg (hab msg hmsg), hasked hin hreq, fun msg hmsg hid => ?_⟩
    rcases List.mem_append.mp hmsg with hold | hnew
    · exact hpiece msg hold hid
    · exact (hsend msg hnew).2 hid hin
  left := hleft

/-! ### Every Step Keeps It -/

theorem closed_eq {p : Party} (h : p.closed = true) : p.thread.pc = .closed := by
  unfold Party.closed at h
  split at h
  · assumption
  · cases h

/-- The other threads of either client are quiet. -/
def Alone (_ : Duo) : Turn → Prop
  | .A (.other _) => False
  | .B (.other _) => False
  | _ => True

/-- A step of the leecher. -/
theorem Linked.turned_A {p : Party} {ab' ba' : List PeerMessage} {ev : Event}
    (hl : m.mode = .LEECHER) (hg : m.Consistent) (hfit : m.CountFits) (ho : m.Original sha1 F)
    (hA : A.ctl.toMetadata = m) (hd : Linked F m ⟨A, B, ab, ba⟩)
    (halone : Alone ⟨A, B, ab, ba⟩ (.A ev)) (h : A.Turned sha1 B.closed ba ab ev p ba' ab') :
    Linked F m ⟨p, B, ab', ba'⟩ := by
  subst hA
  cases h with
  | called _ _ c' t' hmove =>
    obtain ⟨hbf, hch⟩ := hmove.hears_nothing fun _ => Input.noConfusion
    have hleech := hd.leecher.moved hl hg hfit ho hmove Input.noConfusion Input.noConfusion
      fun _ => Input.noConfusion
    exact hd.moved_A hmove.not_closed hleech hbf hch fun msg hmsg => .inl hmsg
  | sent _ _ c' t' hmove =>
    obtain ⟨hbf, hch⟩ := hmove.hears_nothing fun _ => Input.noConfusion
    have hleech := hd.leecher.moved hl hg hfit ho hmove (by simp) Input.noConfusion
      fun _ => Input.noConfusion
    obtain ⟨out, hout, hfrom, hreq⟩ := hd.leecher.output hg hmove
    rw [hout, Option.toList_some]
    refine hd.moved_A hmove.not_closed hleech hbf hch fun msg hmsg => ?_
    rcases List.mem_append.mp hmsg with hold | hnew
    · exact .inl hold
    · rw [List.mem_singleton.mp hnew]
      exact .inr ⟨hfrom, hreq⟩
  | received msg _ _ c' t' hmove =>
    have harr := hd.arrives rfl
    have hleech := hd.leecher.moved hl hg hfit ho hmove Input.noConfusion (by simp)
      fun msg' heq => by
        obtain rfl := Option.some.inj (Input.recv.inj heq)
        exact harr
    exact hd.read_A hmove.not_closed hleech (harr.heard hmove)
  | hung_up _ c' t' hclosed hmove =>
    -- the seeder closes after the leecher
    have hleft : B.thread.pc.Left := by
      rw [closed_eq hclosed]
      trivial
    exact absurd (hd.left hleft) hmove.not_closed
  | others => exact halone.elim

/-- A step of the seeder. -/
theorem Linked.turned_B {p : Party} {ab' ba' : List PeerMessage} {ev : Event}
    (hg : m.Consistent) (ho : m.Original sha1 F) (hB : B.ctl.toMetadata = m.seeder)
    (hserves : B.thread.pc.Serves B.thread.state) (hd : Linked F m ⟨A, B, ab, ba⟩)
    (halone : Alone ⟨A, B, ab, ba⟩ (.B ev)) (h : B.Turned sha1 A.closed ab ba ev p ab' ba') :
    Linked F m ⟨A, p, ab', ba'⟩ := by
  have hs : B.ctl.mode = .SEEDER := by
    rw [hB]
    rfl
  have hg' : B.ctl.Consistent := by
    rw [hB]
    exact hg.seeder
  have ho' : B.ctl.Original sha1 F := by
    rw [hB]
    exact ⟨ho.length, ho.hashes⟩
  -- a step that sends nothing
  have quiet {c' : Controller} {t' : Thread} {inp : Input} {ab' : List PeerMessage}
      (hmove : Move sha1 B.ctl B.id B.thread.state B.thread.pc inp c' t'.state t'.pc)
      (hsub : ∀ msg ∈ ab', msg ∈ ab) (hsent : ∀ ok, inp ≠ .sent ok)
      (hmsg : ∀ msg, inp = .recv (some msg) → msg ∈ ab)
      (hend : inp = .recv none → A.thread.pc = .closed) :
      Linked F m ⟨A, ⟨c', B.id, t'⟩, ab', ba⟩ := by
    have hfrom : ∀ msg, inp = .recv (some msg) → FromLeecher B.ctl.toMetadata msg := by
      intro msg heq
      rw [hB]
      exact hd.from_leecher msg (hmsg msg heq)
    have hserve := hd.seeder.moved hs hg' ho' hmove (hsent false) hfrom
    rw [← List.append_nil ba]
    refine hd.moved_B hsub hserve (fun msg hnil => (List.not_mem_nil hnil).elim) ?_ ?_ ?_ ?_
    -- the opening goes on, or was over before
    · by_cases hop : t'.pc.Opening
      · exact .inl ⟨hop, (hd.seeder.opening_moved hmove hop).1, rfl⟩
      · refine .inr (.inl ⟨hop, fun hwas => ?_, fun msg hnil => (List.not_mem_nil hnil).elim⟩)
        exact hop (hmove.still_opening hwas hsent)
    · intro hch
      rcases hd.seeder.unchoking hmove hfrom hch with hpc | ⟨hwas, hat⟩
      · exact .inl hpc
      · refine .inr ⟨hwas, fun hpc => ?_⟩
        obtain ⟨ok, heq⟩ := hat hpc
        exact absurd heq (hsent ok)
    · exact fun hnone hreq =>
        hmove.nothing_asked hserves hnone fun msg heq => hreq msg (hmsg msg heq)
    · intro hleft
      rcases hd.seeder.left_moved hs hmove hleft with hwas | hnone
      · exact hd.left hwas
      · exact hend hnone
  cases h with
  | called _ _ c' t' hmove =>
    exact quiet hmove (fun _ hmsg => hmsg) (fun _ => Input.noConfusion)
      (fun _ => Input.noConfusion) Input.noConfusion
  | received msg _ _ c' t' hmove =>
    refine quiet hmove (fun _ hmsg => List.mem_cons_of_mem _ hmsg) (fun _ => Input.noConfusion)
      (fun msg' heq => ?_) (by simp)
    obtain rfl := Option.some.inj (Input.recv.inj heq)
    exact List.mem_cons_self ..
  | hung_up _ c' t' hclosed hmove =>
    exact quiet hmove (fun _ hmsg => hmsg) (fun _ => Input.noConfusion) (by simp)
      fun _ => closed_eq hclosed
  | sent _ _ c' t' hmove =>
    have hfrom : ∀ msg, Input.sent true = .recv (some msg) → FromLeecher B.ctl.toMetadata msg :=
      fun _ => Input.noConfusion
    have hserve := hd.seeder.moved hs hg' ho' hmove (by simp) hfrom
    obtain ⟨out, hout, hsend, hop, hpiece, hunchoke⟩ := hd.seeder.output hg' hmove
    have hsend : FromSeeder m F out := by
      rw [hB] at hsend
      exact hsend
    have hdone : ¬ t'.pc.Opening := fun hnow => nomatch (hd.seeder.opening_moved hmove hnow).2
    rw [hout, Option.toList_some]
    refine hd.moved_B (fun _ hmsg => hmsg) hserve ?_ ?_ ?_ ?_ ?_
    · intro msg hmsg
      rw [List.mem_singleton.mp hmsg]
      exact ⟨hsend, hpiece⟩
    · by_cases hwas : B.thread.pc.Opening
      · exact .inr (.inr ⟨hdone, hwas, out, rfl, hop.mpr hwas⟩)
      · refine .inr (.inl ⟨hdone, hwas, fun msg hmsg hid => hwas (hop.mp ?_)⟩)
        rwa [List.mem_singleton.mp hmsg] at hid
    · intro hch
      rcases hd.seeder.unchoking hmove hfrom hch with hpc | ⟨hwas, -⟩
      · exact .inl hpc
      · exact .inr ⟨hwas, fun hpc => ⟨out, List.mem_singleton_self _, hunchoke hpc⟩⟩
    · exact fun hnone _ => hmove.nothing_asked hserves hnone fun _ => Input.noConfusion
    · intro hleft
      rcases hd.seeder.left_moved hs hmove hleft with hwas | hnone
      · exact hd.left hwas
      · cases hnone
  | others => exact halone.elim

/-- An empty leecher and a seeder whose file is `F`, each the other's only
    peer. -/
def exchange (m : Metadata) (disk : Option Bytes) (F : Bytes) : Duo :=
  start (make m disk).register_peer.1 (make m.seeder (some F)).register_peer.1 0 0

theorem reachable_linked {disk : Option Bytes} {d : Duo} (hl : m.mode = .LEECHER)
    (hg : m.Consistent) (hfit : m.CountFits) (ho : m.Original sha1 F)
    (h : ((system sha1 (exchange m disk F)).restrict Alone).Reachable d) : d.Linked F m := by
  refine System.invariant (I := Linked F m) ?_ ?_ d h
  · rintro d rfl
    refine
      { leecher := leeching_start hl hg disk
        seeder := serving_start rfl F
        from_leecher := ?_
        from_seeder := ?_
        introduced := .to_be_sent rfl rfl trivial
        unchoked := ?_
        not_asked := ?_
        left := False.elim }
    · intro msg hmsg
      cases hmsg
    · intro msg hmsg
      cases hmsg
    · intro hch
      cases hch
    · refine fun _ => ⟨?_, rfl, ?_⟩
      · intro msg hmsg
        cases hmsg
      · intro msg hmsg
        cases hmsg
  · intro d l d' hr hd hst
    obtain ⟨hA, hB⟩ := reachable_toMetadata hr.of_restrict
    have hserves := (reachable_conserved hl hg.pieces_int hr.of_restrict).serves
    cases next_stepped hst.2 with
    | A ev p ab ba hturn => exact hd.turned_A hl hg hfit ho hA hst.1 hturn
    | B ev p ab ba hturn => exact hd.turned_B hg ho hB hserves hst.1 hturn

end Duo

/-! ## Waiting -/

/-- A side that can only wait for a message, or has ended: it has no method to
    call and nothing to send. -/
def Party.Waiting (sha1 : Bytes → Bytes) (p : Party) : Prop :=
  p.take sha1 .call = none ∧ p.take sha1 (.sent true) = none

/-- A side that does not fail and only waits is in `read_message` or at its
    end, or waits for the handshake. -/
theorem Party.Waiting.rests {sha1 : Bytes → Bytes} {p : Party} (h : p.Waiting sha1)
    (hg : p.ctl.Consistent) (hpc : p.thread.pc.Guarded p.ctl.toMetadata) :
    p.thread.pc = .read_message ∨ p.thread.pc = .closed ∨ p.thread.pc = .handshake := by
  obtain ⟨hcall, hsend⟩ := h
  rcases p with ⟨c, peer_id, ⟨st, pc⟩⟩
  -- a call would have returned, a send would have succeeded
  have hnocall : Thread.call sha1 c peer_id st pc = none := by
    cases hr : Thread.call sha1 c peer_id st pc with
    | none => rfl
    | some r =>
      cases r with
      | error e => exact absurd hr (call_no_fault hg hpc e)
      | ok r =>
        simp [Party.take, Thread.advance, hr, Except.toOption] at hcall
  have hnosend : Thread.after_send c.toMetadata st true pc = none := by
    cases hr : Thread.after_send c.toMetadata st true pc with
    | none => rfl
    | some t => simp [Party.take, Thread.advance, hr, Except.toOption] at hsend
  cases pc with
  | read_message => exact .inl rfl
  | closed => exact .inr (.inl rfl)
  | handshake => exact .inr (.inr rfl)
  | request | have_probe | bitfield_probe =>
    unfold Thread.call at hnocall
    rcases next_request_cases c st.peer_bitfield with
      ⟨hreq, -⟩ | ⟨i, off, -, -, -, hreq⟩ <;> rw [hreq] at hnocall <;> cases hnocall
  | _ => first | (cases hnocall; done) | cases hnosend

namespace Duo

/-- Nothing is on its way and neither side can do anything but wait. -/
structure Quiet (sha1 : Bytes → Bytes) (d : Duo) : Prop where
  ab : d.ab = []
  ba : d.ba = []
  A : d.A.Waiting sha1
  B : d.B.Waiting sha1

variable {sha1 : Bytes → Bytes} {F : Bytes} {m : Metadata} {d : Duo}

/-- A leecher that waits, is interested and is not choked, with nothing
    pending, has everything its peer has. -/
theorem all_done_of_idle {c : Controller} {st : PeerState} {peer_id : ℕ}
    (hl : c.mode = .LEECHER) (hg : c.Consistent) (hfit : c.CountFits)
    (h : Leeching F peer_id c st .read_message) (hch : st.peer_choking = false)
    (hfull : c.Full st.peer_bitfield) (hnone : st.pending_keys = []) : c.all_done = true := by
  have hpending : st.pending_requests = [] := List.map_eq_nil_iff.mp hnone
  have hidle : PC.read_message.Idle st := by
    refine ⟨⟨hch, ?_⟩, h.point⟩
    rw [hpending]
    decide
  have hdone : ∀ i < c.total_pieces, c.piece_status i = 1 := by
    intro i hi
    by_contra hst
    -- a missing piece would have a block on offer to an idle thread
    obtain ⟨off, ha⟩ := h.delivering.missing hg hfit hi hst (h.inflight_eq_empty hnone i)
    have hbf := h.nothing_on_offer hidle i off ha
    rw [hfull i hi] at hbf
    cases hbf
  refine all_done_iff.mpr ⟨hl, fun i hi => ?_⟩
  rw [hdone i hi]
  decide

/-- With both sides reading and nothing on its way, the leecher is not choked,
    waits for no block and knows that the seeder has every piece. -/
theorem Quiet.settled (hq : d.Quiet sha1) (hd : d.Linked F m) (hc : d.Conserved)
    (hA : d.A.thread.pc = .read_message) (hB : d.B.thread.pc = .read_message) :
    d.A.thread.state.peer_choking = false ∧ d.A.thread.state.pending_keys = [] ∧
      m.Full d.A.thread.state.peer_bitfield := by
  have hinterested := hd.leecher.point
  have hserved := hd.seeder.point
  rw [hA] at hinterested
  rw [hB] at hserved
  refine ⟨?_, ?_, ?_⟩
  -- with nothing on its way, the seeder has heard of the interest
  · have hopen := hc.interest hinterested
    rw [hq.ab] at hopen
    rcases hd.unchoked hopen with hpc | ⟨msg, hmsg, -⟩ | hch
    · rw [hB] at hpc
      cases hpc
    · rw [hq.ba] at hmsg
      cases hmsg
    · exact hch
  -- a pending block would be in a channel, or in the seeder's queue
  · refine List.eq_nil_iff_forall_not_mem.mpr fun k hk => ?_
    rcases hc.covered k hk with ⟨msg, hmsg, -⟩ | hin | ⟨msg, hmsg, -⟩
    · rw [hq.ab] at hmsg
      cases hmsg
    · unfold PeerState.incoming_keys at hin
      rw [show d.B.thread.state.incoming_requests = [] from hserved] at hin
      cases hin
    · rw [hq.ba] at hmsg
      cases hmsg
  · cases hd.introduced with
    | read hfull _ _ => exact hfull
    | on_the_way bf rest _ hba _ _ _ =>
      rw [hq.ba] at hba
      cases hba
    | to_be_sent _ _ hop =>
      rw [hB] at hop
      exact hop.elim

/-- **Deadlock freedom**: whatever the order of the steps, when both channels
    are empty and both sides can only wait, the leecher has all pieces. -/
theorem exchange_completes (sha1 : Bytes → Bytes) {m : Metadata} {F : Bytes}
    (hl : m.mode = .LEECHER) (hg : m.Consistent) (hfit : m.CountFits) (ho : m.Original sha1 F)
    (disk : Option Bytes) {d : Duo}
    (h : ((system sha1 (exchange m disk F)).restrict Alone).Reachable d) (hq : d.Quiet sha1) :
    d.A.ctl.all_done = true := by
  have hd := reachable_linked hl hg hfit ho h
  have hc := reachable_conserved hl hg.pieces_int h.of_restrict
  obtain ⟨hA, hB⟩ : d.A.ctl.toMetadata = m ∧ d.B.ctl.toMetadata = m.seeder :=
    reachable_toMetadata h.of_restrict
  have hleech := hd.leecher
  have hserve := hd.seeder
  rcases hq.A.rests (hA ▸ hg) hleech.guarded.2 with hpcA | hpcA | hpcA
  · rcases hq.B.rests (hB ▸ hg.seeder) hserve.guarded.2 with hpcB | hpcB | hpcB
    · obtain ⟨hch, hnone, hfull⟩ := hq.settled hd hc hpcA hpcB
      rw [hpcA] at hleech
      exact all_done_of_idle (hA ▸ hl) (hA ▸ hg) (hA ▸ hfit) hleech hch (hA ▸ hfull) hnone
    · -- the leecher would have left first
      have hgone := hd.left (by rw [hpcB]; trivial)
      rw [hpcA] at hgone
      cases hgone
    · rw [hpcB] at hserve
      exact hserve.point.elim
  · exact hleech.finished (by rw [hpcA]; trivial)
  · rw [hpcA] at hleech
    exact hleech.point.elim

/-! ### Two Exchanges -/

/-- `Quiet` can be computed. -/
def quiet (sha1 : Bytes → Bytes) (d : Duo) : Bool :=
  d.ab.isEmpty && d.ba.isEmpty && (d.A.take sha1 .call).isNone &&
    (d.A.take sha1 (.sent true)).isNone && (d.B.take sha1 .call).isNone &&
    (d.B.take sha1 (.sent true)).isNone

theorem quiet_of_computed (h : d.quiet sha1 = true) : d.Quiet sha1 := by
  simp only [quiet, Bool.and_eq_true, List.isEmpty_iff, Option.isNone_iff_eq_none] at h
  obtain ⟨⟨⟨⟨⟨hab, hba⟩, hAc⟩, hAs⟩, hBc⟩, hBs⟩ := h
  exact ⟨hab, hba, ⟨hAc, hAs⟩, ⟨hBc, hBs⟩⟩

/-- No turn is of another thread. -/
def alone (_ : Duo) : Turn → Bool
  | .A (.other _) => false
  | .B (.other _) => false
  | _ => true

theorem alone_of_computed (d : Duo) (l : Turn) (h : d.alone l = true) : d.Alone l := by
  rcases l with (_ | _ | _ | _ | _) | (_ | _ | _ | _ | _) <;> trivial

/-- After the leecher's first request: it is served, and the leecher reads the
    block and leaves. -/
def first_block : List Turn :=
  [.A .call, .A .call, .A .call, .B .recv, .B .call, .B .send, .B .call, .B .call,
    .A .recv, .A .call, .A .call, .A .call, .A .call]

theorem tiny_exchange_completes : ∃ d : Duo, d.Quiet id ∧ d.A.ctl.all_done = true := by
  obtain ⟨d, hr, hd⟩ := System.Reachable.exists_of_run
    (System.guarded_step alone_of_computed next_step)
    (.init rfl : ((system id (exchange (.tiny .LEECHER [7]) none [7])).restrict Alone).Reachable _)
    (first_request ++ first_block) (P := quiet id) (by decide +kernel)
  have hq := quiet_of_computed hd
  refine ⟨d, hq, exchange_completes id rfl (Metadata.tiny_consistent _ _)
    (Metadata.tiny_countFits _ _) ⟨rfl, ?_⟩ none hr hq⟩
  intro i hi
  obtain rfl : i = 0 := Nat.lt_one_iff.mp hi
  rfl

/-- The file of the largest piece. -/
def zeros : Bytes := List.replicate 2147483647 0

/-- A hash that tells nothing apart. -/
def hash_nothing (_ : Bytes) : Bytes := []

/-- No block of the largest piece is counted, so none is on offer: the leecher
    says that it is not interested and both sides wait, with nothing done. -/
theorem largest_exchange_stalls :
    (Metadata.largest .LEECHER []).Consistent ∧
      (Metadata.largest .LEECHER []).Original hash_nothing zeros ∧ ∃ d : Duo,
        ((system hash_nothing (exchange (.largest .LEECHER []) none zeros)).restrict
          Alone).Reachable d ∧ d.Quiet hash_nothing ∧ d.A.ctl.all_done = false := by
  refine ⟨Metadata.largest_consistent _ _, ⟨?_, ?_⟩, ?_⟩
  · unfold zeros
    rw [List.length_replicate]
    rfl
  · intro i hi
    obtain rfl : i = 0 := Nat.lt_one_iff.mp hi
    rfl
  · obtain ⟨d, hr, hd⟩ := System.Reachable.exists_of_run
      (System.guarded_step alone_of_computed next_step)
      (.init rfl : ((system hash_nothing
        (exchange (.largest .LEECHER []) none zeros)).restrict Alone).Reachable _)
      [.A .call, .A .send, .A .send, .A .call, .A .call, .B .call, .B .send, .B .call, .B .call,
        .A .recv, .A .call, .A .send, .A .call, .A .call, .B .recv, .B .call, .B .call,
        .B .recv, .B .send, .B .call, .B .call, .B .recv, .B .send, .B .call, .B .call,
        .A .recv, .A .call, .A .call, .A .recv, .A .call, .A .call]
      (P := fun d => quiet hash_nothing d && !d.A.ctl.all_done) (by decide +kernel)
    obtain ⟨hq, hdone⟩ := (Bool.and_eq_true _ _).mp hd
    exact ⟨d, hr, quiet_of_computed hq, by simpa using hdone⟩

end Duo

end BitTorrentLite
