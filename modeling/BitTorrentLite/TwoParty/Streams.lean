import BitTorrentLite.LTS.Refinement
import BitTorrentLite.TwoParty.Side
import BitTorrentLite.TwoParty.Termination

/-! # Two Peer Loops over Streams of Bytes

    The two clients with a stream of bytes in each direction. `send` and
    `recv` take any number of bytes at a time, so the steps of the two sides
    interleave inside the messages too. What they do is still a run of the
    system in which whole messages are passed from one to the other, and the
    download ends as it does there.
-/

open Machine LTS

namespace BitTorrentLite

/-- The two sides, with the bytes in flight in each direction. -/
structure Streams where
  A : Side
  B : Side
  ab : Bytes
  ba : Bytes

/-- A step of a side, and how many bytes it sends or reads. -/
structure Transfer where
  turn : Turn
  count : ℕ

namespace Streams

/-! ## Runs -/

/-- No byte was sent yet. -/
def start (d : Duo) : Streams where
  A := ⟨d.A, 0, .length []⟩
  B := ⟨d.B, 0, .length []⟩
  ab := []
  ba := []

/-- The state after a step. -/
def next (sha1 : Bytes → Bytes) (w : Streams) (l : Transfer) : Option Streams :=
  match l.turn with
  | .A ev => (w.A.turn sha1 w.B.party.closed w.ba w.ab l.count ev).map fun (p, ba, ab) =>
    ⟨p, w.B, ab, ba⟩
  | .B ev => (w.B.turn sha1 w.A.party.closed w.ab w.ba l.count ev).map fun (p, ab, ba) =>
    ⟨w.A, p, ab, ba⟩

/-- The runs of the two sides. -/
def system (sha1 : Bytes → Bytes) (d₀ : Duo) : System Streams Transfer where
  init := fun w => w = start d₀
  step := fun w l w' => w.next sha1 l = some w'

/-- A reply to a keep-alive is sent in one go. -/
def Whole (w : Streams) (l : Transfer) : Prop :=
  match l.turn with
  | .A ev => w.A.Whole ev l.count
  | .B ev => w.B.Whole ev l.count

/-- The two sides stand for two parties that pass whole messages. -/
structure Models (w : Streams) (d : Duo) : Prop where
  A : w.A.party = d.A
  B : w.B.party = d.B
  ab : Carries w.A.buffer w.A.sent w.ab w.B.reader d.ab
  ba : Carries w.B.buffer w.B.sent w.ba w.A.reader d.ba

/-- The bytes still to be sent and to be read of the messages begun. -/
def rank (w : Streams) : ℕ := 2 * w.A.unsent + 2 * w.B.unsent + w.ab.length + w.ba.length

theorem models_start {d : Duo} (hab : d.ab = []) (hba : d.ba = []) : (start d).Models d where
  A := rfl
  B := rfl
  ab := by
    rw [hab]
    exact .empty _
  ba := by
    rw [hba]
    exact .empty _

/-- A closed side sends nothing. -/
theorem buffer_of_closed {p : Side} (h : p.party.closed = true) : p.buffer = [] := by
  unfold Party.closed at h
  split at h
  · rename_i hpc
    unfold Side.buffer
    rw [hpc]
    rfl
  · cases h

end Streams

/-- Neither side is about to send a message that cannot be read again. -/
def Duo.Framed (d : Duo) : Prop := d.A.thread.pc.Framed ∧ d.B.thread.pc.Framed

theorem Duo.framed_start (cA cB : Controller) (idA idB : ℕ) :
    (Duo.start cA cB idA idB).Framed := ⟨trivial, trivial⟩

theorem Party.Turned.framed {sha1 : Bytes → Bytes} {other_closed : Bool} {p p' : Party}
    {inbox outbox inbox' outbox' : List PeerMessage} {ev : Event}
    (h : Turned sha1 other_closed p inbox outbox ev p' inbox' outbox')
    (hn : p.ctl.total_pieces < 2 ^ 31) (hframed : p.thread.pc.Framed) : p'.thread.pc.Framed := by
  cases h with
  | called _ _ c' t' hmove => exact hmove.framed hn
  | sent _ _ c' t' hmove => exact hmove.framed hn
  | received _ _ _ c' t' hmove => exact hmove.framed hn
  | hung_up _ c' t' _ hmove => exact hmove.framed hn
  | others _ _ op c' hst => exact hframed

theorem Duo.reachable_framed {sha1 : Bytes → Bytes} {d₀ d : Duo} (h₀ : d₀.Framed)
    (hA : d₀.A.ctl.total_pieces < 2 ^ 31) (hB : d₀.B.ctl.total_pieces < 2 ^ 31)
    (h : (Duo.system sha1 d₀).Reachable d) : d.Framed := by
  refine System.invariant (I := Duo.Framed) ?_ ?_ d h
  · rintro d rfl
    exact h₀
  · intro d l d' hr hd hst
    obtain ⟨hmA, hmB⟩ := Duo.reachable_toMetadata hr
    cases Duo.next_stepped hst with
    | A ev p ab ba hturn => exact ⟨hturn.framed (hmA ▸ hA) hd.1, hd.2⟩
    | B ev p ab ba hturn => exact ⟨hd.1, hturn.framed (hmB ▸ hB) hd.2⟩

namespace Streams

/-! ## Refinement -/

variable {sha1 : Bytes → Bytes} {w w' : Streams} {d : Duo} {l : Transfer}

/-- **Step lemma**: a step of the two sides is one of the two parties, or a
    part of a message that they do not see. -/
theorem Models.matched (h : w.Models d) (hframed : d.Framed) (hwhole : w.Whole l)
    (hst : w.next sha1 l = some w') :
    ∃ d', w'.Models d' ∧ ((d' = d ∧ w'.rank < w.rank) ∨ d.next sha1 l.turn = some d') := by
  obtain ⟨A, B, ab, ba⟩ := w
  obtain ⟨dA, dB, qab, qba⟩ := d
  obtain ⟨turn, k⟩ := l
  obtain ⟨rfl, rfl, hab, hba⟩ := h
  obtain ⟨hA, hB⟩ := hframed
  cases turn with
  | A ev =>
    obtain ⟨⟨p, ba', ab'⟩, hturn, rfl⟩ := Option.map_eq_some_iff.mp hst
    obtain ⟨qba', qab', hlinked, hmatch⟩ :=
      Side.Linked.turned ⟨hba, hab⟩ hB.written hA hwhole hturn
    rcases hmatch with ⟨hp, rfl, rfl, hlt⟩ | hturn'
    · refine ⟨⟨A.party, B.party, qab', qba'⟩, ⟨hp, rfl, hlinked.outgoing, hlinked.incoming⟩,
        .inl ⟨rfl, ?_⟩⟩
      unfold rank
      dsimp only at hlt ⊢
      omega
    · refine ⟨⟨p.party, B.party, qab', qba'⟩, ⟨rfl, rfl, hlinked.outgoing, hlinked.incoming⟩,
        .inr ?_⟩
      show (A.party.turn sha1 B.party.closed qba qab ev).map _ = _
      rw [hturn']
      rfl
  | B ev =>
    obtain ⟨⟨p, ab', ba'⟩, hturn, rfl⟩ := Option.map_eq_some_iff.mp hst
    obtain ⟨qab', qba', hlinked, hmatch⟩ :=
      Side.Linked.turned ⟨hab, hba⟩ hA.written hB hwhole hturn
    rcases hmatch with ⟨hp, rfl, rfl, hlt⟩ | hturn'
    · refine ⟨⟨A.party, B.party, qab', qba'⟩, ⟨rfl, hp, hlinked.incoming, hlinked.outgoing⟩,
        .inl ⟨rfl, ?_⟩⟩
      unfold rank
      dsimp only at hlt ⊢
      omega
    · refine ⟨⟨A.party, p.party, qab', qba'⟩, ⟨rfl, rfl, hlinked.incoming, hlinked.outgoing⟩,
        .inr ?_⟩
      show (B.party.turn sha1 A.party.closed qab qba ev).map _ = _
      rw [hturn']
      rfl

/-- **Progress**: where the parties can take a step, the sides can. -/
theorem Models.begins (h : w.Models d) (hframed : d.Framed) {turn : Turn} {d' : Duo}
    (hst : d.next sha1 turn = some d') : ∃ k w', w.next sha1 ⟨turn, k⟩ = some w' := by
  obtain ⟨A, B, ab, ba⟩ := w
  obtain ⟨dA, dB, qab, qba⟩ := d
  obtain ⟨rfl, rfl, hab, hba⟩ := h
  obtain ⟨hA, hB⟩ := hframed
  cases turn with
  | A ev =>
    obtain ⟨⟨p, qba', qab'⟩, hturn, -⟩ := Option.map_eq_some_iff.mp hst
    obtain ⟨k, hk⟩ := Side.Linked.turn_begins ⟨hba, hab⟩ hB.written buffer_of_closed hturn
    obtain ⟨⟨p, ba', ab'⟩, hp⟩ := Option.isSome_iff_exists.mp hk
    refine ⟨k, ⟨p, B, ab', ba'⟩, ?_⟩
    show (A.turn sha1 B.party.closed ba ab k ev).map _ = _
    rw [hp]
    rfl
  | B ev =>
    obtain ⟨⟨p, qab', qba'⟩, hturn, -⟩ := Option.map_eq_some_iff.mp hst
    obtain ⟨k, hk⟩ := Side.Linked.turn_begins ⟨hab, hba⟩ hA.written buffer_of_closed hturn
    obtain ⟨⟨p, ab', ba'⟩, hp⟩ := Option.isSome_iff_exists.mp hk
    refine ⟨k, ⟨A, p, ab', ba'⟩, ?_⟩
    show (B.turn sha1 A.party.closed ab ba k ev).map _ = _
    rw [hp]
    rfl

/-- The sides, sending each reply to a keep-alive in one go, are simulated by
    the parties. -/
def simulation (sha1 : Bytes → Bytes) {d₀ : Duo} (hab : d₀.ab = []) (hba : d₀.ba = [])
    (h₀ : d₀.Framed) (hA : d₀.A.ctl.total_pieces < 2 ^ 31) (hB : d₀.B.ctl.total_pieces < 2 ^ 31) :
    Simulation ((system sha1 d₀).restrict Whole) (Duo.system sha1 d₀) where
  rel := Models
  turn := Transfer.turn
  rank := rank
  init := by
    rintro w rfl
    exact ⟨d₀, rfl, models_start hab hba⟩
  step := by
    intro w l w' d hr hrel hst
    exact hrel.matched (Duo.reachable_framed h₀ hA hB hr) hst.1 hst.2

/-- **Two peer loops over streams** run as two that pass whole messages, with
    whatever the rest of either client does: a run of the one is a run of the
    other with the parts of messages left out, each client has the same state in
    both, and the bytes that were sent and not yet read as messages are those of
    the messages on their way, and the part sent of the next one. -/
theorem streams_refine (sha1 : Bytes → Bytes) {cA cB : Controller} {idA idB : ℕ}
    (hA : cA.total_pieces < 2 ^ 31) (hB : cB.total_pieces < 2 ^ 31) {ls : List Transfer}
    {w : Streams}
    (hp : ((system sha1 (Duo.start cA cB idA idB)).restrict Whole).Path
      (start (Duo.start cA cB idA idB)) ls w) :
    ∃ (turns : List Turn) (d : Duo), turns.Sublist (ls.map Transfer.turn) ∧
      (Duo.system sha1 (Duo.start cA cB idA idB)).Path (Duo.start cA cB idA idB) turns d ∧
      w.A.party = d.A ∧ w.B.party = d.B ∧
      w.B.reader.taken ++ w.ab = d.ab.flatMap PeerMessage.wire ++ w.A.buffer.take w.A.sent ∧
      w.A.reader.taken ++ w.ba = d.ba.flatMap PeerMessage.wire ++ w.B.buffer.take w.B.sent := by
  obtain ⟨turns, d, hsub, hpath, hmodels⟩ :=
    (simulation sha1 rfl rfl (Duo.framed_start cA cB idA idB) hA hB).path hp (.init rfl)
      (models_start rfl rfl)
  exact ⟨turns, d, hsub, hpath, hmodels.A, hmodels.B, hmodels.ab.bytes, hmodels.ba.bytes⟩

/-- Neither side is about to reply to a keep-alive. -/
def no_keep_alive (w : Streams) (_ : Transfer) : Bool :=
  !w.A.party.thread.pc.sends_once && !w.B.party.thread.pc.sends_once

theorem whole_of_no_keep_alive (h : no_keep_alive w l = true) : w.Whole l := by
  obtain ⟨hA, hB⟩ := (Bool.and_eq_true _ _).mp h
  obtain ⟨turn, k⟩ := l
  cases turn with
  | A ev =>
    intro _ honce
    rw [honce] at hA
    cases hA
  | B ev =>
    intro _ honce
    rw [honce] at hB
    cases hB

theorem whole_step (d₀ : Duo) : ∀ w l w', System.guarded no_keep_alive (next sha1) w l = some w' →
    ((system sha1 d₀).restrict Whole).step w l w' :=
  System.guarded_step (fun _ _ => whole_of_no_keep_alive) fun _ _ _ h => h

/-- Three bytes of a Bitfield are sent, and no message. -/
theorem tiny_streams_refine : ∃ (w : Streams) (turns : List Turn) (d : Duo),
    w.ab.length = 3 ∧ turns.Sublist [.A .call, .A .send] ∧
    (Duo.system id (Duo.exchange (.tiny .LEECHER [7]) none [7])).Path
      (Duo.exchange (.tiny .LEECHER [7]) none [7]) turns d ∧ w.A.party = d.A ∧
    w.ab = d.ab.flatMap PeerMessage.wire ++ w.A.buffer.take 3 := by
  have hrun : (System.run (System.guarded no_keep_alive (next id))
      (start (Duo.exchange (.tiny .LEECHER [7]) none [7])) [⟨.A .call, 0⟩, ⟨.A .send, 3⟩]).any
      (fun w => w.ab.length == 3 && w.A.sent == 3 && w.B.reader.taken == []) = true := by
    decide +kernel
  obtain ⟨w, hw, hend⟩ := (Option.any_eq_true _ _).mp hrun
  simp only [Bool.and_eq_true, beq_iff_eq] at hend
  obtain ⟨⟨hlen, hsent⟩, htaken⟩ := hend
  have hp := System.Path.of_run (whole_step (Duo.exchange (.tiny .LEECHER [7]) none [7])) hw
  obtain ⟨turns, d, hsub, hpath, hA, -, hab, -⟩ := streams_refine id (by decide) (by decide) hp
  rw [htaken, hsent] at hab
  exact ⟨w, turns, d, hlen, hsub, hpath, hA, hab⟩

/-- A reply to a keep-alive of which two bytes were sent: the Have behind it is
    not read any more. -/
example : read_messages 2 (Socket.of_bytes ([0, 0] ++ (build_have 0).wire)) =
    [some ⟨.KeepAlive, []⟩, none] := by decide +kernel

/-! ## The Exchange -/

/-- No other peer takes part. -/
def Alone (_ : Streams) (l : Transfer) : Prop :=
  match l.turn with
  | .A (.other _) => False
  | .B (.other _) => False
  | _ => True

/-- The runs of an empty leecher and a seeder, alone with each other. -/
abbrev exchange_runs (sha1 : Bytes → Bytes) (m : Metadata) (disk : Option Bytes) (F : Bytes) :
    System Streams Transfer := (system sha1 (Duo.exchange m disk F)).restrict Alone

section exchange

variable {m : Metadata} {disk : Option Bytes} {F : Bytes}

theorem exchange_framed (hg : m.Consistent)
    (h : (Duo.exchange_runs sha1 m disk F).Reachable d) : d.Framed := by
  have h₀ : (Duo.exchange m disk F).Framed := Duo.framed_start _ _ _ _
  exact Duo.reachable_framed h₀ hg.pieces_int hg.pieces_int h.of_restrict

/-- Neither of the two sends a keep-alive. -/
theorem exchange_whole (hl : m.mode = .LEECHER) (hg : m.Consistent) (hfit : m.CountFits)
    (ho : m.Original sha1 F) (h : (Duo.exchange_runs sha1 m disk F).Reachable d)
    (hmodels : w.Models d) (l : Transfer) : w.Whole l := by
  have hd := Duo.reachable_linked hl hg hfit ho h
  obtain ⟨turn, k⟩ := l
  cases turn with
  | A ev =>
    intro _ honce
    have hpoint := hd.leecher.point
    rw [← hmodels.A, PC.sends_once_eq honce] at hpoint
    exact hpoint.elim
  | B ev =>
    intro _ honce
    have hpoint := hd.seeder.point
    rw [← hmodels.B, PC.sends_once_eq honce] at hpoint
    exact hpoint.elim

def exchange_simulation (hl : m.mode = .LEECHER) (hg : m.Consistent) (hfit : m.CountFits)
    (ho : m.Original sha1 F) (disk : Option Bytes) :
    Simulation (exchange_runs sha1 m disk F) (Duo.exchange_runs sha1 m disk F) where
  rel := Models
  turn := Transfer.turn
  rank := rank
  init := by
    rintro w rfl
    exact ⟨Duo.exchange m disk F, rfl, models_start rfl rfl⟩
  step := by
    intro w l w' d hr hrel hst
    obtain ⟨d', hrel', hmatch⟩ := hrel.matched (exchange_framed hg hr)
      (exchange_whole hl hg hfit ho hr hrel l) hst.2
    refine ⟨d', hrel', ?_⟩
    rcases hmatch with hsame | hnext
    · exact .inl hsame
    · exact .inr ⟨hst.1, hnext⟩

/-- The sides are only stuck where the parties are. -/
theorem exchange_stuck (hg : m.Consistent) (h : (Duo.exchange_runs sha1 m disk F).Reachable d)
    (hmodels : w.Models d) (hstuck : (exchange_runs sha1 m disk F).Stuck w) :
    (Duo.exchange_runs sha1 m disk F).Stuck d := by
  intro turn d' hst
  obtain ⟨k, w', hnext⟩ := hmodels.begins (exchange_framed hg h) hst.2
  exact hstuck ⟨turn, k⟩ w' ⟨hst.1, hnext⟩

end exchange

/-- **The download over streams**: an empty leecher and a seeder, alone with
    each other, whatever number of bytes each `send` and each `recv` takes and
    in whatever order the two move: they do not go on for ever, and where no
    step is left, which every run can be taken on to, both have closed the
    connection and the leecher's file begins with the original. -/
theorem stream_exchange_terminates (sha1 : Bytes → Bytes) {m : Metadata} {F : Bytes}
    (hl : m.mode = .LEECHER) (hg : m.Consistent) (hfit : m.CountFits) (ho : m.Original sha1 F)
    (disk : Option Bytes) {w : Streams} (h : (exchange_runs sha1 m disk F).Reachable w) :
    (∀ f : ℕ → Streams, f 0 = w →
        ¬ ∀ n, ∃ l, (exchange_runs sha1 m disk F).step (f n) l (f (n + 1))) ∧
      (∃ ls w', (exchange_runs sha1 m disk F).Path w ls w' ∧
        (exchange_runs sha1 m disk F).Stuck w') ∧
      ((exchange_runs sha1 m disk F).Stuck w →
        w.A.party.closed = true ∧ w.B.party.closed = true ∧
          w.A.party.ctl.wait_until_done = true ∧
          ∃ f, w.A.party.ctl.file = some f ∧ Region.slice f 0 F.length = F) := by
  obtain ⟨d, hd, hmodels⟩ := (exchange_simulation hl hg hfit ho disk).reachable h
  have hends := (exchange_simulation hl hg hfit ho disk).terminates Duo.charge
    (fun _ _ _ hs hst => Duo.charged hl hg hfit ho hs hst) hd hmodels
  refine ⟨fun f h0 => hends.no_infinite_run h0, hends.exists_stuck, ?_⟩
  intro hstuck
  rw [hmodels.A, hmodels.B]
  exact Duo.exchange_end hl hg hfit ho hd (exchange_stuck hg hd hmodels hstuck)

/-- The file arrives in two pieces. -/
theorem pair_stream_exchange : ∃ (ls : List Transfer) (w : Streams),
    (exchange_runs id (.pair .LEECHER [7] [8]) none [7, 8]).Path
      (start (Duo.exchange (.pair .LEECHER [7] [8]) none [7, 8])) ls w ∧
    w.A.party.closed = true ∧
      ∃ f, w.A.party.ctl.file = some f ∧ Region.slice f 0 2 = [7, 8] := by
  have hstart : (exchange_runs id (.pair .LEECHER [7] [8]) none [7, 8]).Reachable
      (start (Duo.exchange (.pair .LEECHER [7] [8]) none [7, 8])) := .init rfl
  obtain ⟨-, ⟨ls, w, hp, hstuck⟩, -⟩ := stream_exchange_terminates id rfl
    (Metadata.pair_consistent _ _ _) (Metadata.pair_countFits _ _ _) Metadata.pair_original none
    hstart
  obtain ⟨-, -, hend⟩ := stream_exchange_terminates id rfl (Metadata.pair_consistent _ _ _)
    (Metadata.pair_countFits _ _ _) Metadata.pair_original none (hp.reachable hstart)
  obtain ⟨hA, -, -, hfile⟩ := hend hstuck
  exact ⟨ls, w, hp, hA, hfile⟩

end Streams

end BitTorrentLite
