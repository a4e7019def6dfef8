import BitTorrentLite.LTS.Network
import BitTorrentLite.Network.Messages

/-! # A Network of Clients

    Any number of clients run this program for one torrent: seeders that have
    the original file, and leechers. Each is a component with one port for
    every peer id it hands out; two ports are the two ends of a connection.
    Which clients connect, how the threads of all of them interleave, which
    sends fail and which connections break is free: a step that reads the end
    of the stream, or a send that fails, is always possible.

    The clients are honest because each of them runs the same loop: a client
    that reads honest messages sends honest messages.
-/

open Machine Region LTS

namespace BitTorrentLite

open Controller

namespace Metadata

/-- The torrent as a client of this mode has it. -/
def playing (m : Metadata) (mode : Mode) : Metadata := { m with mode := mode }

/-- The torrent was made of the file `F`, its numbers agree and the blocks of
    its pieces can be counted. -/
structure Describes (sha1 : Bytes → Bytes) (m : Metadata) (F : Bytes) : Prop where
  consistent : m.Consistent
  fits : m.CountFits
  original : m.Original sha1 F

theorem Describes.playing {sha1 : Bytes → Bytes} {m : Metadata} {F : Bytes}
    (hm : m.Describes sha1 F) (mode : Mode) : (m.playing mode).Describes sha1 F where
  consistent := ⟨hm.consistent.piece_length_pos, hm.consistent.piece_length_int,
    hm.consistent.length_pos, hm.consistent.length_int64, hm.consistent.pieces_int,
    hm.consistent.pieces, hm.consistent.hashes⟩
  fits := hm.fits
  original := ⟨hm.original.length, hm.original.hashes⟩

end Metadata

/-- The clients that exchange the file `F`: the mode of each, and what its file
    holds at the start. A seeder has the original. -/
structure Clients (ι : Type) (F : Bytes) where
  mode : ι → Mode
  disk : ι → Option Bytes
  seeds : ∀ i, mode i = .SEEDER → disk i = some F

/-! ## A Client as a Component -/

/-- What a step reads: the message and the id of the peer it comes from. -/
def Action.reads : Action → Option (ℕ × PeerMessage)
  | .thread id (.recv (some msg)) => some (id, msg)
  | _ => none

/-- What a step sends, and to whom. -/
def Swarm.sends (s : Swarm) : Action → Option (ℕ × PeerMessage)
  | .thread id (.sent true) => (s.threads id).bind fun t => t.pc.output.map fun msg => (id, msg)
  | _ => none

/-- A client. -/
def client (sha1 : Bytes → Bytes) (m : Metadata) (disk : Option Bytes) :
    Component Swarm ℕ PeerMessage Action where
  start := Swarm.start m disk
  next := fun s a => s.next sha1 a
  reads := Action.reads
  sends := Swarm.sends

/-- The clients of a network. -/
def clients {ι : Type} {F : Bytes} (sha1 : Bytes → Bytes) (m : Metadata) (cs : Clients ι F) :
    ι → Component Swarm ℕ PeerMessage Action :=
  fun i => client sha1 (m.playing (cs.mode i)) (cs.disk i)

theorem Action.reads_eq {id : ℕ} {inp : Input} {p : ℕ} {msg : PeerMessage}
    (h : (Action.thread id inp).reads = some (p, msg)) : p = id ∧ inp = .recv (some msg) := by
  unfold Action.reads at h
  split at h
  · rename_i heq
    obtain ⟨rfl, rfl⟩ := Action.thread.inj heq
    obtain ⟨rfl, rfl⟩ := Prod.mk.inj (Option.some.inj h)
    exact ⟨rfl, rfl⟩
  · cases h

/-! ## What Each Client Keeps -/

/-- What holds at a client that has read honest messages only. -/
structure Swarm.Fair (F : Bytes) (s : Swarm) : Prop where
  stocked : s.ctl.Stocked F
  quotes : s.ctl.Quotes F
  holds : ∀ id t, s.threads id = some t → t.Holds s.ctl.Whole
  speaks : ∀ id t, s.threads id = some t → t.pc.Speaks F s.ctl

namespace Swarm

variable {sha1 : Bytes → Bytes} {m : Metadata} {F : Bytes} {disk : Option Bytes} {s s' : Swarm}
  {a : Action}

theorem fair_start (hm : m.Describes sha1 F) (hdisk : m.mode = .SEEDER → disk = some F) :
    (start m disk).Fair F where
  stocked := stocked_make hm.consistent hm.original hdisk
  quotes := by
    intro id q hq
    cases hq
  holds := by
    intro id t ht
    cases ht
  speaks := by
    intro id t ht
    cases ht

/-- A connection. -/
theorem Fair.connected (h : s.Fair F) (id : ℕ) :
    (s.resume s.ctl.register_peer.1 id ⟨{}, .handshake⟩).Fair F where
  stocked := h.stocked.undisturbed (s.ctl.undisturbed_queues _ _)
  quotes := by
    intro id q hid x hx
    change Function.update s.ctl.send_haves s.ctl.crnt_peer (some []) id = some q at hid
    by_cases heq : id = s.ctl.crnt_peer
    · subst heq
      rw [Function.update_self] at hid
      obtain rfl := Option.some.inj hid
      cases hx
    · rw [Function.update_of_ne heq] at hid
      exact h.quotes id q hid x hx
  holds := by
    intro id t ht
    rcases resume_threads ht with ⟨-, rfl⟩ | ⟨-, ht⟩
    · exact holds_of_no_requests (fun _ hreq => by cases hreq) rfl
    · exact h.holds id t ht
  speaks := by
    intro id t ht
    rcases resume_threads ht with ⟨-, rfl⟩ | ⟨-, ht⟩
    · trivial
    · exact (h.speaks id t ht).mono rfl fun i hi => hi

/-- **Step lemma**: a client that reads an honest message stays so. -/
theorem Fair.stepped (hm : s.ctl.Describes sha1 F) (h : s.Fair F) (hst : Stepped sha1 s a s')
    (hread : ∀ p msg, a.reads = some (p, msg) → Honest s.ctl.toMetadata F msg) : s'.Fair F := by
  cases hst with
  | connected => exact h.connected _
  | moved id inp t t' c' ht hmove =>
    have hpc := h.speaks id t ht
    have hmeta := hmove.toMetadata
    have hmsg : ∀ msg, inp = .recv (some msg) → Honest s.ctl.toMetadata F msg := by
      intro msg hinp
      subst hinp
      exact hread id msg rfl
    obtain ⟨hg, hfit, ho⟩ := hm
    have hstock := hmove.stocked hg hfit ho h.stocked hpc
    have hquotes := hmove.quotes hg hfit ho h.stocked hpc h.quotes
    refine ⟨hstock, hquotes, ?_, ?_⟩
    · intro id' t₁ ht₁
      change t₁.Holds c'.Whole
      rw [hmeta]
      rcases resume_threads ht₁ with ⟨-, rfl⟩ | ⟨-, ht₁⟩
      · apply hmove.holds ?_ (h.holds id t ht)
        intro p hinp _ _
        exact (hmsg _ hinp).2
      · exact h.holds id' t₁ ht₁
    · intro id' t₁ ht₁
      rcases resume_threads ht₁ with ⟨-, rfl⟩ | ⟨-, ht₁⟩
      · exact hmove.speaks hg hfit h.stocked h.quotes hpc (h.holds id t ht) hmsg
      · exact (h.speaks id' t₁ ht₁).mono hmeta (hmove.held hg hfit ho h.stocked hpc)

/-- What a client sends is honest and tells of pieces on its disk. -/
theorem Fair.sent (hg : s.ctl.Consistent) (h : s.Fair F) {p : ℕ} {msg : PeerMessage}
    (hsend : s.sends a = some (p, msg)) :
    Honest s.ctl.toMetadata F msg ∧ ∀ i, Tells s.ctl.toMetadata msg i → s.ctl.Held F i := by
  unfold sends at hsend
  split at hsend
  · rename_i id
    obtain ⟨t, ht, hmap⟩ := Option.bind_eq_some_iff.mp hsend
    obtain ⟨out, hout, heq⟩ := Option.map_eq_some_iff.mp hmap
    obtain ⟨-, rfl⟩ := Prod.mk.inj heq
    exact (h.speaks id t ht).output hg hout
  · cases hsend

/-- What lies on the disk stays there. -/
theorem Fair.held (hm : s.ctl.Describes sha1 F) (h : s.Fair F) (hst : Stepped sha1 s a s')
    {i : ℕ} (hi : s.ctl.Held F i) : s'.ctl.Held F i := by
  cases hst with
  | connected => exact hi
  | moved id inp t t' c' ht hmove =>
    exact hmove.held hm.consistent hm.fits hm.original h.stocked (h.speaks id t ht) i hi

end Swarm

/-! ## The Contract of the Network -/

section network

variable {ι : Type} {sha1 : Bytes → Bytes} {m : Metadata} {F : Bytes}

/-- **The contract**: a client that reads honest messages stays fair and sends
    honest messages. -/
def fair_contract (hm : m.Describes sha1 F) (cs : Clients ι F) :
    Network.Contract (clients sha1 m cs) where
  holds := fun _ s => s.Fair F
  good := Honest m F
  init := fun i => Swarm.fair_start (hm.playing _) (cs.seeds i)
  kept := by
    intro i s a s' hr hs hst hread
    have hmeta : s.ctl.toMetadata = m.playing (cs.mode i) := Swarm.reachable_toMetadata hr
    have hm' : s.ctl.Describes sha1 F := hmeta ▸ hm.playing _
    apply hs.stepped hm' (Swarm.next_stepped hst)
    intro p msg hp
    rw [hmeta]
    exact hread p msg hp
  sent := by
    intro i s a s' p msg hr hs _ hsend
    have hmeta : s.ctl.toMetadata = m.playing (cs.mode i) := Swarm.reachable_toMetadata hr
    have hsent := (hs.sent (hmeta ▸ (hm.playing _).consistent) hsend).1
    rw [hmeta] at hsent
    exact hsent

end network

end BitTorrentLite
