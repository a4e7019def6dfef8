import BitTorrentLite.LTS.System
import BitTorrentLite.Controller.Geometry

/-! # The Controller under Any Interleaving

    Peer threads share the controller and reach it through its methods only,
    each an atomic step, so any interleaving of any number of threads is a
    sequence of method calls. `Op` names the calls that change the state, with
    arbitrary arguments; a call that does not survive its arguments has no
    successor state.
-/

open Machine Region LTS

namespace BitTorrentLite

namespace Controller

/-- A call that changes the controller. `clear_status` is the Bitfield
    handler's store to `piece_status`, which takes no lock. -/
inductive Op where
  | next_request (bit_field : ℕ → Bool)
  | release_in_flight (piece_index block_offset : ℤ)
  | register_peer
  | unregister_peer (peer_id : ℕ)
  | drain_haves (peer_id : ℕ)
  | received_block (piece_index block_offset : ℤ) (data : Bytes)
  | clear_status (piece_index : ℤ)

/-- The state after a call. -/
def Op.exec (sha1 : Bytes → Bytes) (c : Controller) : Op → Except Fault Controller
  | .next_request bf => .ok (c.next_request bf).1
  | .release_in_flight i off => c.release_in_flight i off
  | .register_peer => .ok c.register_peer.1
  | .unregister_peer id => .ok (c.unregister_peer id)
  | .drain_haves id => .ok (c.drain_haves id).1
  | .received_block i off data => (c.received_block sha1 i off data).map Prod.fst
  | .clear_status i => c.clear_status i

/-- The runs of the controller from the state `c₀`. -/
def system (sha1 : Bytes → Bytes) (c₀ : Controller) : System Controller Op where
  init := fun c => c = c₀
  step := fun c op c' => op.exec sha1 c = .ok c'

/-- A computed call is a step. -/
theorem exec_step (sha1 : Bytes → Bytes) {c₀ : Controller} (c : Controller) (op : Op)
    (c' : Controller) (h : (op.exec sha1 c).toOption = some c') :
    (system sha1 c₀).step c op c' := by
  cases hex : op.exec sha1 c with
  | error e => rw [hex] at h; cases h
  | ok d =>
    rw [hex] at h
    exact hex.trans (congrArg _ (Option.some.inj h))

/-- What one call can do to the state: the calls that only touch the Have
    queues leave every other field alone. -/
inductive Stepped (sha1 : Bytes → Bytes) (c : Controller) : Controller → Prop where
  | queues (n : ℕ) (q : ℕ → Option (List ℤ)) :
      Stepped sha1 c { c with crnt_peer := n, send_haves := q }
  | claim (i : ℕ) (off : ℤ) : c.mode = .LEECHER → c.Available i off →
      Stepped sha1 c (c.claim i off)
  | release (i : ℕ) (off : ℤ) : i < c.total_pieces → Stepped sha1 c (c.release i off)
  | received (x off : ℤ) (data : Bytes) (c' : Controller) (done : Bool) :
      Received c sha1 x off data c' done → Stepped sha1 c c'
  | clear (i : ℕ) : i < c.total_pieces →
      Stepped sha1 c { c with piece_status := Function.update c.piece_status i 0 }

/-- A delivery that returns is one of the outcomes of `Received`. -/
theorem exec_received_block {sha1 : Bytes → Bytes} {c c' : Controller} {x off : ℤ} {data : Bytes}
    (h : (Op.received_block x off data).exec sha1 c = .ok c') :
    ∃ done, Received c sha1 x off data c' done := by
  cases hrec : c.received_block sha1 x off data with
  | error e => simp only [Op.exec, hrec] at h; cases h
  | ok r =>
    simp only [Op.exec, hrec] at h
    obtain rfl := Except.ok.inj h
    exact ⟨r.2, received_block_ok hrec⟩

theorem exec_stepped {sha1 : Bytes → Bytes} {c c' : Controller} {op : Op}
    (h : op.exec sha1 c = .ok c') : Stepped sha1 c c' := by
  cases op with
  | next_request bf =>
    cases hreq : c.next_request bf with
    | mk d req =>
      have hd : d = c' := by
        simp only [Op.exec, hreq] at h
        exact Except.ok.inj h
      subst hd
      cases req with
      | none =>
        rw [(next_request_none hreq).1]
        exact .queues c.crnt_peer c.send_haves
      | some req =>
        obtain ⟨hm, i, off, ha, -, -, rfl⟩ := next_request_some hreq
        exact .claim i off hm ha
  | release_in_flight x off =>
    obtain ⟨i, -, hi, rfl⟩ := release_in_flight_ok h
    exact .release i off hi
  | register_peer => obtain rfl := Except.ok.inj h; exact .queues _ _
  | unregister_peer id => obtain rfl := Except.ok.inj h; exact .queues _ _
  | drain_haves id => obtain rfl := Except.ok.inj h; exact .queues _ _
  | received_block x off data =>
    obtain ⟨done, hrec⟩ := exec_received_block h
    exact .received x off data c' done hrec
  | clear_status x =>
    obtain ⟨i, -, hi, rfl⟩ := clear_status_ok h
    exact .clear i hi

/-- `c'` has the blocks and the file of `c`, and no piece more is done. -/
structure Undisturbed (c c' : Controller) : Prop where
  toMetadata : c'.toMetadata = c.toMetadata
  piece_blocks : c'.piece_blocks = c.piece_blocks
  file : c'.file = c.file
  done : ∀ i, c'.piece_status i = 1 → c.piece_status i = 1

theorem undisturbed_queues (c : Controller) (n : ℕ) (q : ℕ → Option (List ℤ)) :
    c.Undisturbed { c with crnt_peer := n, send_haves := q } :=
  ⟨rfl, rfl, rfl, fun _ hj => hj⟩

theorem undisturbed_claim (c : Controller) (i : ℕ) (off : ℤ) : c.Undisturbed (c.claim i off) :=
  ⟨rfl, rfl, rfl, fun _ hj => done_of_update (by decide) hj⟩

theorem undisturbed_release (c : Controller) (i : ℕ) (off : ℤ) :
    c.Undisturbed (c.release i off) :=
  ⟨rfl, rfl, rfl, fun _ hj => hj⟩

theorem undisturbed_clear (c : Controller) (i : ℕ) :
    c.Undisturbed { c with piece_status := Function.update c.piece_status i 0 } :=
  ⟨rfl, rfl, rfl, fun _ hj => done_of_update (by decide) hj⟩

/-- Only `received_block` touches the blocks and the file, or finishes a piece. -/
theorem Stepped.received_or_undisturbed {sha1 : Bytes → Bytes} {c c' : Controller}
    (h : Stepped sha1 c c') :
    (∃ x off data done, Received c sha1 x off data c' done) ∨ c.Undisturbed c' := by
  cases h with
  | queues n q => exact .inr (c.undisturbed_queues n q)
  | claim i off => exact .inr (c.undisturbed_claim i off)
  | release i off => exact .inr (c.undisturbed_release i off)
  | received x off data c' done hrec => exact .inl ⟨x, off, data, done, hrec⟩
  | clear i => exact .inr (c.undisturbed_clear i)

/-- The same, with the call. -/
theorem exec_cases {sha1 : Bytes → Bytes} {c c' : Controller} {op : Op}
    (h : op.exec sha1 c = .ok c') :
    (∃ x off data done, op = .received_block x off data ∧ Received c sha1 x off data c' done) ∨
      c.Undisturbed c' := by
  cases op with
  | received_block x off data =>
    obtain ⟨done, hrec⟩ := exec_received_block h
    exact .inl ⟨x, off, data, done, rfl, hrec⟩
  | next_request bf =>
    have h : (c.next_request bf).1 = c' := Except.ok.inj h
    refine .inr ?_
    rcases next_request_cases c bf with ⟨hreq, -⟩ | ⟨i, off, -, -, -, hreq⟩
    · rw [hreq] at h
      subst h
      exact ⟨rfl, rfl, rfl, fun _ hj => hj⟩
    · rw [hreq] at h
      subst h
      exact c.undisturbed_claim i off
  | release_in_flight x off =>
    obtain ⟨i, -, hi, rfl⟩ := release_in_flight_ok h
    exact .inr (c.undisturbed_release i off)
  | register_peer | unregister_peer id | drain_haves id =>
    obtain rfl := Except.ok.inj h
    exact .inr (c.undisturbed_queues _ _)
  | clear_status x =>
    obtain ⟨i, -, hi, rfl⟩ := clear_status_ok h
    exact .inr (c.undisturbed_clear i)

/-- No call changes what the constructor was given. -/
theorem Stepped.toMetadata {sha1 : Bytes → Bytes} {c c' : Controller} (h : Stepped sha1 c c') :
    c'.toMetadata = c.toMetadata := by
  cases h with
  | queues | claim | release | clear => rfl
  | received x off data c' done hrec => exact hrec.toMetadata

theorem reachable_toMetadata {sha1 : Bytes → Bytes} {c₀ c : Controller}
    (h : (system sha1 c₀).Reachable c) : c.toMetadata = c₀.toMetadata := by
  refine System.invariant (I := fun c => c.toMetadata = c₀.toMetadata) ?_ ?_ c h
  · rintro c rfl
    rfl
  · intro c op c' _ hc hstep
    rw [(exec_stepped hstep).toMetadata, hc]

end Controller

end BitTorrentLite
