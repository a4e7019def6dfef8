import BitTorrentLite.Swarm.Holding

/-! # No Block Is Asked of Two Peers

    `next_request` passes over a block that is in flight, that is stored or
    whose piece is done, and every block a thread holds is one of these. Three
    things break that:

    * a piece that does not match its hash is opened again, and requests for
      its blocks that others have answered are still around;
    * so is a piece that was finished between `next_request` and the store to
      `piece_status` in the Bitfield handler;
    * the Choke handler releases its blocks before it clears its list.

    `Orderly` excludes just these steps.
-/

open Machine LTS

namespace BitTorrentLite

/-! ## Busy Blocks -/

namespace Controller

variable {sha1 : Bytes → Bytes} {c c' : Controller} {i j : ℕ} {off o : ℤ}

/-- A block of a piece that is done, a stored block or one in flight. -/
def Busy (c : Controller) (i : ℕ) (off : ℤ) : Prop :=
  off ∈ c.inflight i ∨ (c.piece_blocks i off).isSome ∨ c.piece_status i = 1

/-- A block completes its piece, and the piece does not match its hash. -/
structure Spoils (sha1 : Bytes → Bytes) (c : Controller) (i : ℕ) (off : ℤ) (data : Bytes) :
    Prop where
  mode : c.mode = .LEECHER
  length : (data.length : ℤ) = c.block_size i off
  complete : (c.store i off data).complete i = true
  hash : sha1 ((c.store i off data).assembled i) ≠ c.piece_hash.getD i []

theorem Available.not_busy (h : c.Available i off) : ¬ c.Busy i off := by
  rintro (hin | hsome | hdone)
  · exact h.not_inflight hin
  · rw [h.not_stored] at hsome
    cases hsome
  · exact h.missing hdone

theorem Busy.same (h : c.Busy i off) (hc : c.SameBlocks c') : c'.Busy i off := by
  unfold Busy
  rw [hc.inflight, hc.piece_blocks, hc.piece_status]
  exact h

theorem busy_claim_self (c : Controller) (i : ℕ) (off : ℤ) : (c.claim i off).Busy i off :=
  .inl (mem_claim.mpr (.inl ⟨rfl, rfl⟩))

/-- The piece of a block that is handed out was not done. -/
theorem Busy.claim (h : c.Busy i off) (ha : c.Available j o) : (c.claim j o).Busy i off := by
  rcases h with hin | hsome | hdone
  · exact .inl (mem_claim.mpr (.inr hin))
  · exact .inr (.inl hsome)
  · have hij : i ≠ j := by
      rintro rfl
      exact ha.missing hdone
    exact .inr (.inr ((Function.update_of_ne hij ..).trans hdone))

theorem Busy.release (h : c.Busy i off) (hne : ¬(i = j ∧ off = o)) :
    (c.release j o).Busy i off := by
  rcases h with hin | hrest
  · exact .inl (mem_release.mpr ⟨hne, hin⟩)
  · exact .inr hrest

theorem Busy.clear (h : c.Busy i off) (hdone : c.piece_status j = 1 → i ≠ j) :
    Busy { c with piece_status := Function.update c.piece_status j 0 } i off := by
  rcases h with hin | hsome | hst
  · exact .inl hin
  · exact .inr (.inl hsome)
  · have hij : i ≠ j := by
      rintro rfl
      exact hdone hst rfl
    exact .inr (.inr ((Function.update_of_ne hij ..).trans hst))

theorem Busy.store (h : c.Busy i off) (j : ℕ) (o : ℤ) (data : Bytes) :
    (c.store j o data).Busy i off := by
  by_cases hself : i = j ∧ off = o
  -- the stored block itself
  · obtain ⟨rfl, rfl⟩ := hself
    refine .inr (.inl ?_)
    rw [store_piece_blocks, Function.update_self, Function.update_self]
    rfl
  · rcases h with hin | hsome | hst
    · exact .inl (mem_release.mpr ⟨hself, hin⟩)
    · refine .inr (.inl ?_)
      rw [store_piece_blocks]
      simp only [Function.update_apply]
      split
      · rename_i hij
        subst hij
        simp only [Function.update_apply]
        split
        · rfl
        · exact hsome
      · exact hsome
    · exact .inr (.inr hst)

/-- When a piece is settled, the blocks of the others stay as they were. -/
theorem Busy.settle (h : c.Busy i off) {n : ℕ} (hne : n ≠ 1 → i ≠ j) :
    (c.settle j n).Busy i off := by
  by_cases hij : i = j
  · subst hij
    have hn : n = 1 := by
      by_contra hn
      exact hne hn rfl
    exact .inr (.inr ((Function.update_self ..).trans hn))
  · rcases h with hin | hsome | hst
    · exact .inl hin
    · refine .inr (.inl ?_)
      rw [settle_piece_blocks, Function.update_of_ne hij]
      exact hsome
    · exact .inr (.inr ((Function.update_of_ne hij ..).trans hst))

/-- Only a piece that does not match its hash has blocks that become free. -/
theorem Busy.received (h : c.Busy i off) {x : ℤ} {data : Bytes} {done : Bool}
    (hrec : Received c sha1 x o data c' done)
    (hok : ∀ j : ℕ, x = j → c.Spoils sha1 j o data → i ≠ j) : c'.Busy i off := by
  cases hrec with
  | rejected => exact h
  | stored j => exact h.store j o data
  | mismatch j hx _ hl hlen hcomp hhash =>
    exact (h.store j o data).settle fun _ => hok j hx ⟨hl, hlen, hcomp, hhash⟩
  | finished j =>
    have hwritten : Busy ((c.store j o data).write_to_disk j ((c.store j o data).assembled j))
        i off := h.store j o data
    exact hwritten.settle (j := j) (n := 1) fun hne => absurd rfl hne

end Controller

/-! ## The Invariant -/

def Thread.held (m : Metadata) (t : Thread) : List (ℤ × ℤ) := t.pc.held m t.state

def Thread.asked (t : Thread) : List (ℤ × ℤ) := t.pc.asked t.state

namespace Swarm

open Controller

variable {sha1 : Bytes → Bytes} {m : Metadata} {disk : Option Bytes} {s s' : Swarm} {a : Action}

/-- Some thread holds a block of piece `i`. -/
def PieceHeld (s : Swarm) (i : ℕ) : Prop :=
  ∃ id t off, s.threads id = some t ∧ ((i : ℤ), off) ∈ t.held s.ctl.toMetadata

/-- A step that opens no piece again while a thread holds a block of it, and
    that does not ask for a block while one that could be handed out is on the
    list of a thread in the Choke handler, released already. -/
def Orderly (sha1 : Bytes → Bytes) (s : Swarm) : Action → Prop
  | .connect => True
  | .thread id _ => ∀ t, s.threads id = some t → match t.pc with
    | .received x off data => ∀ i : ℕ, x = i → s.ctl.Spoils sha1 i off data → ¬ s.PieceHeld i
    | .bitfield_store req =>
      ∀ i : ℕ, req.piece_index = i → s.ctl.piece_status i = 1 → ¬ s.PieceHeld i
    | .request => ∀ id' u req rest, s.threads id' = some u → u.pc = .choke_release req rest →
      ∀ (i : ℕ) (off : ℤ), ((i : ℤ), off) ∈ u.state.pending_keys →
        ((i : ℤ), off) ∉ (req :: rest).map BlockRequest.key →
        s.ctl.Available i off → t.state.peer_bitfield i = false
    | _ => True

/-- Every block is held by one thread, once, and asked of one peer. -/
structure Exclusive (s : Swarm) : Prop where
  busy : ∀ id t, s.threads id = some t → ∀ k ∈ t.held s.ctl.toMetadata,
    ∃ i : ℕ, k.1 = i ∧ s.ctl.Busy i k.2
  nodup : ∀ id t, s.threads id = some t → (t.held s.ctl.toMetadata).Nodup
  held : ∀ id id' t t' k, id ≠ id' → s.threads id = some t → s.threads id' = some t' →
    k ∈ t.held s.ctl.toMetadata → k ∉ t'.held s.ctl.toMetadata
  asked : ∀ id id' t t' k, id ≠ id' → s.threads id = some t → s.threads id' = some t' →
    k ∈ t.asked → k ∉ t'.asked

/-- A key that the thread `id` had, or that no other thread has. -/
def Kept (s : Swarm) (id : ℕ) (keys : Thread → List (ℤ × ℤ)) (k : ℤ × ℤ) : Prop :=
  (∃ t, s.threads id = some t ∧ k ∈ keys t) ∨
    ∀ id' u, id' ≠ id → s.threads id' = some u → k ∉ keys u

/-- One thread goes on; the others keep theirs. -/
theorem apart_resume {keys : Thread → List (ℤ × ℤ)} {c' : Controller} {id : ℕ} {t' : Thread}
    (h : ∀ id id' t t' k, id ≠ id' → s.threads id = some t → s.threads id' = some t' →
      k ∈ keys t → k ∉ keys t')
    (hkept : ∀ k ∈ keys t', s.Kept id keys k) :
    ∀ id₁ id₂ t₁ t₂ k, id₁ ≠ id₂ → (s.resume c' id t').threads id₁ = some t₁ →
      (s.resume c' id t').threads id₂ = some t₂ → k ∈ keys t₁ → k ∉ keys t₂ := by
  intro id₁ id₂ t₁ t₂ k hne h₁ h₂ hk₁ hk₂
  rcases resume_threads h₁ with ⟨rfl, rfl⟩ | ⟨hne₁, hu₁⟩ <;>
    rcases resume_threads h₂ with ⟨rfl, rfl⟩ | ⟨hne₂, hu₂⟩
  · exact hne rfl
  · rcases hkept k hk₁ with ⟨t, ht, hk⟩ | hno
    · exact h id₁ id₂ t t₂ k hne ht hu₂ hk hk₂
    · exact hno id₂ t₂ hne₂ hu₂ hk₂
  · rcases hkept k hk₂ with ⟨t, ht, hk⟩ | hno
    · exact h id₂ id₁ t t₁ k (Ne.symm hne) ht hu₁ hk hk₁
    · exact hno id₁ t₁ hne₁ hu₁ hk₁
  · exact h id₁ id₂ t₁ t₂ k hne hu₁ hu₂ hk₁ hk₂

/-- The thread `id` goes on as `t'`: what is to be shown of it and of the
    blocks of the others. -/
theorem Exclusive.resume (h : s.Exclusive) {c' : Controller} {id : ℕ} {t' : Thread}
    (hmeta : c'.toMetadata = s.ctl.toMetadata)
    (hothers : ∀ id' u, id' ≠ id → s.threads id' = some u → ∀ (i : ℕ) (off : ℤ),
      ((i : ℤ), off) ∈ u.held s.ctl.toMetadata → s.ctl.Busy i off → c'.Busy i off)
    (hmine : ∀ k ∈ t'.held s.ctl.toMetadata, ∃ i : ℕ, k.1 = i ∧ c'.Busy i k.2)
    (hnodup : (t'.held s.ctl.toMetadata).Nodup)
    (hheld : ∀ k ∈ t'.held s.ctl.toMetadata, s.Kept id (Thread.held s.ctl.toMetadata) k)
    (hasked : ∀ k ∈ t'.asked, s.Kept id Thread.asked k) : (s.resume c' id t').Exclusive where
  busy := by
    intro id₁ u hu
    have hmeta' : (s.resume c' id t').ctl.toMetadata = s.ctl.toMetadata := hmeta
    rw [hmeta']
    rcases resume_threads hu with ⟨-, rfl⟩ | ⟨hne, hu⟩
    · exact hmine
    · rintro ⟨x, off⟩ hk
      obtain ⟨i, rfl, hbusy⟩ := h.busy id₁ u hu (x, off) hk
      exact ⟨i, rfl, hothers id₁ u hne hu i off hk hbusy⟩
  nodup := by
    intro id₁ u hu
    have hmeta' : (s.resume c' id t').ctl.toMetadata = s.ctl.toMetadata := hmeta
    rw [hmeta']
    rcases resume_threads hu with ⟨-, rfl⟩ | ⟨-, hu⟩
    · exact hnodup
    · exact h.nodup id₁ u hu
  held := by
    have hmeta' : (s.resume c' id t').ctl.toMetadata = s.ctl.toMetadata := hmeta
    rw [hmeta']
    exact apart_resume h.held hheld
  asked := apart_resume h.asked hasked

/-! ### One Step -/

section steps

variable {id : ℕ} {t t' : Thread} {c' : Controller}

/-- What a thread keeps of its blocks stays busy when the blocks do. -/
theorem Exclusive.mine (h : s.Exclusive) (ht : s.threads id = some t)
    (hsub : t'.held s.ctl.toMetadata ⊆ t.held s.ctl.toMetadata)
    (hbusy : ∀ (i : ℕ) (off : ℤ), ((i : ℤ), off) ∈ t'.held s.ctl.toMetadata →
      s.ctl.Busy i off → c'.Busy i off) :
    ∀ k ∈ t'.held s.ctl.toMetadata, ∃ i : ℕ, k.1 = i ∧ c'.Busy i k.2 := by
  rintro ⟨x, off⟩ hk
  obtain ⟨i, rfl, hb⟩ := h.busy id t ht (x, off) (hsub hk)
  exact ⟨i, rfl, hbusy i off hk hb⟩

theorem kept_of_subset {keys : Thread → List (ℤ × ℤ)} (ht : s.threads id = some t)
    (hsub : keys t' ⊆ keys t) : ∀ k ∈ keys t', s.Kept id keys k :=
  fun _ hk => .inl ⟨t, ht, hsub hk⟩

/-- The thread holds what it held, and all held blocks stay busy. -/
theorem Exclusive.resume_same (h : s.Exclusive) (ht : s.threads id = some t)
    (hmeta : c'.toMetadata = s.ctl.toMetadata)
    (hkept : ∀ id' u, s.threads id' = some u → ∀ (i : ℕ) (off : ℤ),
      ((i : ℤ), off) ∈ u.held s.ctl.toMetadata → s.ctl.Busy i off → c'.Busy i off)
    (hheld : t'.held s.ctl.toMetadata = t.held s.ctl.toMetadata) (hasked : t'.asked ⊆ t.asked) :
    (s.resume c' id t').Exclusive := by
  have hsub : t'.held s.ctl.toMetadata ⊆ t.held s.ctl.toMetadata := by
    rw [hheld]
    exact List.Subset.refl _
  refine h.resume hmeta (fun id' u _ hu => hkept id' u hu)
    (h.mine ht hsub fun i off hk => hkept id t ht i off (hsub hk)) ?_
    (kept_of_subset ht hsub) (kept_of_subset ht hasked)
  rw [hheld]
  exact h.nodup id t ht

/-- A block that can be handed out is held by no thread. -/
theorem Exclusive.not_held (h : s.Exclusive) {i : ℕ} {off : ℤ} (ha : s.ctl.Available i off)
    (ht : s.threads id = some t) : ((i : ℤ), off) ∉ t.held s.ctl.toMetadata := by
  intro hk
  obtain ⟨j, hj, hb⟩ := h.busy id t ht _ hk
  obtain rfl : i = j := Int.natCast_inj.mp hj
  exact ha.not_busy hb

/-- A block is handed out to be asked for: it was asked of no other peer. -/
theorem Exclusive.not_asked (h : s.Exclusive) {inp : Input} {i : ℕ} {off : ℤ}
    (hok : s.Orderly sha1 (.thread id inp)) (ht : s.threads id = some t) (hpc : t.pc = .request)
    (hbf : t.state.peer_bitfield i = true) (ha : s.ctl.Available i off) {id' : ℕ} {u : Thread}
    (hu : s.threads id' = some u) : ((i : ℤ), off) ∉ u.asked := by
  intro hk
  have hnot := h.not_held ha hu
  by_cases hchoke : ∃ req rest, u.pc = .choke_release req rest
  · obtain ⟨req, rest, hupc⟩ := hchoke
    unfold Thread.asked at hk
    unfold Thread.held at hnot
    rw [hupc] at hk hnot
    -- it is not among those still to be released, so it has been released
    rcases List.mem_append.mp hk with hleft | hlisted
    · exact hnot hleft
    · have hok := hok t ht
      rw [hpc] at hok
      rw [hok id' u req rest hu hupc i off hlisted hnot ha] at hbf
      cases hbf
  · push Not at hchoke
    exact hnot (asked_subset_held hchoke hk)

/-- A thread is handed a block nobody holds. -/
theorem Exclusive.handed (h : s.Exclusive) (ht : s.threads id = some t) {i : ℕ} {off : ℤ}
    (ha : s.ctl.Available i off)
    (hheld : t'.held s.ctl.toMetadata = ((i : ℤ), off) :: t.held s.ctl.toMetadata)
    (hasked : ∀ k ∈ t'.asked, s.Kept id Thread.asked k) :
    (s.resume (s.ctl.claim i off) id t').Exclusive := by
  refine h.resume rfl (fun _ _ _ _ _ _ _ hb => hb.claim ha) (fun k hk => ?_) ?_
    (fun k hk => ?_) hasked
  · rw [hheld] at hk
    rcases List.mem_cons.mp hk with rfl | hk
    · exact ⟨i, rfl, busy_claim_self s.ctl i off⟩
    · obtain ⟨j, hj, hb⟩ := h.busy id t ht k hk
      exact ⟨j, hj, hb.claim ha⟩
  · rw [hheld]
    exact List.nodup_cons.mpr ⟨h.not_held ha ht, h.nodup id t ht⟩
  · rw [hheld] at hk
    rcases List.mem_cons.mp hk with rfl | hk
    · exact .inr fun id' u _ hu => h.not_held ha hu
    · exact .inl ⟨t, ht, hk⟩

/-- A thread gives back a block it holds. -/
theorem Exclusive.released (h : s.Exclusive) (ht : s.threads id = some t) {i : ℕ} {off : ℤ}
    (hheld : t.held s.ctl.toMetadata = ((i : ℤ), off) :: t'.held s.ctl.toMetadata)
    (hasked : t'.asked ⊆ t.asked) : (s.resume (s.ctl.release i off) id t').Exclusive := by
  have hmem : ((i : ℤ), off) ∈ t.held s.ctl.toMetadata := by
    rw [hheld]
    exact List.mem_cons_self ..
  have hsub : t'.held s.ctl.toMetadata ⊆ t.held s.ctl.toMetadata := by
    rw [hheld]
    exact List.subset_cons_self ..
  have hnodup := h.nodup id t ht
  rw [hheld] at hnodup
  obtain ⟨hfresh, hnodup⟩ := List.nodup_cons.mp hnodup
  refine h.resume rfl (fun id' u hne hu j o hk hb => hb.release ?_)
    (h.mine ht hsub fun j o hk hb => hb.release ?_) hnodup (kept_of_subset ht hsub)
    (kept_of_subset ht hasked)
  · rintro ⟨rfl, rfl⟩
    exact h.held id id' t u _ (Ne.symm hne) ht hu hmem hk
  · rintro ⟨rfl, rfl⟩
    exact hfresh hk

/-- **Step lemma**, for a thread that moves. -/
theorem Exclusive.moved (h : s.Exclusive) {inp : Input} (hok : s.Orderly sha1 (.thread id inp))
    (ht : s.threads id = some t)
    (hmove : Move sha1 s.ctl id t.state t.pc inp c' t'.state t'.pc) :
    (s.resume c' id t').Exclusive := by
  have hmeta := hmove.toMetadata
  cases hmove.holding with
  | quiet hc hheld hasked =>
    obtain ⟨l, hperm, hsub⟩ := hheld
    have hheld : t'.held s.ctl.toMetadata ⊆ t.held s.ctl.toMetadata :=
      fun k hk => hsub.subset (hperm.symm.subset hk)
    exact h.resume hmeta (fun _ _ _ _ _ _ _ hb => hb.same hc)
      (h.mine ht hheld fun _ _ _ hb => hb.same hc)
      (hperm.nodup_iff.mp (hsub.nodup (h.nodup id t ht))) (kept_of_subset ht hheld)
      (kept_of_subset ht hasked)
  | handed i off ha hc hheld hasked =>
    subst hc
    refine h.handed ht ha hheld fun k hk => ?_
    rcases hasked with hsub | ⟨hpc, hbf, hasked⟩
    · exact .inl ⟨t, ht, hsub hk⟩
    · have hasked : t'.asked = ((i : ℤ), off) :: t.asked := hasked
      rw [hasked] at hk
      rcases List.mem_cons.mp hk with rfl | hk
      · exact .inr fun id' u _ hu => h.not_asked hok ht hpc hbf ha hu
      · exact .inl ⟨t, ht, hk⟩
  | released i off hc hheld hasked =>
    subst hc
    exact h.released ht hheld hasked
  | received x off data done hpc hrec hheld hasked =>
    have hok := hok t ht
    rw [hpc] at hok
    have hkept : ∀ id' u, s.threads id' = some u → ∀ (i : ℕ) (o : ℤ),
        ((i : ℤ), o) ∈ u.held s.ctl.toMetadata → s.ctl.Busy i o → c'.Busy i o := by
      intro id' u hu i o hk hb
      refine hb.received hrec fun j hx hspoils hij => ?_
      exact hok j hx hspoils ⟨id', u, o, hu, hij ▸ hk⟩
    exact h.resume_same ht hmeta hkept hheld hasked
  | cleared req j hpc hj hc hheld hasked =>
    subst hc
    have hok := hok t ht
    rw [hpc] at hok
    have hkept : ∀ id' u, s.threads id' = some u → ∀ (i : ℕ) (o : ℤ),
        ((i : ℤ), o) ∈ u.held s.ctl.toMetadata → s.ctl.Busy i o →
        Busy { s.ctl with piece_status := Function.update s.ctl.piece_status j 0 } i o := by
      intro id' u hu i o hk hb
      refine hb.clear fun hdone hij => ?_
      exact hok j hj hdone ⟨id', u, o, hu, hij ▸ hk⟩
    exact h.resume_same ht hmeta hkept hheld hasked

end steps

theorem Exclusive.stepped (h : s.Exclusive) (hok : s.Orderly sha1 a) (hst : Stepped sha1 s a s') :
    s'.Exclusive := by
  cases hst with
  | connected =>
    -- the new thread has nothing yet
    refine h.resume rfl (fun _ _ _ _ _ _ _ hb => hb.same ⟨rfl, rfl, rfl⟩) ?_ List.nodup_nil ?_ ?_
    all_goals
      intro k hk
      cases hk
  | moved id inp t t' c' ht hmove => exact h.moved hok ht hmove

/-- **Run lemma**: in every state that orderly steps lead to. -/
theorem reachable_exclusive
    (h : ((system sha1 m disk).restrict (Orderly sha1)).Reachable s) : s.Exclusive := by
  refine System.invariant (I := Exclusive) ?_ ?_ s h
  · rintro s rfl
    exact ⟨fun _ _ ht => (nomatch ht), fun _ _ ht => (nomatch ht),
      fun _ _ _ _ _ _ ht => (nomatch ht), fun _ _ _ _ _ _ ht => (nomatch ht)⟩
  · intro s a s' _ hs hst
    exact hs.stepped hst.1 (next_stepped hst.2)

/-! ## One Peer for Each Block -/

end Swarm

/-- A peer whose thread is in the loop, not on its way out. -/
def PC.connected : PC → Bool
  | .cleanup _ _ => false
  | .unregister => false
  | .closed => false
  | _ => true

/-- The release loops of the Choke handler and of the cleanup. -/
def PC.gives_back : PC → Bool
  | .choke_release _ _ => true
  | .cleanup _ _ => true
  | _ => false

theorem pending_subset_asked {st : PeerState} {pc : PC} (h : pc.connected = true) :
    st.pending_keys ⊆ pc.asked st := by
  cases pc with
  | send_request req => exact List.subset_cons_self ..
  | choke_release req rest => exact List.subset_append_right ..
  | cleanup req rest => cases h
  | unregister => cases h
  | closed => cases h
  | _ => exact List.Subset.refl _

/-- The release loops take one block off, and it is one that was asked for. -/
theorem Move.given_back {sha1 : Bytes → Bytes} {c c' : Controller} {id : ℕ} {st st' : PeerState}
    {pc pc' : PC} {inp : Input} (h : Move sha1 c id st pc inp c' st' pc')
    (hpc : pc.gives_back = true) :
    ∃ (i : ℕ) (off : ℤ), c' = c.release i off ∧ ((i : ℤ), off) ∈ pc.asked st := by
  cases h
  case choke_released req req' rest i hi _ =>
    exact ⟨i, _, rfl, by rw [← key_eq hi]; exact List.mem_cons_self ..⟩
  case choke_cleared req i hi _ =>
    exact ⟨i, _, rfl, by rw [← key_eq hi]; exact List.mem_cons_self ..⟩
  case cleanup_released req req' rest i hi _ =>
    exact ⟨i, _, rfl, by rw [← key_eq hi]; exact List.mem_cons_self ..⟩
  case cleanup_done req i hi _ =>
    exact ⟨i, _, rfl, by rw [← key_eq hi]; exact List.mem_cons_self ..⟩
  all_goals cases hpc

namespace Swarm

open Controller

variable {sha1 : Bytes → Bytes} {m : Metadata} {disk : Option Bytes} {s s' : Swarm} {a : Action}

/-- **Exclusive assignment**: in every run of orderly steps no block is in the
    request lists of two connected peers, and the release loops of Choke and of
    the cleanup take no block off that is on the list of another one. -/
theorem exclusive_assignment (sha1 : Bytes → Bytes) (m : Metadata) (disk : Option Bytes)
    {s : Swarm} (h : ((system sha1 m disk).restrict (Orderly sha1)).Reachable s) :
    (∀ id id' t t', id ≠ id' → s.threads id = some t → s.threads id' = some t' →
      t.pc.connected = true → t'.pc.connected = true →
      ∀ req ∈ t.state.pending_requests, ∀ req' ∈ t'.state.pending_requests,
        ¬(req.piece_index = req'.piece_index ∧ req.block_offset = req'.block_offset)) ∧
    (∀ id t inp s', s.threads id = some t → t.pc.gives_back = true →
      (system sha1 m disk).step s (.thread id inp) s' →
      ∀ id' t', id' ≠ id → s.threads id' = some t' → t'.pc.connected = true →
      ∀ req ∈ t'.state.pending_requests, ∀ i : ℕ, req.piece_index = i →
        req.block_offset ∈ s.ctl.inflight i → req.block_offset ∈ s'.ctl.inflight i) := by
  have hex := reachable_exclusive h
  constructor
  · rintro id id' t t' hne ht ht' hconn hconn' req hreq req' hreq' ⟨hx, hoff⟩
    have hkey : req.key = req'.key := Prod.ext hx hoff
    refine hex.asked id id' t t' req.key hne ht ht' ?_ ?_
    · exact pending_subset_asked hconn (List.mem_map_of_mem hreq)
    · rw [hkey]
      exact pending_subset_asked hconn' (List.mem_map_of_mem hreq')
  · intro id t inp s' ht hback hst id' t' hne ht' hconn req hreq i hi hin
    cases next_stepped hst with
    | moved id inp u u' c' hu hmove =>
      obtain rfl := Option.some.inj (ht.symm.trans hu)
      obtain ⟨j, off, rfl, hasked⟩ := hmove.given_back hback
      -- the block that is taken off was asked of the peer that leaves or chokes
      refine mem_release.mpr ⟨fun ⟨hij, hoff⟩ => ?_, hin⟩
      refine hex.asked id id' t t' _ (Ne.symm hne) ht ht' hasked ?_
      rw [← hij, ← hoff, ← key_eq hi]
      exact pending_subset_asked hconn (List.mem_map_of_mem hreq)

/-- A step at a point where nothing can be opened again, and no thread is in
    the Choke handler when a block is handed out. -/
def calm (s : Swarm) : Action → Bool
  | .connect => true
  | .thread id _ => (s.threads id).all fun t => match t.pc with
    | .received _ _ _ => false
    | .bitfield_store req => s.ctl.piece_status req.piece_index.toNat != 1
    | .request => (List.range s.ctl.crnt_peer).all fun id' => (s.threads id').all fun u =>
      match u.pc with
      | .choke_release _ _ => false
      | _ => true
    | _ => true

theorem orderly_of_calm (hr : (system sha1 m disk).Reachable s) (h : s.calm a = true) :
    s.Orderly sha1 a := by
  cases a with
  | connect => trivial
  | thread id inp =>
    intro t ht
    simp only [calm, ht, Option.all_some] at h
    split at h
    · cases h
    · rename_i req _
      rintro i hi hdone -
      rw [hi, Int.toNat_natCast, hdone] at h
      cases h
    · intro id' u req rest hu hupc
      have hu' := List.all_eq_true.mp h id' (List.mem_range.mpr (reachable_fresh hr id' u hu))
      rw [hu, Option.all_some, hupc] at hu'
      cases hu'
    · trivial

/-- Two peers with the one block of a one-byte file; the first is asked for it. -/
def two_peers : List Action :=
  greet 0 ++ greet 1 ++ hear 0 ⟨.Bitfield, [128]⟩ [.call, .call, .call]
    ++ hear 1 ⟨.Bitfield, [128]⟩ [.call, .call, .call]
    ++ hear 0 ⟨.Unchoke, []⟩ [.call, .sent true, .call]

/-- The thread `id` waits in `read_message` with one pending request, for the
    block at the start of the file. -/
def waits_for_it (s : Swarm) (id : ℕ) : Bool :=
  (s.threads id).any fun t => t.pc.connected && t.state.pending_requests == [⟨0, 0, 1⟩]

theorem waits_for_it_some {id : ℕ} (h : s.waits_for_it id = true) :
    ∃ t, s.threads id = some t ∧ t.pc.connected = true ∧
      t.state.pending_requests = [⟨0, 0, 1⟩] := by
  obtain ⟨t, ht, hwait⟩ := (Option.any_eq_true _ _).mp h
  rw [Bool.and_eq_true, beq_iff_eq] at hwait
  exact ⟨t, ht, hwait.1, hwait.2⟩

/-- As long as all goes well, the second peer is not asked. -/
theorem two_peers_exclusive : ∃ s : Swarm, s.waits_for_it 0 = true ∧ s.waits_for_it 1 = false := by
  have hrun : (System.run (System.guarded calm (next id)) (start (.tiny .LEECHER [7]) none)
      (two_peers ++ hear 1 ⟨.Unchoke, []⟩ [.call])).any (fun s => s.waits_for_it 0) = true := by
    decide +kernel
  obtain ⟨s, hr, hs⟩ := System.Reachable.exists_of_guarded_run (fun _ _ => orderly_of_calm)
    next_step
    (.init rfl : ((system id (.tiny .LEECHER [7]) none).restrict (Orderly id)).Reachable _) hrun
  refine ⟨s, hs, ?_⟩
  obtain ⟨t, ht, hconn, hpend⟩ := waits_for_it_some hs
  by_contra hone
  obtain ⟨t', ht', hconn', hpend'⟩ := waits_for_it_some (eq_true_of_ne_false hone)
  refine (exclusive_assignment id _ none hr).1 0 1 t t' (by decide) ht ht' hconn hconn'
    ⟨0, 0, 1⟩ ?_ ⟨0, 0, 1⟩ ?_ ⟨rfl, rfl⟩
  · rw [hpend]
    exact List.mem_singleton_self _
  · rw [hpend']
    exact List.mem_singleton_self _

/-- **A spoiled piece is handed out twice**: the second peer, which was asked
    for nothing, sends a block of the right length. The piece is dropped and
    its block asked of this peer too. -/
theorem spoiled_piece_shared : (Metadata.tiny .LEECHER [7]).Consistent ∧ ∃ s t t',
    (system id (.tiny .LEECHER [7]) none).Reachable s ∧
      s.threads 0 = some t ∧ s.threads 1 = some t' ∧
      t.pc.connected = true ∧ t'.pc.connected = true ∧
      t.state.pending_requests = [⟨0, 0, 1⟩] ∧ t'.state.pending_requests = [⟨0, 0, 1⟩] := by
  refine ⟨Metadata.tiny_consistent _ _, ?_⟩
  obtain ⟨s, hr, hs⟩ := System.Reachable.exists_of_run next_step
    (.init rfl : (system id (.tiny .LEECHER [7]) none).Reachable _)
    (two_peers ++ hear 1 ⟨.Unchoke, []⟩ [.call]
      ++ hear 1 (build_piece_msg 0 0 [8]) [.call, .call, .sent true, .call])
    (P := fun s => s.waits_for_it 0 && s.waits_for_it 1) (by decide +kernel)
  rw [Bool.and_eq_true] at hs
  obtain ⟨t, ht, hconn, hpend⟩ := waits_for_it_some hs.1
  obtain ⟨t', ht', hconn', hpend'⟩ := waits_for_it_some hs.2
  exact ⟨s, t, t', hr, ht, ht', hconn, hconn', hpend, hpend'⟩

end Swarm

end BitTorrentLite
