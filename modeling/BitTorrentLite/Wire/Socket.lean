import BitTorrentLite.Base.Machine

/-! # Reading from a Socket

    What the peer has sent arrives as a stream, and each `recv` takes some of
    it. A socket is the list of the parts in which the stream will be handed
    out, none of them empty; a `recv` that asks for less than the next part
    takes the beginning of it. After the last part the stream is closed.

    `recv_exact` gets the bytes it was asked for whatever the parts are.
-/

namespace BitTorrentLite

/-- What one `recv` can return. -/
abbrev Chunk := { b : Bytes // b ≠ [] }

/-- The chunks still to come on a connection. -/
abbrev Socket := List Chunk

namespace Socket

/-- The bytes still to come. -/
def bytes (s : Socket) : Bytes := s.flatMap Subtype.val

/-- `recv` of at most `n` bytes, and the socket after it; at the end of the
    stream there is nothing. -/
def recv (n : ℕ) : Socket → Bytes × Socket
  | [] => ([], [])
  | c :: s =>
    if h : n < c.val.length then
      (c.val.take n, ⟨c.val.drop n, by simpa using h⟩ :: s)
    else (c.val, s)

/-- `recv_exact`: `recv` until all the `n` bytes are there, or none comes. -/
def recv_exact (n : ℕ) (s : Socket) : Option Bytes × Socket :=
  if n = 0 then (some [], s)
  else match recv n s with
    | ([], s) => (none, s)
    | (b :: bs, s) =>
      let (rest, s) := recv_exact (n - (bs.length + 1)) s
      (rest.map ((b :: bs) ++ ·), s)
termination_by n

/-! ### One `recv` -/

variable {s : Socket} {n : ℕ}

theorem bytes_cons (c : Chunk) (s : Socket) : bytes (c :: s) = c.val ++ bytes s := rfl

/-- Before the end of the stream, `recv` takes at least one byte off it, and
    no more than it was asked for. -/
theorem recv_spec (hn : n ≠ 0) (hs : s ≠ []) :
    ∃ b bs s', recv n s = (b :: bs, s') ∧ bs.length + 1 ≤ n ∧ s.bytes = b :: bs ++ s'.bytes := by
  cases s with
  | nil => exact absurd rfl hs
  | cons c s =>
    obtain ⟨d, hd⟩ := c
    by_cases hlt : n < d.length
    · -- the beginning of the chunk, the rest of it stays
      cases htake : d.take n with
      | nil =>
        rcases List.take_eq_nil_iff.mp htake with h | h
        · exact absurd h hn
        · exact absurd h hd
      | cons b bs =>
        refine ⟨b, bs, ⟨d.drop n, by simpa using hlt⟩ :: s, ?_, ?_, ?_⟩
        · rw [recv, dif_pos hlt, htake]
        · rw [← List.length_cons, ← htake, List.length_take]
          omega
        · rw [bytes_cons, bytes_cons, ← htake, ← List.append_assoc, List.take_append_drop]
    · -- all of the chunk
      cases d with
      | nil => exact (hd rfl).elim
      | cons b bs =>
        refine ⟨b, bs, s, ?_, ?_, rfl⟩
        · rw [recv, dif_neg hlt]
        · rw [List.length_cons] at hlt
          omega

/-! ### The Loop -/

/-- **Reading exactly `n` bytes**: when they come, they are returned in order
    and the stream goes on after them. -/
theorem recv_exact_some (h : n ≤ s.bytes.length) :
    ∃ s', recv_exact n s = (some (s.bytes.take n), s') ∧ s'.bytes = s.bytes.drop n := by
  induction n using Nat.strong_induction_on generalizing s with
  | _ n ih =>
    unfold recv_exact
    by_cases hn : n = 0
    · exact ⟨s, by rw [if_pos hn, hn, List.take_zero], by rw [hn, List.drop_zero]⟩
    · have hs : s ≠ [] := by
        rintro rfl
        exact hn (Nat.le_zero.mp h)
      obtain ⟨b, bs, s', hrecv, hle, hbytes⟩ := recv_spec hn hs
      have hlen := congrArg List.length hbytes
      rw [List.length_append, List.length_cons] at hlen
      obtain ⟨s'', hrest, hafter⟩ := ih (n - (bs.length + 1)) (by omega) (s := s') (by omega)
      -- the first part is within what was asked for
      have htake : (b :: bs).take n = b :: bs := List.take_of_length_le hle
      have hdrop : (b :: bs).drop n = [] := List.drop_of_length_le hle
      refine ⟨s'', ?_, ?_⟩
      · rw [if_neg hn, hrecv]
        simp only [hrest, Option.map_some, hbytes]
        rw [List.take_append, htake, List.length_cons]
      · rw [hafter, hbytes, List.drop_append, hdrop, List.length_cons, List.nil_append]

/-- When the stream ends before them, there is no result, and nothing left. -/
theorem recv_exact_none (h : s.bytes.length < n) : recv_exact n s = (none, []) := by
  induction n using Nat.strong_induction_on generalizing s with
  | _ n ih =>
    have hn : n ≠ 0 := by omega
    unfold recv_exact
    rw [if_neg hn]
    by_cases hs : s = []
    · subst hs
      rfl
    · obtain ⟨b, bs, s', hrecv, hle, hbytes⟩ := recv_spec hn hs
      have hlen := congrArg List.length hbytes
      rw [List.length_append, List.length_cons] at hlen
      rw [hrecv]
      simp only [ih (n - (bs.length + 1)) (by omega) (s := s') (by omega), Option.map_none]

end Socket

end BitTorrentLite
