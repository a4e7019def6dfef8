import BitTorrentLite.Wire.Framing

/-! # Reading Step by Step

    `read_message` blocks in `recv` while the bytes of a message arrive, so
    other threads, and the other side of the connection, go on in between. A
    `Reader` is where it is: in which call of `recv_exact`, and what this call
    and the earlier ones have got. Each `recv` takes it further, until it
    returns a message; the messages are those that `read_message` returns when
    it has the whole stream at once.
-/

open Machine

namespace BitTorrentLite

/-! ## The State of `read_message` -/

/-- The calls of `recv_exact` in `read_message`, with the bytes they have got. -/
inductive Reader where
  | length (got : Bytes)
  | id (len_be : Bytes)
  | payload (len_be : Bytes) (id : UInt8) (got : Bytes)

namespace Reader

/-- `n - received`, what the next `recv` asks for. -/
def wanted : Reader → ℕ
  | .length got => 4 - got.length
  | .id _ => 1
  | .payload len_be _ got => be_value len_be 0 - 1 - got.length

/-- `recv` returns with the bytes `bs`: where `read_message` gets to, and the
    message when it returns. -/
def take : Reader → Bytes → Reader × Option PeerMessage
  | .length got, bs =>
    let len_be := got ++ bs
    if len_be.length < 4 then (.length len_be, none)
    else if be_value len_be 0 = 0 then (.length [], some ⟨.KeepAlive, []⟩)
    else (.id len_be, none)
  | .id len_be, bs =>
    let b := bs.getD 0 0
    if 1 < be_value len_be 0 then (.payload len_be b [], none)
    else (.length [], some ⟨MsgId.of_byte b, []⟩)
  | .payload len_be b got, bs =>
    let got := got ++ bs
    if got.length < be_value len_be 0 - 1 then (.payload len_be b got, none)
    else (.length [], some ⟨MsgId.of_byte b, got⟩)

/-- The bytes of the message that have been read. -/
def taken : Reader → Bytes
  | .length got => got
  | .id len_be => len_be
  | .payload len_be b got => len_be ++ b :: got

/-- The call is not through yet. -/
def Valid : Reader → Prop
  | .length got => got.length < 4
  | .id len_be => len_be.length = 4 ∧ be_value len_be 0 ≠ 0
  | .payload len_be _ got => len_be.length = 4 ∧ got.length < be_value len_be 0 - 1

theorem Valid.wanted_pos {r : Reader} (h : r.Valid) : 0 < r.wanted := by
  cases r with
  | length got => exact Nat.sub_pos_of_lt h
  | id len_be => exact Nat.one_pos
  | payload len_be b got => exact Nat.sub_pos_of_lt h.2

end Reader

/-! ## Reading at Once -/

section read

variable {s : Socket} {a len_be got rest : Bytes} {id : UInt8}

/-- The bytes at the head of the stream, as many as were asked for. -/
theorem Socket.recv_exact_append (hs : s.bytes = a ++ rest) :
    ∃ s', s.recv_exact a.length = (some a, s') ∧ s'.bytes = rest := by
  obtain ⟨s', hread, hafter⟩ := Socket.recv_exact_some (s := s) (n := a.length) (by simp [hs])
  rw [hs] at hread hafter
  rw [List.take_left] at hread
  rw [List.drop_left] at hafter
  exact ⟨s', hread, hafter⟩

theorem read_message_short (hs : s.bytes.length < 4) : (read_message s).1 = none := by
  unfold read_message
  rw [Socket.recv_exact_none hs]

/-- `read_message` when the length has arrived. -/
theorem read_message_length (hfour : len_be.length = 4) (hs : s.bytes = len_be ++ rest) :
    ∃ s', s'.bytes = rest ∧ read_message s =
      if be_value len_be 0 = 0 then (some ⟨.KeepAlive, []⟩, s')
      else match s'.recv_exact 1 with
        | (none, s) => (none, s)
        | (some id, s) =>
          if 1 < be_value len_be 0 then
            match s.recv_exact (be_value len_be 0 - 1) with
            | (none, s) => (none, s)
            | (some payload, s) => (some ⟨MsgId.of_byte (id.getD 0 0), payload⟩, s)
          else (some ⟨MsgId.of_byte (id.getD 0 0), []⟩, s) := by
  obtain ⟨s', hread, hafter⟩ := Socket.recv_exact_append hs
  refine ⟨s', hafter, ?_⟩
  unfold read_message
  rw [hfour] at hread
  rewrite [hread]
  rfl

theorem read_message_no_id (hfour : len_be.length = 4) (hlen : be_value len_be 0 ≠ 0)
    (hs : s.bytes = len_be) : (read_message s).1 = none := by
  obtain ⟨s', hrest, hread⟩ := read_message_length hfour (by rw [hs, List.append_nil])
  rw [hread, if_neg hlen, Socket.recv_exact_none (by rw [hrest]; decide)]

/-- `read_message` when the id has arrived too. -/
theorem read_message_id (hfour : len_be.length = 4) (hlen : be_value len_be 0 ≠ 0)
    (hs : s.bytes = len_be ++ id :: rest) :
    ∃ s', s'.bytes = rest ∧ read_message s =
      if 1 < be_value len_be 0 then
        match s'.recv_exact (be_value len_be 0 - 1) with
        | (none, s) => (none, s)
        | (some payload, s) => (some ⟨MsgId.of_byte id, payload⟩, s)
      else (some ⟨MsgId.of_byte id, []⟩, s') := by
  obtain ⟨s₁, hs₁, hread⟩ := read_message_length hfour hs
  obtain ⟨s₂, hone, hs₂⟩ := Socket.recv_exact_append (s := s₁) (a := [id]) hs₁
  have hone : s₁.recv_exact 1 = (some [id], s₂) := hone
  refine ⟨s₂, hs₂, ?_⟩
  rw [hread, if_neg hlen, hone]
  rfl

theorem read_message_cut_payload (hfour : len_be.length = 4)
    (hshort : got.length < be_value len_be 0 - 1) (hs : s.bytes = len_be ++ id :: got) :
    (read_message s).1 = none := by
  obtain ⟨s', hrest, hread⟩ := read_message_id hfour (by omega) hs
  rw [hread, if_pos (by omega), Socket.recv_exact_none (by rw [hrest]; exact hshort)]

theorem read_message_payload (hfour : len_be.length = 4) (hlen : 1 < be_value len_be 0)
    (hgot : got.length = be_value len_be 0 - 1) (hs : s.bytes = len_be ++ id :: (got ++ rest)) :
    ∃ s', read_message s = (some ⟨MsgId.of_byte id, got⟩, s') ∧ s'.bytes = rest := by
  obtain ⟨s₁, hs₁, hread⟩ := read_message_id hfour (by omega) hs
  obtain ⟨s₂, hgets, hs₂⟩ := Socket.recv_exact_append hs₁
  rw [hgot] at hgets
  refine ⟨s₂, ?_, hs₂⟩
  rw [hread, if_pos hlen, hgets]

end read

/-! ## Step by Step -/

namespace Reader

variable {r r' : Reader} {s : Socket} {bs rest : Bytes} {msg : PeerMessage}

/-- What has been read of a message is not a message. -/
theorem Valid.read_taken (h : r.Valid) (hs : s.bytes = r.taken) : (read_message s).1 = none := by
  cases r with
  | length got => exact read_message_short (by rw [hs]; exact h)
  | id len_be => exact read_message_no_id h.1 h.2 hs
  | payload len_be b got => exact read_message_cut_payload h.1 h.2 hs

/-- A `recv` that does not complete the message. -/
theorem Valid.take_none (h : r.Valid) (hle : bs.length ≤ r.wanted) (hne : bs ≠ [])
    (htake : r.take bs = (r', none)) : r'.Valid ∧ r'.taken = r.taken ++ bs := by
  cases r with
  | length got =>
    have hle : bs.length ≤ 4 - got.length := hle
    have hgot : got.length < 4 := h
    unfold take at htake
    dsimp only at htake
    split at htake
    · rename_i hshort
      cases htake
      exact ⟨hshort, rfl⟩
    · rename_i hfour
      split at htake
      · cases htake
      · rename_i hlen
        cases htake
        rw [List.length_append] at hfour
        exact ⟨⟨by rw [List.length_append]; omega, hlen⟩, rfl⟩
  | id len_be =>
    have hone : bs.length ≤ 1 := hle
    obtain ⟨b, rfl⟩ : ∃ b, bs = [b] := by
      apply List.length_eq_one_iff.mp
      have := List.length_pos_iff.mpr hne
      omega
    unfold take at htake
    dsimp only at htake
    split at htake
    · rename_i hlen
      cases htake
      exact ⟨⟨h.1, by rw [List.length_nil]; omega⟩, rfl⟩
    · cases htake
  | payload len_be b got =>
    unfold take at htake
    dsimp only at htake
    split at htake
    · rename_i hshort
      cases htake
      refine ⟨⟨h.1, hshort⟩, ?_⟩
      show len_be ++ b :: (got ++ bs) = (len_be ++ b :: got) ++ bs
      rw [List.append_assoc, List.cons_append]
    · cases htake

/-- A `recv` that completes it: the message is what `read_message` returns,
    and the stream goes on after it. -/
theorem Valid.take_some (h : r.Valid) (hle : bs.length ≤ r.wanted) (hne : bs ≠ [])
    (htake : r.take bs = (r', some msg)) (hs : s.bytes = r.taken ++ (bs ++ rest)) :
    r' = length [] ∧ ∃ s', read_message s = (some msg, s') ∧ s'.bytes = rest := by
  cases r with
  | length got =>
    have hle : bs.length ≤ 4 - got.length := hle
    have hgot : got.length < 4 := h
    unfold take at htake
    dsimp only at htake
    split at htake
    · cases htake
    · rename_i hfour
      split at htake
      · rename_i hlen
        cases htake
        rw [List.length_append] at hfour
        have hs : s.bytes = (got ++ bs) ++ rest := by
          rw [hs, List.append_assoc]
          rfl
        obtain ⟨s', hrest, hread⟩ :=
          read_message_length (by rw [List.length_append]; omega) hs
        refine ⟨rfl, s', ?_, hrest⟩
        rw [hread, if_pos hlen]
      · cases htake
  | id len_be =>
    have hone : bs.length ≤ 1 := hle
    obtain ⟨b, rfl⟩ : ∃ b, bs = [b] := by
      apply List.length_eq_one_iff.mp
      have := List.length_pos_iff.mpr hne
      omega
    unfold take at htake
    dsimp only at htake
    split at htake
    · cases htake
    · rename_i hlen
      cases htake
      obtain ⟨s', hrest, hread⟩ := read_message_id h.1 h.2 hs
      refine ⟨rfl, s', ?_, hrest⟩
      rw [hread, if_neg hlen]
      rfl
  | payload len_be b got =>
    have hle : bs.length ≤ be_value len_be 0 - 1 - got.length := hle
    have hgot : got.length < be_value len_be 0 - 1 := h.2
    unfold take at htake
    dsimp only at htake
    split at htake
    · cases htake
    · rename_i hfull
      cases htake
      rw [List.length_append] at hfull
      refine ⟨rfl, ?_⟩
      have hlength : (got ++ bs).length = be_value len_be 0 - 1 := by
        rw [List.length_append]
        omega
      have hsplit : s.bytes = len_be ++ b :: ((got ++ bs) ++ rest) := by
        rw [hs]
        show (len_be ++ b :: got) ++ (bs ++ rest) = _
        simp only [List.append_assoc, List.cons_append]
      exact read_message_payload h.1 (by omega) hlength hsplit

end Reader

end BitTorrentLite
