import BitTorrentLite.Base.Text

/-! # Query Strings

    `Tracker.cpp` cuts the query of a request at every `&` and each part at its
    first `=`, and stores what it finds in a map, where a later value replaces
    an earlier one. A query written as `key=value` pairs is read back pair by
    pair, when no key holds one of the two characters and no value an `&`.
-/

open Region

/-! ## Searching -/

/-- `s.find(c, pos)`. -/
def find_char (s : Bytes) (c : UInt8) (pos : ℕ) : Option ℕ :=
  ((s.drop pos).findIdx? (· == c)).map (pos + ·)

/-- `s.find(pattern)`. -/
def find_string (s pattern : Bytes) : Option ℕ := s.tails.findIdx? pattern.isPrefixOf

section search

variable {c : UInt8} {l r p : Bytes}

/-- The byte searched for is found behind bytes that are different. -/
theorem find_char_append (hl : c ∉ l) :
    find_char (p ++ (l ++ c :: r)) c p.length = some (p.length + l.length) := by
  unfold find_char
  rw [List.drop_left, findIdx?_append_cons hl]
  rfl

theorem find_char_none (hl : c ∉ l) : find_char (p ++ l) c p.length = none := by
  unfold find_char
  rw [List.drop_left, findIdx?_none hl]
  rfl

/-- What is found is the first place where the string stands. -/
theorem find_string_iff {s pattern : Bytes} {k : ℕ} : find_string s pattern = some k ↔
    k ≤ s.length ∧ pattern <+: s.drop k ∧ ∀ i < k, ¬ pattern <+: s.drop i := by
  unfold find_string
  simp only [List.findIdx?_eq_some_iff_getElem, List.getElem_tails, List.length_tails,
    List.isPrefixOf_iff_prefix, exists_prop]
  exact and_congr_left' Nat.lt_succ_iff

theorem find_string_none {s pattern : Bytes} :
    find_string s pattern = none ↔ ¬ pattern <:+: s := by
  unfold find_string
  rw [List.findIdx?_eq_none_iff]
  constructor
  · intro h hin
    obtain ⟨t, hpre, hsuf⟩ := List.infix_iff_prefix_suffix.mp hin
    have hnot := h t ((List.mem_tails ..).mpr hsuf)
    rw [List.isPrefixOf_iff_prefix.mpr hpre] at hnot
    cases hnot
  · intro h t ht
    by_contra hpre
    rw [Bool.not_eq_false, List.isPrefixOf_iff_prefix] at hpre
    exact h (List.infix_iff_prefix_suffix.mpr ⟨t, hpre, (List.mem_tails ..).mp ht⟩)

/-- A string is found behind bytes that all differ from one of its own, if that
    byte is not among those in front of it either. -/
theorem find_string_behind {q : Bytes} (hl : c ∉ l) (hq : c ∉ q) :
    find_string (l ++ (q ++ c :: p ++ r)) (q ++ c :: p) = some l.length := by
  rw [find_string_iff, List.drop_left]
  refine ⟨by simp, List.prefix_append .., ?_⟩
  intro i hi hpre
  obtain ⟨t, ht⟩ := hpre
  -- further left, the byte would have to stand where it does not
  have hget := congrArg (·[q.length]?) ht
  simp only [List.getElem?_drop] at hget
  have hbyte : (q ++ c :: p ++ t)[q.length]? = some c := by simp
  have hfront : (l ++ (q ++ c :: p ++ r))[i + q.length]? = (l ++ q)[i + q.length]? := by
    rw [List.append_assoc, ← List.append_assoc, List.getElem?_append_left]
    simp only [List.length_append]
    omega
  rw [hbyte, hfront] at hget
  rcases List.mem_append.mp (List.mem_of_getElem? hget.symm) with h | h
  · exact hl h
  · exact hq h

/-- A string is found behind bytes that all differ from its first. -/
theorem find_string_append (hl : c ∉ l) : find_string (l ++ (c :: p ++ r)) (c :: p)
    = some l.length := find_string_behind (q := []) hl List.not_mem_nil

end search

/-! ## Assignments -/

section assignments

variable {α β : Type} [DecidableEq α]

/-- A map after a list of assignments: the last one to a key counts. -/
def assign (m : α → Option β) (ps : List (α × β)) : α → Option β :=
  ps.foldl (fun m p => Function.update m p.1 (some p.2)) m

theorem assign_append (m : α → Option β) (ps qs : List (α × β)) :
    assign m (ps ++ qs) = assign (assign m ps) qs := List.foldl_append

theorem assign_other {m : α → Option β} {ps : List (α × β)} {k : α} (h : ∀ v, (k, v) ∉ ps) :
    assign m ps k = m k := by
  induction ps generalizing m with
  | nil => rfl
  | cons p ps ih =>
    have hne : k ≠ p.1 := by
      rintro rfl
      exact h p.2 (List.mem_cons_self ..)
    calc assign m (p :: ps) k
        = assign (Function.update m p.1 (some p.2)) ps k := rfl
      _ = Function.update m p.1 (some p.2) k := ih fun v hv => h v (List.mem_cons_of_mem _ hv)
      _ = m k := Function.update_of_ne hne ..

/-- What a map holds for a key that was assigned to is one of the values assigned. -/
theorem assign_mem {m : α → Option β} {ps : List (α × β)} {k : α} (h : ∃ v, (k, v) ∈ ps) :
    ∃ v, (k, v) ∈ ps ∧ assign m ps k = some v := by
  induction ps generalizing m with
  | nil =>
    obtain ⟨v, hv⟩ := h
    cases hv
  | cons p ps ih =>
    by_cases hrest : ∃ v, (k, v) ∈ ps
    · obtain ⟨v, hv, hassign⟩ := ih (m := Function.update m p.1 (some p.2)) hrest
      exact ⟨v, List.mem_cons_of_mem _ hv, hassign⟩
    -- the first assignment is the only one to this key
    · obtain ⟨v, hv⟩ := h
      have hfirst : (k, v) = p := (List.mem_cons.mp hv).resolve_right fun hin => hrest ⟨v, hin⟩
      subst hfirst
      refine ⟨v, List.mem_cons_self .., ?_⟩
      show assign (Function.update m k (some v)) ps k = some v
      rw [assign_other fun w hw => hrest ⟨w, hw⟩, Function.update_self]

/-- What a map that was empty holds has been assigned. -/
theorem mem_of_assign {ps : List (α × β)} {k : α} {v : β}
    (h : assign (fun _ => none) ps k = some v) : (k, v) ∈ ps := by
  by_cases hk : ∃ w, (k, w) ∈ ps
  · obtain ⟨w, hw, hassign⟩ := assign_mem (m := fun _ => none) hk
    obtain rfl := Option.some.inj (hassign.symm.trans h)
    exact hw
  · rw [assign_other (not_exists.mp hk)] at h
    cases h

/-- The value of a key that is never assigned two different ones. -/
theorem assign_eq {m : α → Option β} {ps : List (α × β)} {k : α} {v : β} (hmem : (k, v) ∈ ps)
    (huniq : ∀ w, (k, w) ∈ ps → w = v) : assign m ps k = some v := by
  obtain ⟨w, hw, hassign⟩ := assign_mem (m := m) ⟨v, hmem⟩
  rw [hassign, huniq w hw]

end assignments

namespace BitTorrentLite

/-! ## The Parser of the Tracker -/

/-- The part of the query behind the `=`, up to the next `&`. -/
def query_value (query : Bytes) (eq : ℕ) : Option ℕ → Bytes
  | none => query.drop (eq + 1)
  | some amp =>
    -- an `&` before the `=`: the length is negative, which is huge as a `size_t`
    if amp < eq + 1 then query.drop (eq + 1) else slice query (eq + 1) (amp - (eq + 1))

/-- The loop of `parse_query`; the first argument bounds the number of rounds. -/
def parse_query_loop (query : Bytes) : ℕ → ℕ → (Bytes → Option Bytes) → Bytes → Option Bytes
  | 0, _, params => params
  | rounds + 1, start, params =>
    if start < query.length then
      match find_char query '='.toUInt8 start with
      | none => params
      | some eq =>
        let amp := find_char query '&'.toUInt8 start
        let key := slice query start (eq - start)
        let val := query_value query eq amp
        let params := Function.update params key (some val)
        match amp with
        | none => params
        | some amp => parse_query_loop query rounds (amp + 1) params
    else params

/-- `parse_query`. Every round starts behind the one before it. -/
def parse_query (query : Bytes) : Bytes → Option Bytes :=
  parse_query_loop query query.length 0 fun _ => none

/-! ## Pairs -/

/-- A pair as it stands in a query. -/
def render_pair (p : Bytes × Bytes) : Bytes := p.1 ++ '='.toUInt8 :: p.2

/-- The query of a list of pairs. -/
def render_query : List (Bytes × Bytes) → Bytes
  | [] => []
  | [p] => render_pair p
  | p :: q :: ps => render_pair p ++ '&'.toUInt8 :: render_query (q :: ps)

/-- A pair that the separators do not cut elsewhere. -/
structure Separable (p : Bytes × Bytes) : Prop where
  key_eq : '='.toUInt8 ∉ p.1
  key_amp : '&'.toUInt8 ∉ p.1
  value_amp : '&'.toUInt8 ∉ p.2

variable {p q : Bytes × Bytes} {ps qs : List (Bytes × Bytes)}

theorem render_query_cons (p : Bytes × Bytes) (hps : ps ≠ []) :
    render_query (p :: ps) = render_pair p ++ '&'.toUInt8 :: render_query ps := by
  cases ps with
  | nil => exact absurd rfl hps
  | cons q ps => rfl

theorem render_query_append (hps : ps ≠ []) (hqs : qs ≠ []) :
    render_query (ps ++ qs) = render_query ps ++ '&'.toUInt8 :: render_query qs := by
  induction ps with
  | nil => exact absurd rfl hps
  | cons p ps ih =>
    by_cases hnil : ps = []
    · subst hnil
      exact render_query_cons p hqs
    · rw [List.cons_append, render_query_cons p (by simp [hnil]), ih hnil,
        render_query_cons p hnil, List.append_assoc, List.cons_append]

/-- No more pairs than characters. -/
theorem length_le_render_query (ps : List (Bytes × Bytes)) :
    ps.length ≤ (render_query ps).length := by
  induction ps with
  | nil => exact le_rfl
  | cons p ps ih =>
    by_cases hnil : ps = []
    · subst hnil
      simp [render_query, render_pair]
      omega
    · rw [render_query_cons p hnil]
      simp only [List.length_cons, List.length_append]
      omega

theorem Separable.not_mem (h : Separable p) : '&'.toUInt8 ∉ render_pair p := by
  unfold render_pair
  rw [List.mem_append, List.mem_cons]
  rintro (hkey | heq | hvalue)
  · exact h.key_amp hkey
  · exact absurd heq (by decide)
  · exact h.value_amp hvalue

/-- One round over a pair that stands at `start`: its `=`, and the value up to
    the `&` or to the end. -/
theorem find_eq (h : Separable p) (before rest : Bytes) :
    find_char (before ++ (render_pair p ++ rest)) '='.toUInt8 before.length
      = some (before.length + p.1.length) := by
  unfold render_pair
  rw [List.append_assoc, List.cons_append]
  exact find_char_append h.key_eq

theorem slice_key (p : Bytes × Bytes) (before rest : Bytes) :
    slice (before ++ (render_pair p ++ rest)) before.length
      (before.length + p.1.length - before.length) = p.1 := by
  unfold slice render_pair
  rw [List.drop_left, Nat.add_sub_cancel_left, List.append_assoc, List.take_left]

theorem drop_value (p : Bytes × Bytes) (before rest : Bytes) :
    (before ++ (render_pair p ++ rest)).drop (before.length + p.1.length + 1) = p.2 ++ rest := by
  unfold render_pair
  rw [Nat.add_assoc, ← List.drop_drop, List.drop_left, List.append_assoc, List.cons_append,
    ← List.drop_drop, List.drop_left]
  rfl

theorem query_value_last (p : Bytes × Bytes) (before : Bytes) :
    query_value (before ++ render_pair p) (before.length + p.1.length) none = p.2 := by
  have hdrop := drop_value p before []
  rw [List.append_nil, List.append_nil] at hdrop
  exact hdrop

theorem query_value_next (p : Bytes × Bytes) (before rest : Bytes) :
    query_value (before ++ (render_pair p ++ '&'.toUInt8 :: rest)) (before.length + p.1.length)
      (some (before.length + (render_pair p).length)) = p.2 := by
  have hlen : (render_pair p).length = p.1.length + (p.2.length + 1) := by
    unfold render_pair
    rw [List.length_append, List.length_cons]
  have hsize : before.length + (render_pair p).length - (before.length + p.1.length + 1)
      = p.2.length := by omega
  unfold query_value slice
  dsimp only
  rw [if_neg (by omega), hsize, drop_value, List.take_left]

/-- The round over the last pair of a query. -/
theorem parse_query_loop_last (hp : Separable p) (before : Bytes) (rounds : ℕ)
    (params : Bytes → Option Bytes) :
    parse_query_loop (before ++ render_pair p) (rounds + 1) before.length params
      = Function.update params p.1 (some p.2) := by
  have hlt : before.length < (before ++ render_pair p).length := by
    unfold render_pair
    simp only [List.length_append, List.length_cons]
    omega
  have heq := find_eq hp before []
  have hkey := slice_key p before []
  rw [List.append_nil] at heq hkey
  have hamp : find_char (before ++ render_pair p) '&'.toUInt8 before.length = none :=
    find_char_none hp.not_mem
  rw [parse_query_loop, if_pos hlt, heq]
  dsimp only
  rw [hkey, hamp, query_value_last]

/-- The round over a pair with others behind it. -/
theorem parse_query_loop_next (hp : Separable p) (before rest : Bytes) (rounds : ℕ)
    (params : Bytes → Option Bytes) :
    parse_query_loop (before ++ (render_pair p ++ '&'.toUInt8 :: rest)) (rounds + 1)
        before.length params
      = parse_query_loop (before ++ (render_pair p ++ '&'.toUInt8 :: rest)) rounds
        (before.length + (render_pair p).length + 1) (Function.update params p.1 (some p.2)) := by
  have hlt : before.length < (before ++ (render_pair p ++ '&'.toUInt8 :: rest)).length := by
    simp only [List.length_append, List.length_cons]
    omega
  have hamp : find_char (before ++ (render_pair p ++ '&'.toUInt8 :: rest)) '&'.toUInt8
      before.length = some (before.length + (render_pair p).length) :=
    find_char_append hp.not_mem
  rw [parse_query_loop, if_pos hlt, find_eq hp]
  dsimp only
  rw [slice_key, hamp, query_value_next]

/-- **Loop lemma**: from the start of a list of pairs on, the loop assigns them
    in turn. -/
theorem parse_query_loop_render (hsep : ∀ p ∈ ps, Separable p) (before : Bytes) {rounds : ℕ}
    (hrounds : ps.length ≤ rounds) (params : Bytes → Option Bytes) :
    parse_query_loop (before ++ render_query ps) rounds before.length params = assign params ps := by
  induction ps generalizing before rounds params with
  | nil =>
    unfold render_query
    rw [List.append_nil]
    cases rounds with
    | zero => rfl
    | succ rounds =>
      unfold parse_query_loop
      rw [if_neg (lt_irrefl _)]
      rfl
  | cons p ps ih =>
    obtain ⟨rounds, rfl⟩ : ∃ n, rounds = n + 1 := ⟨rounds - 1, by
      rw [List.length_cons] at hrounds
      omega⟩
    have hp := hsep p (List.mem_cons_self ..)
    have hrest : ∀ q ∈ ps, Separable q := fun q hq => hsep q (List.mem_cons_of_mem _ hq)
    by_cases hnil : ps = []
    · subst hnil
      exact parse_query_loop_last hp before rounds params
    -- behind the `&` the next pair starts
    · have hnext := ih hrest (before ++ (render_pair p ++ ['&'.toUInt8]))
        (Nat.le_of_succ_le_succ hrounds) (Function.update params p.1 (some p.2))
      have hstart : (before ++ (render_pair p ++ ['&'.toUInt8])).length
          = before.length + (render_pair p).length + 1 := by
        simp only [List.length_append, List.length_singleton]
        omega
      have hquery : before ++ (render_pair p ++ ['&'.toUInt8]) ++ render_query ps
          = before ++ (render_pair p ++ '&'.toUInt8 :: render_query ps) := by
        simp only [List.append_assoc, List.singleton_append]
      rw [hstart, hquery] at hnext
      rw [render_query_cons p hnil, parse_query_loop_next hp, hnext]
      rfl

/-- **Round trip**: a query of such pairs is read back pair by pair. -/
theorem parse_query_render (hsep : ∀ p ∈ ps, Separable p) :
    parse_query (render_query ps) = assign (fun _ => none) ps :=
  parse_query_loop_render hsep [] (length_le_render_query ps) _

end BitTorrentLite
