import Mathlib.Data.List.TakeWhile
import BitTorrentLite.Base.Region
import BitTorrentLite.Bencode.Value

/-! # Strings

    The members of `std::string` that a parser of a byte string uses, and the
    conversions `std::stoi` and `std::stoll`. Positions are `size_t` values.
-/

open Machine Region Bencode

/-- A `std::string`, which is never as long as `2^63` bytes. -/
structure Text where
  bytes : Bytes
  fits : bytes.length < 2 ^ 63

/-- How a computation on strings ends without a result: by one of the
    exceptions of the standard library, or by looking at a byte beyond the
    end of a string, after which the language promises nothing. -/
inductive Stop where
  | runtime_error (what : String)
  | invalid_argument
  | out_of_range
  | out_of_bounds
  deriving DecidableEq

/-- The bytes of an ASCII literal. -/
def ascii (s : String) : Bytes := s.toList.map fun c => UInt8.ofNat c.toNat

/-- What holds of each byte of a string, by going through it. -/
theorem forall_bytes {P : UInt8 → Prop} [DecidablePred P] {s : Bytes}
    (h : s.all (fun b => decide (P b)) = true) : ∀ b ∈ s, P b :=
  fun b hb => of_decide_eq_true (List.all_eq_true.mp h b hb)

namespace Text

def size (data : Text) : ℕ := data.bytes.length

/-- `std::string::npos`. -/
def npos : ℕ := 2 ^ 64 - 1

/-- `data[pos]`: the byte at the end of the string is 0. -/
def at_pos (data : Text) (pos : ℕ) : Except Stop UInt8 :=
  match data.bytes[pos]? with
  | some b => .ok b
  | none => if pos = data.size then .ok 0 else .error .out_of_bounds

/-- `data.find(c, pos)`: the first place from `pos` on. -/
def find (data : Text) (c : UInt8) (pos : ℕ) : Option ℕ :=
  ((data.bytes.drop pos).findIdx? (· == c)).map (pos + ·)

/-- `data.substr(pos, n)`, for a `pos` in the string. -/
def substr (data : Text) (pos n : ℕ) : Bytes := slice data.bytes pos n

end Text

/-! ## Numbers -/

/-- The white space `strtol` skips. -/
def is_space (b : UInt8) : Bool := b == ' '.toUInt8 || (9 ≤ b && b ≤ 13)

/-- The number at the start of a string, as `strtol` reads it: white space, a
    sign, digits; `none` when there is no digit. -/
def strtol (s : Bytes) : Option ℤ :=
  let read (s : Bytes) : Option ℤ :=
    let ds := s.takeWhile is_digit
    if ds.isEmpty then none else some (number ds)
  match s.dropWhile is_space with
  | [] => none
  | b :: r =>
    if b = '-'.toUInt8 then (read r).map (-·)
    else if b = '+'.toUInt8 then read r
    else read (b :: r)

/-- `std::stoi`. -/
def stoi (s : Bytes) : Except Stop ℤ :=
  match strtol s with
  | none => .error .invalid_argument
  | some n => if FitsInt n then .ok n else .error .out_of_range

/-- `std::stoll`. -/
def stoll (s : Bytes) : Except Stop ℤ :=
  match strtol s with
  | none => .error .invalid_argument
  | some n => if FitsInt64 n then .ok n else .error .out_of_range

theorem takeWhile_digits {ds : Bytes} (h : ∀ b ∈ ds, is_digit b = true) :
    ds.takeWhile is_digit = ds := List.takeWhile_eq_self_iff.mpr h

/-- A digit is neither white space nor a sign. -/
theorem digit_not_space {b : UInt8} (h : is_digit b = true) :
    is_space b = false ∧ b ≠ '-'.toUInt8 ∧ b ≠ '+'.toUInt8 := by
  obtain ⟨h₁, -⟩ := is_digit_iff.mp h
  have small {c : UInt8} (hc : c.toNat < 48) : b ≠ c := by
    rintro rfl
    omega
  refine ⟨?_, small (by decide), small (by decide)⟩
  unfold is_space
  rw [Bool.or_eq_false_iff, beq_eq_false_iff_ne, Bool.and_eq_false_iff, decide_eq_false_iff_not,
    decide_eq_false_iff_not, UInt8.le_iff_toNat_le, UInt8.le_iff_toNat_le]
  refine ⟨small (by decide), .inr ?_⟩
  show ¬ b.toNat ≤ 13
  omega

/-- A number written with digits is read, whatever zeros it starts with. -/
theorem strtol_digits {ds : Bytes} (hne : ds ≠ []) (h : ∀ b ∈ ds, is_digit b = true) :
    strtol ds = some (number ds : ℤ) := by
  cases ds with
  | nil => exact absurd rfl hne
  | cons b r =>
    -- the first digit is neither skipped nor taken for a sign
    obtain ⟨hspace, hminus, hplus⟩ := digit_not_space (h b (List.mem_cons_self ..))
    unfold strtol
    rw [List.dropWhile_cons_of_neg (by rw [hspace]; decide)]
    dsimp only
    rw [if_neg hminus, if_neg hplus, takeWhile_digits h]
    rfl

theorem strtol_minus {ds : Bytes} (hne : ds ≠ []) (h : ∀ b ∈ ds, is_digit b = true) :
    strtol ('-'.toUInt8 :: ds) = some (-(number ds : ℤ)) := by
  unfold strtol
  rw [List.dropWhile_cons_of_neg (by decide)]
  dsimp only
  rw [if_pos rfl, takeWhile_digits h, if_neg (by simpa using hne)]
  rfl

theorem strtol_decimal (n : ℕ) : strtol (decimal n) = some (n : ℤ) := by
  rw [strtol_digits (decimal_ne_nil n) fun _ hc => is_digit_decimal hc, number_decimal]

/-- A number as it may be written. -/
inductive Numeral : Bytes → ℤ → Prop
  | plain {ds : Bytes} : ds ≠ [] → (∀ b ∈ ds, is_digit b = true) → Numeral ds (number ds)
  | plus {ds : Bytes} : ds ≠ [] → (∀ b ∈ ds, is_digit b = true) →
      Numeral ('+'.toUInt8 :: ds) (number ds)
  | minus {ds : Bytes} : ds ≠ [] → (∀ b ∈ ds, is_digit b = true) →
      Numeral ('-'.toUInt8 :: ds) (-(number ds : ℤ))

/-- The string starts with a number, perhaps after white space, and the next
    byte is no digit. -/
def StartsWith (s : Bytes) (n : ℤ) : Prop :=
  ∃ space numeral rest, s = space ++ (numeral ++ rest) ∧ (∀ b ∈ space, is_space b = true) ∧
    Numeral numeral n ∧ ∀ b ∈ rest.head?, is_digit b = false

/-- The digits at the start of a string, as `strtol` looks for them. -/
theorem leading_digits {s : Bytes} {n : ℤ} :
    (if (s.takeWhile is_digit).isEmpty = true then none
      else some ((number (s.takeWhile is_digit) : ℕ) : ℤ)) = some n ↔
    ∃ ds rest, s = ds ++ rest ∧ ds ≠ [] ∧ (∀ b ∈ ds, is_digit b = true) ∧
      (∀ b ∈ rest.head?, is_digit b = false) ∧ n = number ds := by
  constructor
  · intro h
    split at h
    · cases h
    · rename_i hne
      refine ⟨_, _, (List.takeWhile_append_dropWhile (p := is_digit)).symm,
        by simpa using hne, fun b hb => List.mem_takeWhile_imp hb, fun b hb => ?_,
        (Option.some.inj h).symm⟩
      have hhead := List.head?_dropWhile_not is_digit s
      rw [Option.mem_def.mp hb] at hhead
      exact hhead
  · rintro ⟨ds, rest, rfl, hne, hds, hrest, rfl⟩
    have hstop : rest.takeWhile is_digit = [] := by
      cases rest with
      | nil => rfl
      | cons b rest => rw [List.takeWhile_cons_of_neg (by simp [hrest b rfl])]
    rw [List.takeWhile_append_of_pos hds, hstop, List.append_nil, if_neg (by simpa using hne)]

theorem startsWith_of_strtol {s : Bytes} {n : ℤ} (h : strtol s = some n) : StartsWith s n := by
  have hs := List.takeWhile_append_dropWhile (p := is_space) (l := s)
  have hspace : ∀ b ∈ s.takeWhile is_space, is_space b = true :=
    fun b hb => List.mem_takeWhile_imp hb
  unfold strtol at h
  cases hd : s.dropWhile is_space with
  | nil =>
    rw [hd] at h
    cases h
  | cons b r =>
    rw [hd] at h hs
    dsimp only at h
    split at h
    · rename_i hb
      obtain ⟨m, hm, rfl⟩ := Option.map_eq_some_iff.mp h
      obtain ⟨ds, rest, rfl, hne, hds, hrest, rfl⟩ := leading_digits.mp hm
      exact ⟨_, '-'.toUInt8 :: ds, rest, hs.symm.trans (by rw [hb]; rfl), hspace,
        .minus hne hds, hrest⟩
    · split at h
      · rename_i hb
        obtain ⟨ds, rest, rfl, hne, hds, hrest, rfl⟩ := leading_digits.mp h
        exact ⟨_, '+'.toUInt8 :: ds, rest, hs.symm.trans (by rw [hb]; rfl), hspace,
          .plus hne hds, hrest⟩
      · obtain ⟨ds, rest, hr, hne, hds, hrest, rfl⟩ := leading_digits.mp h
        exact ⟨_, ds, rest, hs.symm.trans (by rw [hr]), hspace, .plain hne hds, hrest⟩

theorem strtol_of_startsWith {s : Bytes} {n : ℤ} (h : StartsWith s n) : strtol s = some n := by
  obtain ⟨space, numeral, rest, rfl, hspace, hnumeral, hrest⟩ := h
  unfold strtol
  rw [List.dropWhile_append_of_pos hspace]
  cases hnumeral with
  | minus hne hds =>
    rw [List.cons_append, List.dropWhile_cons_of_neg (by decide)]
    dsimp only
    rw [if_pos rfl, leading_digits.mpr ⟨_, rest, rfl, hne, hds, hrest, rfl⟩]
    rfl
  | plus hne hds =>
    rw [List.cons_append, List.dropWhile_cons_of_neg (by decide)]
    dsimp only
    rw [if_neg (by decide), if_pos rfl]
    exact leading_digits.mpr ⟨_, rest, rfl, hne, hds, hrest, rfl⟩
  | plain hne hds =>
    have hread := leading_digits.mpr ⟨numeral, rest, rfl, hne, hds, hrest, rfl⟩
    cases numeral with
    | nil => exact absurd rfl hne
    | cons b ds =>
      -- the first digit is neither skipped nor taken for a sign
      obtain ⟨hb, hminus, hplus⟩ := digit_not_space (hds b (List.mem_cons_self ..))
      rw [List.cons_append, List.dropWhile_cons_of_neg (by rw [hb]; decide)]
      dsimp only
      rw [if_neg hminus, if_neg hplus]
      exact hread

/-- **`strtol`** reads the number a string starts with. -/
theorem strtol_iff {s : Bytes} {n : ℤ} : strtol s = some n ↔ StartsWith s n :=
  ⟨startsWith_of_strtol, strtol_of_startsWith⟩

theorem stoi_iff {s : Bytes} {n : ℤ} : stoi s = .ok n ↔ StartsWith s n ∧ FitsInt n := by
  rw [← strtol_iff]
  unfold stoi
  cases strtol s with
  | none => simp
  | some m =>
    dsimp only
    split
    · rename_i hm
      simp only [Except.ok.injEq, Option.some.injEq]
      exact ⟨fun h => ⟨h, h ▸ hm⟩, And.left⟩
    · rename_i hm
      simp only [reduceCtorEq, Option.some.injEq, false_iff, not_and]
      intro h
      exact h ▸ hm

/-! ## Finding -/

section search

variable {c : UInt8} {l r : Bytes}

theorem findIdx?_none (hl : c ∉ l) : l.findIdx? (· == c) = none := by
  refine List.findIdx?_eq_none_iff.mpr fun b hb => ?_
  rw [beq_eq_false_iff_ne]
  rintro rfl
  exact hl hb

theorem findIdx?_append_cons (hl : c ∉ l) : (l ++ c :: r).findIdx? (· == c) = some l.length := by
  rw [List.findIdx?_append, findIdx?_none hl, List.findIdx?_cons]
  simp

end search

namespace Text

variable {data : Text} {pos : ℕ} {c : UInt8} {l r : Bytes}

/-- The byte searched for, after bytes that are different. -/
theorem find_of_drop (h : data.bytes.drop pos = l ++ c :: r) (hl : c ∉ l) :
    data.find c pos = some (pos + l.length) := by
  unfold find
  rw [h, findIdx?_append_cons hl]
  rfl

/-- What is found lies at the position or after it, inside the string. -/
theorem find_bounds {k : ℕ} (h : data.find c pos = some k) : pos ≤ k ∧ k < data.size := by
  unfold find at h
  obtain ⟨i, hi, rfl⟩ := Option.map_eq_some_iff.mp h
  obtain ⟨hlt, -⟩ := List.findIdx?_eq_some_iff_findIdx_eq.mp hi
  rw [List.length_drop] at hlt
  unfold size
  omega

theorem get_of_drop (h : data.bytes.drop pos = c :: r) : data.bytes[pos]? = some c := by
  have := congrArg (·[0]?) h
  simpa [List.getElem?_drop] using this

theorem drop_of_get (h : data.bytes[pos]? = some c) :
    data.bytes.drop pos = c :: data.bytes.drop (pos + 1) := by
  obtain ⟨hlt, hget⟩ := List.getElem?_eq_some_iff.mp h
  rw [List.drop_eq_getElem_cons hlt, hget]

theorem at_of_drop (h : data.bytes.drop pos = c :: r) : data.at_pos pos = .ok c := by
  unfold at_pos
  rw [get_of_drop h]

theorem lt_size_of_drop (h : data.bytes.drop pos = c :: r) : pos < data.size := by
  have hlen := congrArg List.length h
  rw [List.length_drop, List.length_cons] at hlen
  unfold size
  omega

/-- The text after a part that has been read. -/
theorem drop_after (h : data.bytes.drop pos = l ++ r) :
    data.bytes.drop (pos + l.length) = r := by
  rw [← List.drop_drop, h, List.drop_left]

theorem drop_succ (h : data.bytes.drop pos = c :: r) : data.bytes.drop (pos + 1) = r := by
  rw [← List.drop_drop, h]
  rfl

theorem substr_of_drop (h : data.bytes.drop pos = l ++ r) : data.substr pos l.length = l := by
  unfold substr slice
  rw [h, List.take_left]

/-- The bytes from one position to another. -/
structure Spans (data : Text) (pos stop : ℕ) (bs : Bytes) : Prop where
  drop : data.bytes.drop pos = bs ++ data.bytes.drop stop
  stop : stop = pos + bs.length

theorem Spans.of_drop (h : data.bytes.drop pos = l ++ r) : data.Spans pos (pos + l.length) l :=
  ⟨by rw [drop_after h, h], rfl⟩

theorem Spans.refl (pos : ℕ) : data.Spans pos pos [] := ⟨rfl, rfl⟩

theorem Spans.trans {mid stop : ℕ} (h : data.Spans pos mid l) (h' : data.Spans mid stop r) :
    data.Spans pos stop (l ++ r) := by
  refine ⟨?_, ?_⟩
  · rw [h.drop, h'.drop, List.append_assoc]
  · rw [h'.stop, h.stop, List.length_append, Nat.add_assoc]

/-- `substr`, where it does not stop at the end of the data. -/
theorem spans_substr {n : ℕ} (h : pos + n ≤ data.size) :
    data.Spans pos (pos + n) (data.substr pos n) := by
  unfold size at h
  unfold substr slice
  refine ⟨?_, ?_⟩
  · rw [← List.drop_drop, List.take_append_drop]
  · rw [List.length_take, List.length_drop]
    omega

/-- The part up to what is found. -/
theorem spans_find {k : ℕ} (h : data.find c pos = some k) :
    data.Spans pos (k + 1) (data.substr pos (k - pos) ++ [c]) := by
  have hbounds := find_bounds h
  have hbefore : data.Spans pos (pos + (k - pos)) _ := spans_substr (by omega)
  rw [show pos + (k - pos) = k by omega] at hbefore
  unfold find at h
  obtain ⟨i, hi, rfl⟩ := Option.map_eq_some_iff.mp h
  obtain ⟨hlt, hbyte, -⟩ := List.findIdx?_eq_some_iff_getElem.mp hi
  have hget : data.bytes[pos + i]? = some c := by
    rw [← List.getElem?_drop, List.getElem?_eq_getElem hlt, eq_of_beq hbyte]
  exact hbefore.trans (.of_drop (l := [c]) (drop_of_get hget))

/-- A part that starts in the data ends in it. -/
theorem Spans.le_size {stop : ℕ} (h : data.Spans pos stop l) (hpos : pos ≤ data.size) :
    stop ≤ data.size := by
  have hlen := congrArg List.length h.drop
  rw [List.length_append, List.length_drop, List.length_drop] at hlen
  have hstop := h.stop
  unfold size at hpos ⊢
  omega

end Text
