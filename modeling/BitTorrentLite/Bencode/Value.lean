import Mathlib.Data.Nat.Digits.Defs
import Mathlib.Tactic
import BitTorrentLite.Base.Machine

/-! # Bencoding

    The values of the format and their encoding: integers and lengths are
    printed in decimal, a string is its length, a colon and its bytes, lists
    and dictionaries are bracketed by a letter and `e`.
-/

namespace Bencode

/-! ## Decimal Numbers -/

/-- The character of a digit. -/
def digit (d : ℕ) : UInt8 := UInt8.ofNat ('0'.toNat + d)

/-- `'0'` to `'9'`. -/
def is_digit (b : UInt8) : Bool := '0'.toUInt8 ≤ b && b ≤ '9'.toUInt8

/-- A number in decimal, without leading zeros. -/
def decimal (n : ℕ) : Bytes := if n = 0 then [digit 0] else (Nat.digits 10 n).reverse.map digit

/-- The number a string of digits stands for. -/
def number (ds : Bytes) : ℕ := ds.foldl (fun a b => 10 * a + (b.toNat - '0'.toNat)) 0

theorem digit_toNat {d : ℕ} (hd : d < 10) : (digit d).toNat = 48 + d := by
  have hlt : 48 + d < 2 ^ 8 := by omega
  show (UInt8.ofNat (48 + d)).toNat = 48 + d
  rw [UInt8.toNat_ofNat', Nat.mod_eq_of_lt hlt]

theorem is_digit_iff {b : UInt8} : is_digit b = true ↔ 48 ≤ b.toNat ∧ b.toNat ≤ 57 := by
  unfold is_digit
  rw [Bool.and_eq_true, decide_eq_true_eq, decide_eq_true_eq, UInt8.le_iff_toNat_le,
    UInt8.le_iff_toNat_le]
  rfl

theorem is_digit_digit {d : ℕ} (hd : d < 10) : is_digit (digit d) = true := by
  rw [is_digit_iff, digit_toNat hd]
  omega

/-- Every character of a number is a digit. -/
theorem is_digit_decimal {n : ℕ} {b : UInt8} (hb : b ∈ decimal n) : is_digit b = true := by
  unfold decimal at hb
  split at hb
  · rw [List.mem_singleton.mp hb]
    exact is_digit_digit (by norm_num)
  · obtain ⟨d, hd, rfl⟩ := List.mem_map.mp hb
    exact is_digit_digit (Nat.digits_lt_base (by norm_num) (List.mem_reverse.mp hd))

theorem decimal_ne_nil (n : ℕ) : decimal n ≠ [] := by
  unfold decimal
  split
  · exact List.cons_ne_nil _ _
  · rename_i hn
    simp [Nat.digits_ne_nil_iff_ne_zero.mpr hn]

theorem number_digits (ds : List ℕ) (h : ∀ d ∈ ds, d < 10) :
    number (ds.reverse.map digit) = Nat.ofDigits 10 ds := by
  induction ds with
  | nil => rfl
  | cons d ds ih =>
    have hd : d < 10 := h d (List.mem_cons_self ..)
    have ih := ih fun e he => h e (List.mem_cons_of_mem _ he)
    unfold number at ih ⊢
    rw [List.reverse_cons, List.map_append, List.foldl_append, ih, Nat.ofDigits_cons]
    simp only [List.map_cons, List.map_nil, List.foldl_cons, List.foldl_nil, digit_toNat hd]
    show 10 * Nat.ofDigits 10 ds + (48 + d - 48) = d + 10 * Nat.ofDigits 10 ds
    omega

/-- A number is read back from its digits. -/
theorem number_decimal (n : ℕ) : number (decimal n) = n := by
  unfold decimal
  split
  · rename_i hn
    subst hn
    rfl
  · rw [number_digits _ fun d hd => Nat.digits_lt_base (by norm_num) hd, Nat.ofDigits_digits]

theorem decimal_injective : Function.Injective decimal :=
  Function.LeftInverse.injective number_decimal

theorem not_mem_decimal {n : ℕ} {b : UInt8} (hb : is_digit b = false) : b ∉ decimal n := by
  intro hmem
  rw [is_digit_decimal hmem] at hb
  cases hb

/-- An integer in decimal. -/
def integer (n : ℤ) : Bytes := if n < 0 then '-'.toUInt8 :: decimal n.natAbs else decimal n.natAbs

theorem integer_natCast (n : ℕ) : integer (n : ℤ) = decimal n := by
  unfold integer
  rw [if_neg (by omega), Int.natAbs_natCast]

/-- The byte `e` ends integers, lists and dictionaries. -/
theorem not_mem_integer {n : ℤ} {b : UInt8} (hb : is_digit b = false) (hminus : b ≠ '-'.toUInt8) :
    b ∉ integer n := by
  unfold integer
  split
  · rw [List.mem_cons, not_or]
    exact ⟨hminus, not_mem_decimal hb⟩
  · exact not_mem_decimal hb

/-! ## Values -/

/-- A bencoded value; the keys of a dictionary in the order they are written. -/
inductive Value where
  | int (n : ℤ)
  | str (s : Bytes)
  | list (vs : List Value)
  | dict (es : List (Bytes × Value))

/-- A string with its length before it. -/
def encode_str (s : Bytes) : Bytes := decimal s.length ++ ':'.toUInt8 :: s

mutual

/-- The bytes of a value. -/
def Value.encode : Value → Bytes
  | .int n => 'i'.toUInt8 :: integer n ++ ['e'.toUInt8]
  | .str s => encode_str s
  | .list vs => 'l'.toUInt8 :: encode_items vs ++ ['e'.toUInt8]
  | .dict es => 'd'.toUInt8 :: encode_entries es ++ ['e'.toUInt8]

/-- The values of a list, one after the other. -/
def encode_items : List Value → Bytes
  | [] => []
  | v :: vs => v.encode ++ encode_items vs

/-- The keys and values of a dictionary. -/
def encode_entries : List (Bytes × Value) → Bytes
  | [] => []
  | (k, v) :: es => encode_str k ++ v.encode ++ encode_entries es

end

mutual

/-- Every string in a value, keys included, is shorter than `n` bytes. -/
def Value.StringsBelow (n : ℕ) : Value → Prop
  | .int _ => True
  | .str s => s.length < n
  | .list vs => items_below n vs
  | .dict es => entries_below n es

def items_below (n : ℕ) : List Value → Prop
  | [] => True
  | v :: vs => v.StringsBelow n ∧ items_below n vs

def entries_below (n : ℕ) : List (Bytes × Value) → Prop
  | [] => True
  | (k, v) :: es => k.length < n ∧ v.StringsBelow n ∧ entries_below n es

end

/-- The first byte tells what a value is. -/
theorem encode_str_head (s : Bytes) : ∃ b r, encode_str s = b :: r ∧ is_digit b = true := by
  cases hd : decimal s.length with
  | nil => exact absurd hd (decimal_ne_nil _)
  | cons b r =>
    refine ⟨b, r ++ ':'.toUInt8 :: s, ?_, is_digit_decimal (n := s.length) ?_⟩
    · unfold encode_str
      rw [hd, List.cons_append]
    · rw [hd]
      exact List.mem_cons_self ..

end Bencode
