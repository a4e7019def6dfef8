import Mathlib.Tactic

/-! # Machine Integers and Bytes

    `int` is a 32-bit two's complement integer. A conversion to `int` keeps
    the value modulo `2^32`; a signed operation whose exact result does not
    fit is computed the same way here, and `FitsInt` says when it does fit.
    The wire carries 32-bit numbers in network byte order.
-/

/-- A `std::string` or a byte vector. -/
abbrev Bytes := List UInt8

namespace Machine

/-- The values a 32-bit `int` holds. -/
def FitsInt (x : ℤ) : Prop := -2 ^ 31 ≤ x ∧ x < 2 ^ 31

instance (x : ℤ) : Decidable (FitsInt x) := inferInstanceAs (Decidable (_ ∧ _))

/-- `x` as an `int`: the value modulo `2^32` that an `int` holds. -/
@[irreducible] def int32 (x : ℤ) : ℤ := (BitVec.ofInt 32 x).toInt

theorem int32_eq_bmod (x : ℤ) : int32 x = Int.bmod x (2 ^ 32) := by
  unfold int32
  exact BitVec.toInt_ofInt x

/-- A value that fits is not changed. -/
theorem int32_of_fits {x : ℤ} (h : FitsInt x) : int32 x = x := by
  obtain ⟨h₁, h₂⟩ := h
  rw [int32_eq_bmod]
  exact Int.bmod_eq_of_le (by norm_num; omega) (by norm_num; omega)

theorem int32_fits (x : ℤ) : FitsInt (int32 x) := by
  unfold FitsInt
  rw [int32_eq_bmod]
  have h₁ := @Int.le_bmod x (2 ^ 32) (by norm_num)
  have h₂ := @Int.bmod_lt x (2 ^ 32) (by norm_num)
  norm_num at h₁ h₂
  exact ⟨by norm_num; omega, by norm_num; omega⟩

/-! ### 64 Bits -/

/-- The values an `int64_t` holds. -/
def FitsInt64 (x : ℤ) : Prop := -2 ^ 63 ≤ x ∧ x < 2 ^ 63

instance (x : ℤ) : Decidable (FitsInt64 x) := inferInstanceAs (Decidable (_ ∧ _))

/-- `x` as an `int64_t`. -/
@[irreducible] def int64 (x : ℤ) : ℤ := Int.bmod x (2 ^ 64)

theorem int64_of_fits {x : ℤ} (h : FitsInt64 x) : int64 x = x := by
  obtain ⟨h₁, h₂⟩ := h
  unfold int64
  exact Int.bmod_eq_of_le (by norm_num; omega) (by norm_num; omega)

/-- `x` as a `size_t`. -/
def size_t (x : ℤ) : ℕ := (x % 2 ^ 64).toNat

theorem size_t_of_lt {x : ℤ} (h₀ : 0 ≤ x) (h : x < 2 ^ 64) : size_t x = x.toNat := by
  unfold size_t
  rw [Int.emod_eq_of_lt h₀ h]

theorem size_t_natCast {n : ℕ} (h : n < 2 ^ 64) : size_t n = n := by
  rw [size_t_of_lt (by omega) (by omega), Int.toNat_natCast]

/-! ### Network Byte Order -/

/-- The four bytes of `htonl((uint32_t)x)`, as `memcpy` lays them out. -/
def htonl (x : ℤ) : Bytes :=
  let u := (x % 2 ^ 32).toNat
  [UInt8.ofNat (u / 2 ^ 24), UInt8.ofNat (u / 2 ^ 16), UInt8.ofNat (u / 2 ^ 8), UInt8.ofNat u]

/-- The four bytes of `b` at position `off`, read in network order. -/
def be_value (b : Bytes) (off : ℕ) : ℕ :=
  (b.getD off 0).toNat * 2 ^ 24 + (b.getD (off + 1) 0).toNat * 2 ^ 16
    + (b.getD (off + 2) 0).toNat * 2 ^ 8 + (b.getD (off + 3) 0).toNat

/-- `ntohl` of the four bytes at position `off`, converted to `int`. -/
def ntohl (b : Bytes) (off : ℕ) : ℤ := int32 (be_value b off)

@[simp] theorem htonl_length (x : ℤ) : (htonl x).length = 4 := rfl

/-- The unsigned 32-bit number whose `int` value is `x`, and back. -/
theorem int32_unsigned {x : ℤ} (hx : FitsInt x) : int32 ((x % 2 ^ 32).toNat : ℤ) = x := by
  have hmod : int32 (x % 2 ^ 32) = int32 x := by
    rw [int32_eq_bmod, int32_eq_bmod]
    exact_mod_cast Int.emod_bmod x (2 ^ 32)
  rw [Int.toNat_of_nonneg (Int.emod_nonneg _ (by norm_num)), hmod, int32_of_fits hx]

/-- Four bytes in network order, read as a number. -/
theorem bytes_value {u : ℕ} (hu : u < 2 ^ 32) :
    (UInt8.ofNat (u / 2 ^ 24)).toNat * 2 ^ 24 + (UInt8.ofNat (u / 2 ^ 16)).toNat * 2 ^ 16
      + (UInt8.ofNat (u / 2 ^ 8)).toNat * 2 ^ 8 + (UInt8.ofNat u).toNat = u := by
  simp only [UInt8.toNat_ofNat']
  omega

/-- Reading inside the part of a message that `m` takes up. -/
theorem getD_middle (l m r : Bytes) {k : ℕ} (hk : k < m.length) :
    (l ++ m ++ r).getD (l.length + k) 0 = m.getD k 0 := by
  simp only [List.getD_eq_getElem?_getD]
  rw [List.append_assoc, List.getElem?_append_right (by omega), Nat.add_sub_cancel_left,
    List.getElem?_append_left hk]

/-- An `int` laid out by `htonl` anywhere in a message is read back by `ntohl`. -/
theorem ntohl_htonl {x : ℤ} (hx : FitsInt x) (l r : Bytes) :
    ntohl (l ++ htonl x ++ r) l.length = x := by
  have hu : (x % 2 ^ 32).toNat < 2 ^ 32 := by omega
  have h0 := getD_middle l (htonl x) r (k := 0) (by simp)
  have h1 := getD_middle l (htonl x) r (k := 1) (by simp)
  have h2 := getD_middle l (htonl x) r (k := 2) (by simp)
  have h3 := getD_middle l (htonl x) r (k := 3) (by simp)
  have hval : be_value (l ++ htonl x ++ r) l.length = (x % 2 ^ 32).toNat := by
    unfold be_value
    rw [Nat.add_zero] at h0
    rw [h0, h1, h2, h3]
    simp only [htonl, List.getD_cons_zero, List.getD_cons_succ]
    exact bytes_value hu
  rw [ntohl, hval, int32_unsigned hx]

/-! ### Computations that Fail -/

/-- A computation whose result is there was successful. -/
theorem map_ok {ε α β : Type} {x : Except ε α} {f : α → β} {y : β} (h : x.map f = .ok y) :
    ∃ a, x = .ok a ∧ y = f a := by
  cases x with
  | error e => cases h
  | ok a => exact ⟨a, rfl, (Except.ok.inj h).symm⟩

end Machine
