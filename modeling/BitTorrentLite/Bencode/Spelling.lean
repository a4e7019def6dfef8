import BitTorrentLite.Bencode.Value

/-! # Spellings

    The bytes a bencoded value may be written as. A length or an integer may
    have leading zeros, which the canonical form `Value.encode` does not have;
    in all else a value has one spelling.

    A text starts with at most one value: no spelling of a value is followed
    by bytes that make it another.
-/

namespace Bencode

/-! ## Numbers -/

/-- `ds` is one or more digits, which stand for `n`. -/
structure Numeral (n : ℕ) (ds : Bytes) : Prop where
  nonempty : ds ≠ []
  digits : ∀ b ∈ ds, is_digit b = true
  value : number ds = n

/-- The text of an integer: digits, with or without a minus. -/
inductive SpellsInt : ℤ → Bytes → Prop where
  | plain {n : ℕ} {ds : Bytes} : Numeral n ds → SpellsInt n ds
  | minus {n : ℕ} {ds : Bytes} : Numeral n ds → SpellsInt (-n) ('-'.toUInt8 :: ds)

/-- Digits only, and at least one of them. -/
def is_numeral (ds : Bytes) : Bool := !ds.isEmpty && ds.all is_digit

/-- Digits only, but for a minus before them. -/
def is_integer : Bytes → Bool
  | [] => false
  | b :: ds => if b = '-'.toUInt8 then is_numeral ds else is_numeral (b :: ds)

theorem is_numeral_iff {ds : Bytes} : is_numeral ds = true ↔ Numeral (number ds) ds := by
  unfold is_numeral
  rw [Bool.and_eq_true, List.all_eq_true]
  refine ⟨fun h => ⟨?_, h.2, rfl⟩, fun h => ⟨?_, h.digits⟩⟩
  · rintro rfl
    exact absurd h.1 (by decide)
  · have := h.nonempty
    cases ds with
    | nil => exact absurd rfl this
    | cons b r => rfl

theorem Numeral.is_numeral {n : ℕ} {ds : Bytes} (h : Numeral n ds) : is_numeral ds = true :=
  is_numeral_iff.mpr ⟨h.nonempty, h.digits, rfl⟩

/-- No digit is a letter, a colon or a minus. -/
theorem Numeral.not_mem {n : ℕ} {ds : Bytes} {c : UInt8} (h : Numeral n ds)
    (hc : is_digit c = false) : c ∉ ds := by
  intro hmem
  rw [h.digits c hmem] at hc
  cases hc

theorem Numeral.head {n : ℕ} {ds : Bytes} (h : Numeral n ds) :
    ∃ b r, ds = b :: r ∧ is_digit b = true := by
  cases ds with
  | nil => exact absurd rfl h.nonempty
  | cons b r => exact ⟨b, r, rfl, h.digits b (List.mem_cons_self ..)⟩

theorem numeral_decimal (n : ℕ) : Numeral n (decimal n) :=
  ⟨decimal_ne_nil n, fun _ hb => is_digit_decimal hb, number_decimal n⟩

theorem not_numeral_minus {n : ℕ} {ds : Bytes} : ¬ Numeral n ('-'.toUInt8 :: ds) := by
  intro h
  exact h.not_mem (by decide) (List.mem_cons_self ..)

theorem is_integer_minus (ds : Bytes) : is_integer ('-'.toUInt8 :: ds) = is_numeral ds := by
  simp only [is_integer, if_true]

theorem is_integer_plain {b : UInt8} {ds : Bytes} (hb : b ≠ '-'.toUInt8) :
    is_integer (b :: ds) = is_numeral (b :: ds) := by
  simp only [is_integer, if_neg hb]

/-- What passes the test is the text of an integer. -/
theorem spellsInt_of_is_integer {s : Bytes} (h : is_integer s = true) : ∃ n, SpellsInt n s := by
  cases s with
  | nil => cases h
  | cons b ds =>
    by_cases hb : b = '-'.toUInt8
    · subst hb
      rw [is_integer_minus] at h
      exact ⟨_, .minus (is_numeral_iff.mp h)⟩
    · rw [is_integer_plain hb] at h
      exact ⟨_, .plain (is_numeral_iff.mp h)⟩

theorem SpellsInt.is_integer {n : ℤ} {s : Bytes} (h : SpellsInt n s) : is_integer s = true := by
  cases h with
  | plain hds =>
    obtain ⟨b, r, rfl, hb⟩ := hds.head
    have hminus : b ≠ '-'.toUInt8 := by
      rintro rfl
      exact not_numeral_minus hds
    rw [is_integer_plain hminus]
    exact hds.is_numeral
  | minus hds =>
    rw [is_integer_minus]
    exact hds.is_numeral

/-- The letter that ends an integer is not in it. -/
theorem SpellsInt.not_mem {n : ℤ} {s : Bytes} {c : UInt8} (h : SpellsInt n s)
    (hc : is_digit c = false) (hminus : c ≠ '-'.toUInt8) : c ∉ s := by
  cases h with
  | plain hds => exact hds.not_mem hc
  | minus hds =>
    rw [List.mem_cons, not_or]
    exact ⟨hminus, hds.not_mem hc⟩

/-- A text is the text of one integer. -/
theorem SpellsInt.unique {n m : ℤ} {s : Bytes} (h : SpellsInt n s) (h' : SpellsInt m s) :
    n = m := by
  cases h with
  | plain hds =>
    cases h' with
    | plain hds' => rw [← hds.value, ← hds'.value]
    | minus => exact absurd hds not_numeral_minus
  | minus hds =>
    cases h' with
    | plain hds' => exact absurd hds' not_numeral_minus
    | minus hds' => rw [← hds.value, ← hds'.value]

theorem spellsInt_integer (n : ℤ) : SpellsInt n (integer n) := by
  unfold integer
  split
  · have h := SpellsInt.minus (numeral_decimal n.natAbs)
    rwa [show -(n.natAbs : ℤ) = n by omega] at h
  · have h := SpellsInt.plain (numeral_decimal n.natAbs)
    rwa [show (n.natAbs : ℤ) = n by omega] at h

/-! ## The Grammar -/

/-- A string: its length, a colon and its bytes. -/
inductive SpellsStr : Bytes → Bytes → Prop where
  | mk {s ds : Bytes} : Numeral s.length ds → SpellsStr s (ds ++ ':'.toUInt8 :: s)

mutual

/-- The bytes are those of the value. -/
inductive Spells : Value → Bytes → Prop where
  | int {n : ℤ} {ds : Bytes} : SpellsInt n ds →
    Spells (.int n) ('i'.toUInt8 :: ds ++ ['e'.toUInt8])
  | str {s bs : Bytes} : SpellsStr s bs → Spells (.str s) bs
  | list {vs : List Value} {bs : Bytes} : SpellsItems vs bs →
    Spells (.list vs) ('l'.toUInt8 :: bs ++ ['e'.toUInt8])
  | dict {es : List (Bytes × Value)} {bs : Bytes} : SpellsEntries es bs →
    Spells (.dict es) ('d'.toUInt8 :: bs ++ ['e'.toUInt8])

/-- The values of a list, one after the other. -/
inductive SpellsItems : List Value → Bytes → Prop where
  | nil : SpellsItems [] []
  | cons {v : Value} {vs : List Value} {a b : Bytes} : Spells v a → SpellsItems vs b →
    SpellsItems (v :: vs) (a ++ b)

/-- The keys and values of a dictionary. -/
inductive SpellsEntries : List (Bytes × Value) → Bytes → Prop where
  | nil : SpellsEntries [] []
  | cons {k : Bytes} {v : Value} {es : List (Bytes × Value)} {a b c : Bytes} : SpellsStr k a →
    Spells v b → SpellsEntries es c → SpellsEntries ((k, v) :: es) (a ++ b ++ c)

end

/-! ### Canonical Spellings -/

theorem spellsStr_encode (s : Bytes) : SpellsStr s (encode_str s) := .mk (numeral_decimal _)

mutual

/-- The encoding of a value is one of its spellings. -/
theorem spells_encode (v : Value) : Spells v v.encode := by
  cases v with
  | int n => exact .int (spellsInt_integer n)
  | str s => exact .str (spellsStr_encode s)
  | list vs => exact .list (spells_encode_items vs)
  | dict es => exact .dict (spells_encode_entries es)

theorem spells_encode_items (vs : List Value) : SpellsItems vs (encode_items vs) := by
  cases vs with
  | nil => exact .nil
  | cons v vs => exact .cons (spells_encode v) (spells_encode_items vs)

theorem spells_encode_entries (es : List (Bytes × Value)) :
    SpellsEntries es (encode_entries es) := by
  match es with
  | [] => exact .nil
  | (k, v) :: es =>
    exact .cons (spellsStr_encode k) (spells_encode v) (spells_encode_entries es)

end

/-! ### The First Byte -/

/-- The four kinds of values. -/
inductive Kind where
  | int
  | str
  | list
  | dict
  deriving DecidableEq

def Value.kind : Value → Kind
  | .int _ => .int
  | .str _ => .str
  | .list _ => .list
  | .dict _ => .dict

/-- The kind of the values that start with a byte. -/
def kind_of (b : UInt8) : Option Kind :=
  if b = 'i'.toUInt8 then some .int
  else if is_digit b then some .str
  else if b = 'l'.toUInt8 then some .list
  else if b = 'd'.toUInt8 then some .dict
  else none

theorem kind_of_digit {b : UInt8} (hb : is_digit b = true) : kind_of b = some .str := by
  have hne : b ≠ 'i'.toUInt8 := by
    rintro rfl
    revert hb
    decide
  unfold kind_of
  rw [if_neg hne, if_pos hb]

theorem SpellsStr.head {s bs : Bytes} (h : SpellsStr s bs) :
    ∃ b r, bs = b :: r ∧ is_digit b = true := by
  obtain ⟨hds⟩ := h
  obtain ⟨b, r, rfl, hb⟩ := hds.head
  exact ⟨b, _, rfl, hb⟩

theorem Spells.head {v : Value} {bs : Bytes} (h : Spells v bs) :
    ∃ b r, bs = b :: r ∧ kind_of b = some v.kind := by
  cases h with
  | int => exact ⟨_, _, rfl, rfl⟩
  | str hs =>
    obtain ⟨b, r, rfl, hb⟩ := hs.head
    exact ⟨b, r, rfl, kind_of_digit hb⟩
  | list => exact ⟨_, _, rfl, rfl⟩
  | dict => exact ⟨_, _, rfl, rfl⟩

/-- No value starts with the letter that ends a list. -/
theorem Spells.head_ne_end {v : Value} {b : UInt8} {r : Bytes} (h : Spells v (b :: r)) :
    b ≠ 'e'.toUInt8 := by
  obtain ⟨b', r', heq, hkind⟩ := h.head
  obtain ⟨rfl, -⟩ := List.cons.inj heq
  rintro rfl
  cases hkind

/-- A value that starts with a digit is a string. -/
theorem Spells.str_of_digit {v : Value} {b : UInt8} {r : Bytes} (h : Spells v (b :: r))
    (hb : is_digit b = true) : ∃ s, v = .str s ∧ SpellsStr s (b :: r) := by
  obtain ⟨b', r', heq, hkind⟩ := h.head
  obtain ⟨rfl, -⟩ := List.cons.inj heq
  rw [kind_of_digit hb] at hkind
  generalize b :: r = bs at h
  cases h with
  | int | list | dict => cases hkind
  | str hs => exact ⟨_, rfl, hs⟩

/-! ### One Reading -/

/-- Where the same byte ends two parts for the first time, they are the same. -/
theorem append_cons_inj {c : UInt8} {l l' r r' : Bytes} (hl : c ∉ l) (hl' : c ∉ l')
    (heq : l ++ c :: r = l' ++ c :: r') : l = l' ∧ r = r' := by
  induction l generalizing l' with
  | nil =>
    cases l' with
    | nil => exact ⟨rfl, (List.cons.inj heq).2⟩
    | cons b l' =>
      rw [(List.cons.inj heq).1] at hl'
      exact absurd (List.mem_cons_self ..) hl'
  | cons a l ih =>
    rw [List.mem_cons, not_or] at hl
    cases l' with
    | nil => exact absurd (List.cons.inj heq).1.symm hl.1
    | cons b l' =>
      rw [List.mem_cons, not_or] at hl'
      obtain ⟨rfl, htail⟩ := List.cons.inj heq
      obtain ⟨rfl, rfl⟩ := ih hl.2 hl'.2 htail
      exact ⟨rfl, rfl⟩

/-- What starts with the same string starts with it in the same bytes. -/
theorem SpellsStr.unique {s t a b r r' : Bytes} (h : SpellsStr s a) (h' : SpellsStr t b)
    (heq : a ++ r = b ++ r') : s = t ∧ a = b := by
  obtain ⟨hds⟩ := h
  obtain ⟨hds'⟩ := h'
  have hcolon : is_digit ':'.toUInt8 = false := by decide
  simp only [List.append_assoc, List.cons_append] at heq
  -- the length ends at the first colon, and tells where the string ends
  obtain ⟨rfl, hrest⟩ := append_cons_inj (hds.not_mem hcolon) (hds'.not_mem hcolon) heq
  obtain ⟨rfl, -⟩ := List.append_inj hrest (hds.value.symm.trans hds'.value)
  exact ⟨rfl, rfl⟩

/-- Two values a text starts with are of one kind. -/
theorem Spells.kind_eq {v w : Value} {a b r r' : Bytes} (h : Spells v a) (h' : Spells w b)
    (heq : a ++ r = b ++ r') : v.kind = w.kind := by
  obtain ⟨c, a, rfl, hc⟩ := h.head
  obtain ⟨c', b, rfl, hc'⟩ := h'.head
  obtain ⟨rfl, -⟩ := List.cons.inj heq
  exact Option.some.inj (hc.symm.trans hc')

mutual

/-- **One reading**: of two spellings a text starts with, neither goes on
    after the other; they are the same, and of the same value. -/
theorem Spells.unique {v w : Value} {a b r r' : Bytes} (h : Spells v a) (h' : Spells w b)
    (heq : a ++ r = b ++ r') : v = w ∧ a = b := by
  have hkind := h.kind_eq h' heq
  have hend : is_digit 'e'.toUInt8 = false := by decide
  cases h with
  | int hn =>
    cases h' with
    | str | list | dict => cases hkind
    | int hm =>
      simp only [List.cons_append, List.append_assoc, List.cons.injEq, true_and,
        List.nil_append] at heq
      obtain ⟨rfl, -⟩ := append_cons_inj (hn.not_mem hend (by decide))
        (hm.not_mem hend (by decide)) heq
      obtain rfl := hn.unique hm
      exact ⟨rfl, rfl⟩
  | str hs =>
    cases h' with
    | int | list | dict => cases hkind
    | str ht =>
      obtain ⟨rfl, rfl⟩ := hs.unique ht heq
      exact ⟨rfl, rfl⟩
  | list hvs =>
    cases h' with
    | int | str | dict => cases hkind
    | list hws =>
      simp only [List.cons_append, List.append_assoc, List.cons.injEq, true_and,
        List.nil_append] at heq
      obtain ⟨rfl, rfl⟩ := hvs.unique hws heq
      exact ⟨rfl, rfl⟩
  | dict hes =>
    cases h' with
    | int | str | list => cases hkind
    | dict hfs =>
      simp only [List.cons_append, List.append_assoc, List.cons.injEq, true_and,
        List.nil_append] at heq
      obtain ⟨rfl, rfl⟩ := hes.unique hfs heq
      exact ⟨rfl, rfl⟩

/-- Two lists of values end where the first `e` stands for a value. -/
theorem SpellsItems.unique {vs ws : List Value} {a b r r' : Bytes} (h : SpellsItems vs a)
    (h' : SpellsItems ws b) (heq : a ++ 'e'.toUInt8 :: r = b ++ 'e'.toUInt8 :: r') :
    vs = ws ∧ a = b := by
  cases h with
  | nil =>
    cases h' with
    | nil => exact ⟨rfl, rfl⟩
    | cons hw _ =>
      obtain ⟨c, b, rfl, -⟩ := hw.head
      obtain ⟨rfl, -⟩ := List.cons.inj heq
      exact absurd rfl hw.head_ne_end
  | cons hv hvs =>
    cases h' with
    | nil =>
      obtain ⟨c, a, rfl, -⟩ := hv.head
      obtain ⟨rfl, -⟩ := List.cons.inj heq
      exact absurd rfl hv.head_ne_end
    | cons hw hws =>
      rw [List.append_assoc, List.append_assoc] at heq
      obtain ⟨rfl, rfl⟩ := hv.unique hw heq
      obtain ⟨rfl, rfl⟩ := hvs.unique hws (List.append_cancel_left heq)
      exact ⟨rfl, rfl⟩

theorem SpellsEntries.unique {es fs : List (Bytes × Value)} {a b r r' : Bytes}
    (h : SpellsEntries es a) (h' : SpellsEntries fs b)
    (heq : a ++ 'e'.toUInt8 :: r = b ++ 'e'.toUInt8 :: r') : es = fs ∧ a = b := by
  cases h with
  | nil =>
    cases h' with
    | nil => exact ⟨rfl, rfl⟩
    | cons hk _ _ =>
      obtain ⟨c, b, rfl, -⟩ := hk.head
      obtain ⟨rfl, -⟩ := List.cons.inj heq
      exact absurd rfl (Spells.str hk).head_ne_end
  | cons hk hv hes =>
    cases h' with
    | nil =>
      obtain ⟨c, a, rfl, -⟩ := hk.head
      obtain ⟨rfl, -⟩ := List.cons.inj heq
      exact absurd rfl (Spells.str hk).head_ne_end
    | cons hl hw hfs =>
      simp only [List.append_assoc] at heq
      obtain ⟨rfl, rfl⟩ := hk.unique hl heq
      have heq := List.append_cancel_left heq
      obtain ⟨rfl, rfl⟩ := hv.unique hw heq
      obtain ⟨rfl, rfl⟩ := hes.unique hfs (List.append_cancel_left heq)
      exact ⟨rfl, rfl⟩

end

/-- No spelling of a dictionary, or of any value, is cut short and still one. -/
theorem Spells.not_proper {v w : Value} {a b r : Bytes} (h : Spells v a) (h' : Spells w b)
    (heq : a ++ r = b) : r = [] := by
  obtain ⟨-, rfl⟩ := h.unique h' (heq.trans (List.append_nil b).symm)
  exact List.append_right_eq_self.mp heq

end Bencode
