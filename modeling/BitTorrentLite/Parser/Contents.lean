import BitTorrentLite.Parser.Grammar
import BitTorrentLite.Parser.Walk

/-! # What a Dictionary Says of a Torrent

    The values a dictionary has under a key, whether or not its keys are
    distinct, and what the fields of a torrent are for them: the last string or
    integer of a key is its field, and each string under `pieces` adds hashes.
-/

open Machine Region Bencode

namespace Bencode

/-! ## The Values of a Key -/

def Value.str? : Value → Option Bytes
  | .str s => some s
  | _ => none

def Value.int? : Value → Option ℤ
  | .int n => some n
  | _ => none

def Value.dict? : Value → Option (List (Bytes × Value))
  | .dict es => some es
  | _ => none

section under

variable {α : Type} (read : Value → Option α)

/-- What the values under a key are read as, in the order they are written. -/
def under (es : List (Bytes × Value)) (key : Bytes) : List α :=
  es.filterMap fun e => if e.1 = key then read e.2 else none

theorem under_append (es fs : List (Bytes × Value)) (key : Bytes) :
    under read (es ++ fs) key = under read es key ++ under read fs key :=
  List.filterMap_append

theorem under_single (k key : Bytes) (v : Value) :
    under read [(k, v)] key = if k = key then (read v).toList else [] := by
  unfold under
  rw [List.filterMap_cons, List.filterMap_nil]
  dsimp only
  split_ifs
  · cases read v <;> rfl
  · rfl

end under

/-- The last of two lists, one after the other. -/
theorem getLastD_append {α : Type} (l l' : List α) (a : α) :
    (l ++ l').getLastD a = l'.getLastD (l.getLastD a) := by
  induction l generalizing a with
  | nil => rfl
  | cons b l ih => rw [List.cons_append, List.getLastD_cons, List.getLastD_cons, ih]

end Bencode

namespace BitTorrentLite

/-! ## Types -/

/-- The values that are of the type of what is read. -/
def Reading.Takes : Reading → Value → Prop
  | .string, v => ∃ s, v = .str s
  | .integer, v => ∃ n, v = .int n
  | .info, v => ∃ es, v = .dict es
  | .skip, _ => True

/-- The known keys of a dictionary have values of the types of their fields. -/
def Dict.Suits (d : Dict) (es : List (Bytes × Value)) : Prop :=
  ∀ e ∈ es, (d.reading e.1).Takes e.2

theorem Dict.Suits.append {d : Dict} {es fs : List (Bytes × Value)} (h : d.Suits es)
    (h' : d.Suits fs) : d.Suits (es ++ fs) :=
  fun e he => (List.mem_append.mp he).elim (h e) (h' e)

/-- The entries of the info dictionary; of all of them, if there are several. -/
def info_entries (top : List (Bytes × Value)) : List (Bytes × Value) :=
  (under Value.dict? top (ascii "info")).flatten

theorem info_entries_append (es fs : List (Bytes × Value)) :
    info_entries (es ++ fs) = info_entries es ++ info_entries fs := by
  unfold info_entries
  rw [under_append, List.flatten_append]

/-! ## Fields -/

/-- The hashes a string under `pieces` consists of. -/
def hashes (raw : Bytes) : List Bytes := (groups 20 raw).map hexconverter

/-- The entries `top` of the torrent and `info` of its info dictionary make `t'` of `t`. -/
structure Sets (top info : List (Bytes × Value)) (t t' : Torrent) : Prop where
  announce : t'.announce = (under Value.str? top (ascii "announce")).getLastD t.announce
  created_by : t'.created_by = (under Value.str? top (ascii "created by")).getLastD t.created_by
  name : t'.name = (under Value.str? info (ascii "name")).getLastD t.name
  length : t'.length = (under Value.int? info (ascii "length")).getLastD t.length
  piece_length : t'.piece_length
    = (under Value.int? info (ascii "piece length")).getLastD t.piece_length
  pieces : t'.pieces = t.pieces ++ (under Value.str? info (ascii "pieces")).flatMap hashes

section sets

variable {top top' info info' : List (Bytes × Value)} {t t' t'' : Torrent}

theorem Sets.refl (t : Torrent) : Sets [] [] t t where
  announce := rfl
  created_by := rfl
  name := rfl
  length := rfl
  piece_length := rfl
  pieces := (List.append_nil _).symm

theorem Sets.trans (h : Sets top info t t') (h' : Sets top' info' t' t'') :
    Sets (top ++ top') (info ++ info') t t'' where
  announce := by rw [under_append, getLastD_append, ← h.announce, h'.announce]
  created_by := by rw [under_append, getLastD_append, ← h.created_by, h'.created_by]
  name := by rw [under_append, getLastD_append, ← h.name, h'.name]
  length := by rw [under_append, getLastD_append, ← h.length, h'.length]
  piece_length := by rw [under_append, getLastD_append, ← h.piece_length, h'.piece_length]
  pieces := by rw [under_append, List.flatMap_append, ← List.append_assoc, ← h.pieces, h'.pieces]

/-- An entry of the info dictionary sets its field. -/
theorem info_effect_sets (pos : ℕ) (k : Bytes) (v : Value) (t : Torrent) :
    Sets [] [(k, v)] t (info_effect pos k v t) where
  announce := info_effect_keep.1
  created_by := info_effect_keep.2
  name := by
    rw [under_single]
    by_cases hk : k = ascii "name"
    · subst hk
      cases v <;> rfl
    · rw [if_neg hk, info_effect_name hk, List.getLastD_nil]
  length := by
    rw [under_single]
    by_cases hk : k = ascii "length"
    · subst hk
      cases v <;> rfl
    · rw [if_neg hk, info_effect_length hk, List.getLastD_nil]
  piece_length := by
    rw [under_single]
    by_cases hk : k = ascii "piece length"
    · subst hk
      cases v <;> rfl
    · rw [if_neg hk, info_effect_piece_length hk, List.getLastD_nil]
  pieces := by
    rw [under_single]
    by_cases hk : k = ascii "pieces"
    · subst hk
      cases v with
      | str s => exact (congrArg (t.pieces ++ ·) (List.append_nil _)).symm
      | _ => exact (List.append_nil _).symm
    · rw [if_neg hk, info_effect_pieces hk, List.flatMap_nil, List.append_nil]

/-- So does an entry of the torrent, other than the info dictionary. -/
theorem torrent_effect_sets (pos : ℕ) {k : Bytes} (v : Value) (t : Torrent)
    (hk : k ≠ ascii "info") : Sets [(k, v)] [] t (torrent_effect pos k v t) where
  announce := by
    rw [under_single]
    by_cases hkey : k = ascii "announce"
    · subst hkey
      cases v <;> rfl
    · rw [if_neg hkey, List.getLastD_nil]
      cases v <;> simp only [torrent_effect, if_neg hkey, if_neg hk]
      split_ifs <;> rfl
  created_by := by
    rw [under_single]
    by_cases hkey : k = ascii "created by"
    · subst hkey
      cases v <;> rfl
    · rw [if_neg hkey, List.getLastD_nil]
      cases v <;> simp only [torrent_effect, if_neg hkey, if_neg hk]
      split_ifs <;> rfl
  name := congrArg InfoPart.name (torrent_effect_keep hk)
  length := congrArg InfoPart.length (torrent_effect_keep hk)
  piece_length := congrArg InfoPart.piece_length (torrent_effect_keep hk)
  pieces := (congrArg InfoPart.pieces (torrent_effect_keep hk)).trans (List.append_nil _).symm

end sets

/-! ## Whole Dictionaries -/

/-- The info dictionary `es` sets its fields in `t'`, and no others. -/
structure InfoRead (es : List (Bytes × Value)) (t t' : Torrent) : Prop where
  suits : Dict.info.Suits es
  sets : Sets [] es t t'
  place : t'.info_start = t.info_start ∧ t'.info_end = t.info_end

/-- `info_start` and `info_end` are the first and the last byte of the info
    dictionary; of the last one, if there are several. -/
structure Placed (data : Text) (top : List (Bytes × Value)) (t t' : Torrent) : Prop where
  kept : under Value.dict? top (ascii "info") = [] →
    t'.info_start = t.info_start ∧ t'.info_end = t.info_end
  last : ∀ es ∈ (under Value.dict? top (ascii "info")).getLast?,
    ∃ (first stop : ℕ) (bs : Bytes), Spells (.dict es) bs ∧ data.Spans first (stop + 1) bs ∧
      t'.info_start = first ∧ t'.info_end = stop

/-- The dictionary `top` makes `t'` of `t`. -/
structure TorrentRead (data : Text) (top : List (Bytes × Value)) (t t' : Torrent) : Prop where
  suits : Dict.torrent.Suits top
  info_suits : Dict.info.Suits (info_entries top)
  sets : Sets top (info_entries top) t t'
  placed : Placed data top t t'

section whole

variable {data : Text} {es fs : List (Bytes × Value)} {t t' t'' : Torrent}

theorem InfoRead.refl (t : Torrent) : InfoRead [] t t where
  suits := nofun
  sets := .refl t
  place := ⟨rfl, rfl⟩

theorem InfoRead.trans (h : InfoRead es t t') (h' : InfoRead fs t' t'') :
    InfoRead (es ++ fs) t t'' where
  suits := h.suits.append h'.suits
  sets := h.sets.trans h'.sets
  place := ⟨h'.place.1.trans h.place.1, h'.place.2.trans h.place.2⟩

theorem Placed.trans (h : Placed data es t t') (h' : Placed data fs t' t'') :
    Placed data (es ++ fs) t t'' where
  kept := by
    rw [under_append, List.append_eq_nil_iff]
    rintro ⟨hes, hfs⟩
    have hfirst := h.kept hes
    have hsecond := h'.kept hfs
    exact ⟨hsecond.1.trans hfirst.1, hsecond.2.trans hfirst.2⟩
  last := by
    rw [under_append, List.getLast?_append]
    cases hfs : under Value.dict? fs (ascii "info") with
    | nil =>
      -- what came after has not moved it
      obtain ⟨hstart, hend⟩ := h'.kept hfs
      rw [hstart, hend]
      exact h.last
    | cons d ds =>
      intro info hinfo
      rw [List.getLast?_cons, Option.some_or] at hinfo
      exact h'.last info (by rw [hfs, List.getLast?_cons]; exact hinfo)

theorem TorrentRead.refl (t : Torrent) : TorrentRead data [] t t where
  suits := nofun
  info_suits := nofun
  sets := .refl t
  placed := ⟨fun _ => ⟨rfl, rfl⟩, nofun⟩

theorem TorrentRead.trans (h : TorrentRead data es t t') (h' : TorrentRead data fs t' t'') :
    TorrentRead data (es ++ fs) t t'' where
  suits := h.suits.append h'.suits
  info_suits := by
    rw [info_entries_append]
    exact h.info_suits.append h'.info_suits
  sets := by
    rw [info_entries_append]
    exact h.sets.trans h'.sets
  placed := h.placed.trans h'.placed

/-- An entry that is not the info dictionary. -/
theorem torrentRead_single {pos : ℕ} {k : Bytes} {v : Value} (hk : k ≠ ascii "info")
    (hv : (Dict.reading .torrent k).Takes v) :
    TorrentRead data [(k, v)] t (torrent_effect pos k v t) := by
  have hnone : under Value.dict? [(k, v)] (ascii "info") = [] := by
    rw [under_single, if_neg hk]
  have hinfo : info_entries [(k, v)] = [] := by
    unfold info_entries
    rw [hnone, List.flatten_nil]
  have hkeep : (torrent_effect pos k v t).info_part = t.info_part := torrent_effect_keep hk
  refine ⟨?_, ?_, ?_, ?_, ?_⟩
  · intro e he
    rw [List.mem_singleton.mp he]
    exact hv
  · rw [hinfo]
    exact nofun
  · rw [hinfo]
    exact torrent_effect_sets pos v t hk
  · exact fun _ => ⟨congrArg InfoPart.info_start hkeep, congrArg InfoPart.info_end hkeep⟩
  · rw [hnone]
    exact nofun

/-- The entry that is, between two positions. -/
theorem torrentRead_info {first stop : ℕ} {bs : Bytes} (hs : Spells (.dict es) bs)
    (hspan : data.Spans first (stop + 1) bs)
    (hread : InfoRead es { t with info_start := first } t') :
    TorrentRead data [(ascii "info", .dict es)] t { t' with info_end := stop } := by
  have hunder : under Value.dict? [(ascii "info", .dict es)] (ascii "info") = [es] := by
    rw [under_single, if_pos rfl]
    rfl
  have hinfo : info_entries [(ascii "info", .dict es)] = es := by
    unfold info_entries
    rw [hunder, List.flatten_cons, List.flatten_nil, List.append_nil]
  refine ⟨?_, ?_, ?_, ?_, ?_⟩
  · intro e he
    rw [List.mem_singleton.mp he]
    exact ⟨es, rfl⟩
  · rw [hinfo]
    exact hread.suits
  · rw [hinfo]
    exact ⟨hread.sets.announce, hread.sets.created_by, hread.sets.name, hread.sets.length,
      hread.sets.piece_length, hread.sets.pieces⟩
  · rw [hunder]
    exact nofun
  · rw [hunder]
    intro info hin
    obtain rfl : es = info := Option.some.inj hin
    exact ⟨first, stop, bs, hs, hspan, hread.place.1, rfl⟩

end whole

end BitTorrentLite
