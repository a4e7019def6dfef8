import BitTorrentLite.Base.Text

/-! # The Torrent Parser

    `decoder.cpp`: the helpers move a position through the data, and three
    loops read the keys of a dictionary and do with each value what its key
    asks for. A loop may run forever, so it is given fuel; `none` is the
    answer of a parse whose fuel does not suffice.

    Lines written to the standard output are left out.
-/

open Machine Region Bencode

namespace BitTorrentLite

/-! ## Data -/

/-- `struct TrackerResponse`. -/
structure TrackerResponse where
  complete : ℤ := 0
  incomplete : ℤ := 0
  interval : ℤ := 0
  mininterval : ℤ := 0
  peers : List Bytes := []
  deriving DecidableEq

/-- `struct Torrent`. -/
structure Torrent where
  announce : Bytes := []
  created_by : Bytes := []
  name : Bytes := []
  length : ℤ := 0
  piece_length : ℤ := 0
  info_start : ℤ := 0
  info_end : ℤ := 0
  pieces : List Bytes := []
  deriving DecidableEq

/-- A parse: out of fuel, stopped, or done. -/
abbrev Parse := ExceptT Stop Option

def Parse.out_of_fuel {α : Type} : Parse α := ExceptT.mk none

/-! ## Bencode Parser Helpers -/

/-- A `char` as an `int`. -/
def signed_char (b : UInt8) : ℤ := if b.toNat < 128 then b.toNat else b.toNat - 256

/-- `read_string`: a length, a colon, and as many bytes as there are of those
    announced. The length may be negative; then the position moves back. -/
def read_string (data : Text) (pos : ℕ) : Except Stop (Bytes × ℕ) :=
  match data.find ':'.toUInt8 pos with
  | none => do
    -- the message shows `data[pos]`, which is looked at even at the end
    let c ← data.at_pos pos
    throw (.runtime_error ("Cant find string End — pos=" ++ toString pos ++ " char="
      ++ toString (signed_char c)))
  | some colon => do
    let len ← stoi (data.substr pos (colon - pos))
    let pos := colon + 1
    -- `substr` stops at the end of the data, the position does not
    return (data.substr pos (size_t len), size_t (pos + len))

/-- `read_integer`. -/
def read_integer (data : Text) (pos : ℕ) : Except Stop (ℤ × ℕ) :=
  let pos := size_t (pos + 1)
  match data.find 'e'.toUInt8 pos with
  | none => throw (.runtime_error "Cant find int End")
  | some stop => do
    let result ← stoll (data.substr pos (stop - pos))
    return (result, stop + 1)

/-- The integer case of `skip_value`: one is added to what `find` returns
    before it is compared with `npos`. -/
def skip_integer (data : Text) (pos : ℕ) : Except Stop ℕ :=
  let pos := size_t (pos + 1)
  let pos := size_t (((data.find 'e'.toUInt8 pos).getD Text.npos : ℕ) + 1)
  if pos = Text.npos then throw (.runtime_error "Cant find int End") else return pos

mutual

/-- `skip_value`. -/
def skip_value (data : Text) : ℕ → ℕ → Parse ℕ
  | 0, _ => Parse.out_of_fuel
  | fuel + 1, pos => do
    let c ← data.at_pos pos
    if c = 'i'.toUInt8 then skip_integer data pos
    else if is_digit c then do
      let (_, pos) ← read_string data pos
      return pos
    else if c = 'l'.toUInt8 ∨ c = 'd'.toUInt8 then skip_items data fuel (size_t (pos + 1))
    -- any other byte is passed back, and the position with it
    else return pos

/-- The loop of `skip_value` for a list or a dictionary, which has no test for
    the end of the data. -/
def skip_items (data : Text) : ℕ → ℕ → Parse ℕ
  | 0, _ => Parse.out_of_fuel
  | fuel + 1, pos => do
    let c ← data.at_pos pos
    if c = 'e'.toUInt8 then return size_t (pos + 1)
    else do
      let pos ← skip_value data fuel pos
      skip_items data fuel pos

end

/-- The character of a hexadecimal digit, in lower case. -/
def hex_digit (d : ℕ) : UInt8 :=
  if d < 10 then UInt8.ofNat ('0'.toNat + d) else UInt8.ofNat ('a'.toNat + (d - 10))

/-- `hexconverter`. -/
def hexconverter (hash : Bytes) : Bytes :=
  hash.flatMap fun c => [hex_digit (c.toNat / 16), hex_digit (c.toNat % 16)]

/-- The groups of `n` bytes a string consists of; a rest is dropped. -/
def groups (n : ℕ) (raw : Bytes) : List Bytes :=
  (List.range (raw.length / n)).map fun k => slice raw (k * n) n

/-! ## Dictionaries -/

section loops

variable {σ : Type} (data : Text)

/-- The loop that reads the keys of a dictionary; `field` handles one value. -/
def dict_loop (field : ℕ → Bytes → ℕ → σ → Parse (ℕ × σ)) : ℕ → ℕ → σ → Parse (ℕ × σ)
  | 0, _, _ => Parse.out_of_fuel
  | fuel + 1, pos, t =>
    if pos < data.size ∧ data.bytes[pos]? ≠ some 'e'.toUInt8 then do
      let (key, pos) ← read_string data pos
      let (pos, t) ← field fuel key pos t
      dict_loop field fuel pos t
    else return (pos, t)

/-- The body of the loop of `parse_info_dict`. -/
def info_field (fuel : ℕ) (key : Bytes) (pos : ℕ) (t : Torrent) : Parse (ℕ × Torrent) :=
  if key = ascii "length" then do
    let (length, pos) ← read_integer data pos
    return (pos, { t with length := length })
  else if key = ascii "name" then do
    let (name, pos) ← read_string data pos
    return (pos, { t with name := name })
  else if key = ascii "piece length" then do
    let (piece_length, pos) ← read_integer data pos
    return (pos, { t with piece_length := piece_length })
  else if key = ascii "pieces" then do
    let (raw, pos) ← read_string data pos
    return (pos, { t with pieces := t.pieces ++ (groups 20 raw).map hexconverter })
  else do
    let pos ← skip_value data fuel pos
    return (pos, t)

/-- `parse_info_dict`. -/
def parse_info_dict (fuel : ℕ) (pos : ℕ) (t : Torrent) : Parse (ℕ × Torrent) := do
  let (pos, t) ← dict_loop data (info_field data) fuel (size_t (pos + 1)) t
  return (size_t (pos + 1), t)

/-- The body of the loop of `parse_torrent`. -/
def torrent_field (fuel : ℕ) (key : Bytes) (pos : ℕ) (t : Torrent) : Parse (ℕ × Torrent) :=
  if key = ascii "announce" then do
    let (announce, pos) ← read_string data pos
    return (pos, { t with announce := announce })
  else if key = ascii "created by" then do
    let (created_by, pos) ← read_string data pos
    return (pos, { t with created_by := created_by })
  else if key = ascii "info" then do
    let (pos, t) ← parse_info_dict data fuel pos { t with info_start := int64 pos }
    -- the position is after the `e` of the dictionary
    return (pos, { t with info_end := int64 (size_t (pos - 1)) })
  else do
    let pos ← skip_value data fuel pos
    return (pos, t)

/-- `parse_torrent`. -/
def parse_torrent (fuel : ℕ) : Parse Torrent := do
  -- `pos = 1`: the first byte is taken for the `d`
  let (_, t) ← dict_loop data (torrent_field data) fuel 1 {}
  return t

/-- A peer of the tracker's list: the address and the port. -/
def peer_address (orig : Bytes) : Bytes :=
  let byte (i : ℕ) : ℕ := (orig.getD i 0).toNat
  decimal (byte 0) ++ ascii "." ++ decimal (byte 1) ++ ascii "." ++ decimal (byte 2) ++ ascii "."
    ++ decimal (byte 3) ++ ascii ":" ++ decimal (byte 4 * 256 + byte 5)

/-- The body of the loop of `parse_response_dict`. -/
def response_field (fuel : ℕ) (key : Bytes) (pos : ℕ) (t : TrackerResponse) :
    Parse (ℕ × TrackerResponse) :=
  if key = ascii "complete" then do
    let (n, pos) ← read_integer data pos
    return (pos, { t with complete := n })
  else if key = ascii "incomplete" then do
    let (n, pos) ← read_integer data pos
    return (pos, { t with incomplete := n })
  else if key = ascii "interval" then do
    let (n, pos) ← read_integer data pos
    return (pos, { t with interval := int32 n })
  else if key = ascii "min interval" then do
    let (n, pos) ← read_integer data pos
    return (pos, { t with mininterval := int32 n })
  else if key = ascii "peers" then do
    let (raw, pos) ← read_string data pos
    return (pos, { t with peers := t.peers ++ (groups 6 raw).map peer_address })
  else do
    let pos ← skip_value data fuel pos
    return (pos, t)

/-- `parse_response_dict`. -/
def parse_response_dict (fuel : ℕ) (pos : ℕ) (t : TrackerResponse) :
    Parse (ℕ × TrackerResponse) := do
  let (pos, t) ← dict_loop data (response_field data) fuel (size_t (pos + 1)) t
  return (size_t (pos + 1), t)

/-- The `info_raw` of `main`: what the info-hash is computed of. -/
def info_raw (t : Torrent) : Except Stop Bytes :=
  if data.size < size_t t.info_start then throw .out_of_range
  else return data.substr (size_t t.info_start) (size_t (t.info_end - t.info_start + 1))

end loops

/-! ## Writing a Torrent -/

/-- The 20 bytes `SHA1` writes. -/
abbrev Digest := { d : Bytes // d.length = 20 }

/-- The digest of zeros. -/
def Digest.zero : Digest := ⟨List.replicate 20 0, rfl⟩

/-- `sha1`: the digest in hexadecimal. -/
def sha1 (SHA1 : Bytes → Digest) (input : Bytes) : Bytes := hexconverter (SHA1 input)

/-- The piece length of the torrents `create_torrent` writes. -/
def standard_piece_length : ℕ := 32768

/-- The loop of `create_torrent`: the digest of each piece that is read. The
    first argument bounds the number of rounds. -/
def pieces_hashes (SHA1 : Bytes → Digest) : ℕ → Bytes → Bytes
  | 0, _ => []
  | rounds + 1, file =>
    if file.isEmpty then []
    else (SHA1 (file.take standard_piece_length)).val
      ++ pieces_hashes SHA1 rounds (file.drop standard_piece_length)

/-- `create_torrent`: what it writes for a file with the content `file`. -/
def create_torrent (SHA1 : Bytes → Digest) (filename tracker_url file : Bytes) : Bytes :=
  let all_pieces_hashes := pieces_hashes SHA1 file.length file
  ascii "d" ++ ascii "8:announce" ++ decimal tracker_url.length ++ ascii ":" ++ tracker_url
    ++ ascii "4:info" ++ ascii "d"
    ++ ascii "6:length" ++ ascii "i" ++ decimal file.length ++ ascii "e"
    ++ ascii "4:name" ++ decimal filename.length ++ ascii ":" ++ filename
    ++ ascii "12:piece length" ++ ascii "i" ++ decimal standard_piece_length ++ ascii "e"
    ++ ascii "6:pieces" ++ decimal all_pieces_hashes.length ++ ascii ":" ++ all_pieces_hashes
    ++ ascii "e" ++ ascii "e"

end BitTorrentLite
