import Mathlib.Data.Finset.Basic
import Mathlib.Tactic
import BitTorrentLite.Base.Machine
import BitTorrentLite.Base.Region

/-! # The Controller

    `Controller` is the piece manager all peer threads of a client share: it
    hands out block requests, stores the blocks that arrive, checks a piece
    that is complete against its hash, writes it to the file and serves blocks
    from there. Every method here is one mutex-protected method of the class
    (`get_block` and `all_done` take no lock and change nothing).

    The vectors of `total_pieces` entries are functions of the index, so an
    access by an `int` goes through `index`, which fails outside the vector.
    The file the class opens by name is the field `file`: its content, or
    `none` when there is no such file. Disk operations succeed.
-/

open Machine Region

namespace BitTorrentLite

/-! ## Data -/

/-- `enum class Mode`. -/
inductive Mode where
  | LEECHER
  | SEEDER
  deriving DecidableEq

/-- `struct BlockRequest`. -/
structure BlockRequest where
  piece_index : ℤ
  block_offset : ℤ
  block_length : ℤ
  deriving DecidableEq

/-- `struct IncomingRequest`. -/
structure IncomingRequest where
  piece_index : ℤ
  block_offset : ℤ
  block_length : ℤ
  deriving DecidableEq

/-- What the C++ program does not survive: an access outside a vector, or a
    string of a negative length. -/
inductive Fault where
  | index (i : ℤ)
  | length_error
  deriving DecidableEq

/-- The arguments of the constructor, which no method changes. -/
structure Metadata where
  mode : Mode
  total_pieces : ℕ
  piece_length : ℤ
  length : ℤ
  piece_hash : List Bytes

/-- `class Controller`. -/
structure Controller extends Metadata where
  crnt_peer : ℕ
  inflight : ℕ → Finset ℤ
  /-- 0: not there, 1: done, 2: some blocks requested. -/
  piece_status : ℕ → ℕ
  piece_blocks : ℕ → ℤ → Option Bytes
  /-- The Have messages each registered peer has still to be sent. -/
  send_haves : ℕ → Option (List ℤ)
  /-- The content of the file `filename`, if it exists. -/
  file : Option Bytes

/-- 16 KiB, the member `block_length`. -/
def block_length : ℤ := 16384

/-! ## Piece and Block Arithmetic -/

namespace Metadata

/-- Access to one of the vectors of `total_pieces` entries. -/
def index (m : Metadata) (i : ℤ) : Except Fault ℕ :=
  if 0 ≤ i ∧ i < m.total_pieces then .ok i.toNat else .error (.index i)

/-- `piece_length_for`: computed in 64 bits, returned as `int`. -/
def piece_length_for (m : Metadata) (i : ℤ) : ℤ :=
  if i < m.total_pieces - 1 then m.piece_length
  else int32 (m.length - m.piece_length * i)

/-- `count_blocks`: computed in 32 bits. -/
def count_blocks (m : Metadata) (i : ℤ) : ℤ :=
  (int32 (int32 (m.piece_length_for i + block_length) - 1)).tdiv block_length

/-- The offset of block `b` in its piece. -/
def block_offset (b : ℕ) : ℤ := int32 (b * block_length)

/-- The one length a block at `off` of piece `i` may have. -/
def block_size (m : Metadata) (i off : ℤ) : ℤ :=
  min block_length (int32 (m.piece_length_for i - off))

end Metadata

namespace Controller

open Metadata (block_offset)

/-- The constructor. A seeder starts with every piece done; `disk` is what
    the file holds beforehand. -/
def make (m : Metadata) (disk : Option Bytes) : Controller where
  toMetadata := m
  crnt_peer := 0
  inflight := fun _ => ∅
  piece_status := fun _ => if m.mode = .SEEDER then 1 else 0
  piece_blocks := fun _ _ => none
  send_haves := fun _ => none
  file := disk

/-! ## Requests -/

/-- A block that is neither stored nor in flight. -/
def open_block (c : Controller) (i : ℕ) (off : ℤ) : Bool :=
  (c.piece_blocks i off).isNone && decide (off ∉ c.inflight i)

/-- The inner loop of `next_request`: the first open block of piece `i`. -/
def next_block (c : Controller) (bit_field : ℕ → Bool) (i : ℕ) : Option BlockRequest :=
  -- the two `continue`s of the outer loop
  if bit_field i = false ∨ c.piece_status i = 1 then none
  else (List.range (c.count_blocks i).toNat).findSome? fun b =>
    if c.open_block i (block_offset b) then
      some ⟨i, block_offset b, c.block_size i (block_offset b)⟩
    else none

/-- The block `off` of piece `i` has been requested. -/
def claim (c : Controller) (i : ℕ) (off : ℤ) : Controller :=
  { c with
    inflight := Function.update c.inflight i (insert off (c.inflight i))
    piece_status := Function.update c.piece_status i 2 }

/-- `next_request`: the first open block of a piece the peer has, now in flight. -/
def next_request (c : Controller) (bit_field : ℕ → Bool) : Controller × Option BlockRequest :=
  if c.mode = .SEEDER then (c, none)
  else match (List.range c.total_pieces).findSome? (c.next_block bit_field) with
    | none => (c, none)
    | some req => (c.claim req.piece_index.toNat req.block_offset, some req)

/-- A block taken off the in-flight set of piece `i`. -/
def release (c : Controller) (i : ℕ) (off : ℤ) : Controller :=
  { c with inflight := Function.update c.inflight i ((c.inflight i).erase off) }

/-- `release_in_flight`. -/
def release_in_flight (c : Controller) (piece_index block_offset : ℤ) :
    Except Fault Controller :=
  (c.index piece_index).map fun i => c.release i block_offset

/-- The store `manager.piece_status[piece_index] = 0` of the Bitfield handler. -/
def clear_status (c : Controller) (piece_index : ℤ) : Except Fault Controller :=
  (c.index piece_index).map fun i =>
    { c with piece_status := Function.update c.piece_status i 0 }

/-! ## Completion -/

/-- `all_done`. -/
def all_done (c : Controller) : Bool :=
  if c.mode = .SEEDER then false
  else (List.range c.total_pieces).all fun i =>
    !(c.piece_status i == 2 || c.piece_status i == 0)

/-- The condition `wait_until_done` waits for. -/
def wait_until_done (c : Controller) : Bool :=
  (List.range c.total_pieces).all fun i => c.piece_status i == 1

/-! ## Blocks Received -/

/-- `write_to_disk`: a file that is not there is created at full size first. -/
def write_to_disk (c : Controller) (i : ℕ) (piece : Bytes) : Controller :=
  let file := c.file.getD (List.replicate c.length.toNat 0)
  let file_offset := i * c.piece_length
  -- `seekp` to a negative offset fails, and nothing is written
  { c with file := some (if file_offset < 0 then file
      else overwrite 0 file file_offset.toNat piece) }

/-- A block is stored and no longer in flight. -/
def store (c : Controller) (i : ℕ) (off : ℤ) (data : Bytes) : Controller :=
  { c.release i off with
    piece_blocks := Function.update c.piece_blocks i
      (Function.update (c.piece_blocks i) off (some data)) }

/-- Every block of piece `i` is stored. -/
def complete (c : Controller) (i : ℕ) : Bool :=
  (List.range (c.count_blocks i).toNat).all fun b => (c.piece_blocks i (block_offset b)).isSome

/-- The stored blocks of piece `i`, in order. -/
def assembled (c : Controller) (i : ℕ) : Bytes :=
  (List.range (c.count_blocks i).toNat).flatMap fun b =>
    (c.piece_blocks i (block_offset b)).getD []

/-- The stored blocks of piece `i` are dropped and its status set. -/
def settle (c : Controller) (i status : ℕ) : Controller :=
  { c with
    piece_blocks := Function.update c.piece_blocks i (fun _ => none)
    piece_status := Function.update c.piece_status i status }

/-- A Have for piece `i` is queued for every registered peer. -/
def announce (c : Controller) (i : ℕ) : Controller :=
  { c with send_haves := fun id => (c.send_haves id).map (· ++ [(i : ℤ)]) }

/-- What `received_block` does with a block of the right length. -/
def take_block (c : Controller) (sha1 : Bytes → Bytes) (i : ℕ) (off : ℤ) (data : Bytes) :
    Controller × Bool :=
  let c := c.store i off data
  -- the loop over the offsets returns at the first block that is not there
  if !c.complete i then (c, false)
  else
    let piece := c.assembled i
    -- the piece is dropped and will be requested again
    if sha1 piece ≠ c.piece_hash.getD i [] then (c.settle i 0, false)
    else (((c.write_to_disk i piece).settle i 1).announce i, true)

/-- `received_block`: the length is checked before any vector is accessed. -/
def received_block (c : Controller) (sha1 : Bytes → Bytes) (piece_index block_offset : ℤ)
    (data : Bytes) : Except Fault (Controller × Bool) :=
  if c.mode = .SEEDER then .ok (c, false)
  else if (data.length : ℤ) ≠ c.block_size piece_index block_offset then .ok (c, false)
  else (c.index piece_index).map fun i => c.take_block sha1 i block_offset data

/-! ## Blocks Served -/

/-- `get_block`: the block at `blockoffset` of a piece that is done, read from
    the file, or nothing. -/
def get_block (c : Controller) (piece_index blockoffset : ℤ) : Except Fault Bytes :=
  match c.index piece_index with
  | .error e => .error e
  | .ok i =>
    if c.piece_status i ≠ 1 then .ok []
    else if c.piece_length_for i ≤ blockoffset then .ok []
    else match c.file with
      | none => .ok []
      | some f =>
        let actual_len := c.block_size i blockoffset
        let file_offset := i * c.piece_length + blockoffset
        -- `string buf(actual_len, ...)` of a negative length
        if actual_len < 0 then .error .length_error
        -- the stream is in a failed state after `seekg`, and `gcount` is 0
        else if file_offset < 0 then .ok []
        else
          let buf := slice f file_offset.toNat actual_len.toNat
          .ok (if (buf.length : ℤ) ≠ actual_len then [] else buf)

/-! ## Announcements -/

/-- `get_bitfield`: one bit for each piece that is done, the first one highest. -/
def get_bitfield (c : Controller) : Bytes :=
  (List.range c.total_pieces).foldl
    (fun bf i => if c.piece_status i = 1 then
        bf.modify (i / 8) (· ||| UInt8.ofNat (1 <<< (7 - i % 8))) else bf)
    (List.replicate ((c.total_pieces + 7) / 8) 0)

/-- `register_peer`. -/
def register_peer (c : Controller) : Controller × ℕ :=
  ({ c with
      crnt_peer := c.crnt_peer + 1
      send_haves := Function.update c.send_haves c.crnt_peer (some []) }, c.crnt_peer)

/-- `unregister_peer`. -/
def unregister_peer (c : Controller) (peer_id : ℕ) : Controller :=
  { c with send_haves := Function.update c.send_haves peer_id none }

/-- `drain_haves`. -/
def drain_haves (c : Controller) (peer_id : ℕ) : Controller × List ℤ :=
  ({ c with send_haves := Function.update c.send_haves peer_id (some []) },
    (c.send_haves peer_id).getD [])

end Controller

end BitTorrentLite
