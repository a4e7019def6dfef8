import BitTorrentLite.Base.Machine

/-! # Peer Messages

    The messages peers exchange, as `read_message` returns them and as the
    `build_` functions lay them out, without the length prefix that frames
    them on the wire.
-/

open Machine

namespace BitTorrentLite

/-- `enum class MsgId`; any other byte the wire carries is `other`. -/
inductive MsgId where
  | Choke
  | Unchoke
  | Interested
  | NotInterested
  | Have
  | Bitfield
  | Request
  | Piece
  | Cancel
  | KeepAlive
  | other (id : UInt8)
  deriving DecidableEq

/-- `struct PeerMessage`. -/
structure PeerMessage where
  id : MsgId
  payload : Bytes
  deriving DecidableEq

/-- `build_have`. -/
def build_have (piece_index : ℤ) : PeerMessage := ⟨.Have, htonl piece_index⟩

/-- `build_request`. -/
def build_request (piece_index block_offset block_length : ℤ) : PeerMessage :=
  ⟨.Request, htonl piece_index ++ htonl block_offset ++ htonl block_length⟩

/-- `build_piece_msg`. -/
def build_piece_msg (piece_index block_offset : ℤ) (data : Bytes) : PeerMessage :=
  ⟨.Piece, htonl piece_index ++ htonl block_offset ++ data⟩

/-! ### Reading the Fields Back -/

theorem ntohl_first {x : ℤ} (hx : FitsInt x) (r : Bytes) : ntohl (htonl x ++ r) 0 = x :=
  ntohl_htonl hx [] r

theorem ntohl_second {y : ℤ} (hy : FitsInt y) (x : ℤ) (r : Bytes) :
    ntohl (htonl x ++ htonl y ++ r) 4 = y :=
  ntohl_htonl hy (htonl x) r

end BitTorrentLite
