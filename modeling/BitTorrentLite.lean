import BitTorrentLite.LTS.System
import BitTorrentLite.Base.Region
import BitTorrentLite.Base.Tiling
import BitTorrentLite.Base.Machine
import BitTorrentLite.Controller.Model
import BitTorrentLite.Controller.Spec
import BitTorrentLite.Controller.Geometry
import BitTorrentLite.Controller.System
import BitTorrentLite.Controller.Integrity
import BitTorrentLite.Peer.Messages
import BitTorrentLite.Peer.Loop
import BitTorrentLite.Peer.Spec
import BitTorrentLite.Controller.Copies
import BitTorrentLite.Swarm.Ownership
import BitTorrentLite.Swarm.Stability
import BitTorrentLite.Swarm.Stranding
import BitTorrentLite.Swarm.Safety
import BitTorrentLite.TwoParty.Conservation
import BitTorrentLite.Controller.Delivery
import BitTorrentLite.Peer.Bitfield
import BitTorrentLite.TwoParty.Leecher
import BitTorrentLite.TwoParty.Seeder
import BitTorrentLite.TwoParty.Deadlock
import BitTorrentLite.Base.Text
import BitTorrentLite.Parser.Decoder
import BitTorrentLite.Parser.Spec
import BitTorrentLite.Parser.Dictionary
import BitTorrentLite.Parser.Grammar
import BitTorrentLite.Parser.Fuel
import BitTorrentLite.Parser.Walk
import BitTorrentLite.Parser.Progress
import BitTorrentLite.Parser.Termination
import BitTorrentLite.Transfer.Torrent
import BitTorrentLite.Transfer.Session
import BitTorrentLite.Transfer.Creation
import BitTorrentLite.Wire.Framing
import BitTorrentLite.Controller.Recovery
import BitTorrentLite.Controller.BlockStore
import BitTorrentLite.Controller.Announcements
import BitTorrentLite.Swarm.Serving
import BitTorrentLite.Controller.AnyTorrent
import BitTorrentLite.Swarm.Replies
import BitTorrentLite.Swarm.Provenance
import BitTorrentLite.Swarm.Holding
import BitTorrentLite.Swarm.Exclusive
import BitTorrentLite.Announce.Query
import BitTorrentLite.Announce.Url
import BitTorrentLite.Announce.Request
import BitTorrentLite.Announce.RoundTrip
import BitTorrentLite.Bencode.Spelling
import BitTorrentLite.Parser.Strict
import BitTorrentLite.Parser.Acceptance
import BitTorrentLite.Parser.Bounds
import BitTorrentLite.Parser.Contents
import BitTorrentLite.Controller.Enumeration
import BitTorrentLite.Transfer.Geometry
import BitTorrentLite.Parser.Response
import BitTorrentLite.Discovery.PeerList
import BitTorrentLite.Discovery.Lpd
import BitTorrentLite.Discovery.Filter
import BitTorrentLite.Wire.Handshake
import BitTorrentLite.Base.Descriptors
import BitTorrentLite.Leecher.Threads
import BitTorrentLite.Leecher.Ownership
import BitTorrentLite.Leecher.Shutdown
import BitTorrentLite.Announce.Exchange
import BitTorrentLite.LTS.Network
import BitTorrentLite.Network.Stock
import BitTorrentLite.Network.Messages
import BitTorrentLite.Network.Clients
import BitTorrentLite.Network.Delivery
import BitTorrentLite.Network.Beliefs
import BitTorrentLite.Network.Inflight
import BitTorrentLite.Network.Connections
import BitTorrentLite.Network.Fetching
import BitTorrentLite.Network.Supply
import BitTorrentLite.Network.Sources
import BitTorrentLite.Network.Completion
import BitTorrentLite.Network.Charges
import BitTorrentLite.Network.Termination
import BitTorrentLite.TwoParty.Pool
import BitTorrentLite.TwoParty.Charges
import BitTorrentLite.TwoParty.Termination
import BitTorrentLite.Controller.FileSize
import BitTorrentLite.Transfer.EndToEnd
import BitTorrentLite.LTS.Monitor
import BitTorrentLite.Leecher.Wakeup
import BitTorrentLite.TwoParty.Return
import BitTorrentLite.LTS.Refinement
import BitTorrentLite.Wire.Reader
import BitTorrentLite.Wire.Connection
import BitTorrentLite.TwoParty.Side
import BitTorrentLite.TwoParty.Streams
import BitTorrentLite.Swarm.SeederCheck
