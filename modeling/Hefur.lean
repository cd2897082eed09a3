import Hefur.Lib.Runs
import Hefur.Lib.Recency
import Hefur.Lib.Bytes
import Hefur.Lib.Decimal
import Hefur.Lib.Binary64
import Hefur.Lib.ExactMap
import Hefur.Lib.Bencoding
import Hefur.TorrentHistory
import Hefur.TorrentCleanup
import Hefur.Completions
import Hefur.Retransmission
import Hefur.Endpoint
import Hefur.Tracker
import Hefur.AnnounceAgreement
import Hefur.ScrapeAgreement
import Hefur.WhiteListRuns
import Hefur.PeerAddresses
import Hefur.PeerSelection
import Hefur.ConnectionLifetime
import Hefur.Admission
import Hefur.Pages
import Hefur.BencodeReplies
import Hefur.Spoofing
import Hefur.AddressChoice
import Hefur.Lib.Outbox
import Hefur.PeerLists
import Hefur.AcceptanceWindow
import Hefur.IdCollisions
import Hefur.BufferReuse
import Hefur.SendQueue
import Hefur.ServerLifecycle
import Hefur.ProxyRewriting
import Hefur.TrackerHistory
import Hefur.StatPage
import Hefur.Lib.SharedLock
import Hefur.Lib.StableSort
import Hefur.Concurrency
import Hefur.ConcurrentReads
import Hefur.TorrentMemory
import Hefur.UdpProtocol
import Hefur.UdpTraffic
import Hefur.Discovery
import Hefur.ScriptNumbers
import Hefur.TableSorter
import Hefur.UdpInert
import Hefur.WhiteListSettles
