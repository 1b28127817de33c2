import Gasnet.Ammpi.TokensRuns
import Gasnet.Amudp.BundlesSound
import Gasnet.Amudp.Instances
import Gasnet.Amudp.RecoveryRuns
import Gasnet.Amudp.Refusal
import Gasnet.Amudp.TxRing
import Gasnet.Barrier.RmdAgreement
import Gasnet.Coll.ActiveListPolls
import Gasnet.Coll.BootstrapSync
import Gasnet.Coll.ConsensusProgress
import Gasnet.Coll.ExchgDissemCorrect
import Gasnet.Coll.Hashtable
import Gasnet.Coll.P2pTableGrow
import Gasnet.Coll.RotatedExchangeRuns
import Gasnet.Coll.SubCollectivesRuns
import Gasnet.Coll.TeamIdRuns
import Gasnet.Coll.TreeCache
import Gasnet.Coll.TreeViews
import Gasnet.Coll.Tuning
import Gasnet.Coll.TuningFile
import Gasnet.Event.AccessRegion
import Gasnet.Event.EopListsRuns
import Gasnet.Event.TestArraySound
import Gasnet.Firehose.Merge
import Gasnet.Firehose.RegionPool
import Gasnet.Firehose.RequestRuns
import Gasnet.Firehose.SlotRuns
import Gasnet.Firehose.TryPin
import Gasnet.Ibv.ConnTableReader
import Gasnet.Ibv.CreditsRuns
import Gasnet.Internal.AmRegister
import Gasnet.Internal.DecodeArgs
import Gasnet.Internal.IntSettings
import Gasnet.Internal.NodeMapParse
import Gasnet.Loopback.Correct
import Gasnet.Ofi.RecvBuffersRuns
import Gasnet.Pmi.Correct
import Gasnet.Pshm.BootstrapProgress
import Gasnet.Pshm.MailboxProgress
import Gasnet.Ratomic.Linear
import Gasnet.Segment.Search
import Gasnet.Ssh.Layout
import Gasnet.Ssh.NodeLists
import Gasnet.Ssh.OptionsWords
import Gasnet.Strided.Convert
import Gasnet.Strided.Gets
import Gasnet.Sync.LockFree
import Gasnet.Ucx.SendBuffers
import Gasnet.Vis.Pack
import Gasnet.Vis.PacketizeRuns
import Gasnet.Vis.PutsRuns
