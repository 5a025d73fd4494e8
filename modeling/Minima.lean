import Minima.Base.Arithmetic
import Minima.Base.DataOrder
import Minima.Brains.Difficulty
import Minima.Brains.SyncIBD
import Minima.Brains.TxPoWMiner
import Minima.Brains.TxPoWScripts
import Minima.Brains.Retargeting
import Minima.Brains.TxPoWSearcher
import Minima.Commands.SendBalance
import Minima.Commands.SplitterAgreement
import Minima.Database.TreeStream
import Minima.Json.RoundTrip
import Minima.Keys.Wallet
import Minima.Kissvm.BitFunctions
import Minima.Kissvm.CleanScript
import Minima.Kissvm.Substitution
import Minima.Kissvm.UncheckedPlaces
import Minima.Mmr.Completeness
import Minima.Network.Link
import Minima.Network.NIOMessage
import Minima.Network.SwapLinks
import Minima.Objects.Address
import Minima.Objects.AllOrNothing
import Minima.Objects.ChainContest
import Minima.Objects.MMRRun
import Minima.Objects.MagicChain
import Minima.Objects.SuperParentRuns
import Minima.Objects.TokenScale
import Minima.Utils.Maths
import Minima.Utils.MiniFormat
import Minima.Brains.AcceptedBlock
import Minima.Brains.Branch
import Minima.Brains.BranchSafety
