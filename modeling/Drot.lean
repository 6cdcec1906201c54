import Drot.Core.Bytes
import Drot.Core.LTS
import Drot.Core.Prog
import Drot.Core.Rely
import Drot.Core.Ledger
import Drot.Core.Disk
import Drot.Core.Stream
import Drot.Core.Replace
import Drot.Core.Volume
import Drot.Core.Placing
import Drot.Core.Text
import Drot.Core.Ssz
import Drot.Core.Column
import Drot.Core.Quorum
import Drot.Core.Bitmap
import Drot.Core.Shuffle
import Drot.Core.Williams
import Drot.L1Encoding.SlotRecord
import Drot.L1Encoding.Message
import Drot.L2State.SlotCounter
import Drot.L2State.SlotJournal
import Drot.L2State.SlotOutline
import Drot.L2State.SlotSolo
import Drot.L2State.SlotWindow
import Drot.L2State.SlotRuns
import Drot.L2State.Freshness
import Drot.L2State.FreshnessRuns
import Drot.L2State.LostTail
import Drot.L2State.Refusals
import Drot.L3Protocol.Committee
import Drot.L3Protocol.StatusList
import Drot.L3Protocol.MlDsa
import Drot.L4Node.RawVerifier
import Drot.L4Node.SnarkVerifier
import Drot.L4Node.MlDsaVerifier
import Drot.L4Node.Relying
import Drot.L5System.Agreement
import Drot.L5System.Holder
import Drot.L5System.Demo
import Drot.L5System.Bootstrap
import Drot.L5System.Messages
import Drot.L5System.Wire
import Drot.L5System.Exchange
import Drot.L5System.DemoPact
import Drot.L5System.DemoRuns
import Drot.L5System.Publication
import Drot.L5System.Acknowledged
import Drot.L5System.MlDsaDemo
import Drot.L5System.MlDsaRounds
import Drot.L5System.MlDsaPact
import Drot.L5System.MlDsaHistory
import Drot.L5System.Client
import Drot.L5System.Stranded
import Drot.L5System.RoundLock
import Drot.L5System.Replacement
import Drot.L5System.KeyWindow
import Drot.L6Bench.Workload
import Drot.L6Bench.Order
