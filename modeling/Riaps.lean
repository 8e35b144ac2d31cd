import Riaps.Library.Checks
import Riaps.Library.Wrapping
import Riaps.SampleFifo
import Riaps.SampleQueue
import Riaps.Adapter
import Riaps.AdapterView
import Riaps.AdapterFlow
import Riaps.AdapterQuantum
import Riaps.AdapterFixedQuantum
import Riaps.AdapterReserve
import Riaps.AdapterLatency
import Riaps.AdapterHistory
import Riaps.AdapterFlush
import Riaps.AdapterResume
import Riaps.Library.Blocks
import Riaps.AdapterWeaving
import Riaps.AdapterStream
import Riaps.AdapterDelay
import Riaps.HostedGraph
import Riaps.Library.Machine
import Riaps.Library.Progress
import Riaps.Library.Simulation
import Riaps.Spsc
import Riaps.SpscFifo
import Riaps.SpscIndex
import Riaps.SpscWrap
import Riaps.SpscBatch
import Riaps.SpscLedger
import Riaps.SpscProgress
import Riaps.Bus
import Riaps.BusReserve
import Riaps.BusAccount
import Riaps.BusProgress
import Riaps.ParameterQueue
import Riaps.GainNode
import Riaps.GainProgress
import Riaps.Probe
import Riaps.ProbeNesting
import Riaps.ProbeAccount
import Riaps.ProbeBatch
import Riaps.ProbeProgress
import Riaps.Graph
import Riaps.GraphSchedule
import Riaps.GraphMeaning
import Riaps.GraphCutting
import Riaps.Library.LongestPath
import Riaps.GraphLatency
import Riaps.GraphRenaming
import Riaps.Library.Replay
import Riaps.GraphReplay
import Riaps.GraphJoining
import Riaps.GraphComposition
import Riaps.Library.Pools
import Riaps.Publication
import Riaps.PublicationOwners
import Riaps.PublicationPins
import Riaps.PublicationHazard
import Riaps.PublicationPlaces
import Riaps.PublicationVersions
import Riaps.PublicationOrder
import Riaps.LiveGraphs
import Riaps.LiveBorrows
import Riaps.LiveHistory
import Riaps.PublicationProgress
import Riaps.PublicationReclaim
import Riaps.Rcu
import Riaps.PublicationRcu
import Riaps.EmergencySlot
import Riaps.DeferredDrop
import Riaps.DeferredLedger
import Riaps.Provisioner
import Riaps.Fpu
