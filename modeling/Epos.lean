import Epos.ForStd.Fuel
import Epos.Network.Mac
import Epos.SmartData.Message
import Epos.SmartData.Responsive
import Epos.SmartData.Space
import Epos.Spec.AlarmCorrect
import Epos.Spec.AlarmLocking
import Epos.Spec.ArpCorrect
import Epos.Spec.BignumCorrect
import Epos.Spec.BufferConservation
import Epos.Spec.CeilingFreshness
import Epos.Spec.CeilingNesting
import Epos.Spec.CeilingStorageCorrect
import Epos.Spec.ConcurrentObserverCorrect
import Epos.Spec.ConnectionKeys
import Epos.Spec.CountingCorrect
import Epos.Spec.DhcpOptions
import Epos.Spec.DiffieHellmanCorrect
import Epos.Spec.DirectoryCorrect
import Epos.Spec.DispatchCorrect
import Epos.Spec.EarliestDeadlineOrder
import Epos.Spec.FragmentationRoundTrip
import Epos.Spec.GeometryCorrect
import Epos.Spec.GroupingListsCorrect
import Epos.Spec.ObjectSearch
import Epos.Spec.GlobalCeiling
import Epos.Spec.HeapCorrect
import Epos.Spec.HeapSizes
import Epos.Spec.HeldResources
import Epos.Spec.Inheritance
import Epos.Spec.InternetChecksum
import Epos.Spec.InterruptAtomicity
import Epos.Spec.IpcpBlocking
import Epos.Spec.LockOwnership
import Epos.Spec.JoinCorrect
import Epos.Spec.MacCorrect
import Epos.Spec.MessageCorrect
import Epos.Spec.MmuCorrect
import Epos.Spec.MutexCorrect
import Epos.Spec.ObserverCorrect
import Epos.Spec.PcpCeiling
import Epos.Spec.Poly1305Correct
import Epos.Spec.Preemption
import Epos.Spec.AlarmRepetition
import Epos.Spec.DeadlockFreedom
import Epos.Spec.ListRepresentation
import Epos.Spec.MultiheadCorrect
import Epos.Spec.PriorityChange
import Epos.Spec.ReassemblyKeys
import Epos.Spec.RegistryCorrect
import Epos.Spec.RelativeListCorrect
import Epos.Spec.ResidualCeiling
import Epos.Spec.ResponsiveCorrect
import Epos.Spec.Restoration
import Epos.Spec.SchedulingDiscipline
import Epos.Spec.SecurityCorrect
import Epos.Spec.SpaceCorrect
import Epos.Spec.SrpBlocking
import Epos.Spec.SuspendPass
import Epos.Spec.TcpAcceptability
import Epos.Spec.TcpAttachCorrect
import Epos.Spec.TcpBalance
import Epos.Spec.TcpCompletion
import Epos.Spec.TcpDelivery
import Epos.Spec.TcpSignals
import Epos.Spec.TcpWindow
import Epos.Spec.TcpWrap
import Epos.Spec.WakeupAllCorrect
import Epos.Spec.UdpChecksum
import Epos.Spec.BoundedReceive
import Epos.Utility.Geometry
import Epos.Spec.MicroframeTrain
import Epos.Spec.BignumInverse
import Epos.Spec.JacobianCorrect
import Epos.Spec.PackCorrect
import Epos.Spec.BlockingReadCorrect
import Epos.Spec.UpdaterPeriod
import Epos.Spec.MacSelection
import Epos.Spec.PcnetAlloc
import Epos.Spec.CrcCorrect
import Epos.Spec.BitmapSets
import Epos.Spec.SquareRootCorrect
import Epos.Spec.CircularBufferCorrect
import Epos.Spec.SpinCorrect
import Epos.Spec.SrecDecode
import Epos.Spec.SrecCorrect
