import Cs162.KvServerRace
import Cs162.TornLog
import Cs162.TpcDecision
import Cs162.ReadyOrder
import Cs162.MmList
import Cs162.MmContents
import Cs162.Arithmetic
import Cs162.ArgumentBounds
import Cs162.KvWire
import Cs162.WakeupList
import Cs162.InodeTransfer
import Cs162.FilesysReboot
import Cs162.FilesysAtomic
import Cs162.KvCacheClear
import Cs162.RingLookup
import Cs162.SlaveRegistration
import Cs162.TpcLogRuns
import Cs162.ReplayBounds
import Cs162.KvServerLimits
import Cs162.UrgentWaiter
import Cs162.DonationLoop
import Cs162.LoadAverage
import Cs162.DescriptorTable
import Cs162.ExecHandshake
import Cs162.KernelMallocSizes
import Cs162.FixedPointLimits
import Cs162.Rtc
import Cs162.Ustar
import Cs162.ListLinks
