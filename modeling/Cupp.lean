import Cupp.Lib.Runs
import Cupp.Lib.Bitmap
import Cupp.Lib.TwoIndex
import Cupp.Lib.Slots
import Cupp.Lib.Emitter
import Cupp.Lib.Objects
import Cupp.Lib.FirstFit
import Cupp.Basic
import Cupp.Identity
import Cupp.DynamicPool
import Cupp.PoolSet
import Cupp.YamlLoader
import Cupp.PolicyEngine
import Cupp.SessionManager
import Cupp.IpAllocator
import Cupp.Owners
import Cupp.Book
import Cupp.Sections
import Cupp.Accounting
import Cupp.Operations
import Cupp.Exclusivity
import Cupp.OnePolicy
import Cupp.Stability
import Cupp.Reload
import Cupp.SessionNames
import Cupp.Sweep
import Cupp.Rekey
import Cupp.Removal
import Cupp.SweepExact
import Cupp.ReleaseAddress
import Cupp.Releases
import Cupp.FailedLogin
import Cupp.UserNames
import Cupp.SessionTable
import Cupp.Readers
import Cupp.Plugin
import Cupp.Documents
import Cupp.Bindings
import Cupp.AllOrNothing
import Cupp.LoaderExact
import Cupp.UnknownKeys
import Cupp.LoaderSound
import Cupp.FailFast
import Cupp.Server
import Cupp.Answers
import Cupp.Capacity
import Cupp.Atomic
import Cupp.Linearizable
import Cupp.LeaseMemory
import Cupp.Lib.Ledger
import Cupp.PolicyLedger
import Cupp.Reclaim
import Cupp.Unload
import Cupp.LoaderRange
import Cupp.InUse
