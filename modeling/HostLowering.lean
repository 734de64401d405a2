import HostLowering.Main
import HostLowering.Scenario.Action
import HostLowering.Proofs.Machine.Registration
import HostLowering.Proofs.Lower.FirstFailure
import HostLowering.Proofs.Lower.Lifecycle
import HostLowering.Proofs.Archive.RoundTrip
import HostLowering.Proofs.Machine.Assembled
import HostLowering.Proofs.Machine.Interning
import HostLowering.Proofs.Lower.Innermost
import HostLowering.Proofs.Catalog.Order
import HostLowering.Proofs.Catalog.WellFormed
import HostLowering.Proofs.Lower.Passing
import HostLowering.Proofs.Lower.Truth
import HostLowering.Proofs.Lower.SlotPool
import HostLowering.Proofs.Object.Slicing
