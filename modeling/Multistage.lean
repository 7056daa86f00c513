import Multistage.Main
import Multistage.Table.Ranges
import Multistage.Table.Text
import Multistage.Proofs.Rebuild
import Multistage.Proofs.CatalogRoundTrip
import Multistage.Proofs.SplitOptimal
import Multistage.Proofs.ReadErrors
import Multistage.Proofs.SideTableForm
import Multistage.Proofs.StoredForm
import Multistage.Proofs.Reencoding
import Multistage.Proofs.Truncation
import Multistage.Proofs.LargestValue
import Multistage.Proofs.LoadSafety
import Multistage.Proofs.PackedLeaves
import Multistage.Proofs.RecordSafety
import Multistage.Proofs.Interning
import Multistage.Proofs.SpecOutcome
import Multistage.Proofs.ListProperties
import Multistage.Proofs.DeltaProperties
import Multistage.Proofs.RangeWalk
import Multistage.Proofs.Padding
import Multistage.Proofs.FailureIsolation
import Multistage.Proofs.ReportedSizes
import Multistage.Proofs.CatalogRuns
import Multistage.Proofs.InternerRuns
import Multistage.Proofs.RangeViews
import Multistage.Proofs.PackedRows
import Multistage.Proofs.SharingExact
import Multistage.Proofs.SampleCoherence
