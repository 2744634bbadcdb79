import Almond.Theorems.Authorization
import Almond.Theorems.Catalogue
import Almond.Theorems.ChunkedUploads
import Almond.Theorems.Coalescing
import Almond.Theorems.Discovery
import Almond.Theorems.Fetch
import Almond.Theorems.Intake
import Almond.Theorems.MutationLocks
import Almond.Theorems.Preflight
import Almond.Theorems.Publication
import Almond.Theorems.Quota
import Almond.Theorems.Replays
import Almond.Theorems.Reservations
import Almond.Theorems.Sessions
import Almond.Theorems.Superseded
import Almond.Theorems.Tail
import Almond.Theorems.Upkeep
import Almond.Theorems.UpstreamServers
import Almond.Theorems.SingleFlight
import Almond.Scanning
import Almond.Theorems.BlobName
import Almond.Descriptor
import Almond.Theorems.NativeStorage
import Almond.Theorems.Startup
import Almond.Theorems.Sunset
import Almond.BlobFilter
import Almond.Data.Sorting
import Almond.Lemmas.RetentionAux
import Almond.Theorems.BlobFilter
import Almond.Theorems.Retention
import Almond.ConfigEditor
import Almond.Lemmas.ConfigEditorAux
import Almond.Lemmas.MigrationAux
import Almond.Theorems.ConfigDocument
import Almond.Theorems.ConfigEditor
import Almond.Theorems.Migration
import Almond.Theorems.FilterTest
import Almond.Theorems.Ranges
import Almond.Theorems.Replies
import Almond.Theorems.Reports
import Almond.ConfigDocument
import Almond.Theorems.ConfigValidation
import Almond.Theorems.HlsMirror
import Almond.Theorems.AuthEvents
import Almond.Data.Counting
import Almond.TrustNetwork
import Almond.Lemmas.TrustNetworkAux
import Almond.Theorems.TrustNetwork
import Almond.Lemmas.CleanupAux
import Almond.Theorems.Cleanup
import Almond.Theorems.Eviction
import Almond.Conc.Returns
import Almond.Data.FirstOccurrences
import Almond.UpstreamCandidates
import Almond.Lemmas.UpstreamCandidatesAux
import Almond.Theorems.UpstreamCandidates
import Almond.Lemmas.CustodyAux
import Almond.Lemmas.HoldersAux
import Almond.Theorems.Candidates
import Almond.Theorems.Custody
import Almond.Theorems.Addresses
import Almond.Theorems.Errors
import Almond.Theorems.Units
import Almond.Theorems.Prices
import Almond.Theorems.Spellings
import Almond.Conc.Possible
import Almond.Theorems.Removals
import Almond.Lemmas.SynchronizationAux
import Almond.Theorems.Synchronization
import Almond.Conc.Progress
import Almond.Theorems.Guards
import Almond.Lemmas.QuarantineAux
import Almond.Theorems.Quarantine
import Almond.ServeFiles
import Almond.Lemmas.ServeFilesAux
import Almond.Theorems.ServeFiles
import Almond.Lemmas.PaymentsAux
import Almond.Theorems.Payments
