import SqlFragment.Query.Description
import SqlFragment.Schema.Description
import SqlFragment.Proofs.Binding
import SqlFragment.Proofs.Correlation
import SqlFragment.Proofs.RoundTrip
import SqlFragment.Proofs.Renumbering
import SqlFragment.Proofs.References
import SqlFragment.Proofs.Locality
import SqlFragment.Proofs.Enclosure
import SqlFragment.Proofs.Permitted
import SqlFragment.Proofs.Quotation
import SqlFragment.Proofs.Strategies
import SqlFragment.Proofs.Negations
import SqlFragment.Proofs.Memberships
import SqlFragment.Proofs.Catalogs
import SqlFragment.Proofs.Addresses
import SqlFragment.Proofs.Endings
import SqlFragment.Proofs.Composition
import SqlFragment.Proofs.Placeholders
import SqlFragment.Proofs.Locations
import SqlFragment.Proofs.Stages
import SqlFragment.Proofs.Registrations
import SqlFragment.Proofs.Replays
import SqlFragment.Proofs.Failures
