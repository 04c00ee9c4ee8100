import ApiGraph.Config.Project
import ApiGraph.Graph
import ApiGraph.Proofs.Archive.Listing
import ApiGraph.Proofs.Document.Graph
import ApiGraph.Proofs.Config.Announced
import ApiGraph.Proofs.Document.Reading
import ApiGraph.Proofs.Files.Confinement
import ApiGraph.Proofs.Reachability.Agenda
import ApiGraph.Proofs.Reachability.Ceilings
import ApiGraph.Proofs.Reachability.Derivation
import ApiGraph.Proofs.Reachability.Insertion
import ApiGraph.Proofs.Reachability.Pointed
import ApiGraph.Proofs.Reachability.Shortcut
import ApiGraph.Proofs.Reference.Selecting
import ApiGraph.Proofs.Resolve.ActiveSets
import ApiGraph.Proofs.Resolve.Adoption
import ApiGraph.Proofs.Resolve.Allowance
import ApiGraph.Proofs.Resolve.Inlining
import ApiGraph.Proofs.Resolve.Loading
import ApiGraph.Proofs.Resolve.Marking
import ApiGraph.Proofs.Resolve.Notes
import ApiGraph.Proofs.Resolve.Origin
import ApiGraph.Proofs.Resolve.Remote
import ApiGraph.Proofs.Resolve.SecondCall
import ApiGraph.Proofs.Resolve.Selection
import ApiGraph.Proofs.Resolve.Survival
import ApiGraph.Proofs.Resolve.Untouched
import ApiGraph.Proofs.Schema.Alias
import ApiGraph.Proofs.Schema.Editing
import ApiGraph.Proofs.Schema.Idempotence
import ApiGraph.Proofs.Schema.NamedTarget
import ApiGraph.Proofs.Splitting.Invisible
import ApiGraph.Proofs.Naming.Collected
import ApiGraph.Proofs.Naming.Completeness
import ApiGraph.Proofs.Naming.Identifier
import ApiGraph.Proofs.Naming.Keys
import ApiGraph.Proofs.Parsing.Construction
import ApiGraph.Proofs.Parsing.Failures
import ApiGraph.Proofs.Resolve.Unreadable
