import HclOverlay.Main
import HclOverlay.Proofs.Build.Atomicity
import HclOverlay.Proofs.Build.Completeness
import HclOverlay.Proofs.Build.Confinement
import HclOverlay.Proofs.Build.Restoring
import HclOverlay.Proofs.Patching.Emission
import HclOverlay.Proofs.Patching.Locality
import HclOverlay.Proofs.Patching.Safety
import HclOverlay.Proofs.Patching.Targets
import HclOverlay.Proofs.Merging.Fields
import HclOverlay.Proofs.Merging.Paths
import HclOverlay.Proofs.Json.Integers
import HclOverlay.Proofs.Json.Printed
import HclOverlay.Proofs.Merging.Laws
import HclOverlay.Proofs.Manifest.Rewriting
import HclOverlay.Proofs.Build.Survival
import HclOverlay.Proofs.Patching.Independence
import HclOverlay.Proofs.Patching.Commutation
import HclOverlay.Proofs.Documents.Names
import HclOverlay.Proofs.Patching.Failures
import HclOverlay.Proofs.Patching.Lookup
import HclOverlay.Proofs.Patching.Writing
import HclOverlay.Proofs.Patching.Reapplication
import HclOverlay.Proofs.Patching.Alignment
import HclOverlay.Proofs.Patching.Comments
import HclOverlay.Proofs.Overlays.Acceptance
import HclOverlay.Proofs.Overlays.Strategies
import HclOverlay.Proofs.Patching.KeptText
import HclOverlay.Proofs.Build.Spellings
import HclOverlay.Proofs.Source.Positions
import HclOverlay.Proofs.Module.Resolution
import HclOverlay.Proofs.Build.Updates
import HclOverlay.Proofs.Rendering.Indentation
