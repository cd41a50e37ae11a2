import TypeAtlas.Draft
import TypeAtlas.LogFilter
import TypeAtlas.Main
import TypeAtlas.Proofs.Diagnostics.Filling
import TypeAtlas.Proofs.Draft.Agreement
import TypeAtlas.Proofs.Draft.Layout
import TypeAtlas.Proofs.Exchange
import TypeAtlas.Proofs.Heritage.Contract
import TypeAtlas.Proofs.Json.Accepting
import TypeAtlas.Proofs.Project.Directories
import TypeAtlas.Proofs.Project.Exchange
import TypeAtlas.Proofs.Project.Faults
import TypeAtlas.Proofs.Project.Jsonc
import TypeAtlas.Proofs.Project.Lineage
import TypeAtlas.Proofs.Project.Outcome
import TypeAtlas.Proofs.Project.Spacing
import TypeAtlas.Proofs.Symbols.Identity
import TypeAtlas.Proofs.Symbols.Internal
import TypeAtlas.Proofs.Symbols.Log
import TypeAtlas.Proofs.Symbols.Reopening
import TypeAtlas.Proofs.Tree.Modifiers
import TypeAtlas.Proofs.Tree.Reach
import TypeAtlas.Proofs.Tree.Roles
import TypeAtlas.Proofs.Tree.Stability
import TypeAtlas.Proofs.Tree.Store
import TypeAtlas.Proofs.Diagnostics.Colours
import TypeAtlas.Proofs.Flags.RoundTrip
import TypeAtlas.Proofs.Project.OutputNames
import TypeAtlas.Proofs.Project.Lines
