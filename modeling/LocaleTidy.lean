import LocaleTidy.Main
import LocaleTidy.Proofs.Clean.Convergence
import LocaleTidy.Proofs.Usage.Decision
import LocaleTidy.Proofs.FileTree.Walk
import LocaleTidy.Proofs.FileTree.Longer
import LocaleTidy.Proofs.FileTree.Agreement
import LocaleTidy.Proofs.FileTree.Changes
import LocaleTidy.Proofs.FileTree.Listing
import LocaleTidy.Proofs.Corpus.Unchanged
import LocaleTidy.Proofs.FileTree.Writing
import LocaleTidy.Proofs.FileTree.Renaming
import LocaleTidy.Proofs.FileTree.Leading
import LocaleTidy.Proofs.FileTree.LastName
import LocaleTidy.Proofs.Catalog.Saving
import LocaleTidy.Proofs.Catalog.Changes
import LocaleTidy.Proofs.Clean.Steps
import LocaleTidy.Proofs.Clean.Rerun
import LocaleTidy.Proofs.Clean.Backup
import LocaleTidy.Proofs.Clean.Frame
import LocaleTidy.Proofs.Clean.Failure
import LocaleTidy.Proofs.Usage.Growth
import LocaleTidy.Proofs.Usage.Accounting
import LocaleTidy.Proofs.Analysis.Relocation
import LocaleTidy.Proofs.CommandLine.Override
import LocaleTidy.Proofs.Usage.Exclusion
import LocaleTidy.Proofs.Usage.Interleaving
import LocaleTidy.Proofs.FileTree.Spelling
import LocaleTidy.Proofs.Corpus.Reached
import LocaleTidy.Proofs.Corpus.Loading
import LocaleTidy.Proofs.Corpus.Overlap
import LocaleTidy.Proofs.CommandLine.DryRun
import LocaleTidy.Proofs.Clean.Viewpoint
import LocaleTidy.Proofs.CommandLine.WorkingDirectory
import LocaleTidy.Proofs.Corpus.LiteralIgnores
import LocaleTidy.Proofs.FileTree.Placing
import LocaleTidy.Proofs.Catalog.Atomicity
import LocaleTidy.Proofs.Catalog.AnyOrder
import LocaleTidy.Proofs.Catalog.ErasingOne
import LocaleTidy.Proofs.Usage.LastSegment
import LocaleTidy.Proofs.Usage.IndexSiblings
import LocaleTidy.Proofs.Pattern.Found
import LocaleTidy.Proofs.Pattern.Generalized
import LocaleTidy.Proofs.Settings.Search
import LocaleTidy.Proofs.Analysis.Storage
import LocaleTidy.Proofs.Catalog.EmptyObjects
import LocaleTidy.Proofs.Analysis.Warnings
import LocaleTidy.Proofs.Clean.Prompt
import LocaleTidy.Proofs.Settings.Reading
import LocaleTidy.Proofs.Key.Variations
import LocaleTidy.Proofs.Analysis.Failing
