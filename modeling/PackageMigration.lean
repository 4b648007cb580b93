import PackageMigration.Main
import PackageMigration.Proofs.Archive.Idempotence
import PackageMigration.Proofs.Archive.Manifests
import PackageMigration.Proofs.Archive.Nesting
import PackageMigration.Proofs.Archive.Order
import PackageMigration.Proofs.Archive.Outcome
import PackageMigration.Proofs.Archive.ReadBack
import PackageMigration.Proofs.Archive.Unsigned
import PackageMigration.Proofs.ClassFile.Changed
import PackageMigration.Proofs.ClassFile.Grammar
import PackageMigration.Proofs.CommandLine.Arguments
import PackageMigration.Proofs.Entry.ClassPath
import PackageMigration.Proofs.Manifest.Cuts
import PackageMigration.Proofs.Manifest.Folding
import PackageMigration.Proofs.Manifest.Frame
import PackageMigration.Proofs.Mapping.Agreement
import PackageMigration.Proofs.Mapping.Local
import PackageMigration.Proofs.Mapping.Replacement
import PackageMigration.Proofs.Mapping.Rules
import PackageMigration.Proofs.Migration.Atomicity
import PackageMigration.Proofs.Migration.Buffering
import PackageMigration.Proofs.Migration.Frame
import PackageMigration.Proofs.Migration.Idempotence
import PackageMigration.Proofs.Migration.InPlace
import PackageMigration.Proofs.Migration.Lifecycle
import PackageMigration.Proofs.Migration.Progress
import PackageMigration.Proofs.Migration.Routing
import PackageMigration.Proofs.Profile.Repetition
import PackageMigration.Proofs.Text.Conversion
