import PropContract.Main
import PropContract.Proofs.Resolver.History
import PropContract.Proofs.Injection.Extracted
import PropContract.Proofs.Injection.Repeated
import PropContract.Proofs.Resolver.Recurrence
import PropContract.Proofs.Project.FileOrder
import PropContract.Proofs.Shape.Stored
import PropContract.Proofs.CommandLine.Independence
import PropContract.Proofs.Extraction.Weaving
import PropContract.Proofs.Resolver.Nullable
import PropContract.Proofs.Resolver.Unions
import PropContract.Proofs.Resolver.Enums
import PropContract.Proofs.Resolver.Interfaces
import PropContract.Proofs.Resolver.Utilities
import PropContract.Proofs.Resolver.Depth
import PropContract.Proofs.Injection.Usage
import PropContract.Proofs.Injection.Entries
import PropContract.Proofs.Injection.Opening
import PropContract.Proofs.Validator.Grouping
import PropContract.Proofs.Validator.Scanning
import PropContract.Proofs.Validator.Comments
import PropContract.Proofs.Resolver.Templates
import PropContract.Proofs.Project.ConfigText
import PropContract.Proofs.Text.Pass
import PropContract.Proofs.Text.Positions
import PropContract.Proofs.Path.Canonical
import PropContract.Proofs.Resolver.Leaves
