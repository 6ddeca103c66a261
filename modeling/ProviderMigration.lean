import ProviderMigration.Main
import ProviderMigration.Storage.Machine
import ProviderMigration.Text.Offset
import ProviderMigration.Ignore.Piece
import ProviderMigration.Ignore.Reach
import ProviderMigration.Proofs.Provider.Division
import ProviderMigration.Proofs.Identifier.Pass
import ProviderMigration.Proofs.Identifier.Slot
import ProviderMigration.Proofs.Identifier.Pattern
import ProviderMigration.Proofs.Identifier.Template
import ProviderMigration.Proofs.Provider.Exchange
import ProviderMigration.Proofs.Migration.Again
import ProviderMigration.Proofs.Provider.Letter
import ProviderMigration.Proofs.Block.Remainder
import ProviderMigration.Proofs.Identifier.Respelling
import ProviderMigration.Proofs.Identifier.Order
import ProviderMigration.Proofs.Migration.Foreign
import ProviderMigration.Proofs.Storage.Descent
import ProviderMigration.Proofs.Storage.Growth
import ProviderMigration.Proofs.Migration.Attempt
import ProviderMigration.Proofs.Migration.Verdict
import ProviderMigration.Proofs.Migration.Course
import ProviderMigration.Proofs.Migration.Copies
import ProviderMigration.Proofs.Migration.Looking
import ProviderMigration.Proofs.Migration.Stages
import ProviderMigration.Proofs.Migration.Report
import ProviderMigration.Proofs.Migration.DryRun
import ProviderMigration.Proofs.Block.Segment
import ProviderMigration.Proofs.Block.Grammar
import ProviderMigration.Proofs.Storage.Route
import ProviderMigration.Proofs.Storage.Spelling
import ProviderMigration.Proofs.Storage.Entrance
import ProviderMigration.Proofs.Storage.Resolution
import ProviderMigration.Proofs.Migration.Guard
import ProviderMigration.Proofs.Migration.Groundwork
import ProviderMigration.Proofs.Migration.Backup
import ProviderMigration.Proofs.Migration.Safety
import ProviderMigration.Proofs.Identifier.Absence
import ProviderMigration.Proofs.Migration.Frame
import ProviderMigration.Proofs.Block.Alignment
import ProviderMigration.Proofs.Block.Span
import ProviderMigration.Proofs.Provider.Correspondence
import ProviderMigration.Proofs.Provider.Repetition
import ProviderMigration.Proofs.Migration.Outline
import ProviderMigration.Proofs.Migration.Unrelated
import ProviderMigration.Proofs.Identifier.Literal
import ProviderMigration.Proofs.Identifier.Skeleton
import ProviderMigration.Proofs.Identifier.Count
import ProviderMigration.Proofs.Difference.Reach
import ProviderMigration.Proofs.Difference.Meeting
import ProviderMigration.Proofs.Difference.Preview
import ProviderMigration.Proofs.Provider.Boundary
import ProviderMigration.Proofs.Provider.Attributes
import ProviderMigration.Proofs.Provider.Succession
import ProviderMigration.Proofs.Provider.Sibling
import ProviderMigration.Proofs.Provider.Successor
import ProviderMigration.Proofs.Identifier.Beginning
import ProviderMigration.Proofs.Block.Extent
import ProviderMigration.Proofs.Text.Bytes
import ProviderMigration.Proofs.Provider.Slices
import ProviderMigration.Proofs.Migration.Selection
import ProviderMigration.Proofs.Toml.Document
import ProviderMigration.Proofs.Settings.Document
import ProviderMigration.Proofs.Migration.Keeping
