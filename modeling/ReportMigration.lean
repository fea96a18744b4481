import ReportMigration.Machine
import ReportMigration.Main
import ReportMigration.Proofs.Sql.CharCall
import ReportMigration.Report.Reading
import ReportMigration.Sql.Literal
import ReportMigration.Proofs.Markup.AsWritten
import ReportMigration.Proofs.Markup.Rereading
import ReportMigration.Proofs.Sql.Quotation
import ReportMigration.Proofs.Sql.Balance
import ReportMigration.Proofs.Migration.History
import ReportMigration.Proofs.Migration.Preview
import ReportMigration.Proofs.Migration.Accounting
import ReportMigration.Proofs.Migration.Omission
import ReportMigration.Proofs.Sql.Leftover
import ReportMigration.Proofs.Markup.Unchanged
import ReportMigration.Proofs.Markup.Faults
import ReportMigration.Proofs.Markup.Selectors
import ReportMigration.Proofs.Markup.Calls
import ReportMigration.Proofs.Markup.OpenFields
import ReportMigration.Proofs.Migration.Saving
import ReportMigration.Proofs.Sql.Hint
import ReportMigration.Proofs.Sql.Layout.BlankRuns
import ReportMigration.Proofs.Sql.Layout.Breaks
import ReportMigration.Proofs.Sql.Layout.Connectives
import ReportMigration.Proofs.Sql.Layout.Separators
import ReportMigration.Proofs.Sql.Layout.Stable
import ReportMigration.Proofs.Sql.CharRule
import ReportMigration.Proofs.Sql.FormatCall
import ReportMigration.Proofs.Sql.Onlooker
import ReportMigration.Proofs.Sql.SecondRewrite
import ReportMigration.Proofs.Sql.Weight
import ReportMigration.Proofs.Sql.Statements
import ReportMigration.Proofs.Sql.Positions.Safety
import ReportMigration.Proofs.Markup.StartTags
import ReportMigration.Proofs.Markup.SelectorSets
import ReportMigration.Proofs.Migration.Listing
import ReportMigration.Proofs.Settings.Placeholders
import ReportMigration.Proofs.Sql.TopLevel
import ReportMigration.Proofs.Sql.Layout.LongRuns
import ReportMigration.Proofs.Sql.Layout.SelectLists
