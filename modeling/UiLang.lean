import UiLang.Main
import UiLang.Store
import UiLang.Proofs.Source.Recovery
import UiLang.Proofs.Source.Progress
import UiLang.Proofs.Scan.Joined
import UiLang.Proofs.Condition.Grouping
import UiLang.Proofs.Markup.Uniqueness
import UiLang.Proofs.Document.Structure
import UiLang.Proofs.Store.History
import UiLang.Proofs.Ui.RoundTrip
import UiLang.Proofs.Store.Notification
import UiLang.Proofs.Command.Places
import UiLang.Proofs.Command.Interleaving
import UiLang.Proofs.Source.Locations
import UiLang.Proofs.Source.Faults
import UiLang.Proofs.Source.LineEndings
import UiLang.Proofs.Script.StateRecord
import UiLang.Proofs.Script.Qualification
import UiLang.Proofs.Markup.Statements
import UiLang.Proofs.Source.Exports
import UiLang.Proofs.Script.Requalification
import UiLang.Proofs.Script.Declarations
import UiLang.Proofs.Script.Reads
import UiLang.Proofs.Script.Semicolons
import UiLang.Proofs.Script.SelfReads
import UiLang.Proofs.Condition.Display
import UiLang.Proofs.Condition.Strings
import UiLang.Proofs.View.Substitution
import UiLang.Proofs.State.RoundTrip
import UiLang.Proofs.Source.Attributes
import UiLang.Proofs.Syntax.Counting
import UiLang.Proofs.Ui.Calls
import UiLang.Proofs.Markup.Expansion
import UiLang.Proofs.Markup.Templates
import UiLang.Proofs.State.Numbers
import UiLang.Proofs.Source.Paths
import UiLang.Proofs.Source.Reports
import UiLang.Proofs.Syntax.Groups
import UiLang.Proofs.Markup.Entities
