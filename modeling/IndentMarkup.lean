import IndentMarkup.Compile.Session
import IndentMarkup.Files.Tree
import IndentMarkup.Json.Records
import IndentMarkup.Main
import IndentMarkup.Text.Group
import IndentMarkup.Proofs.Compile.Balance
import IndentMarkup.Proofs.Compile.Nesting
import IndentMarkup.Proofs.Compile.Layout
import IndentMarkup.Proofs.Compile.Document
import IndentMarkup.Proofs.Compile.Failure
import IndentMarkup.Proofs.Compile.Append
import IndentMarkup.Proofs.Compile.Reindent
import IndentMarkup.Proofs.Command.Diagnostic
import IndentMarkup.Proofs.Compile.Endings
import IndentMarkup.Proofs.Compile.Verbatim
import IndentMarkup.Proofs.Compile.Steps
import IndentMarkup.Proofs.Compile.Chain
import IndentMarkup.Proofs.Markup.Chunk
import IndentMarkup.Proofs.Compile.Alignment
import IndentMarkup.Proofs.Command.Schedule
import IndentMarkup.Proofs.Markup.Spacing
import IndentMarkup.Proofs.Markup.Place
import IndentMarkup.Proofs.Compile.Folding
import IndentMarkup.Proofs.Compile.Content
import IndentMarkup.Proofs.Compile.Leftover
import IndentMarkup.Proofs.Compile.Session
import IndentMarkup.Proofs.Json.Comment
import IndentMarkup.Proofs.Command.Report
import IndentMarkup.Proofs.Text.Group
import IndentMarkup.Proofs.Command.Output
