import DrawScript.Main
import DrawScript.Samples
import DrawScript.Expectation
import DrawScript.Proofs.Token.Spelling
import DrawScript.Proofs.Tree.WellFormed
import DrawScript.Proofs.Tree.Unplaced
import DrawScript.Proofs.Parser.Steps
import DrawScript.Proofs.Grammar.Basic
import DrawScript.Proofs.Grammar.Reading
import DrawScript.Proofs.Grammar.Nesting
import DrawScript.Proofs.Grammar.Deriving
import DrawScript.Proofs.Grammar.Documents
import DrawScript.Proofs.Parser.Trees
import DrawScript.Proofs.Canonical.Scan
import DrawScript.Proofs.Canonical.RoundTrip
import DrawScript.Proofs.Canonical.FixedPoint
import DrawScript.Proofs.Parser.Height
import DrawScript.Proofs.Token.Places
import DrawScript.Proofs.Parser.Order
import DrawScript.Proofs.Parser.Relocation
import DrawScript.Proofs.Grammar.Joining
import DrawScript.Proofs.Grammar.Cutting
import DrawScript.Proofs.Parser.Yield
import DrawScript.Proofs.Token.Partition
import DrawScript.Proofs.Token.LongestMatch
import DrawScript.Proofs.Extraction.Unplaced
import DrawScript.Proofs.Parser.Layout
import DrawScript.Proofs.Canonical.Identity
import DrawScript.Proofs.Parser.Visited
import DrawScript.Proofs.Source.Lines
import DrawScript.Proofs.Source.FinalBreak
import DrawScript.Proofs.Canonical.Reformatting
import DrawScript.Proofs.Extraction.Reached
import DrawScript.Proofs.Extraction.Findings
import DrawScript.Proofs.Extraction.Segments
import DrawScript.Proofs.Parser.Abandonment
import DrawScript.Proofs.Grammar.Stray
import DrawScript.Proofs.Canonical.Counter
import DrawScript.Proofs.Format.Lines
import DrawScript.Proofs.Format.Strings
import DrawScript.Proofs.Outline.Drawing
import DrawScript.Proofs.Datum.Json
import DrawScript.Proofs.Datum.Trees
import DrawScript.Proofs.Parser.Observed
import DrawScript.Proofs.Parser.Recursion
import DrawScript.Proofs.Parser.Progress
import DrawScript.Proofs.Parser.Observation
