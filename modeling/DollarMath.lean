import DollarMath.Run
import DollarMath.Proofs.ConvertedOnce
import DollarMath.Proofs.Code
import DollarMath.Proofs.Content
import DollarMath.Proofs.Decomposition
import DollarMath.Proofs.Adjacent
import DollarMath.Proofs.Apart
import DollarMath.Proofs.Explicit
import DollarMath.Proofs.Inlines
import DollarMath.Proofs.Returns
import DollarMath.Proofs.Layout
import DollarMath.Proofs.Footnotes
import DollarMath.Proofs.Doubled
import DollarMath.Proofs.LineFeeds
import DollarMath.Proofs.Agreement
import DollarMath.Proofs.Candidates
import DollarMath.Proofs.Outside
import DollarMath.Proofs.Reached
import DollarMath.Proofs.Collapsing
import DollarMath.Proofs.Recognised
import DollarMath.Proofs.EscapedParens
import DollarMath.Proofs.StableBrackets
import DollarMath.Proofs.StableQuotes
import DollarMath.Proofs.QuotedLines
import DollarMath.Proofs.MixedDocuments
import DollarMath.Proofs.Endings
import DollarMath.Proofs.Signs
import DollarMath.Proofs.InlineLines
import DollarMath.Proofs.Commands
import DollarMath.Proofs.Encodings
import DollarMath.Proofs.RoundTrip
import DollarMath.Proofs.CollapsedLines
