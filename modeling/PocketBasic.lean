import PocketBasic.Main
import PocketBasic.Session
import PocketBasic.Proofs.Folding.Kept
import PocketBasic.Proofs.Lexeme.Runs
import PocketBasic.Proofs.LineNumber.Split
import PocketBasic.Proofs.Listing.Idempotent
import PocketBasic.Proofs.Token.Lexemes
import PocketBasic.Proofs.Keyword.Terse
import PocketBasic.Proofs.Lexeme.Clashes
import PocketBasic.Proofs.Lexeme.Trimmed
import PocketBasic.Proofs.Listing.Compacted
import PocketBasic.Proofs.Folding.Marks
import PocketBasic.Proofs.Lexeme.Terminated
import PocketBasic.Proofs.Listing.CompactLine
import PocketBasic.Proofs.Listing.CompactedListing
import PocketBasic.Proofs.Listing.SpelledInFull
import PocketBasic.Proofs.Program.Terminators
import PocketBasic.Proofs.Token.Literals
import PocketBasic.Proofs.Listing.Forms
import PocketBasic.Proofs.Listing.CompactedTwice
import PocketBasic.Proofs.Program.LineStructure
import PocketBasic.Proofs.Folding.Origin
import PocketBasic.Proofs.Listing.CompactLength
import PocketBasic.Proofs.Listing.Culprits
import PocketBasic.Proofs.Token.Rules
import PocketBasic.Proofs.Keyword.Lookup
import PocketBasic.Proofs.LineNumber.Lead
import PocketBasic.Proofs.Token.Folded
import PocketBasic.Proofs.Token.Keywords
import PocketBasic.Proofs.Settings.Paths
import PocketBasic.Proofs.Cli.Outcome
import PocketBasic.Proofs.Token.Remarks
import PocketBasic.Proofs.Token.Bytewise
import PocketBasic.Proofs.Token.Periods
