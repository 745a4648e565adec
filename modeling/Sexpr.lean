import Sexpr.Arena.Equal
import Sexpr.Arena.Reachable
import Sexpr.FileTree
import Sexpr.Main
import Sexpr.Parser.Log
import Sexpr.Stream.Device
import Sexpr.Proofs.Tree
import Sexpr.Proofs.TreeText
import Sexpr.Proofs.Numeral
import Sexpr.Proofs.Literal
import Sexpr.Proofs.Lexing
import Sexpr.Proofs.Role
import Sexpr.Proofs.Form
import Sexpr.Proofs.Room
import Sexpr.Proofs.Layout
import Sexpr.Proofs.Outline
import Sexpr.Proofs.Building
import Sexpr.Proofs.Acceptance
import Sexpr.Proofs.Refusal
import Sexpr.Proofs.ViablePrefix
import Sexpr.Proofs.Readable
import Sexpr.Proofs.Rereading
import Sexpr.Proofs.RoundTrip
import Sexpr.Proofs.Limit
import Sexpr.Proofs.Sharing
import Sexpr.Proofs.Cells
import Sexpr.Proofs.Growth
import Sexpr.Proofs.Leftover
import Sexpr.Proofs.Command
import Sexpr.Proofs.Session
import Sexpr.Proofs.Nesting
import Sexpr.Proofs.Threshold
import Sexpr.Proofs.Simulation
import Sexpr.Proofs.Relocation
import Sexpr.Proofs.Decomposition
import Sexpr.Proofs.Spacing
import Sexpr.Proofs.Exchange
import Sexpr.Proofs.Joining
import Sexpr.Proofs.QuoteSpelling
import Sexpr.Proofs.Identity
import Sexpr.Proofs.Indexing
import Sexpr.Proofs.Faultless
import Sexpr.Proofs.Listing
import Sexpr.Proofs.Obstacle
import Sexpr.Proofs.CanonicalLiteral
import Sexpr.Proofs.Dump
import Sexpr.Proofs.DumpCost
import Sexpr.Proofs.FaithfulDump
import Sexpr.Proofs.Pulling
import Sexpr.Proofs.ShownPlaces
import Sexpr.Proofs.Paragraphs
import Sexpr.Proofs.SinkCalls
import Sexpr.Proofs.Gathering
import Sexpr.Proofs.ListedText
import Sexpr.Proofs.EscapedMarks
import Sexpr.Proofs.ListItems
import Sexpr.Proofs.SourceOrder
