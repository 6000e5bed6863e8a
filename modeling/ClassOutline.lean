import ClassOutline.Main
import ClassOutline.Tree.Issue
import ClassOutline.Proofs.Agreement
import ClassOutline.Proofs.Anchors
import ClassOutline.Proofs.Extraction
import ClassOutline.Proofs.Layout
import ClassOutline.Proofs.Lexing.Bytes
import ClassOutline.Proofs.Lexing.Forms
import ClassOutline.Proofs.Lexing.Extents
import ClassOutline.Proofs.Lexing.Shared
import ClassOutline.Proofs.Lexing.Lossless
import ClassOutline.Proofs.Lexing.Stops
import ClassOutline.Proofs.Ordered
import ClassOutline.Proofs.Paths
import ClassOutline.Proofs.Pieces
import ClassOutline.Proofs.Reprint
import ClassOutline.Proofs.Sites
import ClassOutline.Proofs.Text
import ClassOutline.Proofs.Utf8
import ClassOutline.Proofs.Indexing
import ClassOutline.Proofs.ClassLikes
import ClassOutline.Proofs.Outcome
import ClassOutline.Proofs.Members
import ClassOutline.Proofs.Nesting
import ClassOutline.Proofs.Json.Documents
import ClassOutline.Proofs.Json.Models
import ClassOutline.Proofs.KnownNames
import ClassOutline.Proofs.Imports
import ClassOutline.Proofs.Rediscovery
import ClassOutline.Proofs.Lexing.Boundaries
import ClassOutline.Proofs.Bodies
import ClassOutline.Proofs.Hidden
import ClassOutline.Proofs.Lexing.Relaid
import ClassOutline.Proofs.Lexing.RelaidHeredocs
import ClassOutline.Proofs.Lexing.Literals
import ClassOutline.Proofs.Blocks
import ClassOutline.Proofs.Literals
import ClassOutline.Proofs.Margins
import ClassOutline.Proofs.DocBlocks
import ClassOutline.Proofs.TypeHints
import ClassOutline.Proofs.Reread
import ClassOutline.Proofs.MemberBlocks
import ClassOutline.Proofs.VisibleText
import ClassOutline.Proofs.TypeTexts
import ClassOutline.Proofs.Attributes
import ClassOutline.Proofs.Comments
import ClassOutline.Proofs.Checked
import ClassOutline.Proofs.Building
import ClassOutline.Proofs.Returns
import ClassOutline.Proofs.Lexing.LineEnds
import ClassOutline.Proofs.Lexing.Modes
import ClassOutline.Proofs.Lexing.Quotes
import ClassOutline.Proofs.Lexing.Heredocs
import ClassOutline.Proofs.Canonical
import ClassOutline.Proofs.Addresses
import ClassOutline.Proofs.Issues
import ClassOutline.Proofs.Plain.Sources
