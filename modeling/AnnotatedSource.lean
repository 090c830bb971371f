import AnnotatedSource.Span
import AnnotatedSource.Boundary
import AnnotatedSource.Kind
import AnnotatedSource.Kind.Set
import AnnotatedSource.Token
import AnnotatedSource.TokenSeq
import AnnotatedSource.Text.Slice
import AnnotatedSource.Text.Lines
import AnnotatedSource.Text.Place
import AnnotatedSource.Text.Blank
import AnnotatedSource.Text.Gap
import AnnotatedSource.Text.Opening
import AnnotatedSource.Tree
import AnnotatedSource.Tree.Misuse
import AnnotatedSource.Tree.Draft
import AnnotatedSource.Tree.Shape
import AnnotatedSource.Tree.Outline
import AnnotatedSource.Tree.Walk
import AnnotatedSource.Tree.Locate
import AnnotatedSource.Tree.Forest
import AnnotatedSource.Comments
import AnnotatedSource.Documentation
import AnnotatedSource.Source
import AnnotatedSource.Session
import AnnotatedSource.Json
import AnnotatedSource.Json.Numeral
import AnnotatedSource.Json.Lexeme
import AnnotatedSource.Json.Reader
import AnnotatedSource.Json.Settled
import AnnotatedSource.Json.Record
import AnnotatedSource.Estree
import AnnotatedSource.Proofs.Span
import AnnotatedSource.Proofs.Boundary
import AnnotatedSource.Proofs.TokenSeq.Separated
import AnnotatedSource.Proofs.Comments.Run
import AnnotatedSource.Proofs.Comments.Places
import AnnotatedSource.Proofs.Comments.Attribution
import AnnotatedSource.Proofs.Tree.Ancestry
import AnnotatedSource.Proofs.Tree.Coherent
import AnnotatedSource.Proofs.Comments.Sharing
import AnnotatedSource.Proofs.Documentation.Policy
import AnnotatedSource.Proofs.TokenSeq.Contents
import AnnotatedSource.Proofs.Comments.Gap
import AnnotatedSource.Proofs.Tree.Layout
import AnnotatedSource.Proofs.Tree.Canonical
import AnnotatedSource.Proofs.Tree.Locate
import AnnotatedSource.Proofs.Tree.Replay
import AnnotatedSource.Proofs.Tree.Balance
import AnnotatedSource.Proofs.Text.Lines
import AnnotatedSource.Proofs.Text.Place
import AnnotatedSource.Proofs.Source.Stores
import AnnotatedSource.Proofs.Documentation.Place
import AnnotatedSource.Proofs.TokenSeq.Relabel
import AnnotatedSource.Proofs.Comments.Relabel
import AnnotatedSource.Proofs.Source.ReportOrder
import AnnotatedSource.Proofs.Estree.Members
import AnnotatedSource.Proofs.Estree.Siblings
import AnnotatedSource.Proofs.Estree.Correspondence
import AnnotatedSource.Proofs.Estree.Written
import AnnotatedSource.Proofs.Estree.Load
import AnnotatedSource.Proofs.Estree.Faults
import AnnotatedSource.Proofs.Documentation.Sharing
import AnnotatedSource.Proofs.Session
import AnnotatedSource.Proofs.Text.Segmentation
import AnnotatedSource.Proofs.TokenSeq.Scan
import AnnotatedSource.Proofs.Source.Spacing
import AnnotatedSource.Proofs.Source.Passages
import AnnotatedSource.Proofs.Source.Interpreter
import AnnotatedSource.Proofs.Text.LineEnds
import AnnotatedSource.Proofs.Source.Cover
import AnnotatedSource.Proofs.Tree.Brackets
import AnnotatedSource.Proofs.Tree.Pruning
import AnnotatedSource.Proofs.Text.ByteOrder
import AnnotatedSource.Proofs.Json.KeyOrder
import AnnotatedSource.Proofs.Estree.Fields
import AnnotatedSource.Proofs.Estree.Occurrences
import AnnotatedSource.Proofs.Estree.Checks
import AnnotatedSource.Proofs.Estree.Placement
import AnnotatedSource.Proofs.Comments.Cursor
import AnnotatedSource.Proofs.Json.Forms
import AnnotatedSource.Proofs.Tree.Outline
import AnnotatedSource.Proofs.Kind
import AnnotatedSource.Proofs.Kind.Set
