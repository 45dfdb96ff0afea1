import ExactCover.Search.Basic
import ExactCover.Family.Reader
import ExactCover.Sudoku.Printer
import ExactCover.Sudoku.Reader
import ExactCover.Draw
import ExactCover.AnyPuzzle
import ExactCover.Command.Run
import ExactCover.Main
import ExactCover.Proofs.Matrix.Nesting
import ExactCover.Proofs.Matrix.Remains
import ExactCover.Proofs.Continuing
import ExactCover.Proofs.Search.Budget
import ExactCover.Proofs.Search.Leaves
import ExactCover.Proofs.Sudoku.Legality
import ExactCover.Proofs.Sudoku.Precovering
import ExactCover.Proofs.Matrix.InPlace
import ExactCover.Proofs.Search.Ending
import ExactCover.Proofs.Text.Lines
import ExactCover.Proofs.Family.Reading
import ExactCover.Proofs.Sudoku.Reading
import ExactCover.Proofs.Sudoku.Solved
import ExactCover.Proofs.Wrapping
import ExactCover.Proofs.Text.Refusal
import ExactCover.Proofs.Sudoku.Grammar
import ExactCover.Proofs.Sudoku.Columns
import ExactCover.Proofs.Decoding
import ExactCover.Proofs.Family.Malformed
import ExactCover.Proofs.Offering
import ExactCover.Proofs.Family.Disjoint
import ExactCover.Proofs.Sudoku.Playing
import ExactCover.Proofs.Family.Validity
import ExactCover.Proofs.Sudoku.Telling
import ExactCover.Proofs.Matrix.Shrinking
import ExactCover.Proofs.Matrix.Construction
import ExactCover.Proofs.RowsDecode
import ExactCover.Proofs.Conflicts
import ExactCover.Proofs.Branching
import ExactCover.Proofs.Drawing
import ExactCover.Proofs.Sudoku.Picture
import ExactCover.Proofs.Mesh.Detaching
