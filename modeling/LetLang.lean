import LetLang.Evaluation.Depth
import LetLang.Main
import LetLang.Parse.Depth
import LetLang.Proofs.Evaluation.Arithmetic
import LetLang.Proofs.Evaluation.Contexts
import LetLang.Proofs.Evaluation.Grounded
import LetLang.Proofs.Evaluation.Locality
import LetLang.Proofs.Evaluation.Purity
import LetLang.Proofs.Evaluation.Returns
import LetLang.Proofs.Evaluation.Translation
import LetLang.Proofs.Evaluation.Unmentioned
import LetLang.Proofs.Evaluation.Writes
import LetLang.Proofs.Heap.Binding
import LetLang.Proofs.Heap.CallFrame
import LetLang.Proofs.Heap.Listing
import LetLang.Proofs.Parse.Budget
import LetLang.Proofs.Parse.Climbing
import LetLang.Proofs.Parse.Concatenation
import LetLang.Proofs.Parse.Places
import LetLang.Proofs.Parse.Recovery
import LetLang.Proofs.Parse.Resumption
import LetLang.Proofs.Print.Rejected
import LetLang.Proofs.Print.Source
import LetLang.Proofs.Print.Unambiguous
import LetLang.Proofs.Run.Binding
import LetLang.Proofs.Run.Layout
import LetLang.Proofs.Run.Lines
import LetLang.Proofs.Run.Listing
import LetLang.Proofs.Run.Numerals
import LetLang.Proofs.Run.Report
import LetLang.Proofs.Run.Reprint
import LetLang.Session.Basic
import LetLang.Syntax.Tree
