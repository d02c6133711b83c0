import OpGrammar.Formula
import OpGrammar.Pattern.Printer
import OpGrammar.Proofs.Precedence
import OpGrammar.Proofs.Progress
import OpGrammar.Proofs.Soundness
import OpGrammar.Session
import OpGrammar.Proofs.Refusal
import OpGrammar.Proofs.Registers
import OpGrammar.Proofs.RefusedRule
import OpGrammar.Proofs.Leaves
import OpGrammar.Proofs.Emptiness
import OpGrammar.Proofs.KeptGroups
import OpGrammar.Proofs.FirstCome
import OpGrammar.Proofs.UnusedNames
import OpGrammar.Proofs.Bracketing
import OpGrammar.Proofs.Alternations
import OpGrammar.Proofs.Symbols
import OpGrammar.Proofs.Powers
import OpGrammar.Proofs.Orders
import OpGrammar.Proofs.Notation
import OpGrammar.Proofs.Boundaries
import OpGrammar.Proofs.Allowed
import OpGrammar.Proofs.Spellings
import OpGrammar.Proofs.FormulaWords
import OpGrammar.Proofs.Superscripts
import OpGrammar.Proofs.Rounds
import OpGrammar.Proofs.SeparateBranches
import OpGrammar.Proofs.NamedGroups
import OpGrammar.Proofs.Underflow
import OpGrammar.Proofs.Faults
import OpGrammar.Proofs.Alone
import OpGrammar.Proofs.Closable
import OpGrammar.Proofs.Pieces
import OpGrammar.Proofs.Checks
