import GrammarInduction.Binary64.Decimal
import GrammarInduction.Scripting.Session
import GrammarInduction.Proofs.Balance.Language
import GrammarInduction.Proofs.Candidate.BestMatch
import GrammarInduction.Proofs.Candidate.Verdict
import GrammarInduction.Proofs.Forest.Ending
import GrammarInduction.Proofs.Forest.Commute
import GrammarInduction.Proofs.Forest.Packing
import GrammarInduction.Proofs.Forest.Traversal
import GrammarInduction.Proofs.Forest.Undo
import GrammarInduction.Proofs.Neighbourhood.Sharing
import GrammarInduction.Proofs.Scripting.RoundTrip
import GrammarInduction.Proofs.Scripting.Validity
import GrammarInduction.Proofs.Session.Independence
import GrammarInduction.Proofs.Session.Progress
import GrammarInduction.Proofs.Session.Surroundings
import GrammarInduction.Proofs.Survey.Applicability
import GrammarInduction.Proofs.Survey.Overflow
import GrammarInduction.Proofs.Survey.SeedBalance
import GrammarInduction.Proofs.Survey.Shapes
import GrammarInduction.Proofs.SymbolTable.Histories
