import AccessRules.Enforcer.Session
import AccessRules.Proofs.Audit.Agreement
import AccessRules.Proofs.Audit.Compound
import AccessRules.Proofs.Cache.Entries
import AccessRules.Proofs.Cache.History
import AccessRules.Proofs.Decision.Abstraction
import AccessRules.Proofs.Decision.Combining
import AccessRules.Proofs.Decision.Polarity
import AccessRules.Proofs.Decision.Questions
import AccessRules.Proofs.Decision.Rewriting
import AccessRules.Proofs.Decision.Trail
import AccessRules.Proofs.Enforcer.Transparency
import AccessRules.Proofs.Grammar.Alternatives
import AccessRules.Proofs.Grammar.Arguments
import AccessRules.Proofs.Grammar.Calls
import AccessRules.Proofs.Grammar.Chain
import AccessRules.Proofs.Grammar.Coverage
import AccessRules.Proofs.Grammar.Enclosed
import AccessRules.Proofs.Grammar.Inspection
import AccessRules.Proofs.Grammar.Layout
import AccessRules.Proofs.Grammar.Limit
import AccessRules.Proofs.Grammar.Literals
import AccessRules.Proofs.Grammar.Parsed
import AccessRules.Proofs.Grammar.TidyText
import AccessRules.Proofs.Grammar.Warnings
import AccessRules.Proofs.Grammar.Written
import AccessRules.Proofs.Lexeme.Joining
import AccessRules.Proofs.Offsets.Pieces
import AccessRules.Proofs.Offsets.Valid
import AccessRules.Proofs.Scan.Operators
import AccessRules.Proofs.Scan.Tidying
import AccessRules.Rule
import AccessRules.Sample.DocumentStore
