import SoundChange.CommandLine.Session
import SoundChange.Main
import SoundChange.Proofs.Application.Locality
import SoundChange.Proofs.Application.TargetRead
import SoundChange.Proofs.Application.Trace
import SoundChange.Proofs.RuleBook.Omission
import SoundChange.Proofs.RuleBook.References
import SoundChange.Proofs.RuleBook.Reports
import SoundChange.Proofs.RuleBook.Trace
import SoundChange.Proofs.Statement.BadLine
import SoundChange.Proofs.Statement.Spelling
import SoundChange.Proofs.Application.Preference
import SoundChange.Proofs.Application.Preferred
import SoundChange.Proofs.Application.Interchange
import SoundChange.Proofs.Application.Rescan
import SoundChange.Proofs.Rule.FirstExact
import SoundChange.Proofs.Rule.Rejecting
import SoundChange.Proofs.Automaton.Limit
import SoundChange.Proofs.Automaton.Merging
import SoundChange.Proofs.Automaton.Precedence
import SoundChange.Proofs.FeatureSet.Declaration
import SoundChange.Proofs.Token.Lexeme
import SoundChange.Proofs.Token.Respacing
import SoundChange.Proofs.Token.Tiling
