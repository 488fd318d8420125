import ForkingLR.Parser
import ForkingLR.Proofs.Engine.Backing
import ForkingLR.Proofs.Engine.Completeness
import ForkingLR.Stack.Pool
import ForkingLR.Proofs.Engine.Diagnosis
import ForkingLR.Proofs.Engine.Halting
import ForkingLR.Proofs.Engine.Skipping
import ForkingLR.Proofs.Engine.Limit
import ForkingLR.Proofs.Engine.Pruning
import ForkingLR.Proofs.Artifact.Cache
import ForkingLR.Proofs.Grammar.Writing
import ForkingLR.Proofs.Table.Renumbering
import ForkingLR.Proofs.Automaton.Renumbering
import ForkingLR.Proofs.Engine.Operators
import ForkingLR.Proofs.Engine.Modes
import ForkingLR.Cfg.Memo
import ForkingLR.Proofs.Cfg.Memo
import ForkingLR.Proofs.Table.Collection
import ForkingLR.Proofs.Table.Resolution
import ForkingLR.Proofs.Table.Retention
import ForkingLR.Proofs.Engine.Crowding
import ForkingLR.Proofs.Grammar.Hygiene
import ForkingLR.Proofs.Grammar.Failure
import ForkingLR.Proofs.Parser.Clauses
import ForkingLR.Proofs.Parser.Actions
import ForkingLR.Proofs.Parser.Series
