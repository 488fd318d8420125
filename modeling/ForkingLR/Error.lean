/-! What can go wrong, by cause, with the wording of each cause in one place. -/
namespace ForkingLR

def quoted (name : String) : String := "`" ++ name ++ "`"

inductive WordFault where
  | missingName
  | misplacedOperator
  deriving DecidableEq, Repr

def WordFault.message (word : String) : WordFault → String
  | .missingName => quoted word ++ " has no symbol name"
  | .misplacedOperator => quoted word ++ " has a misplaced operator"

inductive GrammarError where
  | invalidSymbol (name : String)
  | expectedNonterminal (name : String)
  | expectedTerminal (name : String)
  | reservedSymbol (name : String)
  | malformedExpression (expression word : String) (fault : WordFault)
  | invalidStart (name : String)
  | precedenceRedeclared (name : String)
  | alreadyDefined (name : String)
  | unknownProduction (id : Nat)
  deriving DecidableEq, Repr

def GrammarError.message : GrammarError → String
  | .invalidSymbol name =>
    "symbol " ++ quoted name ++ " is neither all-uppercase (terminal) nor all-lowercase (nonterminal)"
  | .expectedNonterminal name => quoted name ++ " is used where a nonterminal is required"
  | .expectedTerminal name => quoted name ++ " is used where a terminal is required"
  | .reservedSymbol name => quoted name ++ " is reserved and cannot be used here"
  | .malformedExpression expression word fault =>
    "malformed right-hand side " ++ quoted expression ++ ": " ++ fault.message word
  | .invalidStart name => quoted name ++ " cannot be the start symbol"
  | .precedenceRedeclared name => "terminal " ++ quoted name ++ " already has a declared precedence"
  | .alreadyDefined name => "nonterminal " ++ quoted name ++ " already has productions"
  | .unknownProduction id => "production " ++ toString id ++ " does not exist"

inductive Fault where
  | missingGoto (state : Nat) (symbol : String)
  | gotoUnderTerminal (state : Nat) (symbol : String)
  | missingTransition (state : Nat) (symbol : String)
  | stackUnderflow (production : Nat)
  | unknownProduction (production : Nat)
  | emptyAccept
  deriving DecidableEq, Repr

def Fault.message : Fault → String
  | .missingGoto state symbol =>
    "state " ++ toString state ++ " has no GoTo under " ++ quoted symbol
  | .gotoUnderTerminal state symbol =>
    "state " ++ toString state ++ " has a GoTo under terminal " ++ quoted symbol
  | .missingTransition state symbol =>
    "no transition from state " ++ toString state ++ " under " ++ quoted symbol
  | .stackUnderflow production =>
    "parse stack underflow while reducing production " ++ toString production
  | .unknownProduction production =>
    "production " ++ toString production ++ " is not part of the automaton"
  | .emptyAccept => "parse finished without an accepted stack"

inductive RowFault where
  | gotoUnderTerminal
  | acceptBeforeEnd
  | missingGoto
  | severalActions
  deriving DecidableEq, Repr

def RowFault.message : RowFault → String
  | .gotoUnderTerminal => "GoTo under a terminal"
  | .acceptBeforeEnd => "Accept under a terminal other than EOS"
  | .missingGoto => "nonterminal row without a GoTo"
  | .severalActions => "more than one action under a nonterminal"

inductive Mismatch where
  | unknownSymbol (name : String)
  | productionCount (saved expected : Nat)
  | symbolIndex (index : Nat)
  | production (id : Nat)
  | precedence
  deriving DecidableEq, Repr

def Mismatch.message : Mismatch → String
  | .unknownSymbol name => "unknown symbol " ++ quoted name
  | .productionCount saved expected =>
    toString saved ++ " productions saved, grammar has " ++ toString expected
  | .symbolIndex index => "symbol index " ++ toString index ++ " out of range"
  | .production id => "production " ++ toString id ++ " differs"
  | .precedence => "precedence declarations differ"

inductive ArtifactError where
  | inaccessible (path : String)
  | malformed
  | version (found expected : Nat)
  | mismatch (reason : Mismatch)
  deriving DecidableEq, Repr

def ArtifactError.message : ArtifactError → String
  | .inaccessible path => "cannot access table artifact " ++ quoted path
  | .malformed => "table artifact is not well-formed"
  | .version found expected =>
    "table artifact has schema version " ++ toString found ++ ", expected " ++ toString expected
  | .mismatch reason => "table artifact does not match the grammar: " ++ reason.message

inductive ConstructionError where
  | emptyGrammar
  | undefinedNonterminal (name : String)
  | nonAssociative (state : Nat) (symbol : String)
  | sanity (state : Nat) (symbol : String) (fault : RowFault)
  | grammar (error : GrammarError)
  | artifact (error : ArtifactError)
  | internal (fault : Fault)
  deriving DecidableEq, Repr

def ConstructionError.message : ConstructionError → String
  | .emptyGrammar => "grammar has no productions"
  | .undefinedNonterminal name =>
    "nonterminal " ++ quoted name ++ " is used but has no productions"
  | .nonAssociative state symbol =>
    "non-associative terminal " ++ quoted symbol ++ " is in conflict in state " ++ toString state
  | .sanity state symbol fault =>
    "sanity check failed in state " ++ toString state ++ " under " ++ quoted symbol ++ ": " ++
      fault.message
  | .grammar error => error.message
  | .artifact error => error.message
  | .internal fault => fault.message

end ForkingLR
