/-!
# Failures

Everything that can go wrong, as causes: `ReadFault` for text that is no program, `SyntaxFault` for
forms of the wrong shape, `EvalFault` for evaluations that end without a value, and `UsageFault` for
misuse by the program that embeds the language. Each has its message here and nowhere else;
`Failure.Report` says how they are shown.
-/

namespace SmallLisp

/-- A place in a source text. Lines and columns start at 1. -/
structure Location where
  line : Nat
  column : Nat
  file : Option String
  deriving Repr, DecidableEq

/-- Why a text is no sequence of expressions. -/
inductive ReadFault where
  | unexpectedEnd
  | unexpectedToken (token : String)
  | unterminatedString
  | invalidLiteral (text : String)
  deriving Repr, DecidableEq

/-- Why a form, a pattern or a template has the wrong shape. Values are given as their text. -/
inductive SyntaxFault where
  | quoteArity
  | assignmentShape
  | definitionArity (name : String)
  | definitionShape
  | procedureName (got : String)
  | missingBody (name : String)
  | conditionalShape
  | lambdaShape
  | emptyBegin
  | emptySequence
  | transformerShape
  | parameterName (got : String)
  | duplicateParameter (name : String)
  | condClauseShape
  | elseNotLast
  | letBindings
  | letBody
  | letBindingShape
  | patternNotList (got : String)
  | ellipsisFirst
  | ellipsisNotLast
  | duplicateVariable (name : String)
  | patternElement (got : String)
  | rulesShape (name : String)
  | literalsNotList
  | literalNotSymbol (got : String)
  | clauseShape
  | clausePattern
  | noClause (name form : String)
  | variableNeedsEllipsis (name : String)
  | nothingRepeated
  | repetitionLengths (names : List String)
  | other (detail : String)
  deriving Repr, DecidableEq

/-- How many arguments a procedure takes. -/
inductive Arity where
  | exactly (count : Nat)
  | atLeast (count : Nat)
  | described (text : String)
  deriving Repr, DecidableEq

/-- Why an evaluation ends without a value. -/
inductive EvalFault where
  | unboundVariable (name : String)
  | notAProcedure (text : String)
  | unknownExpression (text : String)
  | malformedSyntax (fault : SyntaxFault)
  | arityMismatch (expected : Arity) (got : Nat)
  | typeError (operation expected got : String)
  | divisionByZero
  | recursionExhausted
  | userError (message : String)
  /-- A form of the host evaluated an operand that is not there. -/
  | missingOperand
  /-- A form was to be expanded by something that is no transformer. -/
  | notATransformer
  deriving Repr, DecidableEq

/-- How an embedding program misuses the language. -/
inductive UsageFault where
  | defineInEmptyEnvironment (name : String)
  | registrySealed (tag : String)
  | duplicateForm (tag : String)
  deriving Repr, DecidableEq

/-- Anything that can go wrong. Only a fault of reading has a place, if one is known. -/
inductive Failure where
  | read (fault : ReadFault) (location : Option Location)
  | eval (fault : EvalFault)
  | usage (fault : UsageFault)
  deriving Repr, DecidableEq

/-! ### Messages -/

/-- A name in single quotes. -/
def inQuotes (name : String) : String :=
  "'" ++ name ++ "'"

def ReadFault.message : ReadFault → String
  | unexpectedEnd => "Unexpected end of input"
  | unexpectedToken token => "Unexpected token " ++ inQuotes token
  | unterminatedString => "Unterminated string literal"
  | invalidLiteral text => "Invalid literal " ++ inQuotes text

/-- Whether the fault is that the text stops too early. -/
def ReadFault.isIncomplete : ReadFault → Bool
  | unexpectedEnd => true
  | unterminatedString => true
  | _ => false

/-- What exactly is wrong with the shape. -/
def SyntaxFault.detail : SyntaxFault → String
  | quoteArity => "quote requires exactly one argument"
  | assignmentShape => "set! requires a name and a value"
  | definitionArity name => "define " ++ name ++ " requires exactly one value"
  | definitionShape => "define requires a name or a (name params...) signature"
  | procedureName got => "procedure name must be a symbol, got " ++ got
  | missingBody name => "define " ++ name ++ " requires a body"
  | conditionalShape => "if requires a test, a consequent and an optional alternative"
  | lambdaShape => "lambda requires a parameter list and a body"
  | emptyBegin => "begin requires at least one expression"
  | emptySequence => "empty expression sequence"
  | transformerShape => "define-syntax requires a name and a syntax-rules form"
  | parameterName got => "parameter must be a symbol, got " ++ got
  | duplicateParameter name => "duplicate parameter " ++ inQuotes name
  | condClauseShape => "cond clause must be a non-empty list"
  | elseNotLast => "else clause isn't the last clause in cond"
  | letBindings => "let requires a list of bindings"
  | letBody => "let requires a body"
  | letBindingShape => "let binding must be (name value)"
  | patternNotList got => "pattern must be a list, got " ++ got
  | ellipsisFirst => "ellipsis must follow a sub-pattern"
  | ellipsisNotLast => "ellipsis must be the last element of a pattern list"
  | duplicateVariable name => "duplicate pattern variable " ++ inQuotes name
  | patternElement got => "unsupported pattern element " ++ got
  | rulesShape name =>
    "define-syntax " ++ name ++ " expects (syntax-rules (literal ...) clause ...)"
  | literalsNotList => "syntax-rules literals must be a list"
  | literalNotSymbol got => "syntax-rules literal must be a symbol, got " ++ got
  | clauseShape => "syntax-rules clause must be (pattern template)"
  | clausePattern => "syntax-rules pattern must be a non-empty list"
  | noClause name form => "no syntax-rules clause of " ++ name ++ " matches " ++ form
  | variableNeedsEllipsis name =>
    "pattern variable " ++ inQuotes name ++ " must be followed by ..."
  | nothingRepeated => "... in template follows no repeated pattern variable"
  | repetitionLengths names =>
    "repeated pattern variables " ++ ", ".intercalate names ++ " matched different lengths"
  | other detail => detail

/-- An arity in words. -/
def Arity.text : Arity → String
  | exactly count => count.repr
  | atLeast count => "at least " ++ count.repr
  | described text => text

def EvalFault.message : EvalFault → String
  | unboundVariable name => "Unbound variable " ++ inQuotes name
  | notAProcedure text => "Not a procedure: " ++ text
  | unknownExpression text => "Unknown expression type: " ++ text
  | malformedSyntax fault => "Malformed syntax: " ++ fault.detail
  | arityMismatch expected got => "Expected " ++ expected.text ++ " argument(s), got " ++ got.repr
  | typeError operation expected got => operation ++ " expects " ++ expected ++ ", got " ++ got
  | divisionByZero => "Division by zero"
  | recursionExhausted => "Maximum recursion depth exceeded"
  | userError message => message
  | missingOperand => "Cannot read properties of undefined (reading 'type')"
  | notATransformer => "macro.clauses is not iterable"

def UsageFault.message : UsageFault → String
  | defineInEmptyEnvironment name =>
    "Cannot define " ++ inQuotes name ++ " in the empty environment"
  | registrySealed tag =>
    "Cannot register special form " ++ inQuotes tag ++ " after evaluation has started"
  | duplicateForm tag => "Special form " ++ inQuotes tag ++ " is already registered"

/-! ### Codes -/

def ReadFault.code : ReadFault → Nat
  | unexpectedEnd => 100
  | unexpectedToken _ => 101
  | unterminatedString => 102
  | invalidLiteral _ => 103

def EvalFault.code : EvalFault → Nat
  | unboundVariable _ => 200
  | notAProcedure _ => 201
  | unknownExpression _ => 202
  | malformedSyntax _ => 203
  | arityMismatch _ _ => 204
  | typeError _ _ _ => 205
  | divisionByZero => 206
  | recursionExhausted => 207
  | userError _ => 208
  | missingOperand => 208
  | notATransformer => 208

def UsageFault.code : UsageFault → Nat
  | defineInEmptyEnvironment _ => 300
  | registrySealed _ => 301
  | duplicateForm _ => 302

namespace Failure

/-- A form has the wrong shape. -/
def malformed (fault : SyntaxFault) : Failure := eval (.malformedSyntax fault)

/-- The evaluation is nested too deeply. -/
def exhausted : Failure := eval .recursionExhausted

def message : Failure → String
  | read fault _ => fault.message
  | eval fault => fault.message
  | usage fault => fault.message

/-- The number by which a failure is catalogued: 1xx for reading, 2xx for evaluation, 3xx for
misuse. -/
def code : Failure → Nat
  | read fault _ => fault.code
  | eval fault => fault.code
  | usage fault => fault.code

def location : Failure → Option Location
  | read _ location => location
  | _ => none

end Failure

end SmallLisp
