import VecLang.Tree.Basic
import VecLang.Decimal.Text

/-!
# Errors

Every failure is one `Error`, given by its cause. The words are in `message`
alone. An error that has been located (`Error.located`) carries its file, its
position and an excerpt of the source, and is never located again.
-/

namespace VecLang

/-- A node is named by its place in the arena that holds it. An arena is taken to have fewer than
`2 ^ 32` nodes, so that a word of 32 bits holds every id, and to fit into memory. -/
abbrev NodeId := Nat

def NodeId.display (id : NodeId) : String := "node" ++ toString id

inductive SyntaxFault where
  | unterminatedComment
  | unsupportedDirective (name : String)
  | missingMacroName
  | functionLikeMacro (name : String)
  | unexpected (found : String)
  | expected (what found : String)
  | literalOutOfRange
  | misplacedQualifier
  /-- The source nests deeper than its length allows for. -/
  | tooDeep
  | custom (text : String)
deriving DecidableEq, Repr

/-- What is wrong with the arguments of an edit or a registration. -/
inductive ArgumentFault where
  | nonFinite (x : Float)
  | emptyName
  | cycle (node parent : NodeId)
  | indexOutOfRange (index : Nat) (parent : NodeId) (count : Nat)
  | noParent (node : NodeId)
  | noContextType
  | custom (text : String)
deriving DecidableEq, Repr

/-- What is wrong with a program that can be parsed, or with a tree that no
program has. -/
inductive SemanticFault where
  | duplicateSlot (name : String) (existing : Qualifier)
  | swizzleNotStatement (member : String)
  | noMain
  | scopeUnderflow
  | noProgram
  | nothingToGenerate
  | malformedDeclaration
  | parameterWithoutType
  | functionWithoutReturnType
  | nodeWithoutType (node : NodeId)
  | nodeWithoutName (node : NodeId)
  | referenceWithoutType (node : NodeId)
  | notArrayType (type : Ty)
  | noTypeOfKind (kind : Kind)
  | missingOperand (kind : Kind) (index : Nat)
  | missingName (kind : Kind)
  | notExpression (kind : Kind)
  | declarationWithoutType
  | typeWithoutType
  | constantWithoutValue
  | binaryWithoutOperator
  | unaryWithoutOperator
  | incompleteFunction
  | incompleteConditional
  /-- A traversal went deeper than its limit. -/
  | tooDeep
  | custom (text : String)
deriving DecidableEq, Repr

inductive Error where
  | malformed (fault : SyntaxFault) (pos : Pos)
  | unknownType (name : String)
  | undefinedSymbol (name : String)
  | notChild (parent child : NodeId)
  | badArgument (fault : ArgumentFault)
  | unknownTarget (name : String)
  | semantic (fault : SemanticFault)
  /-- An error with its file, its position and the lines around it. -/
  | located (filename : String) (pos : Option Pos) (error : Error) (excerpt : String)
deriving DecidableEq, Repr

namespace SyntaxFault

def message : SyntaxFault → String
  | unterminatedComment => "unterminated block comment"
  | unsupportedDirective name => "unsupported directive #" ++ name
  | missingMacroName => "expected a macro name after #define"
  | functionLikeMacro name => "function-like macro " ++ name ++ " is not supported"
  | unexpected found => "unexpected " ++ found
  | expected what found => "expected " ++ what ++ ", found " ++ found
  | literalOutOfRange => "numeric literal out of range"
  | misplacedQualifier => "storage qualifiers are only allowed on top-level declarations"
  | tooDeep => "nested too deeply"
  | custom text => text

end SyntaxFault

namespace ArgumentFault

def message : ArgumentFault → String
  | nonFinite x => "cannot push non-finite number " ++ Decimal.shortest x
  | emptyName => "cannot push an empty identifier"
  | cycle node parent =>
    NodeId.display node ++ " cannot become a descendant of itself via " ++ NodeId.display parent
  | indexOutOfRange index parent count =>
    "insert index " ++ toString index ++ " out of range for " ++ NodeId.display parent ++
      " with " ++ toString count ++ " children"
  | noParent node => NodeId.display node ++ " has no parent to be replaced in"
  | noContextType => "wildcard type without a context type"
  | custom text => text

end ArgumentFault

namespace SemanticFault

def message : SemanticFault → String
  | duplicateSlot name existing => name ++ " is already declared as " ++ existing.keyword
  | swizzleNotStatement member => "assignment to swizzle ." ++ member ++ " must be a statement"
  | noMain => "program has no main function"
  | scopeUnderflow => "scope stack underflow"
  | noProgram => "no program to collect slots from"
  | nothingToGenerate => "nothing to generate: no syntax tree"
  | malformedDeclaration => "malformed variable declaration"
  | parameterWithoutType => "parameter without a type"
  | functionWithoutReturnType => "function without a return type"
  | nodeWithoutType node => NodeId.display node ++ " has no type"
  | nodeWithoutName node => NodeId.display node ++ " has no name"
  | referenceWithoutType node => "variable reference " ++ NodeId.display node ++ " has no type"
  | notArrayType type => type.name ++ " is not an array type"
  | noTypeOfKind kind => "cannot resolve a type from a " ++ kind.name ++ " node"
  | missingOperand kind index => kind.name ++ " is missing operand " ++ toString index
  | missingName kind => kind.name ++ " without a name"
  | notExpression kind => kind.name ++ " is not an expression"
  | declarationWithoutType => "declaration without a type"
  | typeWithoutType => "type node without a type"
  | constantWithoutValue => "constant without a value"
  | binaryWithoutOperator => "binary operator without an operator"
  | unaryWithoutOperator => "unary operator without an operator"
  | incompleteFunction => "function without parameters or body"
  | incompleteConditional => "if without condition or body"
  | tooDeep => "tree is nested too deeply"
  | custom text => text

end SemanticFault

namespace Error

def message : Error → String
  | malformed fault pos => "syntax error at " ++ pos.display ++ ": " ++ fault.message
  | unknownType name => "Unknown type " ++ name
  | undefinedSymbol name => name ++ " is not defined"
  | notChild parent child =>
    NodeId.display child ++ " is not a child of " ++ NodeId.display parent
  | badArgument fault => "invalid argument: " ++ fault.message
  | unknownTarget name => "unknown code generator '" ++ name ++ "'"
  | semantic fault => fault.message
  | located filename (some pos) error excerpt =>
    "Error: " ++ filename ++ ":" ++ toString (pos.line + 1) ++ ": " ++ error.message ++
      (if excerpt.isEmpty then "" else "\n\n" ++ excerpt)
  | located _ none error _ => "Error: " ++ error.message

/-- The error itself, without where it was located. -/
def root : Error → Error
  | located _ _ error _ => error.root
  | error => error

def pos? : Error → Option Pos
  | malformed _ pos => some pos
  | located _ pos _ _ => pos
  | _ => none

def isLocated : Error → Bool
  | located .. => true
  | _ => false

end Error

/-- A computation on a state `σ` that keeps the state when it fails. -/
abbrev Steps (σ : Type) := EStateM Error σ

end VecLang
