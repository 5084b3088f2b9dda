import VecLang.Text.Basic
import VecLang.Text.Letter
import VecLang.Table
import VecLang.Source.Position
import VecLang.Source.Excerpt
import VecLang.Decimal.Decode
import VecLang.Decimal.Text
import VecLang.Decimal.Read
import VecLang.Operator
import VecLang.Ty
import VecLang.Tree.Rose
import VecLang.Tree.Basic
import VecLang.Tree.Display
import VecLang.Error
import VecLang.Source.Comment
import VecLang.Source.Macro
import VecLang.Arena.Basic
import VecLang.Arena.Edit
import VecLang.Arena.InPlace
import VecLang.Arena.Reference
import VecLang.Context.Scope
import VecLang.Context.Types
import VecLang.Context.Overload
import VecLang.Context.Slot
import VecLang.Context.Basic
import VecLang.Context.Builtin
import VecLang.Context.Collect
import VecLang.Grammar.Cursor
import VecLang.Grammar.Number
import VecLang.Grammar.Expression
import VecLang.Grammar.Statement
import VecLang.Grammar.Parse
import VecLang.Traversal.Basic
import VecLang.Traversal.ScopeWalk
import VecLang.Swizzle.Axis
import VecLang.Swizzle.Lower
import VecLang.Program
import VecLang.Emit.Basic
import VecLang.Emit.Source
import VecLang.Emit.Bindings
import VecLang.Emit.JavaScript.Prelude
import VecLang.Emit.JavaScript.Expression
import VecLang.Emit.JavaScript.Statement
import VecLang.Emit.JavaScript.Program
import VecLang.Emit.Target
import VecLang.Filetest.Directive
import VecLang.Filetest.Check
import VecLang.Filetest.TestFile
import VecLang.Proofs.Arena.Edits
import VecLang.Proofs.Arena.Shape
import VecLang.Proofs.Arena.Runs
import VecLang.Proofs.Emit.RoundTrip
import VecLang.Proofs.Emit.Traversed
import VecLang.Proofs.Arena.Fill
import VecLang.Proofs.Program
import VecLang.Proofs.Swizzle.Complete
import VecLang.Proofs.Swizzle.Targets
import VecLang.Proofs.Swizzle.Formed
import VecLang.Proofs.Grammar.Formed
import VecLang.Proofs.Grammar.Expressions
import VecLang.Proofs.Swizzle.Depth
import VecLang.Proofs.Compile
import VecLang.Proofs.Emit.Total
import VecLang.Proofs.Emit.Generate
import VecLang.Proofs.Execution
import VecLang.Proofs.Swizzle.Meaning
import VecLang.Proofs.Context.Scopes
import VecLang.Proofs.Traversal.Invariants
import VecLang.Proofs.Emit.Slots
import VecLang.Proofs.Traversal.Declared
import VecLang.Proofs.Emit.Lexical
import VecLang.Proofs.Emit.References
import VecLang.Proofs.Arena.InPlace
import VecLang.Proofs.Context.Overloads
import VecLang.Proofs.Swizzle.Idempotent
import VecLang.Proofs.Swizzle.Positions
import VecLang.Proofs.Source.Preprocess
import VecLang.Proofs.Source.Literal
import VecLang.Proofs.Swizzle.Split
import VecLang.Proofs.Swizzle.Expressions
import VecLang.Proofs.Emit.ScriptText
import VecLang.Proofs.Emit.Regrouped
import VecLang.Proofs.Swizzle.Functions
import VecLang.Proofs.Emit.Outline
import VecLang.Proofs.Emit.Shadowing
import VecLang.Proofs.Emit.Script
import VecLang.Proofs.Emit.Positions
import VecLang.Proofs.Emit.Blocks
import VecLang.Proofs.Emit.Distinct
import VecLang.Proofs.Grammar.Respaced
import VecLang.Proofs.Source.Comments
import VecLang.Proofs.Context.Types
import VecLang.Proofs.Context.Mangling
import VecLang.Proofs.Arena.Copies
import VecLang.Proofs.Arena.Moves
import VecLang.Proofs.Arena.Ways
import VecLang.Proofs.Arena.Integers
import VecLang.Proofs.Source.Excerpt
import VecLang.Proofs.Grammar.Compound
import VecLang.Proofs.Traversal.Once
import VecLang.Proofs.Traversal.Preorder
import VecLang.Proofs.Filetest
import VecLang.Proofs.Swizzle.Terminates
