import VecLang.Tree.Basic
import VecLang.Decimal.Text

/-!
# Texts of node values and dumps

A dump shows a tree line by line, a dash for each level of depth, with the value
or else the operator of each node and the line where it stands.
-/

namespace VecLang

def Value.display : Value → String
  | .int n => toString n
  | .float x => Decimal.shortest x
  | .bool b => if b then "true" else "false"
  | .name s => s
  | .type t => t.name

namespace Tree

/-- The first line of a node in a dump, up to its line number. -/
def dumpHead (depth : Nat) (l : Label) : String :=
  let payload :=
    match l.value, l.op with
    | some v, _ => " : " ++ v.display
    | none, some op => " (" ++ op.symbol ++ ")"
    | none, none => ""
  "".pushn '-' depth ++ l.kind.name ++ payload ++ " \x7b line:" ++ toString (l.pos.line + 1)

mutual

/-- The dump of a tree whose root stands at `depth`. A node without children
closes on its own line. -/
def dumpAt (depth : Nat) : Tree → String
  | .node l [] => dumpHead depth l ++ "\x7d\n"
  | .node l (t :: ts) =>
    dumpHead depth l ++ "\n" ++ dumpAt (depth + 1) t ++ dumpAllAt (depth + 1) ts ++
      "".pushn '-' depth ++ "\x7d\n"

def dumpAllAt (depth : Nat) : List Tree → String
  | [] => ""
  | t :: ts => dumpAt depth t ++ dumpAllAt depth ts

end

def dump (t : Tree) : String := dumpAt 0 t

end Tree

end VecLang
