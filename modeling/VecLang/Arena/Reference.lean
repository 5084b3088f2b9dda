import VecLang.Arena.Edit

/-!
# References to variables

A pass may refer to a variable, or to one element of an array variable, by a node
of its own kind. `refersTo` recognises the expression that a program would write
for the same variable and element.
-/

namespace VecLang.Arena

/-- The constant that stands for an element index: a signed 64-bit word, so an index
from `2 ^ 63` on counts down from zero. -/
def indexConstant (index : Nat) : Int := Int.bmod index (Nat.pow 2 64)

theorem indexConstant_of_lt {index : Nat} (h : index < Nat.pow 2 63) :
    indexConstant index = index := by
  unfold indexConstant
  simp only [Nat.pow_eq] at h ⊢
  apply Int.bmod_eq_of_le <;> omega

/-- A detached reference to a variable. The index is kept only for an array. -/
def addReference (a : Arena) (name : String) (type : Ty) (index : Option Nat) :
    Arena × NodeId :=
  let element : List Tree :=
    match index with
    | some i => if type.isArray then [Tree.valued .intConst {} (.int (indexConstant i)) []] else []
    | none => []
  a.graft (Tree.valued .varRef {} (.name name)
    (Tree.valued .varType {} (.type type) [] :: element))

def referenceIndex? (a : Arena) (ref : NodeId) : Option Int :=
  match (a.child? ref 1).map fun i => (a.label i).value with
  | some (some (.int n)) => some n
  | _ => none

def refersToArray (a : Arena) (ref : NodeId) : Bool :=
  match (a.child? ref 0).bind a.type? with
  | some t => t.isArray
  | none => false

def isIdent (a : Arena) (name : String) (id : NodeId) : Bool :=
  a.kind id == .ident && a.name? id == some name

/-- Whether the expression `id` is the variable, or the element, of `ref`. -/
def refersTo (a : Arena) (id ref : NodeId) : Bool :=
  if a.kind ref != .varRef then false
  else
    match a.name? ref with
    | none => false
    | some name =>
      match a.refersToArray ref, a.referenceIndex? ref with
      | true, some n =>
        a.kind id == .index &&
          (a.child? id 0).any (a.isIdent name) &&
          (a.child? id 1).any (fun i => a.kind i == .intConst && (a.label i).value == some (.int n))
      | _, _ => a.isIdent name id

end VecLang.Arena
