/-!
# Rose trees

A node with an entry and any number of subtrees. Syntax trees are rose trees of
node labels, and the shape of a subtree of an arena is a rose tree of node ids.
-/

namespace VecLang

/-- A tree in which each node has an entry and a list of subtrees. -/
inductive Rose (α : Type) where
  | node (entry : α) (children : List (Rose α))
deriving Repr, Inhabited

namespace Rose

variable {α β : Type}

def entry : Rose α → α
  | node a _ => a

def children : Rose α → List (Rose α)
  | node _ ts => ts

def leaf (a : α) : Rose α := node a []

mutual

def map (f : α → β) : Rose α → Rose β
  | node a ts => node (f a) (mapAll f ts)

def mapAll (f : α → β) : List (Rose α) → List (Rose β)
  | [] => []
  | t :: ts => map f t :: mapAll f ts

end

mutual

/-- The entries, each node before its subtrees and these from left to right. -/
def preorder : Rose α → List α
  | node a ts => a :: preorderAll ts

def preorderAll : List (Rose α) → List α
  | [] => []
  | t :: ts => preorder t ++ preorderAll ts

end

mutual

/-- The entries in preorder, each with its distance from a root at `depth`. -/
def levels (depth : Nat) : Rose α → List (Nat × α)
  | node a ts => (depth, a) :: levelsAll (depth + 1) ts

def levelsAll (depth : Nat) : List (Rose α) → List (Nat × α)
  | [] => []
  | t :: ts => levels depth t ++ levelsAll depth ts

end

mutual

def size : Rose α → Nat
  | node _ ts => sizeAll ts + 1

def sizeAll : List (Rose α) → Nat
  | [] => 0
  | t :: ts => size t + sizeAll ts

end

mutual

def height : Rose α → Nat
  | node _ ts => heightAll ts + 1

def heightAll : List (Rose α) → Nat
  | [] => 0
  | t :: ts => max (height t) (heightAll ts)

end

mutual

def decEq [DecidableEq α] : (s t : Rose α) → Decidable (s = t)
  | node a ss, node b ts =>
    match (inferInstance : Decidable (a = b)), decEqAll ss ts with
    | isTrue h, isTrue h' => isTrue (by rw [h, h'])
    | isFalse h, _ => isFalse (fun e => h (by injection e))
    | _, isFalse h => isFalse (fun e => h (by injection e))

def decEqAll [DecidableEq α] : (ss ts : List (Rose α)) → Decidable (ss = ts)
  | [], [] => isTrue rfl
  | [], _ :: _ => isFalse (by simp)
  | _ :: _, [] => isFalse (by simp)
  | s :: ss, t :: ts =>
    match decEq s t, decEqAll ss ts with
    | isTrue h, isTrue h' => isTrue (by rw [h, h'])
    | isFalse h, _ => isFalse (fun e => h (by injection e))
    | _, isFalse h => isFalse (fun e => h (by injection e))

end

instance [DecidableEq α] : DecidableEq (Rose α) := decEq

theorem mapAll_eq_map (f : α → β) (ts : List (Rose α)) : mapAll f ts = ts.map (map f) := by
  induction ts with
  | nil => rfl
  | cons t ts ih => rw [mapAll, ih, List.map_cons]

theorem preorderAll_eq_flatMap (ts : List (Rose α)) : preorderAll ts = ts.flatMap preorder := by
  induction ts with
  | nil => rfl
  | cons t ts ih => rw [preorderAll, ih, List.flatMap_cons]

mutual

theorem length_preorder : ∀ t : Rose α, t.preorder.length = t.size
  | node _ ts => by simp [preorder, size, length_preorderAll ts]

theorem length_preorderAll : ∀ ts : List (Rose α), (preorderAll ts).length = sizeAll ts
  | [] => rfl
  | t :: ts => by simp [preorderAll, sizeAll, length_preorder t, length_preorderAll ts]

end

end Rose

end VecLang
