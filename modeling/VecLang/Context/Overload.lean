import VecLang.Error
import VecLang.Table

/-!
# Overloads

A function name may have several signatures. Each is filed under a key that mangles
the name and the types together, and each name lists its keys in the order in which
they came. A signature filed under a key in use replaces the one that was there.
-/

namespace VecLang

structure Signature where
  name : String
  ret : Ty
  args : List Ty
  key : String
deriving DecidableEq, Repr

/-- The mangled key of a signature: its name, return type and argument types, each
after an underscore, and an underscore in place of every other character that is
no letter or digit. -/
def mangle (name : String) (ret : Ty) (args : List Ty) : String :=
  "_" ++ Ty.safeText name ++ "_" ++ ret.safeName ++ "_" ++ "_".intercalate (args.map Ty.safeName)

/-- The signatures by key, and the keys of each name. -/
structure Overloads where
  byKey : Table Signature := {}
  keysOf : Table (List String) := {}
deriving DecidableEq, Repr

namespace Overloads

/-- Files a signature under its key and lists the key with the name. -/
def register (o : Overloads) (name : String) (ret : Ty) (args : List Ty) : Overloads × String :=
  let key := mangle name ret args
  let keys := (o.keysOf.get? name).getD []
  ({ byKey := o.byKey.insert key { name, ret, args, key }
     keysOf := o.keysOf.insert name (if keys.contains key then keys else keys ++ [key]) },
   key)

def named (o : Overloads) (name : String) : List Signature :=
  ((o.keysOf.get? name).getD []).filterMap o.byKey.get?

def hasName (o : Overloads) (name : String) : Bool := o.keysOf.contains name

/-- The first signature of a name whose arguments have the given type names. -/
def find? (o : Overloads) (name : String) (argNames : List String) : Option Signature :=
  (o.named name).find? (fun s => s.args.map Ty.name == argNames)

end Overloads

end VecLang
