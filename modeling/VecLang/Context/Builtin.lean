import VecLang.Context.Basic

/-!
# Builtin types and functions

What every program may use: the scalars, vectors and matrices, the ways to build a
vector from shorter ones, the vector functions, and the functions that act on each
component.
-/

namespace VecLang.Builtin

/-- `size` elements under a name of their own. -/
def aliasOf (name : String) (elem : Ty) (size : Nat) : Ty := .array elem size (some name)

def float : Ty := .named "float"
def vec2 : Ty := aliasOf "vec2" float 2
def vec3 : Ty := aliasOf "vec3" float 3
def vec4 : Ty := aliasOf "vec4" float 4

def types : TypeTable :=
  ⟨[("void", .named "void"), ("float", float), ("int", .named "int"), ("bool", .named "bool"),
    ("vec2", vec2), ("vec3", vec3), ("vec4", vec4),
    ("mat3", aliasOf "mat3" vec3 3), ("mat4", aliasOf "mat4" vec4 4)]⟩

def widthName : Nat → String
  | 1 => "float"
  | width => "vec" ++ toString width

/-- The ways to write `width` as a sum of at most `fuel` positive parts, those with
a smaller first part first. -/
def sums : (fuel width : Nat) → List (List Nat)
  | _, 0 => [[]]
  | 0, _ + 1 => []
  | fuel + 1, width + 1 =>
    (List.range (width + 1)).flatMap fun k =>
      (sums fuel (width - k)).map ((k + 1) :: ·)

/-- The functions that act on each component, with their number of arguments. -/
def elementwise : List (String × Nat) :=
  [("min", 2), ("max", 2), ("fract", 1), ("step", 2), ("cos", 1), ("sin", 1), ("floor", 1),
    ("ceil", 1), ("mod", 2), ("sqrt", 1), ("pow", 2), ("log", 1)]

structure Registration where
  name : String
  ret : Context.TypeArg
  args : List Context.TypeArg
  context : Option Ty

/-- A vector is built from any parts whose components fill it. -/
def constructors : List Registration :=
  [1, 2, 3, 4].flatMap fun width =>
    (sums width width).map fun parts =>
      { name := widthName width, ret := .named (widthName width)
        args := parts.map fun p => .named (widthName p), context := none }

def vectorFunctions : List Registration :=
  [2, 3, 4].flatMap fun width =>
    let t := some (Ty.named (widthName width))
    [{ name := "normalize", ret := .context, args := [.context], context := t },
     { name := "dot", ret := .named "float", args := [.context, .context], context := t },
     { name := "cross", ret := .context, args := [.context, .context], context := t }]

def elementwiseFunctions : List Registration :=
  [1, 2, 3, 4].flatMap fun width =>
    elementwise.map fun (name, arity) =>
      { name, ret := .context, args := List.replicate arity .context
        context := some (.named (widthName width)) }

/-- Files a builtin function; one whose types are unknown is left out. -/
def Registration.file (ctx : Context) (r : Registration) : Context :=
  match ctx.addOverload r.name r.ret r.args r.context with
  | .ok (ctx, _) => ctx
  | .error _ => ctx

def overloads : Overloads :=
  ((constructors ++ vectorFunctions ++ elementwiseFunctions).foldl Registration.file
    { source := "", filename := "", types }).overloads

end VecLang.Builtin

namespace VecLang.Context

/-- The context with its texts kept and every table as at the start. -/
def reset (ctx : Context) : Context :=
  { source := ctx.source, filename := ctx.filename, preprocessed := ctx.preprocessed
    types := Builtin.types, overloads := Builtin.overloads }

def new (source filename : String) : Context := Context.reset { source, filename }

/-- The context of a snippet: a new one that knows the types of this one. -/
def snippet (ctx : Context) (source filename : String) : Context :=
  { Context.new source filename with types := ctx.types }

end VecLang.Context
