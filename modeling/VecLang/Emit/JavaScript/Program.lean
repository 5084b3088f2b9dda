import VecLang.Emit.JavaScript.Statement
import VecLang.Emit.JavaScript.Prelude

/-!
# Programs in JavaScript

A program becomes one closure. Its inputs and uniforms are variables of the closure,
its functions follow in source order, and it returns an object for the host: `call`
takes the array of outputs and the inputs and runs `main`, each uniform has a getter
and a setter, and `outputs`, `outputTypes` and `outputCount` tell the bindings.
-/

namespace VecLang.Emit.JavaScript

variable (options : Options)

def textLine (depth : Nat) (text : String) : String := options.pad depth ++ text ++ "\n"

def header (b : Bindings) : String :=
  "program = function() \x7b\n" ++ textLine options 1 "let __outs;" ++
    (if b.inputs.isEmpty then "" else textLine options 1 ("let " ++ ", ".intercalate b.inputs ++ ";")) ++
    "\n"

/-- A uniform and the function that sets it, element by element if its length is
fixed. -/
def uniform (name : String) (t : Ty) : String :=
  let assignments :=
    match t.size? with
    | some size =>
      String.join ((List.range size).map fun i =>
        let index := "[" ++ toString i ++ "]"
        textLine options 2 (name ++ index ++ " = val" ++ index ++ ";"))
    | none => textLine options 2 (name ++ " = val;")
  textLine options 1 ("let " ++ name ++ " = " ++ t.zeroText ++ ";") ++
    textLine options 1 ("function __set" ++ name ++ "(val) \x7b") ++ assignments ++
    textLine options 1 "\x7d" ++ "\n"

/-- The function that stores the outputs and inputs and runs `main`. -/
def entryPoint (b : Bindings) : String :=
  textLine options 1 ("let __$func = function(outs" ++
      String.join (b.inputs.map fun name => ", $" ++ name) ++ ") \x7b") ++
    textLine options 2 "__outs = outs;" ++
    String.join (b.inputs.map fun name => textLine options 2 (name ++ " = $" ++ name ++ ";")) ++
    textLine options 2 "main();" ++
    textLine options 1 "\x7d;"

def descriptor (b : Bindings) : String :=
  let accessors (name : String) : String :=
    textLine options 2 ("get " ++ name ++ "() \x7breturn " ++ name ++ "\x7d,") ++
      textLine options 2 ("set " ++ name ++ "(val) \x7b__set" ++ name ++ "(val)\x7d,")
  textLine options 1 "return \x7b" ++
    textLine options 2 "call : __$func," ++
    String.join (b.uniforms.map accessors) ++
    textLine options 2 "outputs: \x7b" ++
    String.join (b.outputs.map fun (name, k) =>
      textLine options 3 (name ++ " : " ++ toString k ++ ",")) ++
    textLine options 2 "\x7d," ++
    textLine options 2 "outputTypes: \x7b" ++
    String.join (b.outputTypes.map fun (name, t) =>
      textLine options 3 (name ++ " : \"" ++ t ++ "\",")) ++
    textLine options 2 "\x7d," ++
    textLine options 2 ("outputCount: " ++ toString b.outputCount) ++
    textLine options 1 "\x7d;"

def program (ctx : Context) (arena : Arena) (root : NodeId) : Except Error String := do
  let b := Bindings.ofSlots ctx.slots
  let (functions, _) ←
    lines ctx arena options 1 (Context.slotScopes ctx.slots) (arena.shape root).children
  return (if options.includePrelude then preludeText ++ "\n" else "") ++ header options b ++
    String.join (ctx.slots.uniforms.entries.map fun (name, slot) => uniform options name slot.type) ++
    functions ++ entryPoint options b ++ descriptor options b ++ "\x7d\n"

end VecLang.Emit.JavaScript
