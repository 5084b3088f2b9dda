/-!
# The functions that scripts use

Scripts call the builtin functions of the language by name. This text defines them
in JavaScript. The vector constructors take their arrays from rings, so a vector
lasts until as many others of its width have been built as its ring is long.
-/

namespace VecLang.Emit.JavaScript

def preludeLines : List String :=
  ["let fract = function(f) \x7b return f - Math.floor(f); \x7d;",
   "let abs = Math.abs, sin = Math.sin, cos = Math.cos, tan = Math.tan, log = Math.log, pow = Math.pow;",
   "let acos = Math.acos, asin = Math.asin, atan = Math.atan, atan2 = Math.atan2;",
   "let sqrt = Math.sqrt, exp = Math.exp, min = Math.min, max = Math.max, floor = Math.floor;",
   "let ceil = Math.ceil, sign = Math.sign;",
   "",
   "let float = function(f) \x7b return f; \x7d;",
   "let int = Math.trunc;",
   "let mod = function(a, b) \x7b return a - b * Math.floor(a / b); \x7d;",
   "let step = function(edge, x) \x7b return x < edge ? 0.0 : 1.0; \x7d;",
   "",
   "function cachering(func, count) \x7b",
   "  this.list = new Array(count);",
   "  this.length = count;",
   "",
   "  for (let i = 0; i < this.length; i++) \x7b",
   "    this.list[i] = func();",
   "  \x7d",
   "",
   "  this.cur = 0;",
   "",
   "  this.next = function() \x7b",
   "    let ret = this.list[this.cur];",
   "    this.cur = (this.cur + 1) % this.length;",
   "    return ret;",
   "  \x7d;",
   "\x7d",
   "",
   "let vec2cache = new cachering(() => [0, 0], 2048);",
   "function vec2(a, b) \x7b",
   "  let ret = vec2cache.next();",
   "  ret[0] = a;",
   "  ret[1] = b;",
   "  return ret;",
   "\x7d",
   "",
   "let vec3cache = new cachering(() => [0, 0, 0], 2048);",
   "function vec3(a, b, c) \x7b",
   "  let ret = vec3cache.next();",
   "  ret[0] = a;",
   "  ret[1] = b;",
   "  ret[2] = c;",
   "  return ret;",
   "\x7d",
   "",
   "let vec4cache = new cachering(() => [0, 0, 0, 0], 2048);",
   "function vec4(a, b, c, d) \x7b",
   "  let ret = vec4cache.next();",
   "  ret[0] = a;",
   "  ret[1] = b;",
   "  ret[2] = c;",
   "  ret[3] = d;",
   "  return ret;",
   "\x7d",
   "",
   "function dot(a, b) \x7b",
   "  let sum = 0.0;",
   "  for (let i = 0; i < a.length; i++) \x7b",
   "    sum += a[i] * b[i];",
   "  \x7d",
   "  return sum;",
   "\x7d",
   "",
   "function cross(a, b) \x7b",
   "  return vec3(a[1] * b[2] - a[2] * b[1], a[2] * b[0] - a[0] * b[2], a[0] * b[1] - a[1] * b[0]);",
   "\x7d",
   "",
   "function normalize(a) \x7b",
   "  let len = Math.sqrt(dot(a, a));",
   "  let ret = a.length === 2 ? vec2cache.next() : a.length === 3 ? vec3cache.next() : vec4cache.next();",
   "  for (let i = 0; i < a.length; i++) \x7b",
   "    ret[i] = len > 0.0 ? a[i] / len : 0.0;",
   "  \x7d",
   "  return ret;",
   "\x7d"]

def preludeText : String := String.join (preludeLines.map (· ++ "\n"))

end VecLang.Emit.JavaScript
