import VecLang.Proofs.Grammar.WrittenProgram
import VecLang.Proofs.Source.Position
import VecLang.Proofs.Steps

/-!
# The trees of expressions, statements and programs

Which trees the parser returns: every node has the children, the value and the operator of its
kind. The parser reads nothing but ASCII, so what reading ASCII keeps holds of every place that
it comes to, and every node has the position of such a place.

* `IsExpression`, `IsStatement`, `IsProgram`: the shapes of trees.
* `Placed`: the positions of the nodes of a tree.
* `Standing`: the places where a parser may stand.
-/

namespace VecLang.Grammar

inductive IsExpression (types : TypeTable) : Tree → Prop
  | int {pos : Pos} {n : Nat} : n ≤ maxInt →
      IsExpression types (.valued .intConst pos (.int n) [])
  | float {pos : Pos} {x : Float} : IsExpression types (.valued .floatConst pos (.float x) [])
  | bool {pos : Pos} {b : Bool} : IsExpression types (.valued .boolConst pos (.bool b) [])
  | name {pos : Pos} {n : String} : IsName n → types.get? n = none →
      IsExpression types (.valued .ident pos (.name n) [])
  | construct {pos tpos apos : Pos} {n : String} {ty : Ty} {args : List Tree} : IsName n →
      types.get? n = some ty → (∀ t ∈ args, IsExpression types t) →
      IsExpression types
        (.plain .call pos [.valued .varType tpos (.type ty) [], .plain .args apos args])
  | call {pos fpos apos : Pos} {n : String} {args : List Tree} : IsName n →
      types.get? n = none → (∀ t ∈ args, IsExpression types t) →
      IsExpression types
        (.plain .call pos [.valued .ident fpos (.name n) [], .plain .args apos args])
  | index {pos : Pos} {b i : Tree} : IsExpression types b → IsExpression types i →
      IsExpression types (.plain .index pos [b, i])
  | member {pos mpos : Pos} {b : Tree} {m : String} : IsExpression types b → IsName m →
      IsExpression types (.plain .member pos [b, .valued .ident mpos (.name m) []])
  | unary {pos : Pos} {op : Operator} {t : Tree} : op = .neg ∨ op = .not → IsExpression types t →
      IsExpression types (.operated .unary pos op [t])
  | binary {pos : Pos} {op : Operator} {l r : Tree} : op ∈ levels.flatten →
      IsExpression types l → IsExpression types r →
      IsExpression types (.operated .binary pos op [l, r])
  | ternary {pos : Pos} {c y n : Tree} : IsExpression types c → IsExpression types y →
      IsExpression types n → IsExpression types (.plain .ternary pos [c, y, n])
  | assign {pos : Pos} {l r : Tree} : IsExpression types l → IsExpression types r →
      IsExpression types (.operated .assign pos .assign [l, r])

/-- The type of a declared name: one of the table, or an array of one. -/
def IsDeclared (types : TypeTable) (t : Ty) : Prop :=
  ∃ n t₀ x, IsName n ∧ types.get? n = some t₀ ∧ Suffix t₀ t x

inductive IsDeclaration (types : TypeTable) (q : Option Qualifier) : Tree → Prop
  | bare {pos tpos : Pos} {v : String} {t : Ty} : IsName v → IsDeclared types t →
      IsDeclaration types q (.valued .varDecl pos (.name v) [typeTree q tpos t])
  | initial {pos tpos : Pos} {v : String} {t : Ty} {i : Tree} : IsName v → IsDeclared types t →
      IsExpression types i →
      IsDeclaration types q (.valued .varDecl pos (.name v) [typeTree q tpos t, i])

inductive IsStatement (types : TypeTable) : Tree → Prop
  | expression {t : Tree} : IsExpression types t → IsStatement types t
  | declaration {t : Tree} : IsDeclaration types none t → IsStatement types t
  | leave {pos : Pos} : IsStatement types (.plain .ret pos [])
  | leaveWith {pos : Pos} {t : Tree} : IsExpression types t →
      IsStatement types (.plain .ret pos [t])
  | block {pos : Pos} {ts : List Tree} : (∀ t ∈ ts, IsStatement types t) →
      IsStatement types (.plain .block pos ts)
  | conditional {pos : Pos} {c yes : Tree} : IsExpression types c → IsStatement types yes →
      yes.kind = .block → IsStatement types (.plain .conditional pos [c, yes])
  | otherwise {pos : Pos} {c yes no : Tree} : IsExpression types c → IsStatement types yes →
      yes.kind = .block → IsStatement types no → no.kind = .block ∨ no.kind = .conditional →
      IsStatement types (.plain .conditional pos [c, yes, no])

inductive IsItem (types : TypeTable) : Tree → Prop
  | declaration {q : Option Qualifier} {t : Tree} : IsDeclaration types q t → IsItem types t
  | function {pos tpos ppos : Pos} {n v : String} {t : Ty} {params : List Tree} {body : Tree} :
      IsName n → types.get? n = some t → IsName v →
      (∀ p ∈ params, ∃ pos tpos w ty, IsName w ∧ IsDeclared types ty ∧
        p = .valued .varDecl pos (.name w) [typeTree none tpos ty]) →
      IsStatement types body → body.kind = .block →
      IsItem types (.valued .function pos (.name v)
        [typeTree none tpos t, .plain .params ppos params, body])

def IsProgram (types : TypeTable) (t : Tree) : Prop :=
  ∃ pos ts, t = .plain .block pos ts ∧ ∀ u ∈ ts, IsItem types u

variable {c c' : Cursor}

/-- Every node of the tree has a position of the kind. -/
def Placed (M : Pos → Prop) (t : Tree) : Prop := ∀ l ∈ t.preorder, M l.pos

/-- **A kind of place that reading ASCII keeps**, and the positions of these places. -/
structure Standing (env : Env) (R : Cursor → Prop) (M : Pos → Prop) : Prop where
  advance {c : Cursor} {w r : Text} : R c → c.rest = w ++ r → w.IsAscii → R (c.advance w.length)
  marks {c : Cursor} : R c → M (env.pos c)
  first : M (env.lines.pos 0)

section Placed

variable {M : Pos → Prop} {l : Label} {t u : Tree} {ts : List Tree}

theorem Placed.node (hl : M l.pos) (hts : ∀ t ∈ ts, Placed M t) : Placed M (.node l ts) :=
  Rose.forall_preorder_node hl hts

theorem Placed.leaf (hl : M l.pos) : Placed M (.node l []) := .node hl fun _ ht => by cases ht

theorem Placed.pair (hl : M l.pos) (ht : Placed M t) (hu : Placed M u) : Placed M (.node l [t, u]) :=
  .node hl (List.forall_mem_cons.2 ⟨ht, List.forall_mem_singleton.2 hu⟩)

theorem Placed.of_mem (h : Placed M (.node l ts)) (ht : t ∈ ts) : Placed M t :=
  fun l' hl' => h l' (Rose.mem_preorder_of_mem ht hl')

theorem Placed.pos (h : Placed M t) : M t.pos := h t.entry t.entry_mem_preorder

end Placed

theorem isAscii_of_isDigit {ch : Char} (h : ch.isDigit = true) : ch.val ≤ 127 := by
  delta Char.isDigit at h
  grind

theorem isAscii_of_isWordChar {ch : Char} (h : Text.isWordChar ch = true) : ch.val ≤ 127 := by
  simp only [Text.isWordChar, Char.isAlphanum, Bool.or_eq_true, beq_iff_eq] at h
  rcases h with ((h | h) | rfl) | rfl
  · delta Char.isAlpha Char.isUpper Char.isLower at h
    grind
  · exact isAscii_of_isDigit h
  · decide
  · decide

theorem isAscii_of_isSpacing {ch : Char} (h : isSpacing ch = true) : ch.val ≤ 127 := by
  simp only [isSpacing, Bool.or_eq_true, beq_iff_eq] at h
  rcases h with ((rfl | rfl) | rfl) | rfl <;> decide

theorem isAscii_takeWhile {p : Char → Bool} (h : ∀ ch, p ch = true → ch.val ≤ 127) (s : Text) :
    Text.IsAscii (s.takeWhile p) := fun ch hch => h ch (List.all_eq_true.1 List.all_takeWhile ch hch)

section Numbers

variable {s r : Text}

/-- The text is an ASCII part and then the rest. -/
def ReadsTo (s r : Text) : Prop := ∃ w : Text, s = w ++ r ∧ w.IsAscii

theorem ReadsTo.trans {u : Text} (h : ReadsTo s r) (h' : ReadsTo r u) : ReadsTo s u := by
  obtain ⟨w, rfl, hw⟩ := h
  obtain ⟨w', rfl, hw'⟩ := h'
  exact ⟨w ++ w', (List.append_assoc ..).symm, hw.append hw'⟩

theorem readsTo_digits (s : Text) : ReadsTo s (s.dropWhile Char.isDigit) :=
  ⟨_, List.takeWhile_append_dropWhile.symm, isAscii_takeWhile (fun _ => isAscii_of_isDigit) s⟩

theorem readsTo_cons {ch : Char} (h : ch.val ≤ 127) : ReadsTo (ch :: s) s :=
  ⟨[ch], rfl, List.forall_mem_singleton.2 h⟩

theorem readsTo_refl (s : Text) : ReadsTo s s := ⟨[], rfl, List.forall_mem_nil _⟩

theorem exponent?_readsTo {e : Int} (h : exponent? s = some (e, r)) : ReadsTo s r := by
  cases s with
  | nil => cases h
  | cons ch s =>
    unfold exponent? at h
    simp only at h
    split at h
    swap
    · cases h
    next he =>
    have hch : ch.val ≤ 127 := by
      simp only [Bool.or_eq_true, beq_iff_eq] at he
      rcases he with rfl | rfl <;> decide
    refine (readsTo_cons hch).trans ?_
    -- a sign is read in front of the digits
    have hsign : ∀ u neg, ReadsTo s u → (if (u.takeWhile Char.isDigit).isEmpty then none
        else some (Decimal.signed neg (Decimal.digitsValue (u.takeWhile Char.isDigit)),
          u.dropWhile Char.isDigit)) = some (e, r) → ReadsTo s r := by
      intro u neg hu h
      split at h
      · cases h
      · cases h
        exact hu.trans (readsTo_digits u)
    split at h
    · exact hsign _ true (readsTo_cons (by decide)) h
    · exact hsign _ false (readsTo_cons (by decide)) h
    · exact hsign _ false (readsTo_refl _) h

theorem decimals?_readsTo {d : Decimals} (h : decimals? s = some (d, r)) : ReadsTo s r := by
  unfold decimals? at h
  simp only at h
  refine (readsTo_digits s).trans ?_
  split at h
  · next rest hrest =>
    rw [hrest]
    refine (readsTo_cons (by decide)).trans ((readsTo_digits rest).trans ?_)
    split at h
    · cases h
    · split at h
      · next hexp =>
        cases h
        exact exponent?_readsTo hexp
      · cases h
        exact readsTo_refl _
  · split at h
    · cases h
    · obtain ⟨⟨e, r'⟩, hexp, heq⟩ := Option.map_eq_some_iff.1 h
      cases heq
      exact exponent?_readsTo hexp

theorem dropSuffix_readsTo (s : Text) : ReadsTo s (dropSuffix s) := by
  unfold dropSuffix
  split
  · exact readsTo_cons (by decide)
  · exact readsTo_refl _

end Numbers

theorem Standing.skipBlanks {env : Env} {R : Cursor → Prop} {M : Pos → Prop} {c : Cursor}
    (hR : Standing env R M) (h : R c) : R c.skipBlanks :=
  hR.advance (r := c.rest.dropWhile isSpacing) h List.takeWhile_append_dropWhile.symm
    (isAscii_takeWhile (fun _ => isAscii_of_isSpacing) _)

theorem number?_shape {v : Value} (h : number? c = .ok (some (v, c'))) :
    (∃ x, v = .float x) ∨ ∃ n : Nat, n ≤ maxInt ∧ v = .int n := by
  unfold number? at h
  split at h
  · simp only at h
    split at h
    · cases h; exact .inl ⟨_, rfl⟩
    · cases h
  · split at h
    · next digits hd =>
      cases h
      refine .inr ⟨_, ?_, rfl⟩
      unfold integer? at hd
      simp only at hd
      split at hd
      · cases hd
      · next hle =>
        cases hd
        simp only [Bool.or_eq_true, decide_eq_true_eq, not_or, Nat.not_lt] at hle
        exact hle.2
    · cases h

theorem IsExpression.of_ident {types : TypeTable} {t : Tree} (h : IsExpression types t) (hk : t.kind = .ident) :
    ∃ pos n, t = .valued .ident pos (.name n) [] ∧ IsName n ∧ types.get? n = none := by
  cases h with
  | name hn hty => exact ⟨_, _, rfl, hn, hty⟩
  | _ => cases hk

theorem prefixOp?_shape {op : Operator} (h : prefixOp? c = some op) : op = .neg ∨ op = .not := by
  unfold prefixOp? at h
  split at h
  · cases h; exact .inl rfl
  · split at h
    · cases h; exact .inr rfl
    · cases h

end VecLang.Grammar
