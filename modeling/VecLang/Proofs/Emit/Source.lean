import VecLang.Emit.Source
import VecLang.Proofs.Grammar.Shape

/-!
# What is printed is written

The own-language printer succeeds on every tree that the parser returns, if its
assignments, member accesses and floats can be told apart in a text (`Legible`), and
its text writes the tree.

* `emit_expression`: expressions, with parentheses where the printer puts them.
* `emit_statement`, `emit_item`: statements and functions, at every depth.
* `emit_program`: **the text of a program writes the program.**
-/

namespace VecLang.Emit.Source

open Grammar List

variable {n s : String} {ts : List Tree} {op : Operator} {W : Text → Tree → Prop} {k : Nat}
  {ty : Ty} {pos : Pos}

/-- The text of a number with a given number of places reads back as the number. -/
def ReadsBack (places : Nat) (x : Float) : Prop :=
  ∃ c, number? ⟨(Decimal.fixed places x).toList, 0⟩ = .ok (some (.float x, c)) ∧ c.rest = []

/-- Nothing about the root of the tree is lost in its text: the printer writes no
parentheses around an assignment that is a target, a condition or an alternative, a
point behind an integer belongs to the number, and a float is rounded to its places. -/
structure Legible (places : Nat) (t : Tree) : Prop where
  target : t.kind = .assign → ∀ u : Tree, u ∈ t.children[0]? → u.kind ≠ .assign
  condition : t.kind = .ternary → ∀ u : Tree, u ∈ t.children[0]? → u.kind ≠ .assign
  alternative : t.kind = .ternary → ∀ u : Tree, u ∈ t.children[2]? → u.kind ≠ .assign
  base : t.kind = .member → ∀ u : Tree, u ∈ t.children[0]? → u.kind ≠ .intConst
  number : t.kind = .floatConst → ∀ x, t.entry.value = some (.float x) → ReadsBack places x

instance (places : Nat) (x : Float) : Decidable (ReadsBack places x) :=
  match h : number? ⟨(Decimal.fixed places x).toList, 0⟩ with
  | .ok (some (v, c)) =>
    if hv : v = .float x ∧ c.rest = [] then isTrue ⟨c, by rw [h, hv.1], hv.2⟩
    else isFalse fun ⟨d, hd, hr⟩ => by
      rw [h] at hd
      simp only [Except.ok.injEq, Option.some.injEq, Prod.mk.injEq] at hd
      exact hv ⟨hd.1, hd.2 ▸ hr⟩
  | .ok none => isFalse fun ⟨d, hd, _⟩ => by rw [h] at hd; cases hd
  | .error e => isFalse fun ⟨d, hd, _⟩ => by rw [h] at hd; cases hd

instance (places : Nat) (v : Option Value) :
    Decidable (∀ x, v = some (.float x) → ReadsBack places x) :=
  match v with
  | some (.float y) =>
    if h : ReadsBack places y then isTrue fun x hx => by cases hx; exact h
    else isFalse fun hall => h (hall y rfl)
  | some (.int _) | some (.bool _) | some (.name _) | some (.type _) | none => isTrue nofun

instance (places : Nat) (t : Tree) : Decidable (Legible places t) :=
  decidable_of_iff
    ((t.kind = .assign → ∀ u : Tree, u ∈ t.children[0]? → u.kind ≠ .assign) ∧
      (t.kind = .ternary → ∀ u : Tree, u ∈ t.children[0]? → u.kind ≠ .assign) ∧
      (t.kind = .ternary → ∀ u : Tree, u ∈ t.children[2]? → u.kind ≠ .assign) ∧
      (t.kind = .member → ∀ u : Tree, u ∈ t.children[0]? → u.kind ≠ .intConst) ∧
      (t.kind = .floatConst → ∀ x, t.entry.value = some (.float x) → ReadsBack places x))
    ⟨fun ⟨h₁, h₂, h₃, h₄, h₅⟩ => ⟨h₁, h₂, h₃, h₄, h₅⟩,
      fun h => ⟨h.target, h.condition, h.alternative, h.base, h.number⟩⟩

/-! ### Floats -/

theorem padded_isDigit {width n : Nat} : ∀ ch ∈ Decimal.padded width n, ch.isDigit = true := by
  intro ch h
  rcases mem_append.1 h with h | h
  · rw [(mem_replicate.1 h).2]; rfl
  · exact toDigits_isDigit ch h

/-- A text of a float that reads back is digits, a point and digits, and the digits
are those of the number. -/
theorem ReadsBack.fixed {places : Nat} {x : Float} (h : ReadsBack places x) (hp : 1 ≤ places) :
    ∃ whole frac, (Decimal.fixed places x).toList = whole ++ '.' :: frac ∧
      (∀ ch ∈ whole, ch.isDigit = true) ∧ (∀ ch ∈ frac, ch.isDigit = true) ∧ whole ≠ [] ∧
      Decimal.isFinite x = true ∧ Decimal.ofDigits whole frac 0 = x := by
  obtain ⟨c, h, -⟩ := h
  -- what does not start with a digit is no number
  have hstart : ∀ {s : Text}, (Decimal.fixed places x).toList = s →
      (∀ ch ∈ s.head?, ch.isDigit = false) → s.head? ≠ some '.' → False := by
    intro s hs hd hpoint
    rw [hs, number?_eq_none hd hpoint] at h
    cases h
  cases hdec : Decimal.decode x with
  | nan =>
    exact (hstart (s := "NaN".toList) (by simp [Decimal.fixed, hdec]) (by decide) (by decide)).elim
  | infinite neg =>
    cases neg with
    | true => exact (hstart (s := "-inf".toList) (by simp [Decimal.fixed, hdec]) (by decide) (by decide)).elim
    | false => exact (hstart (s := "inf".toList) (by simp [Decimal.fixed, hdec]) (by decide) (by decide)).elim
  | finite neg mant exp =>
    have htext : (Decimal.fixed places x).toList = Decimal.sign neg ++ Decimal.withPoint
        (Decimal.roundHalfEven ((Decimal.toFraction mant exp).1 * Nat.pow 10 places)
          (Decimal.toFraction mant exp).2) places := by
      simp [Decimal.fixed, hdec]
    generalize Decimal.roundHalfEven _ _ = m at htext
    cases neg with
    | true =>
      exact (hstart htext (by rintro ch hch; cases hch; rfl) (by simp [Decimal.sign])).elim
    | false =>
      have hform : (Decimal.fixed places x).toList =
          Nat.toDigits 10 (m / Nat.pow 10 places) ++ '.' :: Decimal.padded places (m % Nat.pow 10 places) := by
        have hne : places ≠ 0 := by omega
        rw [htext, Decimal.sign, Decimal.withPoint, if_neg hne]
        rfl
      have hdecimals : decimals? (Nat.toDigits 10 (m / Nat.pow 10 places) ++
          '.' :: (Decimal.padded places (m % Nat.pow 10 places) ++ [])) = _ :=
        decimals?_point toDigits_isDigit padded_isDigit Nat.toDigits_ne_nil noWord_nil
      rw [append_nil] at hdecimals
      refine ⟨_, _, hform, toDigits_isDigit, padded_isDigit, Nat.toDigits_ne_nil, ?_⟩
      simp only [number?, hform, hdecimals] at h
      split at h
      · next hfin =>
        simp only [Except.ok.injEq, Option.some.injEq, Prod.mk.injEq, Value.float.injEq] at h
        rw [h.1] at hfin
        exact ⟨hfin, h.1⟩
      · cases h

/-! ### Expressions -/

/-- Every type of the table is known by its own name, and declared with nothing behind
the name. -/
def SelfNamed (types : TypeTable) : Prop :=
  ∀ n ty, types.get? n = some ty → ty.name = n ∧ declarator ty = (n, "")

variable {ctx : Context} {options : Options} {types : TypeTable} {t : Tree} {d : Nat}

theorem legible_child {P : Tree → Prop} {l : Label} (h : ∀ u ∈ (Rose.node l ts).subtrees, P u)
    (ht : t ∈ ts) : ∀ u ∈ t.subtrees, P u :=
  fun _ hu => h _ (Rose.mem_subtrees_of_mem ht hu)

theorem strength_bounds (h : IsExpression types t) : 1 ≤ strength t ∧ strength t ≤ 11 := by
  cases h with
  | @binary pos op l r hop _ _ =>
    have : ∀ op ∈ levels.flatten, 1 ≤ op.precedence ∧ op.precedence ≤ 11 := by decide
    exact this op hop
  | _ => exact ⟨Nat.le_of_ble_eq_true rfl, Nat.le_of_ble_eq_true rfl⟩

theorem three_le_strength (h : IsExpression types t) (hk : t.kind ≠ .assign) : 3 ≤ strength t := by
  cases h with
  | @binary pos op l r hop _ _ =>
    have : ∀ op ∈ levels.flatten, 3 ≤ op.precedence := by decide
    exact this op hop
  | assign _ _ => exact absurd rfl hk
  | _ => exact Nat.le_of_ble_eq_true rfl

theorem le_of_needsParens_left (h : needsParens op .left t = false) :
    op.precedence ≤ strength t := by
  simpa [needsParens] using h

theorem lt_of_needsParens_right (hop : op ∈ levels.flatten) (h : needsParens op .right t = false) :
    op.precedence + 1 ≤ strength t := by
  have hleft : ∀ op ∈ levels.flatten, op.isRightAssoc = false := by decide
  simp only [needsParens, hleft op hop, Bool.or_eq_false_iff, decide_eq_false_iff_not,
    Bool.not_false, Bool.and_true, beq_self_eq_true, Bool.true_and, beq_eq_false_iff_ne] at h
  omega

/-! ### Printers of expressions -/

/-- The texts of a list are those of its trees, with commas between them. -/
structure Lists (print : Tree → Except Error String) (prints : List Tree → Except Error String) :
    Prop where
  nil : prints [] = .ok ""
  one : ∀ t, prints [t] = print t
  more : ∀ t u ts, prints (t :: u :: ts) = (do
    let text ← print t
    let rest ← prints (u :: ts)
    return text ++ ", " ++ rest)

theorem lists_emitList : Lists (emit ctx options d) (emitList ctx options d) :=
  ⟨rfl, fun _ => rfl, fun _ _ _ => rfl⟩

/-- The text is printed for the expression `t` and writes `u`, at the level of the strength of `t`
unless this is an assignment. -/
structure PrintsAs (print : Tree → Except Error String) (types : TypeTable) (t u : Tree)
    (s : String) : Prop where
  shape : IsExpression types t
  printed : print t = .ok s
  whole : Written types 1 s.toList u
  tight : t.kind ≠ .assign → Written types (min (strength t) 10) s.toList u

section Printers

variable {print : Tree → Except Error String} {prints : List Tree → Except Error String} {pos : Pos}
  {s s' s'' : String} {u a b c a' b' : Tree}

theorem Lists.written (hlists : Lists print prints)
    (h : ∀ t ∈ ts, ∃ s, print t = .ok s ∧ W s.toList t) :
    ∃ s, ∃ items : List (Text × Tree), prints ts = .ok s ∧ items.map Prod.snd = ts ∧
      (∀ i ∈ items, W i.1 i.2) ∧ s.toList = commas (items.map Prod.fst) := by
  induction ts with
  | nil => exact ⟨"", [], hlists.nil, rfl, by simp, rfl⟩
  | cons t ts ih =>
    obtain ⟨s, hs, hw⟩ := h t (.head _)
    obtain ⟨s', items, hs', hitems, hall, hcommas⟩ := ih fun t ht => h t (.tail _ ht)
    have hall' : ∀ i ∈ (s.toList, t) :: items, W i.1 i.2 := forall_mem_cons.2 ⟨hw, hall⟩
    cases ts with
    | nil =>
      cases items with
      | cons i items => cases hitems
      | nil => exact ⟨s, [(s.toList, t)], (hlists.one t).trans hs, rfl, hall', by simp [commas]⟩
    | cons t' ts =>
      cases items with
      | nil => cases hitems
      | cons i items =>
        refine ⟨s ++ ", " ++ s', (s.toList, t) :: i :: items, ?_, ?_, hall', ?_⟩
        · rw [hlists.more, hs, hs']
          rfl
        · rw [map_cons, hitems]
        · simp [hcommas, commas]

namespace PrintsAs

theorem of {x : Text} (shape : IsExpression types t) (printed : print t = .ok s)
    (hk : min (strength t) 10 = k) (hx : s.toList = x) (hw : Written types k x u) :
    PrintsAs print types t u s := by
  have hbounds := strength_bounds shape
  have htight : Written types (min (strength t) 10) s.toList u := by
    rw [hk, hx]
    exact hw
  exact ⟨shape, printed, htight.mono (Nat.le_refl 1) (by omega) (by omega), fun _ => htight⟩

section

variable (h : PrintsAs print types t u s)
include h

theorem written : Written types (min (strength t) 10) s.toList u := by
  by_cases hk : t.kind = .assign
  · have hone : min (strength t) 10 = 1 := by
      unfold strength
      rw [hk]
      rfl
    rw [hone]
    exact h.whole
  · exact h.tight hk

/-- With parentheses where they are needed, the text is one of the level asked for. -/
theorem parenthesized {b : Bool} (hk : 1 ≤ k) (hk' : k ≤ 10) (hb : b = false → k ≤ strength t) :
    Written types k (Emit.parenthesized b s).toList u := by
  have hbounds := strength_bounds h.shape
  cases b with
  | false =>
    have hle := hb rfl
    exact h.written.mono (by omega) (by omega) (by omega)
  | true =>
    have hparens := Written.parens h.whole
    have htext : (Emit.parenthesized true s).toList = '(' :: (s.toList ++ [')']) := by
      simp [Emit.parenthesized]
    rw [htext]
    exact hparens.mono (by omega) (by omega) (Nat.le_refl 11)

theorem operand : Written types 10 (Emit.parenthesized (isCompound t) s).toList u := by
  refine h.parenthesized (by decide) (by decide) fun hc => ?_
  have hatom : ¬ strength t < atomStrength := of_decide_eq_false hc
  unfold atomStrength at hatom
  omega

theorem condition (hk : t.kind ≠ .assign) : Written types 3 s.toList u := by
  have hle := three_le_strength h.shape hk
  have hbounds := strength_bounds h.shape
  exact (h.tight hk).mono (by decide) (by omega) (by omega)

end

theorem index (hprint : print (.plain .index pos [a, b]) = (do
      let text ← print a
      let index ← print b
      return Emit.parenthesized (isCompound a) text ++ "[" ++ index ++ "]"))
    (ha : PrintsAs print types a a' s) (hb : PrintsAs print types b b' s') :
    PrintsAs print types (.plain .index pos [a, b]) (.plain .index pos [a', b'])
      (Emit.parenthesized (isCompound a) s ++ "[" ++ s' ++ "]") := by
  refine .of (.index ha.shape hb.shape) ?_ rfl ?_ (.index ha.operand hb.whole)
  · rw [hprint, ha.printed, hb.printed]
    rfl
  · simp

theorem member {mpos : Pos} {m : String}
    (hprint : print (.plain .member pos [a, .valued .ident mpos (.name m) []]) = (do
      let text ← print a
      return Emit.parenthesized (isCompound a) text ++ "." ++ m))
    (ha : PrintsAs print types a a' s) (hint : a'.kind ≠ .intConst) (hm : IsName m) :
    PrintsAs print types (.plain .member pos [a, .valued .ident mpos (.name m) []])
      (.plain .member pos [a', .valued .ident mpos (.name m) []])
      (Emit.parenthesized (isCompound a) s ++ "." ++ m) := by
  refine .of (.member ha.shape hm) ?_ rfl ?_ (.member ha.operand hint hm)
  · rw [hprint, ha.printed]
    rfl
  · simp

theorem unary
    (hprint : print (.operated .unary pos op [a]) =
      (do return op.symbol ++ Emit.parenthesized (isCompound a) (← print a)))
    (hop : op = .neg ∨ op = .not) (ha : PrintsAs print types a a' s) :
    PrintsAs print types (.operated .unary pos op [a]) (.operated .unary pos op [a'])
      (op.symbol ++ Emit.parenthesized (isCompound a) s) := by
  refine .of (.unary hop ha.shape) ?_ rfl ?_ (.unary hop ha.operand)
  · rw [hprint, ha.printed]
    rfl
  · simp

theorem binary
    (hprint : op ≠ .member → print (.operated .binary pos op [a, b]) = (do
      let left ← print a
      let right ← print b
      return Emit.parenthesized (needsParens op .left a) left ++ (" " ++ op.symbol ++ " ") ++
        Emit.parenthesized (needsParens op .right b) right))
    (hop : op ∈ levels.flatten) (ha : PrintsAs print types a a' s)
    (hb : PrintsAs print types b b' s') :
    PrintsAs print types (.operated .binary pos op [a, b]) (.operated .binary pos op [a', b'])
      (Emit.parenthesized (needsParens op .left a) s ++ (" " ++ op.symbol ++ " ") ++
        Emit.parenthesized (needsParens op .right b) s') := by
  have hfact : ∀ op ∈ levels.flatten, op ≠ Operator.member ∧ 1 ≤ op.precedence ∧ op.precedence ≤ 9 := by
    decide
  obtain ⟨hne, hpos, hle⟩ := hfact op hop
  have hwa := ha.parenthesized hpos (by omega) le_of_needsParens_left
  have hwb := hb.parenthesized (by omega) (by omega) (lt_of_needsParens_right hop)
  refine .of (.binary hop ha.shape hb.shape) ?_ ?_ ?_ (.binary hop hwa hwb)
  · rw [hprint hne, ha.printed, hb.printed]
    rfl
  · show min op.precedence 10 = op.precedence
    omega
  · simp

section

variable (hprint : print (.operated .assign pos .assign [a, b]) = (do
      let left ← print a
      let right ← print b
      return Emit.parenthesized (needsParens .assign .left a) left ++ " = " ++
        Emit.parenthesized (needsParens .assign .right b) right))
  (ha : PrintsAs print types a a' s) (hb : PrintsAs print types b b' s')
include hprint ha hb

theorem assign_printed : print (.operated .assign pos .assign [a, b]) = .ok (s ++ " = " ++ s') := by
  have hleft : needsParens .assign .left a = false := by
    have hlt : ¬ strength a < 1 := by have := strength_bounds ha.shape; omega
    simp [needsParens, Operator.precedence, hlt]
  have hright : needsParens .assign .right b = false := by
    have hlt : ¬ strength b < 1 := by have := strength_bounds hb.shape; omega
    simp [needsParens, Operator.precedence, Operator.isRightAssoc, hlt]
  rw [hprint, ha.printed, hb.printed, hleft, hright]
  rfl

theorem assign (hka : a.kind ≠ .assign) :
    PrintsAs print types (.operated .assign pos .assign [a, b])
      (.operated .assign pos .assign [a', b']) (s ++ " = " ++ s') := by
  have hwa := (ha.condition hka).looser (by decide) (by decide)
  refine .of (.assign ha.shape hb.shape) (assign_printed hprint ha hb) rfl ?_ (.assign hwa hb.whole)
  simp

end

theorem application {apos : Pos} {n : String} {callee : Tree} {args : List Tree} {r : Tree → Tree}
    (hlists : Lists print prints)
    (hprint : print (.plain .call pos [callee, .plain .args apos args]) =
      (do return n ++ "(" ++ (← prints args) ++ ")"))
    (hshape : IsExpression types (.plain .call pos [callee, .plain .args apos args]))
    (hwritten : ∀ items : List (Text × Tree), (∀ i ∈ items, Written types 1 i.1 i.2) →
      Written types 10 (n.toList ++ '(' :: (commas (items.map Prod.fst) ++ [')']))
        (.plain .call pos [callee, .plain .args apos (items.map Prod.snd)]))
    (hu : u = .plain .call pos [callee, .plain .args apos (args.map r)])
    (hargs : ∀ t ∈ args, ∃ s, PrintsAs print types t (r t) s) :
    ∃ s, PrintsAs print types (.plain .call pos [callee, .plain .args apos args]) u s := by
  have hprinted : ∀ t ∈ args, ∃ s, print t = .ok s ∧ Written types 1 s.toList (r t) := by
    intro t ht
    obtain ⟨s, hs⟩ := hargs t ht
    exact ⟨s, hs.printed, hs.whole⟩
  obtain ⟨s, items, hs, rfl, hall, hcommas⟩ :=
    hlists.written (W := fun x t => Written types 1 x (r t)) hprinted
  have hread : Written types 10 (n.toList ++ '(' :: (commas (items.map Prod.fst) ++ [')'])) u := by
    have hall' := hwritten (items.map fun i => (i.1, r i.2)) (forall_mem_map.2 hall)
    rw [map_map, map_map] at hall'
    rw [hu, map_map]
    exact hall'
  refine ⟨n ++ "(" ++ s ++ ")", .of hshape ?_ rfl ?_ hread⟩
  · rw [hprint, hs]
    rfl
  · simp [hcommas]

end PrintsAs

end Printers

/-! ### Expressions of the language -/

theorem emit_binary (hne : op ≠ .member) (pos : Pos) (a b : Tree) :
    emit ctx options d (.operated .binary pos op [a, b]) = (do
      let left ← emit ctx options d a
      let right ← emit ctx options d b
      return parenthesized (needsParens op .left a) left ++ (" " ++ op.symbol ++ " ") ++
        parenthesized (needsParens op .right b) right) := by
  show (do
    let left ← emit ctx options d a
    let right ← emit ctx options d b
    let between := if op = Operator.member then "." else " " ++ op.symbol ++ " "
    return parenthesized (needsParens op .left a) left ++ between ++
      parenthesized (needsParens op .right b) right) = _
  rw [if_neg hne]

theorem emit_construct (hty : SelfNamed types) (hget : types.get? n = some ty) (pos tpos apos : Pos)
    (args : List Tree) : emit ctx options d
      (.plain .call pos [.valued .varType tpos (.type ty) [], .plain .args apos args]) =
        (do return n ++ "(" ++ (← emitList ctx options d args) ++ ")") := by
  rw [← (hty n ty hget).1]
  rfl

theorem emit_ternary {s' s'' : String} {a b c : Tree} (ha : emit ctx options d a = .ok s)
    (hb : emit ctx options d b = .ok s') (hc : emit ctx options d c = .ok s'') :
    emit ctx options d (.plain .ternary pos [a, b, c]) =
      .ok ("(" ++ s ++ " ? " ++ s' ++ " : " ++ s'' ++ ")") := by
  show (do
    let cond ← emit ctx options d a
    let yes ← emit ctx options d b
    let no ← emit ctx options d c
    return "(" ++ cond ++ " ? " ++ yes ++ " : " ++ no ++ ")") = _
  rw [ha, hb, hc]
  rfl

/-- The text is printed for the expression and writes it, at the level of its strength. -/
structure Prints (ctx : Context) (options : Options) (types : TypeTable) (d : Nat) (t : Tree)
    (s : String) : Prop where
  shape : IsExpression types t
  printed : emit ctx options d t = .ok s
  written : Written types (min (strength t) 10) s.toList t

theorem PrintsAs.prints (h : PrintsAs (emit ctx options d) types t t s) :
    Prints ctx options types d t s := ⟨h.shape, h.printed, h.written⟩

theorem Prints.whole (h : Prints ctx options types d t s) : Written types 1 s.toList t := by
  have hbounds := strength_bounds h.shape
  exact h.written.mono (Nat.le_refl 1) (by omega) (by omega)

/-- **The text of an expression writes it.** -/
theorem emit_expression (ctx : Context) (d : Nat) (hty : SelfNamed types) (hp : 1 ≤ options.floatPrecision)
    (h : IsExpression types t) : (∀ u ∈ t.subtrees, Legible options.floatPrecision u) →
    ∃ s, Prints ctx options types d t s := by
  intro hl
  suffices hprints : ∃ s, PrintsAs (emit ctx options d) types t t s from
    hprints.imp fun _ hs => hs.prints
  induction h with
  | @int pos n hn => exact ⟨toString n, .of (.int hn) rfl rfl (by simp) (Written.atom (.int hn))⟩
  | @float pos x =>
    have hread := (hl _ (Rose.self_mem_subtrees _)).number rfl x rfl
    obtain ⟨whole, frac, htext, hw, hf, hne, hfin, rfl⟩ := hread.fixed hp
    exact ⟨_, .of .float rfl rfl htext (Written.atom (.float hw hf hne hfin))⟩
  | @bool pos b => exact ⟨_, .of .bool rfl rfl rfl (Written.atom (.bool b))⟩
  | @name pos n hn hget =>
    exact ⟨n, .of (.name hn hget) rfl rfl rfl (Written.atom (.name hn hget))⟩
  | @construct pos tpos apos n ty args hn hget hargs ih =>
    exact PrintsAs.application (r := id) lists_emitList (emit_construct hty hget pos tpos apos _)
      (.construct hn hget hargs) (fun items hall => Written.atom (.construct items hn hget hall))
      (by rw [map_id])
      fun t ht => ih t ht (legible_child (legible_child hl (.tail _ (.head _))) ht)
  | @call pos fpos apos n args hn hget hargs ih =>
    exact PrintsAs.application (r := id) lists_emitList rfl (.call hn hget hargs)
      (fun items hall => .call items (Written.atom (.name hn hget)) rfl hall) (by rw [map_id])
      fun t ht => ih t ht (legible_child (legible_child hl (.tail _ (.head _))) ht)
  | index _ _ iha ihb =>
    obtain ⟨s, hs⟩ := iha (legible_child hl (by simp))
    obtain ⟨s', hs'⟩ := ihb (legible_child hl (by simp))
    exact ⟨_, .index rfl hs hs'⟩
  | @member pos mpos a m _ hm ih =>
    obtain ⟨s, hs⟩ := ih (legible_child hl (by simp))
    exact ⟨_, .member rfl hs ((hl _ (Rose.self_mem_subtrees _)).base rfl a rfl) hm⟩
  | unary hop _ ih =>
    obtain ⟨s, hs⟩ := ih (legible_child hl (by simp))
    exact ⟨_, .unary rfl hop hs⟩
  | @binary pos op a b hop _ _ iha ihb =>
    obtain ⟨s, hs⟩ := iha (legible_child hl (by simp))
    obtain ⟨s', hs'⟩ := ihb (legible_child hl (by simp))
    exact ⟨_, .binary (fun hne => emit_binary hne pos a b) hop hs hs'⟩
  | @ternary pos a b c _ _ _ iha ihb ihc =>
    obtain ⟨s, hs⟩ := iha (legible_child hl (by simp))
    obtain ⟨s', hs'⟩ := ihb (legible_child hl (by simp))
    obtain ⟨s'', hs''⟩ := ihc (legible_child hl (by simp))
    have hroot := hl _ (Rose.self_mem_subtrees _)
    have hc := (hs''.condition (hroot.alternative rfl c rfl)).looser (by decide) (by decide)
    have hw : Written types 2 _ (.plain .ternary pos [a, b, c]) :=
      .ternary (hs.condition (hroot.condition rfl a rfl)) hs'.whole hc
    refine ⟨_, .of (.ternary hs.shape hs'.shape hs''.shape)
      (emit_ternary hs.printed hs'.printed hs''.printed) rfl ?_
      (Written.atom (.parens (hw.looser (Nat.le_refl 1) (by decide))))⟩
    simp
  | @assign pos a b _ _ iha ihb =>
    obtain ⟨s, hs⟩ := iha (legible_child hl (by simp))
    obtain ⟨s', hs'⟩ := ihb (legible_child hl (by simp))
    exact ⟨_, .assign rfl hs hs' ((hl _ (Rose.self_mem_subtrees _)).target rfl a rfl)⟩

/-! ### Declarations -/

theorem declarator_written (hty : SelfNamed types) {ty' : Ty} {x : Text}
    (hget : types.get? n = some ty) (hx : Suffix ty ty' x) :
    ∃ suffix : String, declarator ty' = (n, suffix) ∧ suffix.toList = x := by
  obtain ⟨hname, hdecl⟩ := hty n ty hget
  cases hx with
  | none => exact ⟨"", hdecl, rfl⟩
  | @sized m _ => exact ⟨"[" ++ toString m ++ "]", by rw [declarator, hname], by simp⟩
  | unsized => exact ⟨"[]", by rw [declarator, hname], rfl⟩

theorem declared_written (hty : SelfNamed types) {v : String} (hv : IsName v)
    (h : IsDeclared types ty) :
    Declarator types ((declarator ty).1 ++ " " ++ v ++ (declarator ty).2).toList v ty := by
  obtain ⟨n, ty₀, x, hn, hget, hx⟩ := h
  obtain ⟨suffix, hdecl, rfl⟩ := declarator_written hty hget hx
  rw [hdecl]
  have hd := Declarator.mk hn hget hv hx
  simpa using hd

def qualifierText : Option Qualifier → String
  | some q => q.keyword ++ " "
  | none => ""

theorem qualifierText_append (q : Option Qualifier) (s : String) :
    (qualifierText q ++ s).toList = qualified q s.toList := by
  cases q <;> simp [qualifierText, qualified]

theorem emit_declaration (ctx : Context) (d : Nat) (hty : SelfNamed types) (hp : 1 ≤ options.floatPrecision)
    {q : Option Qualifier} (h : IsDeclaration types q t)
    (hl : ∀ u ∈ t.subtrees, Legible options.floatPrecision u) :
    ∃ s y, emit ctx options d t = .ok s ∧ s.toList = qualified q y ∧ Declares types q y t := by
  cases h with
  | @bare pos tpos v ty hv hd =>
    refine ⟨qualifierText q ++ (declarator ty).1 ++ " " ++ v ++ (declarator ty).2,
      ((declarator ty).1 ++ " " ++ v ++ (declarator ty).2).toList, ?_, ?_,
      .bare (declared_written hty hv hd)⟩
    · cases q <;> rfl
    · rw [← qualifierText_append]; simp
  | @initial pos tpos v ty i hv hd hi =>
    obtain ⟨s, hs⟩ := emit_expression ctx d hty hp hi (legible_child hl (by simp))
    refine ⟨qualifierText q ++ (declarator ty).1 ++ " " ++ v ++ (declarator ty).2 ++ " = " ++ s,
      ((declarator ty).1 ++ " " ++ v ++ (declarator ty).2).toList ++ ' ' :: '=' :: ' ' :: s.toList,
      ?_, ?_, .initial (declared_written hty hv hd) hs.whole⟩
    · have htext : emit ctx options d (.valued .varDecl pos (.name v) [typeTree q tpos ty, i]) = (do
          return qualifierText q ++ (declarator ty).1 ++ " " ++ v ++ (declarator ty).2 ++ " = " ++
            (← emit ctx options d i)) := by cases q <;> rfl
      rw [htext, hs.printed]
      rfl
    · have := qualifierText_append q ((declarator ty).1 ++ " " ++ v ++ (declarator ty).2 ++ " = " ++ s)
      simpa using this

/-! ### Lines -/

/-- The text of one statement of a list: that of a block stands in braces. -/
def lineText (ctx : Context) (options : Options) (d : Nat) (t : Tree) : Except Error String :=
  if t.entry.kind = .block then do return braces options d (← emit ctx options (d + 1) t)
  else emit ctx options d t

theorem toList_pad (options : Options) (d : Nat) :
    (options.pad d).toList = replicate (options.indent * d) ' ' := by
  have hpad : ∀ n, ("".pushn ' ' n).toList = replicate n ' ' := by
    intro n
    induction n with
    | zero => rfl
    | succ n ih =>
      rw [String.pushn, Nat.repeat] at *
      rw [String.toList_push, ih, replicate_succ']
  exact hpad _

theorem pad_blank (options : Options) (d : Nat) : Blank (options.pad d).toList := by
  intro ch h
  rw [toList_pad] at h
  rw [(mem_replicate.1 h).2]
  rfl

theorem emitLines_cons (ts : List Tree) : emitLines ctx options d (t :: ts) = (do
    let text ← lineText ctx options d t
    let rest ← emitLines ctx options d ts
    return line options d t.entry.kind text ++ rest) := by
  rw [emitLines, lineText]
  split
  · simp only [bind_assoc, pure_bind]
  · rfl

theorem emitLines_written : ∀ {ts : List Tree},
    (∀ t ∈ ts, ∃ s x, lineText ctx options d t = .ok s ∧ W x t ∧
      s.toList ++ (terminator t.entry.kind).toList = x ++ ['\n']) →
    ∃ s, emitLines ctx options d ts = .ok s ∧ ∀ b, Blank b → ∃ lines w, b ++ s.toList =
      linesText lines ++ w ∧ lines.map Line.tree = ts ∧ (∀ l ∈ lines, Blank l.blank) ∧
      (∀ l ∈ lines, W l.text l.tree) ∧ Blank w := by
  intro ts
  induction ts with
  | nil =>
    intro _
    exact ⟨"", rfl, fun b hb => ⟨[], b, by simp [linesText], rfl, by simp, by simp, hb⟩⟩
  | cons t ts ih =>
    intro h
    obtain ⟨s, x, hs, hw, hx⟩ := h t (.head _)
    obtain ⟨s', hs', hlines⟩ := ih fun t ht => h t (.tail _ ht)
    refine ⟨line options d t.entry.kind s ++ s', ?_, fun b hb => ?_⟩
    · rw [emitLines_cons, hs, hs']
      rfl
    · -- the newline that ends this line belongs to the blanks of the next one
      obtain ⟨lines, w, hsplit, hmap, hblank, hall, hw'⟩ :=
        hlines ['\n'] (by intro ch hch; rw [mem_singleton.1 hch]; rfl)
      refine ⟨⟨b ++ (options.pad d).toList, x, t⟩ :: lines, w, ?_, by simp [hmap], ?_, ?_, hw'⟩
      · have hline : (line options d t.entry.kind s).toList = (options.pad d).toList ++ (x ++ ['\n']) := by
          rw [← hx]
          simp [line]
        have hcons : linesText (⟨b ++ (options.pad d).toList, x, t⟩ :: lines) =
            b ++ (options.pad d).toList ++ x ++ linesText lines := by
          simp [linesText]
        rw [hcons, append_assoc _ _ w, ← hsplit, String.toList_append, hline]
        simp
      · intro l hl
        rcases mem_cons.1 hl with rfl | hl
        · intro ch hch
          rcases mem_append.1 hch with hch | hch
          · exact hb ch hch
          · exact pad_blank options d ch hch
        · exact hblank l hl
      · intro l hl
        rcases mem_cons.1 hl with rfl | hl
        · exact hw
        · exact hall l hl

/-! ### Statements -/

/-- What the printer makes of a statement at every depth: a block in braces, a
conditional, or a text that its semicolon completes. -/
structure PrintsStatement (ctx : Context) (options : Options) (types : TypeTable) (t : Tree) :
    Prop where
  block : t.kind = .block → ∀ d, ∃ s, emit ctx options (d + 1) t = .ok s ∧
    WrittenStatement types .braces (braces options d s).toList t
  conditional : t.kind = .conditional → ∀ d, ∃ s, emit ctx options d t = .ok s ∧
    WrittenStatement types .conditional s.toList t
  simple : t.kind ≠ .block → t.kind ≠ .conditional → ∀ d, ∃ s, emit ctx options d t = .ok s ∧
    WrittenStatement types .statement (s.toList ++ [';']) t ∧ terminator t.kind = ";\n"

theorem PrintsStatement.lineText (h : PrintsStatement ctx options types t) (d : Nat) :
    ∃ s x, lineText ctx options d t = .ok s ∧ WrittenStatement types .statement x t ∧
      s.toList ++ (terminator t.entry.kind).toList = x ++ ['\n'] := by
  by_cases hb : t.kind = .block
  · obtain ⟨s, hs, hw⟩ := h.block hb d
    refine ⟨braces options d s, _, ?_, .ofBraces hw, ?_⟩
    · rw [Source.lineText, if_pos (show t.entry.kind = .block from hb), hs]
      rfl
    · rw [show t.entry.kind = .block from hb]
      rfl
  · have hne : ¬ t.entry.kind = .block := hb
    by_cases hc : t.kind = .conditional
    · obtain ⟨s, hs, hw⟩ := h.conditional hc d
      refine ⟨s, _, by rw [Source.lineText, if_neg hne, hs], .ofConditional hw, ?_⟩
      rw [show t.entry.kind = .conditional from hc]
      rfl
    · obtain ⟨s, hs, hw, hterm⟩ := h.simple hb hc d
      refine ⟨s, _, by rw [Source.lineText, if_neg hne, hs], hw, ?_⟩
      rw [show terminator t.entry.kind = ";\n" from hterm]
      simp

theorem expression_kind (h : IsExpression types t) :
    t.kind ≠ .block ∧ t.kind ≠ .conditional ∧ terminator t.kind = ";\n" := by
  cases h <;> exact ⟨nofun, nofun, rfl⟩

theorem printsStatement_block (h : ∀ t ∈ ts, PrintsStatement ctx options types t) :
    PrintsStatement ctx options types (.plain .block pos ts) := by
  refine ⟨fun _ d => ?_, nofun, fun hb => absurd rfl hb⟩
  obtain ⟨s, hs, hlines⟩ := emitLines_written fun t ht => (h t ht).lineText (d + 1)
  obtain ⟨lines, w, hsplit, rfl, hblank, hall, hw⟩ :=
    hlines ['\n'] (by intro ch hch; rw [mem_singleton.1 hch]; rfl)
  refine ⟨s, hs, ?_⟩
  have htext : (braces options d s).toList =
      '\x7b' :: (linesText lines ++ ((w ++ (options.pad d).toList) ++ ['\x7d'])) := by
    have : (braces options d s).toList =
        '\x7b' :: (['\n'] ++ s.toList ++ (options.pad d).toList ++ ['\x7d']) := by
      simp [braces]
    rw [this, hsplit]
    simp
  rw [htext]
  refine .braces lines hblank hall fun ch hch => ?_
  rcases mem_append.1 hch with hch | hch
  · exact hw ch hch
  · exact pad_blank options d ch hch

theorem printsStatement_conditional {c yes : Tree} (hc : ∀ d, ∃ s, Prints ctx options types d c s)
    (hy : PrintsStatement ctx options types yes) (hblock : yes.kind = .block) :
    PrintsStatement ctx options types (.plain .conditional pos [c, yes]) := by
  refine ⟨nofun, fun _ d => ?_, fun _ hne => absurd rfl hne⟩
  obtain ⟨s, hs⟩ := hc d
  obtain ⟨s', hs', hw'⟩ := hy.block hblock d
  refine ⟨"if (" ++ s ++ ") " ++ braces options d s', ?_, ?_⟩
  · have htext : emit ctx options d (.plain .conditional pos [c, yes]) = (do
        let condText ← emit ctx options d c
        let yesText ← emit ctx options (d + 1) yes
        return "if (" ++ condText ++ ") " ++
          braces options d (body options (d + 1) yes.entry.kind yesText)) := rfl
    rw [htext, hs.printed, hs', show yes.entry.kind = .block from hblock]
    rfl
  · have hw : WrittenStatement types .conditional _ (.plain .conditional pos [c, yes]) :=
      .conditional hs.whole hw'
    simpa using hw

theorem printsStatement_otherwise {c yes no : Tree} (hc : ∀ d, ∃ s, Prints ctx options types d c s)
    (hy : PrintsStatement ctx options types yes) (hblock : yes.kind = .block)
    (hn : PrintsStatement ctx options types no) (hkind : no.kind = .block ∨ no.kind = .conditional)
    : PrintsStatement ctx options types (.plain .conditional pos [c, yes, no]) := by
  refine ⟨nofun, fun _ d => ?_, fun _ hne => absurd rfl hne⟩
  obtain ⟨s, hs⟩ := hc d
  obtain ⟨s', hs', hw'⟩ := hy.block hblock d
  have htext : emit ctx options d (.plain .conditional pos [c, yes, no]) = (do
      let condText ← emit ctx options d c
      let yesText ← emit ctx options (d + 1) yes
      let head := "if (" ++ condText ++ ") " ++
        braces options d (body options (d + 1) yes.entry.kind yesText)
      if no.entry.kind = .conditional then
        return head ++ " else " ++ (← emit ctx options d no)
      else
        let noText ← emit ctx options (d + 1) no
        return head ++ " else " ++
          braces options d (body options (d + 1) no.entry.kind noText)) := rfl
  rcases hkind with hk | hk
  · obtain ⟨s'', hs'', hw''⟩ := hn.block hk d
    refine ⟨"if (" ++ s ++ ") " ++ braces options d s' ++ " else " ++ braces options d s'', ?_, ?_⟩
    · rw [htext, hs.printed, hs', hs'', show yes.entry.kind = .block from hblock,
        show no.entry.kind = .block from hk]
      rfl
    · have hw : WrittenStatement types .conditional _ (.plain .conditional pos [c, yes, no]) :=
        .otherwise hs.whole hw' (by decide) hw''
      simpa using hw
  · obtain ⟨s'', hs'', hw''⟩ := hn.conditional hk d
    refine ⟨"if (" ++ s ++ ") " ++ braces options d s' ++ " else " ++ s'', ?_, ?_⟩
    · rw [htext, hs.printed, hs', hs'', show yes.entry.kind = .block from hblock,
        show no.entry.kind = .conditional from hk]
      rfl
    · have hw : WrittenStatement types .conditional _ (.plain .conditional pos [c, yes, no]) :=
        .otherwise hs.whole hw' (by decide) hw''
      simpa using hw

/-- **The text of a statement writes it**, at every depth. -/
theorem emit_statement (hty : SelfNamed types) (hp : 1 ≤ options.floatPrecision)
    (h : IsStatement types t) : (∀ u ∈ t.subtrees, Legible options.floatPrecision u) →
    PrintsStatement ctx options types t := by
  have hexpr : ∀ {a : Tree}, IsExpression types a →
      (∀ u ∈ a.subtrees, Legible options.floatPrecision u) →
      ∀ d, ∃ s, Prints ctx options types d a s := fun ha hl d => emit_expression ctx d hty hp ha hl
  induction h with
  | expression h =>
    intro hl
    obtain ⟨hb, hc, hterm⟩ := expression_kind h
    refine ⟨fun hk => absurd hk hb, fun hk => absurd hk hc, fun _ _ d => ?_⟩
    obtain ⟨s, hs⟩ := hexpr h hl d
    exact ⟨s, hs.printed, .expression hs.whole, hterm⟩
  | @declaration t h =>
    intro hl
    have hk : t.kind = .varDecl := by cases h <;> rfl
    refine ⟨fun hb => ?_, fun hc => ?_, fun _ _ d => ?_⟩
    · rw [hk] at hb; cases hb
    · rw [hk] at hc; cases hc
    · obtain ⟨s, y, hs, hy, hw⟩ := emit_declaration ctx d hty hp h hl
      refine ⟨s, hs, ?_, by rw [hk]; rfl⟩
      rw [hy]
      exact .declaration hw
  | leave =>
    intro _
    exact ⟨nofun, nofun, fun _ _ d => ⟨"return", rfl, .leave, rfl⟩⟩
  | @leaveWith pos a h =>
    intro hl
    refine ⟨nofun, nofun, fun _ _ d => ?_⟩
    obtain ⟨s, hs⟩ := hexpr h (legible_child hl (by simp)) d
    refine ⟨"return " ++ s, ?_, ?_, rfl⟩
    · show (do return "return " ++ (← emit ctx options d a)) = _
      rw [hs.printed]
      rfl
    · have hw : WrittenStatement types .statement _ (.plain .ret pos [a]) := .leaveWith hs.whole
      simpa using hw
  | block _ ih => exact fun hl => printsStatement_block fun t ht => ih t ht (legible_child hl ht)
  | conditional hc _ hblock ih =>
    intro hl
    exact printsStatement_conditional (hexpr hc (legible_child hl (by simp)))
      (ih (legible_child hl (by simp))) hblock
  | otherwise hc _ hblock _ hkind ihy ihn =>
    intro hl
    exact printsStatement_otherwise (hexpr hc (legible_child hl (by simp)))
      (ihy (legible_child hl (by simp))) hblock (ihn (legible_child hl (by simp))) hkind

/-! ### Programs -/

theorem emit_parameter (ctx : Context) (options : Options) (d : Nat) (hty : SelfNamed types)
    (h : ∃ pos tpos w ty, IsName w ∧ IsDeclared types ty ∧
      t = .valued .varDecl pos (.name w) [typeTree none tpos ty]) :
    ∃ s, emit ctx options d t = .ok s ∧ WrittenParameter types s.toList t := by
  obtain ⟨pos, tpos, w, ty, hw, hd, rfl⟩ := h
  refine ⟨(declarator ty).1 ++ " " ++ w ++ (declarator ty).2, ?_, .mk (declared_written hty hw hd)⟩
  show Except.ok ("" ++ (declarator ty).1 ++ " " ++ w ++ (declarator ty).2) = _
  simp

/-- The text of a function or a top-level declaration writes it, as a line. -/
theorem emit_item (ctx : Context) (d : Nat) (hty : SelfNamed types)
    (hp : 1 ≤ options.floatPrecision) (h : IsItem types t)
    (hl : ∀ u ∈ t.subtrees, Legible options.floatPrecision u) :
    ∃ s x, lineText ctx options d t = .ok s ∧ WrittenItem types x t ∧
      s.toList ++ (terminator t.entry.kind).toList = x ++ ['\n'] := by
  cases h with
  | @declaration q _ h =>
    have hk : t.entry.kind = .varDecl := by cases h <;> rfl
    obtain ⟨s, y, hs, hy, hw⟩ := emit_declaration ctx d hty hp h hl
    refine ⟨s, _, ?_, .declaration hw, ?_⟩
    · rw [lineText, if_neg (by rw [hk]; decide), hs]
    · rw [hk, ← hy]
      simp [terminator]
  | @function pos tpos ppos n v ty params fbody hn hget hv hparams hbody hblock =>
    obtain ⟨s, items, hs, rfl, hall, hcommas⟩ :=
      lists_emitList.written fun p hp => emit_parameter ctx options d hty (hparams p hp)
    obtain ⟨s', hs', hw'⟩ :=
      (emit_statement hty hp hbody (legible_child hl (by simp))).block hblock d
    refine ⟨n ++ " " ++ v ++ "(" ++ s ++ ") " ++ braces options d s', _, ?_,
      .function items hn hget hv hall hw', ?_⟩
    · show (do
        let params ← emitList ctx options d (items.map Prod.snd)
        let lines ← emit ctx options (d + 1) fbody
        return ty.name ++ " " ++ v ++ "(" ++ params ++ ") " ++
          braces options d (body options (d + 1) fbody.entry.kind lines)) = _
      rw [hs, hs', (hty n ty hget).1, show fbody.entry.kind = .block from hblock]
      rfl
    · show _ ++ "\n".toList = _
      simp [hcommas]

/-- **The text of a program writes the program.** -/
theorem emit_program (hty : SelfNamed types) (hp : 1 ≤ options.floatPrecision)
    (h : IsProgram types t) (hl : ∀ u ∈ t.subtrees, Legible options.floatPrecision u) :
    ∃ s, emit ctx options 0 t = .ok s ∧ WrittenProgram types s.toList t := by
  obtain ⟨pos, ts, rfl, hts⟩ := h
  obtain ⟨s, hs, hlines⟩ :=
    emitLines_written fun t ht => emit_item ctx 0 hty hp (hts t ht) (legible_child hl ht)
  obtain ⟨lines, w, hsplit, rfl, hblank, hall, hw⟩ := hlines [] (by intro ch hch; cases hch)
  refine ⟨s, hs, ?_⟩
  rw [show s.toList = linesText lines ++ w from hsplit]
  exact .mk lines hblank hall hw

end VecLang.Emit.Source
