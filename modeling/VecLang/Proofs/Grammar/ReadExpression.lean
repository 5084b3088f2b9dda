import VecLang.Proofs.Grammar.Written

/-!
# Reading written expressions

A text that writes an expression is read back as that expression, whatever its
positions, if what follows cannot go on with it. The levels of the parser are taken
one by one. Where operands group to the left, the parser of a level is an operand
and a loop, and reading a written operand leads into the loop at that operand
(`Leads`); the other levels are read to their end (`Completes`).

* `Completes.of_leads`: the loop ends where nothing goes on.
* `Written.completes`: **every written expression is read at its level.**
* `expression_written`: every written expression is read as a whole.
-/

namespace VecLang.Grammar

open List

variable {env : Env} {types : TypeTable} {k d n : Nat} {s s' r : Text} {t t' u : Tree}
  {c c' : Cursor} {op : Operator} {ch : Char} {operand item : ExprParser}
  {items : List (Text × Tree)} {limit : Nat} {w : String} {pos apos : Pos}

/-! ### The levels of the parser -/

def tiers (k : Nat) : List (List Operator) := levels.drop (k - 3)

def opsAt (k : Nat) : List Operator := (tiers k).headD []

theorem tiers_eq (hk : 3 ≤ k) (hk' : k ≤ 8) : tiers k = opsAt k :: tiers (k + 1) := by
  have h : ∀ j < 6, tiers (j + 3) = opsAt (j + 3) :: tiers (j + 4) := by decide
  obtain ⟨j, rfl⟩ : ∃ j, k = j + 3 := ⟨k - 3, by omega⟩
  exact h j (by omega)

theorem mem_opsAt (hk : 3 ≤ k) (hk' : k ≤ 8) (h : op ∈ opsAt k) :
    op ∈ levels.flatten ∧ op.precedence = k := by
  have hall : ∀ j < 6, ∀ op ∈ opsAt (j + 3), op ∈ levels.flatten ∧ op.precedence = j + 3 := by
    decide
  obtain ⟨j, rfl⟩ : ∃ j, k = j + 3 := ⟨k - 3, by omega⟩
  exact hall j (by omega) op h

theorem find?_opsAt (hop : op ∈ levels.flatten) :
    (opsAt op.precedence).find? (opAt (op.symbol.toList ++ ' ' :: r) ·.symbol) = some op := by
  have hfact : ∀ op ∈ levels.flatten, 2 ≤ (op.symbol.toList ++ [' ']).length ∧
      (opsAt op.precedence).find? (opAt (op.symbol.toList ++ [' ']) ·.symbol) = some op := by decide
  obtain ⟨hlen, hfind⟩ := hfact op hop
  have hsplit : op.symbol.toList ++ ' ' :: r = (op.symbol.toList ++ [' ']) ++ r := by simp
  have hsame : (fun op' : Operator => opAt (op.symbol.toList ++ ' ' :: r) op'.symbol) =
      fun op' => opAt (op.symbol.toList ++ [' ']) op'.symbol := by
    funext op'
    rw [hsplit, opAt_append hlen (Nat.le_trans op'.length_symbol_le hlen)]
  rw [hsame, hfind]

theorem precedence_bounds (hop : op ∈ levels.flatten) : 3 ≤ op.precedence ∧ op.precedence ≤ 8 := by
  have : ∀ op ∈ levels.flatten, 3 ≤ op.precedence ∧ op.precedence ≤ 8 := by decide
  exact this op hop

/-- The parser of level `k` over brackets that nest at most `d` deep. The levels that
group to the right count down from `n`. -/
def parserAt (env : Env) (d n k : Nat) : ExprParser :=
  let inner := expressionWithin env d
  match k with
  | 1 => assignmentWithin env (ternary (binary (unary env inner) levels) inner) n
  | 2 => ternaryWithin (binary (unary env inner) levels) inner n
  | 10 => postfixed env inner
  | 11 => primary env inner
  | k => binary (unary env inner) (tiers k)

def loopAt (env : Env) (d k : Nat) : Nat → Tree → Cursor → Parse (At Tree) :=
  let inner := expressionWithin env d
  match k with
  | 10 => postfixRest env inner
  | k => chain (binary (unary env inner) (tiers (k + 1))) (opsAt k)

/-- What may follow an expression of level `k`. A point behind an integer would be
read as a part of the number. -/
structure Follows (k : Nat) (t : Tree) (r : Text) : Prop where
  word : NoWord r
  stop : Stops k (skip r)
  point : t.kind = .intConst → r.head? ≠ some '.'

/-- The outcome is the given tree, whatever its positions, and `r` remains. -/
def Gives (t : Tree) (r : Text) (outcome : Parse (Option (At Tree))) : Prop :=
  ∃ u d, outcome = .ok (some (u, d)) ∧ u.unplaced = t.unplaced ∧ d.rest = r

/-- The parser of level `k` reads the text as the tree. -/
def Completes (env : Env) (k : Nat) (s : Text) (t : Tree) : Prop :=
  ∀ ⦃d n : Nat⦄ ⦃c : Cursor⦄ ⦃r : Text⦄, c.rest = s ++ r → c.rest.length ≤ d → c.rest.length < n →
    Follows k t r → Gives t (skip r) (parserAt env d n k c)

/-- Reading the text leads into the loop of level `k` with the tree as its operand. -/
def Leads (env : Env) (k : Nat) (s : Text) (t : Tree) : Prop :=
  ∀ ⦃d n : Nat⦄ ⦃c : Cursor⦄ ⦃r : Text⦄, c.rest = s ++ r → c.rest.length ≤ d →
    Follows (k + 1) t r → ∃ u c' m, c'.rest.length < m ∧
      parserAt env d n k c = (loopAt env d k m u c' >>= fun x => pure (some x)) ∧
      u.unplaced = t.unplaced ∧ c'.rest = skip r

theorem Follows.mono {j : Nat} (h : Follows k t r) (hk : k ≤ j) : Follows j t r :=
  ⟨h.word, h.stop.mono hk, h.point⟩

theorem Follows.of_stops (hw : NoWord r) (hs : Stops k (skip r)) (hk : k ≤ 10) : Follows k t r := by
  refine ⟨hw, hs, fun _ hp => ?_⟩
  cases r with
  | nil => cases hp
  | cons ch r =>
    cases hp
    exact (hs.bracket hk).2.1 (by rw [skip_cons (by decide)]; rfl)

/-- Every level ends in front of a bracket that closes, a comma, a semicolon or a colon. -/
theorem follows_closer (h : ch ∈ closers) : Follows k t (ch :: r) := by
  have hfact : ∀ ch ∈ closers, Text.isWordChar ch = false ∧ isSpacing ch = false ∧ ch ≠ '.' := by
    decide
  obtain ⟨hword, hblank, hpoint⟩ := hfact ch h
  refine ⟨noWord_cons hword, ?_, fun _ hp => hpoint (by cases hp; rfl)⟩
  rw [skip_cons hblank]
  exact stops_of_head fun x hx => by cases hx; exact h

/-! ### From level to level -/

theorem find?_opsAt_eq_none (hk : 3 ≤ k) (hk' : k ≤ 8) (h : Stops k c.rest) :
    (opsAt k).find? (c.startsWithOp ·.symbol) = none := by
  rw [find?_eq_none]
  intro op hop
  obtain ⟨hmem, hprec⟩ := mem_opsAt hk hk' hop
  exact Bool.not_eq_true _ ▸ h.operator op hmem (by omega)

def GroupsLeft (k : Nat) : Prop := (3 ≤ k ∧ k ≤ 8) ∨ k = 10

theorem parserAt_binary (hk : 3 ≤ k) (hk' : k ≤ 9) :
    parserAt env d n k = binary (unary env (expressionWithin env d)) (tiers k) := by
  match k with
  | 3 | 4 | 5 | 6 | 7 | 8 | 9 => rfl

theorem loopAt_binary (hk : 3 ≤ k) (hk' : k ≤ 8) :
    loopAt env d k = chain (parserAt env d n (k + 1)) (opsAt k) := by
  rw [parserAt_binary (by omega) (by omega)]
  match k with
  | 3 | 4 | 5 | 6 | 7 | 8 => rfl

theorem loopAt_stop (hk : GroupsLeft k) (hn : c.rest.length < n) (h : Stops k c.rest) :
    loopAt env d k n t c = .ok (t, c) := by
  obtain ⟨m, rfl⟩ : ∃ m, n = m + 1 := ⟨n - 1, by omega⟩
  rcases hk with ⟨hk, hk'⟩ | rfl
  · rw [loopAt_binary (n := 0) hk hk', chain, find?_opsAt_eq_none hk hk' h]
  · obtain ⟨h₁, h₂, h₃⟩ := h.bracket (by omega)
    have hcall : ¬ (t.kind = .ident ∧ c.startsWith "(" = true) := by
      rw [Cursor.startsWith_char '(' rfl]; exact fun hc => h₃ hc.2
    show postfixRest env _ (m + 1) t c = _
    rw [postfixRest, Cursor.symbol?_eq_none '[' rfl h₁]
    simp only
    rw [Cursor.symbol?_eq_none '.' rfl h₂]
    simp only
    rw [if_neg hcall]

theorem Completes.of_leads (hk : GroupsLeft k) (h : Leads env k s t) : Completes env k s t := by
  intro d n c r hc hd hn hf
  obtain ⟨u, c', m, hm, he, hu, hr⟩ := h hc hd (hf.mono (Nat.le_succ k))
  refine ⟨u, c', ?_, hu, hr⟩
  rw [he, loopAt_stop hk hm (by rw [hr]; exact hf.stop)]
  rfl

theorem Leads.of_completes (hk : GroupsLeft k) (h : Completes env (k + 1) s t) :
    Leads env k s t := by
  intro d n c r hc hd hf
  obtain ⟨u, c', he, hu, hr⟩ := h (n := c.rest.length + 1) hc hd (Nat.lt_succ_self _) hf
  refine ⟨u, c', c'.rest.length + 1, Nat.lt_succ_self _, ?_, hu, hr⟩
  rcases hk with ⟨hk, hk'⟩ | rfl
  · rw [parserAt_binary (by omega) (by omega)] at he
    rw [parserAt_binary hk (by omega), tiers_eq hk hk', binary, he, loopAt_binary (n := 0) hk hk',
      parserAt_binary (by omega) (by omega)]
    rfl
  · show postfixed env _ c = _
    rw [postfixed, show primary env _ c = _ from he]
    rfl

theorem prefixOp?_eq_none (h : ∀ ch ∈ c.rest.head?, ch ≠ '-' ∧ ch ≠ '!') : prefixOp? c = none := by
  have hne : ∀ (sym : String) (ch : Char), sym.toList = [ch] → (ch = '-' ∨ ch = '!') →
      c.startsWithOp sym = false := by
    intro sym ch hs hch
    refine opAt_eq_false (fun x hx => ?_) (by rw [hs]; simp)
    rw [hs]
    rintro hx'
    cases hx'
    rcases hch with rfl | rfl
    · exact (h _ hx).1 rfl
    · exact (h _ hx).2 rfl
  unfold prefixOp?
  rw [hne "-" '-' rfl (.inl rfl), hne "!" '!' rfl (.inr rfl)]
  rfl

theorem Completes.unaryWithin (h : Completes env 10 s t)
    (hhead : ∃ ch s', s = ch :: s' ∧ Starts 10 ch) (hc : c.rest = s ++ r) (hd : c.rest.length ≤ d)
    (hn : c.rest.length < n) (hf : Follows 9 t r) :
    Gives t (skip r) (unaryWithin env (expressionWithin env d) n c) := by
  obtain ⟨m, rfl⟩ : ∃ m, n = m + 1 := ⟨n - 1, by omega⟩
  have hpre : prefixOp? c = none := by
    obtain ⟨ch, s', rfl, hs⟩ := hhead
    refine prefixOp?_eq_none fun x hx => ?_
    rw [hc] at hx
    cases hx
    rcases hs with hs | rfl | ⟨hk, _⟩
    · constructor <;> rintro rfl <;> cases hs
    · decide
    · omega
  have hg := h hc hd hn (hf.mono (by omega))
  rw [Grammar.unaryWithin, hpre]
  exact hg

theorem Completes.ternary_of_binary (h : Completes env 3 s t) : Completes env 2 s t := by
  intro d n c r hc hd hn hf
  obtain ⟨u, c', he, hu, hr⟩ := h hc hd hn (hf.mono (by omega))
  obtain ⟨m, rfl⟩ : ∃ m, n = m + 1 := ⟨n - 1, by omega⟩
  refine ⟨u, c', ?_, hu, hr⟩
  show ternaryWithin _ _ (m + 1) c = _
  have hmark : c'.symbol? "?" = none :=
    Cursor.symbol?_eq_none '?' rfl (by rw [hr]; exact hf.stop.mark (by omega))
  rw [ternaryWithin, show binary _ levels c = _ from he]
  simp only [ok_bind, hmark]
  rfl

theorem assignmentWithin_operand (h : operand c = .ok (some (t, c')))
    (hstop : ∀ a ∈ assignments, opAt c'.rest a.1 = false) :
    assignmentWithin env operand (n + 1) c = .ok (some (t, c')) := by
  rw [assignmentWithin, h]
  simp only [ok_bind, find?_assignments hstop]
  rfl

theorem Completes.assignment_of_ternary (h : Completes env 2 s t) : Completes env 1 s t := by
  intro d n c r hc hd hn hf
  obtain ⟨u, c', he, hu, hr⟩ :=
    h (n := c.rest.length + 1) hc hd (Nat.lt_succ_self _) (hf.mono (by omega))
  obtain ⟨m, rfl⟩ : ∃ m, n = m + 1 := ⟨n - 1, by omega⟩
  exact ⟨u, c', assignmentWithin_operand he (hr ▸ hf.stop.assigns (by omega)), hu, hr⟩

/-- A whole expression is read within brackets that nest less deep than it is long. -/
theorem Completes.expressionWithin (h : Completes env 1 s t) (hc : c.rest = s ++ r)
    (hd : c.rest.length < d) (hf : Follows 1 t r) :
    Gives t (skip r) (expressionWithin env d c) := by
  obtain ⟨e, rfl⟩ : ∃ e, d = e + 1 := ⟨d - 1, by omega⟩
  exact h (n := c.rest.length + 1) hc (by omega) (Nat.lt_succ_self _) hf

theorem Gives.require {outcome : Parse (Option (At Tree))} (h : Gives t r outcome)
    (what : String) (c : Cursor) :
    ∃ u c', require what c outcome = .ok (u, c') ∧ u.unplaced = t.unplaced ∧ c'.rest = r := by
  obtain ⟨u, c', rfl, hu, hr⟩ := h
  exact ⟨u, c', rfl, hu, hr⟩

/-! ### Lists -/

/-- The item parser reads each of the texts as its tree, in front of a comma or the
closing parenthesis. -/
def ReadsItems (item : ExprParser) (limit : Nat) (items : List (Text × Tree)) : Prop :=
  ∀ i ∈ items, (∀ r, skip (i.1 ++ r) = i.1 ++ r) ∧
    ∀ ⦃c : Cursor⦄ ⦃ch : Char⦄ ⦃r : Text⦄, c.rest = i.1 ++ ch :: r → c.rest.length < limit →
      ch = ',' ∨ ch = ')' → Gives i.2 (ch :: r) (item c)

theorem items_tail (items : List (Text × Tree)) (r : Text) :
    ∃ ch r', ((items.map Prod.fst).flatMap fun s => ',' :: ' ' :: s) ++ ')' :: r = ch :: r' ∧
      (ch = ',' ∨ ch = ')') := by
  cases items with
  | nil => exact ⟨')', r, rfl, .inr rfl⟩
  | cons i items => exact ⟨',', _, rfl, .inl rfl⟩

theorem skip_commas (h : ∀ i ∈ items, ∀ r, skip (i.1 ++ r) = i.1 ++ r) :
    skip (commas (items.map Prod.fst) ++ ')' :: r) = commas (items.map Prod.fst) ++ ')' :: r := by
  cases items with
  | nil => exact skip_cons (by decide)
  | cons i items =>
    simp only [map_cons, commas, append_assoc]
    exact h i (.head _) _

theorem moreItems_written :
    ∀ {items : List (Text × Tree)} {n : Nat} {c : Cursor}, ReadsItems item limit items →
      c.rest = ((items.map Prod.fst).flatMap fun s => ',' :: ' ' :: s) ++ ')' :: r →
      c.rest.length < limit → c.rest.length < n →
      ∃ us c', moreItems item n c = .ok (us, c') ∧
        us.map Tree.unplaced = (items.map Prod.snd).map Tree.unplaced ∧ c'.rest = ')' :: r := by
  intro items
  induction items with
  | nil =>
    intro n c _ hc _ hn
    obtain ⟨m, rfl⟩ : ∃ m, n = m + 1 := ⟨n - 1, by omega⟩
    refine ⟨[], c, ?_, rfl, hc⟩
    rw [moreItems, Cursor.symbol?_eq_none ',' rfl (by rw [hc]; simp)]
  | cons i items ih =>
    intro n c hread hc hlim hn
    obtain ⟨m, rfl⟩ : ∃ m, n = m + 1 := ⟨n - 1, by omega⟩
    obtain ⟨hskip, hitem⟩ := hread i (.head _)
    obtain ⟨ch, r', htail, hch⟩ := items_tail items r
    have hc' : c.rest = ",".toList ++ ' ' :: (i.1 ++ ch :: r') := by
      rw [hc, ← htail]; simp
    obtain ⟨c₁, h₁, hr₁⟩ := Cursor.symbol?_of _ hc'
    rw [skip_cons_blank rfl, hskip] at hr₁
    have hlen : c₁.rest.length + 2 = c.rest.length := by rw [hr₁, hc']; simp
    obtain ⟨u, c₂, h₂, hu, hr₂⟩ := hitem hr₁ (by omega) hch
    have hlen₂ : c₂.rest.length ≤ c₁.rest.length := by rw [hr₁, hr₂]; simp
    obtain ⟨us, c₃, h₃, hus, hr₃⟩ := ih (n := m) (fun j hj => hread j (.tail _ hj))
      (hr₂.trans htail.symm) (by omega) (by omega)
    refine ⟨u :: us, c₃, ?_, by simp only [map_cons, hu, hus], hr₃⟩
    rw [moreItems, h₁]
    simp only [h₂, h₃, ok_bind]
    rfl

theorem commaList_written (hread : ReadsItems item limit items)
    (hnone : items = [] → item c = .ok none) (hc : c.rest = commas (items.map Prod.fst) ++ ')' :: r)
    (hlim : c.rest.length < limit) :
    ∃ us c', commaList item c = .ok (us, c') ∧
      us.map Tree.unplaced = (items.map Prod.snd).map Tree.unplaced ∧ c'.rest = ')' :: r := by
  cases items with
  | nil =>
    refine ⟨[], c, ?_, rfl, hc⟩
    rw [commaList, hnone rfl]
    rfl
  | cons i items =>
    obtain ⟨-, hitem⟩ := hread i (.head _)
    obtain ⟨ch, r', htail, hch⟩ := items_tail items r
    have hc' : c.rest = i.1 ++ ch :: r' := by
      rw [hc, ← htail]; simp [commas]
    obtain ⟨u, c₁, h₁, hu, hr₁⟩ := hitem hc' hlim hch
    have hlen : c₁.rest.length ≤ c.rest.length := by rw [hr₁, hc']; simp
    obtain ⟨us, c₂, h₂, hus, hr₂⟩ :=
      moreItems_written (n := c₁.rest.length + 1)
        (fun j hj => hread j (.tail _ hj)) (hr₁.trans htail.symm) (by omega) (by omega)
    refine ⟨u :: us, c₂, ?_, by simp only [map_cons, hu, hus], hr₂⟩
    rw [commaList, h₁]
    simp only [h₂, ok_bind]
    rfl

/-! ### Where there is no expression -/

theorem keyword?_eq_none_of_noWord {kw : String} (hkw : ∀ ch ∈ kw.toList, Text.isWordChar ch = true)
    (hne : kw.toList ≠ []) (h : NoWord c.rest) : c.keyword? kw = none :=
  Cursor.keyword?_eq_none (w := []) (by simp) h rfl hkw hne

theorem primary_none {inner : ExprParser} (h : NoWord c.rest) (h₁ : c.rest.head? ≠ some '(')
    (h₂ : c.rest.head? ≠ some '.') : primary env inner c = .ok none := by
  have htrue : c.keyword? "true" = none := keyword?_eq_none_of_noWord (by decide) (by decide) h
  have hfalse : c.keyword? "false" = none := keyword?_eq_none_of_noWord (by decide) (by decide) h
  have hname := Cursor.name?_eq_none_of_head h
  have hnum := number?_eq_none (isDigit_false_of_noWord h) h₂
  rw [primary, Cursor.symbol?_eq_none '(' rfl h₁]
  simp only [hnum, htrue, hfalse, hname, ok_bind]
  rfl

theorem binary_none (h : operand c = .ok none) (ls : List (List Operator)) :
    binary operand ls c = .ok none := by
  induction ls with
  | nil => exact h
  | cons ops ls ih => rw [binary, ih]; rfl

theorem expressionWithin_none (hch : ch ∈ closers) (h : c.rest.head? = some ch) (hd : 0 < d) :
    expressionWithin env d c = .ok none := by
  have hfact : ∀ ch ∈ closers, Text.isWordChar ch = false ∧ ch ≠ '(' ∧ ch ≠ '.' ∧ ch ≠ '-' ∧
      ch ≠ '!' := by decide
  obtain ⟨hword, hopen, hpoint, hneg, hnot⟩ := hfact ch hch
  obtain ⟨e, rfl⟩ : ∃ e, d = e + 1 := ⟨d - 1, by omega⟩
  have hprimary : primary env (expressionWithin env e) c = .ok none := by
    refine primary_none (fun x hx => ?_) ?_ ?_
    · rw [h] at hx; cases hx; exact hword
    · rw [h]; exact fun he => hopen (by cases he; rfl)
    · rw [h]; exact fun he => hpoint (by cases he; rfl)
  have hpre : prefixOp? c = none := by
    refine prefixOp?_eq_none fun x hx => ?_
    rw [h] at hx; cases hx; exact ⟨hneg, hnot⟩
  have hunary : unary env (expressionWithin env e) c = .ok none := by
    rw [unary, unaryWithin, hpre]
    simp only [postfixed, hprimary, ok_bind]
    rfl
  have hternary : ternary (binary (unary env (expressionWithin env e)) levels)
      (expressionWithin env e) c = .ok none := by
    rw [ternary, ternaryWithin, binary_none hunary]
    rfl
  rw [expressionWithin, expressionOver, assignment, assignmentWithin, hternary]
  rfl

/-! ### Operands -/

theorem only_name (hw : IsName w) (hr : NoWord r) (hc : c.rest = w.toList ++ r) :
    c.symbol? "(" = none ∧ number? c = .ok none ∧ c.keyword? "true" = none ∧
      c.keyword? "false" = none := by
  obtain ⟨ch, s, hl, hs⟩ := hw.cons
  have hhead : c.rest.head? = some ch := by rw [hc, hl]; rfl
  have hdigit : ch.isDigit = false := by
    cases hd : ch.isDigit with
    | false => rfl
    | true => rw [isWordStart_eq_false_of_isDigit hd] at hs; cases hs
  have hne : ∀ x : Char, Text.isWordStart x = false → c.rest.head? ≠ some x := by
    intro x hx he
    rw [hhead] at he
    cases he
    rw [hs] at hx
    cases hx
  have hkw : ∀ kw ∈ keywords, (∀ ch ∈ kw.toList, Text.isWordChar ch = true) →
      c.keyword? kw = none := by
    intro kw hmem hword
    refine Cursor.keyword?_eq_none hw.word hr hc hword fun he => ?_
    have hfree := hw.free
    rw [← String.toList_inj.1 he, contains_iff_mem.2 hmem] at hfree
    cases hfree
  refine ⟨Cursor.symbol?_eq_none '(' rfl (hne _ (by decide)),
    number?_eq_none (fun x hx => ?_) (hne _ (by decide)), hkw _ (by decide) (by decide),
    hkw _ (by decide) (by decide)⟩
  rw [hhead] at hx
  cases hx
  exact hdigit

theorem completes_int {i : Nat} (hi : i ≤ maxInt) :
    Completes env 11 (Nat.toDigits 10 i) (.valued .intConst pos (.int i) []) := by
  intro d n c r hc _ _ hf
  obtain ⟨c', he, hr⟩ := number?_digits hi hf.word (hf.point rfl) hc
  have hopen : c.symbol? "(" = none := by
    obtain ⟨ch, s, hs, hw⟩ := toDigits_cons i
    refine Cursor.symbol?_eq_none '(' rfl ?_
    rw [hc, hs]
    rintro h
    cases h
    cases hw
  refine ⟨.valued .intConst (env.pos c) (.int i) [], c', ?_, ?_, hr⟩
  · show primary env _ c = _
    rw [primary, hopen]
    simp only [he, ok_bind]
    rfl
  · simp

theorem completes_float {whole frac : Text} (hw : ∀ ch ∈ whole, ch.isDigit = true)
    (hf : ∀ ch ∈ frac, ch.isDigit = true) (hne : whole ≠ [])
    (hfin : Decimal.isFinite (Decimal.ofDigits whole frac 0) = true) :
    Completes env 11 (whole ++ '.' :: frac)
      (.valued .floatConst pos (.float (Decimal.ofDigits whole frac 0)) []) := by
  intro d n c r hc _ _ hfol
  obtain ⟨c', he, hr⟩ := number?_point hw hf hne hfin hfol.word (c := c) (r := r) (by rw [hc]; simp)
  have hopen : c.symbol? "(" = none := by
    refine Cursor.symbol?_eq_none '(' rfl ?_
    cases whole with
    | nil => exact absurd rfl hne
    | cons ch whole =>
      rw [hc]
      rintro h
      cases h
      exact absurd (hw _ (.head _)) (by decide)
  refine ⟨.valued .floatConst (env.pos c) (.float (Decimal.ofDigits whole frac 0)) [], c', ?_, ?_, hr⟩
  · show primary env _ c = _
    rw [primary, hopen]
    simp only [he, ok_bind]
    rfl
  · simp

theorem completes_bool (b : Bool) :
    Completes env 11 (if b then "true" else "false").toList
      (.valued .boolConst pos (.bool b) []) := by
  intro d n c r hc _ _ hf
  have hopen : c.symbol? "(" = none := by
    refine Cursor.symbol?_eq_none '(' rfl ?_
    rw [hc]
    cases b <;> simp
  have hnum : number? c = .ok none := by
    refine number?_eq_none ?_ ?_ <;> rw [hc] <;> cases b <;> simp
  have hword : ∀ ch ∈ (if b then "true" else "false").toList, Text.isWordChar ch = true := by
    cases b <;> decide
  show Gives _ _ (primary env _ c)
  rw [primary, hopen]
  simp only [hnum, ok_bind]
  cases b with
  | true =>
    obtain ⟨c', he, hr⟩ := Cursor.keyword?_of "true" hf.word hc
    refine ⟨.valued .boolConst (env.pos c) (.bool true) [], c', ?_, ?_, hr⟩
    · simp only [he]; rfl
    · simp
  | false =>
    obtain ⟨c', he, hr⟩ := Cursor.keyword?_of "false" hf.word hc
    have htrue : c.keyword? "true" = none :=
      Cursor.keyword?_eq_none hword hf.word hc (by decide) (by decide)
    refine ⟨.valued .boolConst (env.pos c) (.bool false) [], c', ?_, ?_, hr⟩
    · simp only [htrue, he]; rfl
    · simp

theorem completes_name (hw : IsName w) (hty : env.types.get? w = none) :
    Completes env 11 w.toList (.valued .ident pos (.name w) []) := by
  intro d n c r hc _ _ hf
  obtain ⟨hopen, hnum, htrue, hfalse⟩ := only_name hw hf.word hc
  obtain ⟨c', he, hr⟩ := Cursor.name?_of hw hf.word hc
  refine ⟨.valued .ident (env.pos c) (.name w) [], c', ?_, ?_, hr⟩
  · show primary env _ c = _
    rw [primary, hopen]
    simp only [hnum, htrue, hfalse, he, hty, ok_bind]
    rfl
  · simp

/-- The text is read as the tree in front of a parenthesis that closes. -/
def Closes (env : Env) (s : Text) (t : Tree) : Prop :=
  ∀ ⦃d : Nat⦄ ⦃c : Cursor⦄ ⦃r : Text⦄, c.rest = skip (s ++ ')' :: r) → c.rest.length < d →
    Gives t (')' :: r) (expressionWithin env d c)

theorem Completes.closes (h : Completes env 1 s t) (hs : ∀ r, skip (s ++ r) = s ++ r) :
    Closes env s t := by
  intro d c r hc hd
  rw [hs] at hc
  have hg := h.expressionWithin hc hd (follows_closer (by decide))
  rwa [skip_cons (by decide)] at hg

theorem completes_parens (h : Closes env s t) : Completes env 11 ('(' :: (s ++ [')'])) t := by
  intro d n c r hc hd _ _
  have hc' : c.rest = "(".toList ++ (s ++ ')' :: r) := by rw [hc]; simp
  obtain ⟨c₁, h₁, hr₁⟩ := Cursor.symbol?_of _ hc'
  have hlen : c₁.rest.length < c.rest.length := by
    rw [hr₁, hc']
    have := length_skip_le (s ++ ')' :: r)
    simp only [length_append] at this ⊢
    exact Nat.lt_of_le_of_lt this (Nat.lt_add_of_pos_left (by decide))
  obtain ⟨u, c₂, h₂, hu, hr₂⟩ := (h hr₁ (by omega : _ < d)).require "an expression" c₁
  obtain ⟨c₃, h₃, hr₃⟩ := Cursor.expect_of ")" hr₂
  refine ⟨u, c₃, ?_, hu, hr₃⟩
  show primary env _ c = _
  rw [primary, h₁]
  simp only [h₂, h₃, ok_bind]
  rfl

theorem arguments_written (pos : Pos)
    (h : ∀ i ∈ items, Completes env 1 i.1 i.2 ∧ ∀ r, skip (i.1 ++ r) = i.1 ++ r)
    (hc : c.rest = '(' :: (commas (items.map Prod.fst) ++ ')' :: r)) (hd : c.rest.length ≤ d) :
    ∃ u c', arguments env (expressionWithin env d) c = .ok (u, c') ∧
      u.unplaced = (Tree.plain .args pos (items.map Prod.snd)).unplaced ∧ c'.rest = skip r := by
  have hread : ReadsItems (expressionWithin env d) d items := by
    intro i hi
    refine ⟨(h i hi).2, fun c ch r hc hlen hch => ?_⟩
    have hclose : ch ∈ closers := by rcases hch with rfl | rfl <;> decide
    have hblank : isSpacing ch = false := by rcases hch with rfl | rfl <;> rfl
    have hg := (h i hi).1.expressionWithin hc hlen (follows_closer hclose)
    rwa [skip_cons hblank] at hg
  have hr₁ := Cursor.rest_after (c := c) (r := commas (items.map Prod.fst) ++ ')' :: r) "(" hc
  rw [skip_commas fun i hi => (h i hi).2] at hr₁
  have hlen : (c.after "(").rest.length + 1 = c.rest.length := by rw [hr₁, hc]; simp
  obtain ⟨us, c₂, h₂, hus, hr₂⟩ := commaList_written hread
    (fun hnil => by
      subst hnil
      exact expressionWithin_none (.head _ : ')' ∈ closers) (by rw [hr₁]; rfl) (by omega))
    hr₁ (by omega)
  obtain ⟨c₃, h₃, hr₃⟩ := Cursor.expect_of ")" hr₂
  refine ⟨Tree.plain .args (env.pos c) us, c₃, ?_, by simp [hus], hr₃⟩
  rw [arguments]
  simp only [h₂, h₃, ok_bind]
  rfl

theorem completes_construct {tpos : Pos} {ty : Ty} (hw : IsName w)
    (hty : env.types.get? w = some ty)
    (h : ∀ i ∈ items, Completes env 1 i.1 i.2 ∧ ∀ r, skip (i.1 ++ r) = i.1 ++ r) :
    Completes env 11 (w.toList ++ '(' :: (commas (items.map Prod.fst) ++ [')']))
      (.plain .call pos [.valued .varType tpos (.type ty) [],
        .plain .args apos (items.map Prod.snd)]) := by
  intro d n c r hc hd _ _
  have hc' : c.rest = w.toList ++ '(' :: (commas (items.map Prod.fst) ++ ')' :: r) := by
    rw [hc]; simp
  have hopenWord : NoWord ('(' :: (commas (items.map Prod.fst) ++ ')' :: r)) :=
    noWord_cons (by decide)
  obtain ⟨hopen, hnum, htrue, hfalse⟩ := only_name hw hopenWord hc'
  obtain ⟨c₁, h₁, hr₁⟩ := Cursor.name?_of hw hopenWord hc'
  rw [skip_cons (by decide)] at hr₁
  have hlen : c₁.rest.length ≤ c.rest.length := by rw [hr₁, hc']; simp
  have hparen : c₁.startsWith "(" = true := (Cursor.startsWith_char '(' rfl).2 (by rw [hr₁]; rfl)
  obtain ⟨u, c₂, h₂, hu, hr₂⟩ := arguments_written apos h hr₁ (by omega : _ ≤ d)
  refine ⟨Tree.plain .call (env.pos c) [.valued .varType (env.pos c) (.type ty) [], u], c₂, ?_, ?_,
    hr₂⟩
  · show primary env _ c = _
    rw [primary, hopen]
    simp only [hnum, htrue, hfalse, h₁, hty, hparen, h₂, ok_bind]
    rfl
  · simp [hu]

/-! ### What follows an operand -/

theorem follows_operand (hword : Text.isWordChar ch = false)
    (hpoint : t.kind = .intConst → ch ≠ '.') : Follows 11 t (ch :: r) := by
  refine ⟨noWord_cons hword, ⟨?_, ?_, ?_, ?_⟩, fun hk hp => hpoint hk (by cases hp; rfl)⟩
  · intro h; omega
  · intro op hop h
    have := (precedence_bounds hop).2
    omega
  · intro h; omega
  · intro h; omega

/-- **What goes on with an operand leads into the loop again**, if the loop reads it in one round. -/
theorem Leads.goOn {b : Tree} {x : Text} (hb : Leads env 10 s b) (hword : Text.isWordChar ch = false)
    (hblank : isSpacing ch = false) (hpoint : b.kind = .intConst → ch ≠ '.')
    (hround : ∀ ⦃d : Nat⦄ ⦃u : Tree⦄ ⦃c : Cursor⦄ ⦃r : Text⦄, c.rest = ch :: (x ++ r) →
      c.rest.length ≤ d → NoWord r → u.unplaced = b.unplaced → ∃ v c', c'.rest = skip r ∧
        v.unplaced = t.unplaced ∧ ∀ m, postfixRest env (expressionWithin env d) (m + 1) u c =
          postfixRest env (expressionWithin env d) m v c') : Leads env 10 (s ++ ch :: x) t := by
  intro d n c r hc hd hf
  have hc' : c.rest = s ++ ch :: (x ++ r) := by rw [hc]; simp
  obtain ⟨u, c₁, m, hm, he, hu, hr₁⟩ := hb (n := n) hc' hd (follows_operand hword hpoint)
  rw [skip_cons hblank] at hr₁
  have hlen : c₁.rest.length ≤ c.rest.length := by rw [hr₁, hc']; simp
  obtain ⟨m, rfl⟩ : ∃ m', m = m' + 1 := ⟨m - 1, by omega⟩
  obtain ⟨v, c₂, hr₂, hv, hstep⟩ := hround hr₁ (by omega : _ ≤ d) hf.word hu
  have hlen₂ : c₂.rest.length + 1 ≤ c₁.rest.length := by
    rw [hr₂, hr₁]
    have := length_skip_le r
    simp only [length_cons, length_append]
    omega
  refine ⟨v, c₂, m, by omega, he.trans ?_, hv, hr₂⟩
  show (postfixRest env _ (m + 1) u c₁ >>= _) = _
  rw [hstep]
  rfl

theorem leads_index {b i : Tree} (hb : Leads env 10 s b) (hi : Completes env 1 s' i)
    (hs : ∀ r, skip (s' ++ r) = s' ++ r) :
    Leads env 10 (s ++ '[' :: (s' ++ [']'])) (.plain .index pos [b, i]) := by
  refine hb.goOn rfl rfl (fun _ => by decide) fun d u c r hc hd _ hu => ?_
  obtain ⟨c₂, h₂, hr₂⟩ := Cursor.symbol?_of (r := s' ++ ']' :: r) "[" (by rw [hc]; simp)
  rw [hs] at hr₂
  have hlen₂ : c₂.rest.length + 1 = c.rest.length := by rw [hr₂, hc]; simp
  obtain ⟨v, c₃, h₃, hv, hr₃⟩ :=
    (hi.expressionWithin hr₂ (by omega : _ < d) (follows_closer (by decide))).require
      "an expression" c₂
  rw [skip_cons (by decide)] at hr₃
  obtain ⟨c₄, h₄, hr₄⟩ := Cursor.expect_of (r := r) "]" hr₃
  refine ⟨.plain .index u.pos [u, v], c₄, hr₄, by simp [hu, hv], fun m => ?_⟩
  rw [postfixRest, h₂]
  simp only [h₃, h₄, ok_bind]

theorem leads_member {mpos : Pos} {b : Tree} {m : String} (hb : Leads env 10 s b)
    (hint : b.kind ≠ .intConst) (hm : IsName m) :
    Leads env 10 (s ++ '.' :: m.toList)
      (.plain .member pos [b, .valued .ident mpos (.name m) []]) := by
  refine hb.goOn rfl rfl (fun hk => absurd hk hint) fun d u c r hc _ hword hu => ?_
  have hopen : c.symbol? "[" = none := Cursor.symbol?_eq_none '[' rfl (by rw [hc]; simp)
  obtain ⟨c₂, h₂, hr₂⟩ := Cursor.symbol?_of (r := m.toList ++ r) "." hc
  have hskip : skip (m.toList ++ r) = m.toList ++ r := by
    obtain ⟨ch, s, hs, hstart⟩ := hm.cons
    rw [hs]
    exact skip_cons (isSpacing_of_isWordChar (Text.isWordChar_of_isWordStart hstart))
  rw [hskip] at hr₂
  obtain ⟨c₃, h₃, hr₃⟩ := Cursor.name?_of hm hword hr₂
  refine ⟨.plain .member u.pos [u, .valued .ident (env.pos c₂) (.name m) []], c₃, hr₃, by simp [hu],
    fun l => ?_⟩
  rw [postfixRest, hopen]
  simp only [h₂, h₃]

theorem leads_call {f : Tree} (hf : Leads env 10 s f) (hname : f.kind = .ident)
    (h : ∀ i ∈ items, Completes env 1 i.1 i.2 ∧ ∀ r, skip (i.1 ++ r) = i.1 ++ r) :
    Leads env 10 (s ++ '(' :: (commas (items.map Prod.fst) ++ [')']))
      (.plain .call pos [f, .plain .args apos (items.map Prod.snd)]) := by
  refine hf.goOn rfl rfl (fun _ => by decide) fun d u c r hc hd _ hu => ?_
  have hc' : c.rest = '(' :: (commas (items.map Prod.fst) ++ ')' :: r) := by rw [hc]; simp
  have hopen : c.symbol? "[" = none := Cursor.symbol?_eq_none '[' rfl (by rw [hc]; simp)
  have hpoint : c.symbol? "." = none := Cursor.symbol?_eq_none '.' rfl (by rw [hc]; simp)
  have hcall : u.kind = .ident ∧ c.startsWith "(" = true :=
    ⟨(Tree.kind_eq_of_unplaced hu).trans hname,
      (Cursor.startsWith_char '(' rfl).2 (by rw [hc]; rfl)⟩
  obtain ⟨v, c₂, h₂, hv, hr₂⟩ := arguments_written apos h hc' hd
  refine ⟨.plain .call u.pos [u, v], c₂, hr₂, ?_, fun m => ?_⟩
  · simp only [Tree.unplaced_plain] at hv ⊢
    simp only [map_cons, map_nil, hu, hv, Tree.unplaced_plain]
  · rw [postfixRest, hopen]
    simp only [hpoint]
    rw [if_pos hcall]
    simp only [h₂, ok_bind]

/-! ### Operators -/

theorem completes_unary (hop : op = .neg ∨ op = .not) (h : Completes env 10 s t)
    (hhead : ∃ ch s', s = ch :: s' ∧ Starts 10 ch) :
    Completes env 9 (op.symbol.toList ++ s) (.operated .unary pos op [t]) := by
  intro d n c r hc hd _ hf
  obtain ⟨ch, s', rfl, hs⟩ := id hhead
  have hne : ch ≠ '=' := by
    rcases hs with hs | rfl | ⟨hk, _⟩
    · rintro rfl; cases hs
    · decide
    · omega
  have hpre : prefixOp? c = some op := by
    have hopAt : ∀ sym, c.startsWithOp sym = opAt (op.symbol.toList ++ ch :: (s' ++ r)) sym := by
      intro sym
      show opAt c.rest sym = _
      rw [hc]
      simp
    unfold prefixOp?
    rw [hopAt, hopAt]
    rcases hop with rfl | rfl <;>
      simp [opAt, Operator.symbol, Cursor.startsWithOp, Cursor.startsWith, isPrefixOf, hne]
  have hr₁ := Cursor.rest_after op.symbol (hc.trans (append_assoc _ _ _))
  have hskip : skip (ch :: s' ++ r) = ch :: s' ++ r := skip_cons hs.isSpacing
  rw [hskip] at hr₁
  have hlen : (c.after op.symbol).rest.length < c.rest.length := by
    have : 0 < op.symbol.toList.length := by rcases hop with rfl | rfl <;> decide
    rw [hr₁, hc]
    simp only [length_append]
    omega
  obtain ⟨u, c₂, h₂, hu, hr₂⟩ := h.unaryWithin hhead hr₁ (by omega : _ ≤ d) hlen
    (Follows.of_stops hf.word hf.stop (by omega))
  refine ⟨.operated .unary (env.pos c) op [u], c₂, ?_, by simp [hu], hr₂⟩
  show unaryWithin env _ (c.rest.length + 1) c = _
  rw [unaryWithin, hpre]
  simp only [h₂, ok_bind]
  rfl

theorem leads_binary {a b : Tree} (hop : op ∈ levels.flatten) (ha : Leads env op.precedence s a)
    (hb : Completes env (op.precedence + 1) s' b) (hs : ∀ r, skip (s' ++ r) = s' ++ r) :
    Leads env op.precedence (s ++ ' ' :: (op.symbol.toList ++ ' ' :: s'))
      (.operated .binary pos op [a, b]) := by
  intro d n c r hc hd hf
  obtain ⟨hk, hk'⟩ := precedence_bounds hop
  have hc' : c.rest = s ++ ' ' :: (op.symbol.toList ++ ' ' :: (s' ++ r)) := by rw [hc]; simp
  have hskip : skip (' ' :: (op.symbol.toList ++ ' ' :: (s' ++ r))) =
      op.symbol.toList ++ ' ' :: (s' ++ r) := by
    have hfact : ∀ op ∈ levels.flatten, ∃ ch l, op.symbol.toList = ch :: l ∧
        isSpacing ch = false := by
      intro op _
      cases op <;> exact ⟨_, _, rfl, rfl⟩
    obtain ⟨ch, l, hl, hch⟩ := hfact op hop
    rw [skip_cons_blank rfl, hl]
    exact skip_cons hch
  obtain ⟨u, c₁, m, hm, he, hu, hr₁⟩ := ha (n := n) hc' hd
    (Follows.of_stops (noWord_cons (by decide)) (by rw [hskip]; exact stops_operator hop) (by omega))
  rw [hskip] at hr₁
  obtain ⟨m, rfl⟩ : ∃ m', m = m' + 1 := ⟨m - 1, by omega⟩
  have hfind : (opsAt op.precedence).find? (c₁.startsWithOp ·.symbol) = some op := by
    rw [← find?_opsAt hop (r := s' ++ r), ← hr₁]
    rfl
  have hr₂ := Cursor.rest_after op.symbol hr₁
  rw [skip_cons_blank rfl, hs] at hr₂
  have hlen₂ : (c₁.after op.symbol).rest.length + 1 ≤ c₁.rest.length := by
    rw [hr₂, hr₁]
    simp only [length_append, length_cons]
    omega
  have hlen₁ : c₁.rest.length ≤ c.rest.length := by
    rw [hr₁, hc']
    simp only [length_append, length_cons]
    omega
  obtain ⟨v, c₃, h₃, hv, hr₃⟩ :=
    (hb (n := c.rest.length) hr₂ (by omega : _ ≤ d) (by omega)
      (Follows.of_stops hf.word hf.stop (by omega))).require "an operand" (c₁.after op.symbol)
  have hlen₃ : c₃.rest.length ≤ (c₁.after op.symbol).rest.length := by
    rw [hr₃, hr₂]
    have := length_skip_le r
    simp only [length_append]
    omega
  refine ⟨.operated .binary u.pos op [u, v], c₃, m, by omega, ?_, by simp [hu, hv], hr₃⟩
  rw [he, loopAt_binary (n := c.rest.length) hk hk', chain, hfind]
  simp only [h₃, ok_bind]

theorem completes_ternary {s'' : Text} {a y b : Tree} (ha : Completes env 3 s a)
    (hy : Completes env 1 s' y) (hb : Completes env 2 s'' b) (hs' : ∀ r, skip (s' ++ r) = s' ++ r)
    (hs'' : ∀ r, skip (s'' ++ r) = s'' ++ r) :
    Completes env 2 (s ++ ' ' :: '?' :: ' ' :: (s' ++ ' ' :: ':' :: ' ' :: s''))
      (.plain .ternary pos [a, y, b]) := by
  intro d n c r hc hd hn hf
  have hc' : c.rest = s ++ ' ' :: '?' :: ' ' :: (s' ++ ' ' :: ':' :: ' ' :: (s'' ++ r)) := by
    rw [hc]; simp
  have hskip : ∀ (ch : Char) (r : Text), isSpacing ch = false → skip (' ' :: ch :: r) = ch :: r :=
    fun ch r h => by rw [skip_cons_blank rfl, skip_cons h]
  obtain ⟨m, rfl⟩ : ∃ m, n = m + 1 := ⟨n - 1, by omega⟩
  obtain ⟨u, c₁, h₁, hu, hr₁⟩ := ha (n := 0 + (m + 1)) hc' hd (by omega)
    (Follows.of_stops (noWord_cons (by decide)) (by rw [hskip _ _ rfl]; exact stops_mark) (by omega))
  rw [hskip _ _ rfl] at hr₁
  obtain ⟨c₂, h₂, hr₂⟩ := Cursor.symbol?_of "?" hr₁
  rw [skip_cons_blank rfl, hs'] at hr₂
  have hlen₁ : c₁.rest.length ≤ c.rest.length := by rw [hr₁, hc']; simp; omega
  have hlen₂ : c₂.rest.length + 2 = c₁.rest.length := by rw [hr₂, hr₁]; simp
  obtain ⟨v, c₃, h₃, hv, hr₃⟩ :=
    (hy.expressionWithin hr₂ (by omega : _ < d)
      (Follows.of_stops (noWord_cons (by decide))
        (by rw [hskip _ _ rfl]; exact stops_of_head (by simp [closers])) (by omega))).require
      "an expression" c₂
  rw [hskip _ _ rfl] at hr₃
  obtain ⟨c₄, h₄, hr₄⟩ := Cursor.expect_of ":" hr₃
  rw [skip_cons_blank rfl, hs''] at hr₄
  have hlen₄ : c₄.rest.length + 2 ≤ c₂.rest.length := by rw [hr₄, hr₂]; simp; omega
  obtain ⟨w, c₅, h₅, hw, hr₅⟩ := (hb (n := m) hr₄ (by omega : _ ≤ d) (by omega)
    (Follows.of_stops hf.word hf.stop (by omega))).require "an expression" c₄
  refine ⟨.plain .ternary u.pos [u, v, w], c₅, ?_, by simp [hu, hv, hw], hr₅⟩
  show ternaryWithin _ _ (m + 1) c = _
  rw [ternaryWithin, show binary _ levels c = _ from h₁]
  simp only [ok_bind, h₂, h₃, h₄]
  rw [show require _ _ (ternaryWithin _ _ m c₄) = _ from h₅]
  rfl

theorem completes_assign {a b : Tree} (ha : Completes env 2 s a) (hb : Completes env 1 s' b)
    (hs' : ∀ r, skip (s' ++ r) = s' ++ r) :
    Completes env 1 (s ++ ' ' :: '=' :: ' ' :: s') (.operated .assign pos .assign [a, b]) := by
  intro d n c r hc hd hn hf
  have hc' : c.rest = s ++ ' ' :: '=' :: ' ' :: (s' ++ r) := by rw [hc]; simp
  have hskip : skip (' ' :: '=' :: ' ' :: (s' ++ r)) = '=' :: ' ' :: (s' ++ r) := by
    rw [skip_cons_blank rfl, skip_cons rfl]
  obtain ⟨m, rfl⟩ : ∃ m, n = m + 1 := ⟨n - 1, by omega⟩
  obtain ⟨u, c₁, h₁, hu, hr₁⟩ := ha (n := c.rest.length + 1) hc' hd (Nat.lt_succ_self _)
    (Follows.of_stops (noWord_cons (by decide)) (by rw [hskip]; exact stops_assign) (by omega))
  rw [hskip] at hr₁
  have hfind : assignments.find? (c₁.startsWithOp ·.1) = some ("=", none) := by
    show assignments.find? (opAt c₁.rest ·.1) = _
    rw [hr₁]
    rfl
  have hr₂ := Cursor.rest_after "=" hr₁
  rw [skip_cons_blank rfl, hs'] at hr₂
  have hlen₂ : (c₁.after "=").rest.length + 2 ≤ c.rest.length := by rw [hr₂, hc']; simp; omega
  obtain ⟨v, c₃, h₃, hv, hr₃⟩ := (hb (n := m) hr₂ (by omega : _ ≤ d) (by omega)
    (Follows.of_stops hf.word hf.stop (by omega))).require "an expression" (c₁.after "=")
  refine ⟨.operated .assign u.pos .assign [u, v], c₃, ?_, by simp [hu, hv], hr₃⟩
  show assignmentWithin env _ (m + 1) c = _
  rw [assignmentWithin, show ternary _ _ c = _ from h₁]
  simp only [ok_bind, hfind]
  rw [show require _ _ (assignmentWithin env _ m (c₁.after "=")) = _ from h₃]
  rfl

/-! ### Every level -/

theorem Completes.looser (h : Completes env (k + 1) s t) (hk : 1 ≤ k) (hk' : k ≤ 10)
    (hhead : ∃ ch s', s = ch :: s' ∧ Starts (k + 1) ch) :
    Completes env k s t ∧ (GroupsLeft k → Leads env k s t) := by
  by_cases hl : GroupsLeft k
  · have hleads := Leads.of_completes hl h
    exact ⟨.of_leads hl hleads, fun _ => hleads⟩
  · refine ⟨?_, fun hleft => absurd hleft hl⟩
    have hcases : k = 1 ∨ k = 2 ∨ k = 9 := by unfold GroupsLeft at hl; omega
    rcases hcases with rfl | rfl | rfl
    · exact h.assignment_of_ternary
    · exact h.ternary_of_binary
    · intro d n c r hc hd _ hf
      exact h.unaryWithin hhead hc hd (Nat.lt_succ_self _) hf

/-- **A written expression is read at its level**, and at a level that groups to the
left it leads into the loop as an operand. -/
theorem Written.reads (h : Written env.types k s t) :
    Completes env k s t ∧ (GroupsLeft k → Leads env k s t) := by
  have hno : ∀ {k s t}, Completes env k s t → ¬ GroupsLeft k →
      Completes env k s t ∧ (GroupsLeft k → Leads env k s t) :=
    fun hc hk => ⟨hc, fun hl => absurd hl hk⟩
  have hlead : ∀ {k s t}, GroupsLeft k → Leads env k s t →
      Completes env k s t ∧ (GroupsLeft k → Leads env k s t) :=
    fun hk hl => ⟨Completes.of_leads hk hl, fun _ => hl⟩
  have h11 : ¬ GroupsLeft 11 := by unfold GroupsLeft; omega
  have h10 : GroupsLeft 10 := .inr rfl
  induction h with
  | int hi => exact hno (completes_int hi) h11
  | float hw hf hne hfin => exact hno (completes_float hw hf hne hfin) h11
  | bool b => exact hno (completes_bool b) h11
  | name hw hty => exact hno (completes_name hw hty) h11
  | construct items hw hty hi ih =>
    exact hno (completes_construct hw hty fun i hmem => ⟨(ih i hmem).1, (hi i hmem).skip_append⟩) h11
  | parens h ih => exact hno (completes_parens (ih.1.closes h.skip_append)) h11
  | index _ hi ihb ihi => exact hlead h10 (leads_index (ihb.2 h10) ihi.1 hi.skip_append)
  | member _ hint hm ih => exact hlead h10 (leads_member (ih.2 h10) hint hm)
  | call items _ hf hi ihf ih =>
    exact hlead h10
      (leads_call (ihf.2 h10) hf fun i hmem => ⟨(ih i hmem).1, (hi i hmem).skip_append⟩)
  | unary hop h ih => exact hno (completes_unary hop ih.1 h.head) (by unfold GroupsLeft; omega)
  | binary hop _ hb iha ihb =>
    have hk : GroupsLeft _ := .inl (precedence_bounds hop)
    exact hlead hk (leads_binary hop (iha.2 hk) ihb.1 hb.skip_append)
  | ternary _ hy hb iha ihy ihb =>
    exact hno (completes_ternary iha.1 ihy.1 ihb.1 hy.skip_append hb.skip_append)
      (by unfold GroupsLeft; omega)
  | assign _ hb iha ihb =>
    exact hno (completes_assign iha.1 ihb.1 hb.skip_append) (by unfold GroupsLeft; omega)
  | looser hk hk' h ih => exact ih.1.looser hk hk' h.head

/-- **A written expression is read as a whole**, if what follows cannot go on with it. -/
theorem Written.expression (h : Written env.types 1 s t) (hc : c.rest = s ++ r)
    (hf : Follows 1 t r) : Gives t (skip r) (expression env c) :=
  h.reads.1.expressionWithin hc (Nat.lt_succ_self _) hf

end VecLang.Grammar

namespace VecLang.Context

open Grammar

variable {ctx : Context} {s : Text} {t : Tree}

theorem parseTree_of_gives
    (h : Gives t [] (expression ⟨ctx.types, LineIndex.ofText s⟩ (Cursor.start s))) :
    ∃ u, ctx.parseTree .expression s = .ok u ∧ u.unplaced = t.unplaced := by
  obtain ⟨u, c, hread, hu, hend⟩ := h
  refine ⟨u, ?_, hu⟩
  have hstop : c.atEnd = true := by
    rw [Cursor.atEnd, hend]
    rfl
  unfold parseTree
  simp only [produce, hread, ok_bind, pure, Except.pure, hstop, if_true]

theorem follows_nil {k : Nat} (hk : k ≤ 10) : Follows k t [] :=
  .of_stops (fun _ h => (by cases h)) (stops_of_head fun _ h => (by cases h)) hk

theorem parseTree_expression (h : Written ctx.types 1 s t) :
    ∃ u, ctx.parseTree .expression s = .ok u ∧ u.unplaced = t.unplaced := by
  have henv : Written (Env.mk ctx.types (LineIndex.ofText s)).types 1 s t := h
  have hstart : (Cursor.start s).rest = s ++ [] := by
    have hskip := h.skip_append []
    rw [List.append_nil] at hskip ⊢
    rw [Cursor.rest_start, hskip]
  exact parseTree_of_gives (henv.expression hstart (follows_nil (by decide)))

end VecLang.Context
