import Mathlib.Data.List.Find
import Mathlib.Data.List.Forall2
import VecLang.Proofs.Grammar.Abreast

/-!
# Two runs over expressions

Both runs go through the same productions, token by token, so they come to the same tree. Every
node of it has the children, the value and the operator of its kind, and the position of a place
where the first run stood. The bounds on the nesting come from the lengths of the texts, which may
differ. No run reaches its bound: what is left to read gets lighter with each token, blanks not
counted, and it is as heavy in both runs, apart from the tail.

Where the tail goes on with an assignment, the runs part at the end of the first text. In brackets
the first run then fails, for lack of the bracket that closes.

* `Agree.bind`: one step of both runs after the other.
* `March.Twin`: trees of two runs that belong together.
* `March.Lockstep`: parsers that agree as long as little enough is left to read.
* `March.Nested`: parsers that agree within brackets.
* `operation_agree`, `expression_nested`, `expression_agree`: **expressions.**
-/

namespace VecLang.Grammar.March

open Cursor

variable {env env' : Env} {m : March env env'} {c c' : Cursor} {sym : String}

/-! ### Steps of two runs -/

section Steps

variable {α β γ δ : Type} {V : α → β → Prop} {W : γ → δ → Prop} {x : Parse α} {y : Parse β}

theorem Agree.bind {f : α → Parse γ} {g : β → Parse δ} (h : m.Agree V x y)
    (hfg : ∀ a b, V a b → m.Agree W (f a) (g b)) : m.Agree W (x >>= f) (y >>= g) := by
  cases h with
  | ok hab => exact hfg _ _ hab
  | error hc hp => exact .error hc hp
  | failed hm => exact .failed hm

theorem Agree.mono {V' : α → β → Prop} (h : m.Agree V x y) (hV : ∀ a b, V a b → V' a b) :
    m.Agree V' x y := by
  cases h with
  | ok hab => exact .ok (hV _ _ hab)
  | error hc hp => exact .error hc hp
  | failed hm => exact .failed hm

theorem Alike.mono {n n' : Nat} {x : At α} {y : At β} (h : m.Alike V n x y) (hn : n ≤ n') :
    m.Alike V n' x y := ⟨h.value, h.cursors.mono hn⟩

theorem require_agree {x : Parse (Option (At α))} {y : Parse (Option (At β))}
    {V : At α → At β → Prop} (what : String) (h : m.Abreast c c')
    (hxy : m.Agree (Option.Rel V) x y) : m.Agree V (require what c x) (require what c' y) := by
  cases hxy with
  | error hc hp => exact .error hc hp
  | failed hm => exact .failed hm
  | ok hab =>
    cases hab with
    | none => exact .error h nofun
    | some hab => exact .ok hab

/-- **Two runs with bounds above what is left to read**: neither comes to its bound, if each step
leaves less to read for the runs inside. -/
@[elab_as_elim]
theorem bounded_runs {P : Nat → Nat → Cursor → Cursor → Prop}
    (step : ∀ {n n' : Nat} {c c' : Cursor}, m.Abreast c c' →
      (∀ {d d' : Cursor}, m.Abreast d d' → d.weight < c.weight → P n n' d d') →
        P (n + 1) (n' + 1) c c')
    {n n' : Nat} (h : m.Abreast c c') (hn : c.weight < n) (hn' : c.weight < n') : P n n' c c' := by
  induction n generalizing n' c c' with
  | zero => omega
  | succ n ih =>
    cases n' with
    | zero => omega
    | succ n' => exact step h fun hd hlt => ih hd (by omega) (by omega)

end Steps

/-! ### Trees of two runs -/

/-- **The trees are the same apart from positions.** The first has the shape, and its nodes have
positions of the first run. -/
structure Twin (m : March env env') (P : Tree → Prop) (t t' : Tree) : Prop where
  same : t.unplaced = t'.unplaced
  shape : P t
  placed : Placed m.Mark t

section Trees

variable {P Q : Tree → Prop} {l l' : Label} {t t' : Tree} {ts ts' : List Tree}

theorem Twin.to (h : m.Twin P t t') (hQ : P t → Q t) : m.Twin Q t t' :=
  ⟨h.same, hQ h.shape, h.placed⟩

theorem Twin.any (h : m.Twin P t t') : m.Twin (fun _ => True) t t' := h.to fun _ => trivial

theorem twins_all (h : List.Forall₂ (m.Twin P) ts ts') :
    ts.map Tree.unplaced = ts'.map Tree.unplaced ∧ ∀ t ∈ ts, P t ∧ Placed m.Mark t := by
  induction h with
  | nil => exact ⟨rfl, List.forall_mem_nil _⟩
  | cons ht _ ih =>
    exact ⟨by rw [List.map_cons, List.map_cons, ht.same, ih.1],
      List.forall_mem_cons.2 ⟨⟨ht.shape, ht.placed⟩, ih.2⟩⟩

theorem twins_shape (h : List.Forall₂ (m.Twin P) ts ts') : ∀ t ∈ ts, P t :=
  fun t ht => ((twins_all h).2 t ht).1

theorem Twin.node (hts : List.Forall₂ (m.Twin Q) ts ts') (hl : l.unplaced = l'.unplaced)
    (hpos : m.Mark l.pos) (hP : P (.node l ts)) : m.Twin P (.node l ts) (.node l' ts') := by
  obtain ⟨hsame, hall⟩ := twins_all hts
  exact ⟨by rw [Tree.unplaced_node, Tree.unplaced_node, hl, hsame], hP,
    .node hpos fun t ht => (hall t ht).2⟩

end Trees

/-- The parsers agree where less than `k` is left to read. -/
def Lockstep (m : March env env') (P : Tree → Prop) (k : Nat) (p p' : ExprParser) : Prop :=
  ∀ ⦃c c' : Cursor⦄, m.Abreast c c' → c.weight < k →
    m.Agree (Option.Rel (m.Alike (m.Twin P) (c.weight + 1))) (p c) (p' c')

/-- No assignment goes on into the tail. -/
def Halts (tail : Text) : Prop := ∀ s, Ends tail s → ∀ a ∈ assignments, opAt s a.1 = false

/-- The first run is at its end, where the second may find an assignment. -/
def Lost (m : March env env') (c : Cursor) : Prop := c.rest = [] ∧ ¬ Halts m.tail

/-- As `Lockstep`, unless the first run ends where the second goes on. -/
def Nested (m : March env env') (P : Tree → Prop) (k : Nat) (p p' : ExprParser) : Prop :=
  ∀ ⦃c c' : Cursor⦄, m.Abreast c c' → c.weight < k →
    m.Agree (Option.Rel (m.Alike (m.Twin P) (c.weight + 1))) (p c) (p' c') ∨
      ∃ t d, p c = .ok (some (t, d)) ∧ m.Lost d

theorem Lockstep.nested {P : Tree → Prop} {k : Nat} {p p' : ExprParser} (h : m.Lockstep P k p p') :
    m.Nested P k p p' := fun _ _ hc hk => .inl (h hc hk)

theorem halts_nil : Halts [] := by
  rintro s (rfl | rfl) a ha
  all_goals
    revert a
    decide

theorem Lost.tail_ne (h : m.Lost c) : m.tail ≠ [] := fun hm => h.2 (hm ▸ halts_nil)

theorem Lost.symbol? (h : m.Lost c) (hs : sym.toList ≠ []) : c.symbol? sym = none := by
  unfold Cursor.symbol? Cursor.startsWith
  rw [h.1]
  cases hl : sym.toList with
  | nil => exact absurd hl hs
  | cons x l => rfl

theorem Lost.expect {α β : Type} {V : α → β → Prop} {f : Cursor → Parse α} {y : Parse β}
    (h : m.Lost c) (hs : sym.toList ≠ []) : m.Agree V (c.expect sym >>= f) y := by
  unfold Cursor.expect
  rw [h.symbol? hs]
  exact .failed h.tail_ne

section Productions

variable {inner inner' operand operand' : ExprParser} {P : Tree → Prop} {k n n' : Nat}
  {t t' : Tree} {op : Operator}

/-! ### Lists -/

section

variable (hi : m.Nested P k inner inner') (h : m.Abreast c c') (hk : c.weight < k)
include hi h hk

theorem moreItems_agree (hn : c.weight < n) (hn' : c.weight < n') :
    m.Agree (m.Alike (List.Forall₂ (m.Twin P)) (c.weight + 1)) (moreItems inner n c)
        (moreItems inner' n' c') ∨
      ∃ ts d, moreItems inner n c = .ok (ts, d) ∧ m.Lost d := by
  revert hk
  -- each comma takes from the weight
  refine bounded_runs ?_ h hn hn'
  intro n n' c c' h ih hk
  rw [moreItems, moreItems]
  have hcomma := h.symbol? "," (.plain (by decide))
  generalize c.symbol? "," = x, c'.symbol? "," = y at hcomma ⊢
  cases hcomma with
  | none => exact .inl (.ok ⟨.nil, h.within⟩)
  | @some d d' hd =>
    have hlt := hd.lt
    rcases hi hd.abreast (by omega) with hitem | ⟨t, e, hitem, hlost⟩
    · simp only
      generalize inner d = x, inner' d' = y at hitem ⊢
      cases hitem with
      | error hc hp => exact .inl (.error hc hp)
      | failed hm => exact .inl (.failed hm)
      | ok hab =>
        cases hab with
        | none => exact .inl (.ok ⟨.nil, h.within⟩)
        | @some a b hab =>
          have hlt' := hab.cursors.lt
          rcases ih hab.cursors.abreast (by omega) (by omega) with hrest | ⟨ts, e, hrest, hlost⟩
          · refine .inl (hrest.bind fun x y hxy => ?_)
            exact .ok ⟨.cons hab.value hxy.value, hxy.cursors.mono (by omega)⟩
          · refine .inr ⟨a.1 :: ts, e, ?_, hlost⟩
            show (moreItems inner n a.2 >>= _) = _
            rw [hrest]
            rfl
    · simp only [hitem]
      cases n with
      | zero => exact .inl (.failed hlost.tail_ne)
      | succ n =>
        refine .inr ⟨[t], e, ?_, hlost⟩
        show (moreItems inner (n + 1) e >>= _) = _
        rw [moreItems, hlost.symbol? (by decide)]
        rfl

theorem commaList_agree :
    m.Agree (m.Alike (List.Forall₂ (m.Twin P)) (c.weight + 1)) (commaList inner c)
        (commaList inner' c') ∨
      ∃ ts d, commaList inner c = .ok (ts, d) ∧ m.Lost d := by
  unfold commaList
  rcases hi h hk with hitem | ⟨t, e, hitem, hlost⟩
  · generalize inner c = x, inner' c' = y at hitem ⊢
    cases hitem with
    | error hc hp => exact .inl (.error hc hp)
    | failed hm => exact .inl (.failed hm)
    | ok hab =>
      cases hab with
      | none => exact .inl (.ok ⟨.nil, h.within⟩)
      | @some a b hab =>
        have hlt := hab.cursors.lt
        obtain ⟨hn, hn'⟩ := hab.cursors.abreast.lt_bounds
        rcases moreItems_agree hi hab.cursors.abreast (by omega) hn hn' with hrest | ⟨ts, e, hrest, hlost⟩
        · refine .inl (hrest.bind fun x y hxy => ?_)
          exact .ok ⟨.cons hab.value hxy.value, hxy.cursors.mono hlt⟩
        · refine .inr ⟨a.1 :: ts, e, ?_, hlost⟩
          show (moreItems inner (a.2.rest.length + 1) a.2 >>= _) = _
          rw [hrest]
          rfl
  · refine .inr ⟨[t], e, ?_, hlost⟩
    rw [hitem]
    show (moreItems inner (e.rest.length + 1) e >>= _) = _
    rw [moreItems, hlost.symbol? (by decide)]
    rfl

theorem enclosed_agree {α β : Type} {V : α → β → Prop} {f : At (List Tree) → Cursor → Parse α}
    {g : At (List Tree) → Cursor → Parse β}
    (hfg : ∀ x y d d', m.Alike (List.Forall₂ (m.Twin P)) (c.weight + 1) x y →
      m.Within c.weight d d' → m.Agree V (f x d) (g y d')) :
    m.Agree V (commaList inner c >>= fun x => x.2.expect ")" >>= f x)
      (commaList inner' c' >>= fun x => x.2.expect ")" >>= g x) := by
  rcases commaList_agree hi h hk with hlist | ⟨ts, d, hlist, hlost⟩
  · refine hlist.bind fun x y hxy => ?_
    have hlt := hxy.cursors.lt
    refine (hxy.cursors.abreast.expect ")" (by decide)).bind fun d d' hd => ?_
    exact hfg x y d d' hxy (hd.mono (by omega))
  · rw [hlist]
    exact hlost.expect (by decide)

end

theorem bracketed_agree {α β : Type} {V : α → β → Prop} {f : At Tree → Cursor → Parse α}
    {g : At Tree → Cursor → Parse β} (what sym : String) (hs : IsToken sym.toList)
    (hi : m.Nested P k inner inner') (h : m.Abreast c c') (hk : c.weight < k)
    (hfg : ∀ x y d d', m.Twin P x.1 y.1 → m.Within c.weight d d' → m.Agree V (f x d) (g y d')) :
    m.Agree V (require what c (inner c) >>= fun x => x.2.expect sym >>= f x)
      (require what c' (inner' c') >>= fun x => x.2.expect sym >>= g x) := by
  rcases hi h hk with hinner | ⟨t, d, hinner, hlost⟩
  · refine (require_agree what h hinner).bind fun x y hxy => ?_
    have hlt := hxy.cursors.lt
    refine (hxy.cursors.abreast.expect sym hs).bind fun d d' hd => ?_
    exact hfg x y d d' hxy.value (hd.mono (by omega))
  · rw [hinner]
    exact hlost.expect hs.1

/-! ### Operands -/

theorem lockstep_of_step {p p' : Nat → ExprParser}
    (step : ∀ {n n' : Nat} {c c' : Cursor}, m.Abreast c c' → c.weight < k →
      (∀ {d d' : Cursor}, m.Abreast d d' → d.weight < c.weight →
        m.Agree (Option.Rel (m.Alike (m.Twin P) (d.weight + 1))) (p n d) (p' n' d')) →
      m.Agree (Option.Rel (m.Alike (m.Twin P) (c.weight + 1))) (p (n + 1) c) (p' (n' + 1) c')) :
    m.Lockstep P k (fun c => p (c.rest.length + 1) c) (fun c => p' (c.rest.length + 1) c) := by
  intro c c' h hk
  obtain ⟨hn, hn'⟩ := h.lt_bounds
  have hruns : ∀ {n n' : Nat}, c.weight < n → c.weight < n' → c.weight < k →
      m.Agree (Option.Rel (m.Alike (m.Twin P) (c.weight + 1))) (p n c) (p' n' c') := by
    intro n n' hn hn'
    refine bounded_runs ?_ h hn hn'
    intro n n' c c' h ih hk
    exact step h hk fun hd hlt => ih hd hlt (by omega)
  exact hruns hn hn' hk

def IsArguments (P : Tree → Prop) (t : Tree) : Prop :=
  ∃ pos args, t = .plain .args pos args ∧ ∀ u ∈ args, P u

theorem arguments_agree (hi : m.Nested P k inner inner') (h : m.Abreast c c')
    (hk : c.weight < k + 1) (hopen : c.startsWith "(" = true) :
    m.Agree (m.Alike (m.Twin (IsArguments P)) c.weight) (arguments env inner c)
      (arguments env' inner' c') := by
  have hargs := (h.after (by decide : IsToken "(".toList) hopen).2
  have hlt := hargs.lt
  refine enclosed_agree hi hargs.abreast (by omega) fun x y d d' hxy hd => ?_
  exact .ok ⟨.node hxy.value rfl (m.standing.marks h.place) ⟨_, _, rfl, twins_shape hxy.value⟩,
    hd.mono (by omega)⟩

section

variable (hi : m.Nested (IsExpression env.types) k inner inner')
include hi

theorem primary_agree :
    m.Lockstep (IsExpression env.types) (k + 1) (primary env inner) (primary env' inner') := by
  intro c c' h hk
  have hpos := m.standing.marks h.place
  -- a tree without children
  have hleaf : ∀ {v : Kind} {x : Value} {d d' : Cursor} {n : Nat}, n ≤ c.weight + 1 →
      IsExpression env.types (.valued v (env.pos c) x []) → m.Within n d d' →
      m.Agree (Option.Rel (m.Alike (m.Twin (IsExpression env.types)) (c.weight + 1)))
        (pure (some (Tree.valued v (env.pos c) x [], d)))
        (pure (some (Tree.valued v (env'.pos c') x [], d'))) :=
    fun hn hshape hd => .ok (.some ⟨.node (Q := fun _ => True) .nil rfl hpos hshape, hd.mono hn⟩)
  unfold primary
  have hopen := h.symbol? "(" (.plain (by decide))
  generalize c.symbol? "(" = x, c'.symbol? "(" = y at hopen ⊢
  cases hopen with
  | some hd =>
    have hlt := hd.lt
    refine bracketed_agree _ ")" (by decide) hi hd.abreast (by omega) fun x y e e' hxy he => ?_
    exact .ok (.some ⟨hxy, he.mono (by omega)⟩)
  | none =>
    have hnumber := h.number?
    simp only
    generalize hx : number? c = x, number? c' = y at hnumber ⊢
    cases hnumber with
    | error hc hp => exact .error hc hp
    | failed hm => exact .failed hm
    | ok hab =>
    cases hab with
    | @some a b hab =>
      obtain ⟨v, d⟩ := a
      obtain ⟨v', d'⟩ := b
      cases (hab.value : v = v')
      rcases number?_shape hx with ⟨x, rfl⟩ | ⟨n, hn, rfl⟩
      · exact hleaf (Nat.le_refl _) .float hab.cursors
      · exact hleaf (Nat.le_refl _) (.int hn) hab.cursors
    | none =>
      have htrue := h.keyword? "true" (.plain (by decide))
      have hfalse := h.keyword? "false" (.plain (by decide))
      simp only [ok_bind]
      generalize c.keyword? "true" = x, c'.keyword? "true" = y at htrue ⊢
      generalize c.keyword? "false" = x, c'.keyword? "false" = y at hfalse ⊢
      cases htrue with
      | some hd => exact hleaf (Nat.le_succ _) .bool hd
      | none =>
        cases hfalse with
        | some hd => exact hleaf (Nat.le_succ _) .bool hd
        | none =>
          rcases h.name? with ⟨hx, hy⟩ | ⟨n, d, d', hx, hy, hn, hd⟩
          · rw [hx, hy]
            exact .ok .none
          · have hlt := hd.lt
            simp only [hx, hy, m.types, hd.abreast.startsWith (.plain (by decide) : m.Legible "(")]
            cases hty : env.types.get? n with
            | none => exact hleaf (Nat.le_succ _) (.name hn hty) hd
            | some ty =>
              by_cases hopen : d.startsWith "(" = true
              · simp only [if_pos hopen]
                refine (arguments_agree hi hd.abreast (by omega) hopen).bind fun x y hxy => ?_
                obtain ⟨pos, args, hargs, hall⟩ := hxy.value.shape
                refine .ok (.some ⟨.node (Q := fun _ => True) (.cons (.node (Q := fun _ => True) .nil
                  rfl hpos trivial) (.cons hxy.value.any .nil)) rfl hpos ?_, hxy.cursors.mono (by omega)⟩)
                rw [hargs]
                exact .construct hn hty hall
              · simp only [if_neg hopen]
                exact .error hd.abreast nofun

theorem postfixRest_agree (ht : m.Twin (IsExpression env.types) t t') (h : m.Abreast c c')
    (hk : c.weight < k + 1) (hn : c.weight < n) (hn' : c.weight < n') :
    m.Agree (m.Alike (m.Twin (IsExpression env.types)) (c.weight + 1)) (postfixRest env inner n t c)
      (postfixRest env' inner' n' t' c') := by
  revert t t' hk
  refine @(bounded_runs ?_ h hn hn')
  intro n n' c c' h ih t t' ht hk
  have hpos := ht.placed.pos
  rw [postfixRest, postfixRest]
  have hopen := h.symbol? "[" (.plain (by decide))
  generalize c.symbol? "[" = x, c'.symbol? "[" = y at hopen ⊢
  cases hopen with
  | some hd =>
    have hlt := hd.lt
    refine bracketed_agree _ "]" (by decide) hi hd.abreast (by omega) fun x y e e' hxy he => ?_
    have hlt' := he.lt
    refine (ih he.abreast (by omega) ?_ (by omega)).mono fun _ _ hab => hab.mono (by omega)
    exact .node (.cons ht.any (.cons hxy.any .nil)) rfl hpos (.index ht.shape hxy.shape)
  | none =>
    have hpoint := h.symbol? "." (.plain (by decide))
    generalize c.symbol? "." = x, c'.symbol? "." = y at hpoint ⊢
    cases hpoint with
    | @some d d' hd =>
      have hlt := hd.lt
      simp only
      rcases hd.abreast.name? with ⟨hx, hy⟩ | ⟨w, e, e', hx, hy, hw, he⟩
      · rw [hx, hy]
        exact .error hd.abreast nofun
      · have hlt' := he.lt
        rw [hx, hy]
        refine (ih he.abreast (by omega) ?_ (by omega)).mono fun _ _ hab => hab.mono (by omega)
        have hmember : m.Twin (fun _ => True) (.valued .ident (env.pos d) (.name w) [])
            (.valued .ident (env'.pos d') (.name w) []) :=
          .node (Q := fun _ => True) .nil rfl (m.standing.marks hd.abreast.place) trivial
        exact .node (.cons ht.any (.cons hmember .nil)) rfl hpos
          (.member ht.shape hw)
    | none =>
      rw [h.startsWith (.plain (by decide) : m.Legible "("), ← Tree.kind_eq_of_unplaced ht.same]
      by_cases hcall : t.kind = .ident ∧ c.startsWith "(" = true
      · rw [if_pos hcall, if_pos hcall]
        refine (arguments_agree hi h hk hcall.2).bind fun x y hxy => ?_
        have hlt := hxy.cursors.lt
        refine (ih hxy.cursors.abreast (by omega) ?_ (by omega)).mono fun _ _ hab =>
          hab.mono (by omega)
        refine .node (.cons ht.any (.cons hxy.value.any .nil)) rfl hpos ?_
        obtain ⟨pos, args, hargs, hall⟩ := hxy.value.shape
        obtain ⟨fpos, f, hf, hname, hty⟩ := ht.shape.of_ident hcall.1
        rw [hargs, hf]
        exact .call hname hty hall
      · rw [if_neg hcall, if_neg hcall]
        exact .ok ⟨ht, h.within⟩

theorem postfixed_agree :
    m.Lockstep (IsExpression env.types) (k + 1) (postfixed env inner) (postfixed env' inner') := by
  intro c c' h hk
  refine (primary_agree hi h hk).bind fun a b hab => ?_
  cases hab with
  | none => exact .ok .none
  | @some a b hab =>
    obtain ⟨t, d⟩ := a
    obtain ⟨t', d'⟩ := b
    have hd : m.Within (c.weight + 1) d d' := hab.cursors
    have hlt := hd.lt
    obtain ⟨hn, hn'⟩ := hd.abreast.lt_bounds
    refine (postfixRest_agree hi hab.value hd.abreast (by omega) hn hn').bind fun x y hxy => ?_
    exact .ok (.some (hxy.mono hlt))

end

/-! ### Operators -/

theorem isToken_symbol (op : Operator) : IsToken op.symbol.toList := by
  cases op <;> decide

theorem Abreast.operator (h : m.Abreast c c') (hop : op ∈ .neg :: .not :: levels.flatten) :
    c'.startsWithOp op.symbol = c.startsWithOp op.symbol := by
  have hs : ∀ op ∈ .neg :: .not :: levels.flatten,
      op.symbol.toList ≠ [] ∧ ∀ ch ∈ op.symbol.toList.tail, ch ∈ marks := by decide
  refine h.startsWithOp (hs op hop) fun hend => ?_
  have hrest := h.rest
  rw [hend] at hrest
  rcases hrest.start_cases with ⟨-, he⟩ | ⟨_, _, _, -, hr, -⟩ | ⟨_, _, _, _, -, -, hr, -⟩
  · exact m.isTail.operator he hop
  all_goals cases hr

theorem prefixOp?_agree (h : m.Abreast c c') : prefixOp? c' = prefixOp? c := by
  unfold prefixOp?
  have hneg : c'.startsWithOp "-" = c.startsWithOp "-" := h.operator (.head _)
  have hnot : c'.startsWithOp "!" = c.startsWithOp "!" := h.operator (.tail _ (.head _))
  rw [hneg, hnot]

theorem startsWith_of_startsWithOp (h : c.startsWithOp sym = true) : c.startsWith sym = true :=
  (Bool.and_eq_true_iff.1 h).1

theorem startsWith_of_prefixOp? (h : prefixOp? c = some op) : c.startsWith op.symbol = true := by
  refine startsWith_of_startsWithOp ?_
  unfold prefixOp? at h
  split at h
  · next hs => cases h; exact hs
  · split at h
    · next hs => cases h; exact hs
    · cases h

theorem unary_agree (hi : m.Nested (IsExpression env.types) k inner inner') :
    m.Lockstep (IsExpression env.types) (k + 1) (unary env inner) (unary env' inner') := by
  refine lockstep_of_step fun {n n' c c'} h hk ih => ?_
  rw [unaryWithin, unaryWithin, prefixOp?_agree h]
  cases hop : prefixOp? c with
  | none => exact postfixed_agree hi h hk
  | some op =>
    have hd := (h.after (isToken_symbol op) (startsWith_of_prefixOp? hop)).2
    have hlt := hd.lt
    refine (ih hd.abreast hlt).bind fun a b hab => ?_
    cases hab with
    | none => exact .error hd.abreast nofun
    | some hxy =>
      exact .ok (.some ⟨.node (.cons hxy.value .nil) rfl (m.standing.marks h.place)
        (.unary (prefixOp?_shape hop) hxy.value.shape), hxy.cursors.mono (by omega)⟩)

variable {types : TypeTable} {ops : List Operator} {ls : List (List Operator)}

theorem chain_agree (hops : ∀ op ∈ ops, op ∈ levels.flatten)
    (ho : m.Lockstep (IsExpression types) k operand operand')
    (ht : m.Twin (IsExpression types) t t') (h : m.Abreast c c') (hk : c.weight < k)
    (hn : c.weight < n) (hn' : c.weight < n') :
    m.Agree (m.Alike (m.Twin (IsExpression types)) (c.weight + 1)) (chain operand ops n t c)
      (chain operand' ops n' t' c') := by
  revert t t' hk
  refine @(bounded_runs ?_ h hn hn')
  intro n n' c c' h ih t t' ht hk
  rw [chain, chain, List.find?_congr fun op hop =>
    h.operator (.tail _ (.tail _ (hops op hop)))]
  cases hop : ops.find? (c.startsWithOp ·.symbol) with
  | none => exact .ok ⟨ht, h.within⟩
  | some op =>
    have hstart := List.find?_some hop
    have hd := (h.after (isToken_symbol op) (startsWith_of_startsWithOp hstart)).2
    have hlt := hd.lt
    refine (require_agree _ hd.abreast (ho hd.abreast (by omega))).bind fun x y hxy => ?_
    have hlt' := hxy.cursors.lt
    refine (ih hxy.cursors.abreast (by omega) ?_ (by omega)).mono fun _ _ hab => hab.mono (by omega)
    exact .node (.cons ht (.cons hxy.value .nil)) rfl ht.placed.pos
      (.binary (hops op (List.mem_of_find?_eq_some hop)) ht.shape hxy.value.shape)

theorem binary_agree (ho : m.Lockstep (IsExpression types) k operand operand')
    (hls : ∀ ops ∈ ls, ∀ op ∈ ops, op ∈ levels.flatten) :
    m.Lockstep (IsExpression types) k (binary operand ls) (binary operand' ls) := by
  induction ls with
  | nil => exact ho
  | cons ops tighter ih =>
    obtain ⟨hops, htighter⟩ := List.forall_mem_cons.1 hls
    intro c c' h hk
    refine (ih htighter h hk).bind fun a b hab => ?_
    cases hab with
    | none => exact .ok .none
    | @some a b hab =>
      obtain ⟨t, d⟩ := a
      obtain ⟨t', d'⟩ := b
      have hd : m.Within (c.weight + 1) d d' := hab.cursors
      have hlt := hd.lt
      obtain ⟨hn, hn'⟩ := hd.abreast.lt_bounds
      refine (chain_agree hops (ih htighter) hab.value hd.abreast (by omega) hn hn').bind
        fun x y hxy => ?_
      exact .ok (.some (hxy.mono hlt))

theorem ternary_agree (ho : m.Lockstep (IsExpression types) (k + 1) operand operand')
    (hi : m.Nested (IsExpression types) k inner inner') :
    m.Lockstep (IsExpression types) (k + 1) (ternary operand inner) (ternary operand' inner') := by
  refine lockstep_of_step fun {n n' c c'} h hk ih => ?_
  rw [ternaryWithin, ternaryWithin]
  refine (ho h hk).bind fun a b hab => ?_
  cases hab with
  | none => exact .ok .none
  | @some a b hab =>
    obtain ⟨cond, d⟩ := a
    obtain ⟨cond', d'⟩ := b
    have hd : m.Within (c.weight + 1) d d' := hab.cursors
    have hlt := hd.lt
    have hcond : m.Twin (IsExpression types) cond cond' := hab.value
    have hmark := hd.abreast.symbol? "?" (.plain (by decide))
    simp only
    generalize d.symbol? "?" = x, d'.symbol? "?" = y at hmark ⊢
    cases hmark with
    | none => exact .ok (.some hab)
    | some he =>
      have hlt₁ := he.lt
      refine bracketed_agree _ ":" (by decide) hi he.abreast (by omega) fun x y e e' hyes he' => ?_
      have hlt₂ := he'.lt
      refine (require_agree _ he'.abreast (ih he'.abreast (by omega))).bind fun z w hno => ?_
      exact .ok (.some ⟨.node (.cons hcond (.cons hyes (.cons hno.value .nil))) rfl hcond.placed.pos
        (.ternary hcond.shape hyes.shape hno.value.shape), hno.cursors.mono (by omega)⟩)

/-- **Conditional expressions and what binds tighter.** -/
theorem operation_agree (hi : m.Nested (IsExpression env.types) k inner inner') :
    m.Lockstep (IsExpression env.types) (k + 1) (ternary (binary (unary env inner) levels) inner)
      (ternary (binary (unary env' inner') levels) inner') := by
  have hlevels : ∀ ops ∈ levels, ∀ op ∈ ops, op ∈ levels.flatten := by decide
  exact ternary_agree (binary_agree (unary_agree hi) hlevels) hi

/-! ### Assignments -/

theorem assigned_twin {rhs rhs' : Tree} {op : Option Operator}
    (hop : ∀ o ∈ op, o ∈ levels.flatten) (ht : m.Twin (IsExpression types) t t')
    (hrhs : m.Twin (IsExpression types) rhs rhs') (h : m.Abreast c c') :
    m.Twin (IsExpression types) (assigned (env.pos c) op t rhs) (assigned (env'.pos c') op t' rhs') := by
  cases op with
  | none => exact hrhs
  | some op =>
    exact .node (.cons ht (.cons hrhs .nil)) rfl (m.standing.marks h.place)
      (.binary (hop op rfl) ht.shape hrhs.shape)

theorem assignmentWithin_nested (ho : m.Lockstep (IsExpression types) k operand operand')
    (h : m.Abreast c c') (hk : c.weight < k) (hn : c.weight < n) (hn' : c.weight < n') :
    m.Agree (Option.Rel (m.Alike (m.Twin (IsExpression types)) (c.weight + 1)))
        (assignmentWithin env operand n c) (assignmentWithin env' operand' n' c') ∨
      ∃ t d, assignmentWithin env operand n c = .ok (some (t, d)) ∧ m.Lost d := by
  revert hk
  refine bounded_runs ?_ h hn hn'
  intro n n' c c' h ih hk
  rw [assignmentWithin, assignmentWithin]
  have hlhs := ho h hk
  generalize operand c = x, operand' c' = y at hlhs ⊢
  cases hlhs with
  | error hc hp => exact .inl (.error hc hp)
  | failed hm => exact .inl (.failed hm)
  | ok hab =>
  cases hab with
  | none => exact .inl (.ok .none)
  | @some a b hab =>
    obtain ⟨lhs, d⟩ := a
    obtain ⟨lhs', d'⟩ := b
    have hd : m.Within (c.weight + 1) d d' := hab.cursors
    have hlt := hd.lt
    have hlhs : m.Twin (IsExpression types) lhs lhs' := hab.value
    have hsymbols : ∀ a ∈ assignments, IsToken a.1.toList ∧ (∀ op ∈ a.2, op ∈ levels.flatten) ∧
        a.1.toList ≠ [] ∧ ∀ ch ∈ a.1.toList.tail, ch ∈ marks := by decide
    simp only [ok_bind]
    -- behind the end of the first text the second may go on with an assignment
    by_cases hlost : m.Lost d
    · -- the first text ends, and nothing is assigned
      refine .inr ⟨lhs, d, ?_, hlost⟩
      rw [find?_assignments fun a ha => opAt_eq_false (by rw [hlost.1]; exact fun ch hch => by cases hch)
        (hsymbols a ha).2.2.1]
      rfl
    · have hfind : ∀ a ∈ assignments, d'.startsWithOp a.1 = d.startsWithOp a.1 := by
        intro a ha
        refine hd.abreast.startsWithOp (hsymbols a ha).2.2 fun hend => ?_
        have hrest := hd.abreast.rest
        rw [hend] at hrest
        rcases hrest.start_cases with ⟨-, he⟩ | ⟨_, _, _, -, hr, -⟩ | ⟨_, _, _, _, -, -, hr, -⟩
        · exact not_not.1 (not_and.1 hlost hend) _ he a ha
        all_goals cases hr
      rw [List.find?_congr hfind]
      cases hop : assignments.find? (d.startsWithOp ·.1) with
      | none => exact .inl (.ok (.some hab))
      | some a =>
        obtain ⟨sym, op⟩ := a
        have hmem := List.mem_of_find?_eq_some hop
        have hstart := List.find?_some hop
        have he := (hd.abreast.after (hsymbols _ hmem).1 (startsWith_of_startsWithOp hstart)).2
        have hlt' := he.lt
        rcases ih he.abreast (by omega) (by omega) with hrhs | ⟨rhs, e, hrhs, hlost⟩
        · refine .inl ((require_agree _ he.abreast hrhs).bind fun x y hxy => ?_)
          have hvalue := assigned_twin (hsymbols _ hmem).2.1 hlhs hxy.value hd.abreast
          refine .ok (.some ⟨.node (.cons hlhs (.cons hvalue .nil)) rfl hlhs.placed.pos ?_,
            hxy.cursors.mono (by omega)⟩)
          exact .assign hlhs.shape hvalue.shape
        · refine .inr ⟨.operated .assign lhs.pos .assign [lhs, assigned (env.pos d) op lhs rhs], e, ?_,
            hlost⟩
          simp only [hrhs]
          rfl

theorem assignment_nested (ho : m.Lockstep (IsExpression types) k operand operand') :
    m.Nested (IsExpression types) k (assignment env operand) (assignment env' operand') := by
  intro c c' h hk
  obtain ⟨hn, hn'⟩ := h.lt_bounds
  exact assignmentWithin_nested ho h hk hn hn'

theorem expressionWithin_nested : ∀ {k n n' : Nat}, k ≤ n → k ≤ n' →
    m.Nested (IsExpression env.types) k (expressionWithin env n) (expressionWithin env' n') := by
  intro k
  induction k with
  | zero => intro n n' _ _ c c' _ hk; omega
  | succ k ih =>
    intro n n' hn hn'
    obtain ⟨n, rfl⟩ := Nat.exists_eq_add_of_le' hn
    obtain ⟨n', rfl⟩ := Nat.exists_eq_add_of_le' hn'
    intro c c' h hk
    exact assignment_nested
      (operation_agree (ih (Nat.le_add_left k n) (Nat.le_add_left k n'))) h hk

theorem expression_nested (hk : k ≤ n') :
    m.Nested (IsExpression env.types) k (expression env) (expressionWithin env' n') := by
  intro c c' h hc
  exact expressionWithin_nested h.lt_bounds.1 (Nat.le_trans hc hk) h (Nat.lt_succ_self _)

/-- **Expressions.** -/
theorem expression_agree (hm : Halts m.tail) (k : Nat) :
    m.Lockstep (IsExpression env.types) k (expression env) (expression env') := by
  intro c c' h _
  rcases expression_nested h.lt_bounds.2 h (Nat.lt_succ_self _) with hagree | ⟨_, _, -, hlost⟩
  · exact hagree
  · exact absurd hm hlost.2

theorem requiredExpression_agree (hm : Halts m.tail) (h : m.Abreast c c') :
    m.Agree (m.Alike (m.Twin (IsExpression env.types)) (c.weight + 1)) (requiredExpression env c)
      (requiredExpression env' c') :=
  require_agree _ h (expression_agree hm _ h (Nat.lt_succ_self _))

end Productions

end VecLang.Grammar.March
