import VecLang.Proofs.Emit.ScriptText

/-!
# How printed assignments are read again

The own-language printer writes no parentheses around an assignment that is a target, a
condition or an alternative. Its text is an expression all the same, in which the parts
between the `=` are grouped from the right: `(a = b) = c` is printed as `a = b = c`, and a
conditional expression takes only the last part of its condition and the first part of its
alternative.

* `parts`, `reread`: the tree as which the text of an expression is read.
* `emit_reread`: the text of every expression writes that tree.
* `size_reread`: regrouping moves nodes and adds none.
* `expression_rereads_iff`: **an expression is read again as it was exactly if no assignment
  is a target, a condition or an alternative.**
-/

namespace VecLang.Emit.Source

open Grammar List

/-! ### Regrouping -/

/-- Assignments of each tree to the one before it, grouped from the right. -/
def chain : List Tree → Tree
  | [] => default
  | [t] => t
  | t :: u :: ts => .operated .assign {} .assign [t, chain (u :: ts)]

/-- The parts of a conditional expression whose condition and alternative have parts of their own:
it goes from the last part of the condition to the first one of the alternative. -/
def choice (conds : List Tree) (yes : Tree) (nos : List Tree) : List Tree :=
  match conds.getLast?, nos with
  | some cond, no :: nos => conds.dropLast ++ .plain .ternary {} [cond, yes, no] :: nos
  | _, _ => []

mutual

/-- What stands between the `=` in the text of an expression, each part as it is read again. A
conditional expression is printed in parentheses and so is one part. -/
def parts : Tree → List Tree
  | .node l ts =>
    match l.kind, ts with
    | .assign, [target, value] => parts target ++ parts value
    | .ternary, [cond, yes, no] => [chain (choice (parts cond) (chain (parts yes)) (parts no))]
    | _, ts => [.node l (rereadAll ts)]

def rereadAll : List Tree → List Tree
  | [] => []
  | t :: ts => chain (parts t) :: rereadAll ts

end

/-- **The tree as which the text of an expression is read again.** -/
def reread (t : Tree) : Tree := chain (parts t)

variable {ctx : Context} {options : Options} {types : TypeTable} {d : Nat} {pos : Pos}
  {l : Label} {t u : Tree} {ts us : List Tree}

theorem rereadAll_eq_map (ts : List Tree) : rereadAll ts = ts.map reread := by
  induction ts with
  | nil => rfl
  | cons t ts ih => rw [rereadAll, ih, map_cons, reread]

theorem chain_cons (h : ts ≠ []) (t : Tree) :
    chain (t :: ts) = .operated .assign {} .assign [t, chain ts] := by
  obtain ⟨u, ts, rfl⟩ := exists_cons_of_ne_nil h
  rfl

theorem choice_concat (conds : List Tree) (cond yes no : Tree) (nos : List Tree) :
    choice (conds ++ [cond]) yes (no :: nos) =
      conds ++ .plain .ternary {} [cond, yes, no] :: nos := by
  unfold choice
  rw [getLast?_concat, dropLast_concat]

theorem parts_other (hassign : l.kind ≠ .assign) (hternary : l.kind ≠ .ternary) :
    parts (.node l ts) = [.node l (ts.map reread)] := by
  unfold parts
  rw [← rereadAll_eq_map]
  split
  · next hk => exact absurd hk hassign
  · next hk => exact absurd hk hternary
  · rfl

theorem reread_other (hassign : l.kind ≠ .assign) (hternary : l.kind ≠ .ternary) :
    reread (.node l ts) = .node l (ts.map reread) := by
  rw [reread, parts_other hassign hternary]
  rfl

theorem parts_ne_nil (t : Tree) : parts t ≠ [] := by
  induction t using Rose.induction with
  | node l ts ih =>
    unfold parts
    split
    · exact append_ne_nil_of_left_ne_nil (ih _ (.head _)) _
    · exact cons_ne_nil _ _
    · exact cons_ne_nil _ _

theorem parts_eq_reread (h : t.kind ≠ .assign) : parts t = [reread t] := by
  obtain ⟨l, ts⟩ := t
  unfold reread parts
  split
  · next hk => exact absurd hk h
  · rfl
  · rfl

theorem reread_assign (target value : Tree) :
    reread (.operated .assign pos .assign [target, value]) = chain (parts target ++ parts value) :=
  rfl

theorem reread_ternary (cond yes no : Tree) :
    reread (.plain .ternary pos [cond, yes, no]) =
      chain (choice (parts cond) (reread yes) (parts no)) := rfl

/-! ### The text -/

def equations : List Text → Text
  | [] => []
  | s :: ss => s ++ ss.flatMap fun s => ' ' :: '=' :: ' ' :: s

theorem equations_append {ss ss' : List Text} (h : ss ≠ []) (h' : ss' ≠ []) :
    equations (ss ++ ss') = equations ss ++ ' ' :: '=' :: ' ' :: equations ss' := by
  obtain ⟨s, ss, rfl⟩ := exists_cons_of_ne_nil h
  obtain ⟨s', ss', rfl⟩ := exists_cons_of_ne_nil h'
  simp [equations]

/-- A text that goes on from the last text of one list to the first one of another. -/
theorem equations_middle (ss ss' : List Text) (s m s' : Text) :
    equations (ss ++ (s ++ m ++ s') :: ss') = equations (ss ++ [s]) ++ m ++ equations (s' :: ss') := by
  cases ss <;> simp [equations]

theorem chain_written {items : List (Text × Tree)} (hne : items ≠ [])
    (h : ∀ i ∈ items, Written types 2 i.1 i.2) :
    Written types 1 (equations (items.map Prod.fst)) (chain (items.map Prod.snd)) := by
  induction items with
  | nil => exact absurd rfl hne
  | cons i items ih =>
    have hfirst := h i (.head _)
    by_cases hlast : items = []
    · subst hlast
      have hone : Written types 1 i.1 i.2 := hfirst.looser (Nat.le_refl 1) (by decide)
      simpa [equations, chain] using hone
    · have hrest := ih hlast fun j hj => h j (.tail _ hj)
      have hfst : items.map Prod.fst ≠ [] := mt map_eq_nil_iff.1 hlast
      have hsnd : items.map Prod.snd ≠ [] := mt map_eq_nil_iff.1 hlast
      have htext : equations ((i :: items).map Prod.fst) =
          i.1 ++ ' ' :: '=' :: ' ' :: equations (items.map Prod.fst) := by
        have happend := equations_append (cons_ne_nil i.1 []) hfst
        simpa [equations] using happend
      rw [htext, map_cons, chain_cons hsnd]
      exact .assign hfirst hrest

/-- The text is printed for the expression. Its parts between the `=` write those of the
expression, and if that is no assignment, then it is written at the level of its strength. -/
structure Reprints (ctx : Context) (options : Options) (types : TypeTable) (d : Nat) (t : Tree)
    (s : String) : Prop where
  shape : IsExpression types t
  printed : emit ctx options d t = .ok s
  pieces : ∃ items : List (Text × Tree), items.map Prod.snd = parts t ∧
    s.toList = equations (items.map Prod.fst) ∧ ∀ i ∈ items, Written types 3 i.1 i.2
  tight : t.kind ≠ .assign → Written types (min (strength t) 10) s.toList (reread t)

namespace Reprints

theorem of {s : String} (h : PrintsAs (emit ctx options d) types t (reread t) s) (hkind : t.kind ≠ .assign) :
    Reprints ctx options types d t s := by
  refine ⟨h.shape, h.printed, ⟨[(s.toList, reread t)], (parts_eq_reread hkind).symm,
    by simp [equations], forall_mem_singleton.2 (h.condition hkind)⟩, h.tight⟩

theorem whole {s : String} (h : Reprints ctx options types d t s) :
    Written types 1 s.toList (reread t) := by
  obtain ⟨items, htrees, htext, hitems⟩ := h.pieces
  have hne : items ≠ [] := by
    rintro rfl
    exact parts_ne_nil t htrees.symm
  rw [htext, reread, ← htrees]
  exact chain_written hne fun i hi => (hitems i hi).looser (by decide) (by decide)

theorem printsAs {s : String} (h : Reprints ctx options types d t s) :
    PrintsAs (emit ctx options d) types t (reread t) s := ⟨h.shape, h.printed, h.whole, h.tight⟩

end Reprints

theorem kind_chain (h : 2 ≤ ts.length) : (chain ts).kind = .assign := by
  rcases ts with _ | ⟨t, _ | ⟨u, ts⟩⟩
  · simp at h
  · simp at h
  · rfl

theorem exists_choice (cond yes no : Tree) : ∃ conds c n nos, parts cond = conds ++ [c] ∧
    parts no = n :: nos ∧ choice (parts cond) yes (parts no) =
      conds ++ .plain .ternary {} [c, yes, n] :: nos := by
  obtain ⟨conds, c, hconds⟩ := (eq_nil_or_concat' (parts cond)).resolve_left (parts_ne_nil cond)
  obtain ⟨n, nos, hnos⟩ := exists_cons_of_ne_nil (parts_ne_nil no)
  refine ⟨conds, c, n, nos, hconds, hnos, ?_⟩
  rw [hconds, hnos, choice_concat]

/-- What is read as a tree of another kind than it was, is read as an assignment or as a
conditional expression. -/
theorem kind_reread (t : Tree) : (reread t).kind = t.kind ∨ (reread t).kind = .assign ∨
    (reread t).kind = .ternary := by
  obtain ⟨l, ts⟩ := t
  unfold reread parts
  split
  · next target value _ =>
    refine .inr (.inl (kind_chain ?_))
    have hpos := length_pos_of_ne_nil (parts_ne_nil target)
    have hpos' := length_pos_of_ne_nil (parts_ne_nil value)
    rw [length_append]
    omega
  · next cond yes no _ =>
    obtain ⟨conds, c, n, nos, -, -, hchoice⟩ := exists_choice cond (chain (parts yes)) no
    rw [hchoice, chain]
    by_cases hone : conds = [] ∧ nos = []
    · rw [hone.1, hone.2]
      exact .inr (.inr rfl)
    · refine .inr (.inl (kind_chain ?_))
      rw [length_append, length_cons]
      rcases not_and_or.1 hone with hne | hne
      · have hpos := length_pos_of_ne_nil hne
        omega
      · have hpos := length_pos_of_ne_nil hne
        omega
  · exact .inl rfl

theorem kind_reread_ne_intConst (h : t.kind ≠ .intConst) : (reread t).kind ≠ .intConst := by
  intro he
  rcases kind_reread t with hk | hk | hk
  · exact h (hk.symm.trans he)
  · cases hk.symm.trans he
  · cases hk.symm.trans he

section Cases

variable {s s' s'' : String} {a b c : Tree}

section

variable (ha : Reprints ctx options types d a s) (hb : Reprints ctx options types d b s')
include ha hb

theorem reprints_ternary (hc : Reprints ctx options types d c s'') :
    Reprints ctx options types d (.plain .ternary pos [a, b, c])
      ("(" ++ s ++ " ? " ++ s' ++ " : " ++ s'' ++ ")") := by
  obtain ⟨items, htrees, htext, hitems⟩ := ha.pieces
  obtain ⟨items', htrees', htext', hitems'⟩ := hc.pieces
  -- the last piece of the condition and the first one of the alternative belong to it
  obtain ⟨xs, x, rfl⟩ : ∃ xs x, items = xs ++ [x] := by
    refine (eq_nil_or_concat' items).resolve_left fun he => parts_ne_nil a ?_
    rw [← htrees, he]
    rfl
  obtain ⟨z, zs, rfl⟩ : ∃ z zs, items' = z :: zs := by
    refine exists_cons_of_ne_nil fun he => parts_ne_nil c ?_
    rw [← htrees', he]
    rfl
  have hx := hitems x (mem_append_right _ (.head _))
  have hz := hitems' z (.head _)
  let middle : Text × Tree := (x.1 ++ ' ' :: '?' :: ' ' :: (s'.toList ++ ' ' :: ':' :: ' ' :: z.1),
    .plain .ternary {} [x.2, reread b, z.2])
  have hmiddle : Written types 2 middle.1 middle.2 :=
    .ternary hx hb.whole (hz.looser (by decide) (by decide))
  have hall : ∀ i ∈ xs ++ middle :: zs, Written types 2 i.1 i.2 := by
    refine forall_mem_append.2 ⟨fun i hi => ?_, forall_mem_cons.2 ⟨hmiddle, fun i hi => ?_⟩⟩
    · exact (hitems i (mem_append_left _ hi)).looser (by decide) (by decide)
    · exact (hitems' i (.tail _ hi)).looser (by decide) (by decide)
  have hchain := chain_written (by simp) hall
  have hwritten : Written types 1
      (s.toList ++ ' ' :: '?' :: ' ' :: (s'.toList ++ ' ' :: ':' :: ' ' :: s''.toList))
      (reread (.plain .ternary pos [a, b, c])) := by
    have hreread : reread (.plain .ternary pos [a, b, c]) =
        chain ((xs ++ middle :: zs).map Prod.snd) := by
      rw [reread_ternary, ← htrees, ← htrees', map_append, map_cons, map_nil,
        map_cons, choice_concat, map_append, map_cons]
    have hequations : equations ((xs ++ middle :: zs).map Prod.fst) =
        s.toList ++ ' ' :: '?' :: ' ' :: (s'.toList ++ ' ' :: ':' :: ' ' :: s''.toList) := by
      have htexts := equations_middle (xs.map Prod.fst) (zs.map Prod.fst) x.1
        (' ' :: '?' :: ' ' :: (s'.toList ++ [' ', ':', ' '])) z.1
      rw [htext, htext']
      simpa [middle] using htexts
    rw [hreread, ← hequations]
    exact hchain
  refine .of (.of (.ternary ha.shape hb.shape hc.shape)
    (emit_ternary ha.printed hb.printed hc.printed) rfl ?_ (Written.atom (.parens hwritten))) nofun
  simp

theorem reprints_assign :
    Reprints ctx options types d (.operated .assign pos .assign [a, b]) (s ++ " = " ++ s') := by
  obtain ⟨items, htrees, htext, hitems⟩ := ha.pieces
  obtain ⟨items', htrees', htext', hitems'⟩ := hb.pieces
  refine ⟨.assign ha.shape hb.shape, PrintsAs.assign_printed rfl ha.printsAs hb.printsAs,
    ⟨items ++ items', ?_, ?_, ?_⟩, fun hk => absurd rfl hk⟩
  · rw [map_append, htrees, htrees']
    rfl
  · have hne : items.map Prod.fst ≠ [] := by
      intro he
      rw [map_eq_nil_iff.1 he] at htrees
      exact parts_ne_nil a htrees.symm
    have hne' : items'.map Prod.fst ≠ [] := by
      intro he
      rw [map_eq_nil_iff.1 he] at htrees'
      exact parts_ne_nil b htrees'.symm
    rw [map_append, equations_append hne hne', ← htext, ← htext']
    simp
  · exact forall_mem_append.2 ⟨hitems, hitems'⟩

end

theorem reread_application {apos : Pos} {callee : Tree} (hcallee : reread callee = callee)
    (args : List Tree) : reread (.plain .call pos [callee, .plain .args apos args]) =
      .plain .call pos [callee, .plain .args apos (args.map reread)] := by
  rw [Tree.plain, reread_other (fun he => by cases he) (fun he => by cases he), map_cons,
    map_singleton, hcallee, Tree.plain, reread_other (fun he => by cases he)
    (fun he => by cases he)]
  rfl

end Cases

/-- The text of the root can be read: a point behind an integer would belong to the number, and
how floats are read back is another matter. -/
structure Readable (t : Tree) : Prop where
  float : t.kind ≠ .floatConst
  base : t.kind = .member → ∀ u : Tree, u ∈ t.children[0]? → u.kind ≠ .intConst

/-- **The text of an expression writes the tree as which it is read again.** -/
theorem emit_reread (ctx : Context) (options : Options) (d : Nat) (hty : SelfNamed types)
    (h : IsExpression types t) : (∀ u ∈ t.subtrees, Readable u) →
    ∃ s, Reprints ctx options types d t s := by
  induction h with
  | @int pos n hn =>
    intro _
    exact ⟨toString n, .of (.of (.int hn) rfl rfl (by simp) (Written.atom (.int hn))) nofun⟩
  | float =>
    intro hl
    exact absurd rfl (hl _ (Rose.self_mem_subtrees _)).float
  | @bool pos b =>
    intro _
    exact ⟨_, .of (.of .bool rfl rfl rfl (Written.atom (.bool b))) nofun⟩
  | @name pos n hn hget =>
    intro _
    exact ⟨n, .of (.of (.name hn hget) rfl rfl rfl (Written.atom (.name hn hget))) nofun⟩
  | @construct pos tpos apos n ty args hn hget hargs ih =>
    intro hl
    obtain ⟨s, hs⟩ := PrintsAs.application lists_emitList (emit_construct hty hget pos tpos apos _)
      (.construct hn hget hargs) (fun items hall => Written.atom (.construct items hn hget hall))
      (reread_application rfl args) fun t ht =>
        (ih t ht (legible_child (legible_child hl (.tail _ (.head _))) ht)).imp fun _ h => h.printsAs
    exact ⟨s, .of hs nofun⟩
  | @call pos fpos apos n args hn hget hargs ih =>
    intro hl
    obtain ⟨s, hs⟩ := PrintsAs.application lists_emitList rfl (.call hn hget hargs)
      (fun items hall => .call items (Written.atom (.name hn hget)) rfl hall)
      (reread_application rfl args) fun t ht =>
        (ih t ht (legible_child (legible_child hl (.tail _ (.head _))) ht)).imp fun _ h => h.printsAs
    exact ⟨s, .of hs nofun⟩
  | index _ _ iha ihb =>
    intro hl
    obtain ⟨s, hs⟩ := iha (legible_child hl (by simp))
    obtain ⟨s', hs'⟩ := ihb (legible_child hl (by simp))
    exact ⟨_, .of (.index rfl hs.printsAs hs'.printsAs) nofun⟩
  | @member pos mpos a m _ hm ih =>
    intro hl
    obtain ⟨s, hs⟩ := ih (legible_child hl (by simp))
    have hbase := (hl _ (Rose.self_mem_subtrees _)).base rfl a rfl
    exact ⟨_, .of (.member rfl hs.printsAs (kind_reread_ne_intConst hbase) hm) nofun⟩
  | unary hop _ ih =>
    intro hl
    obtain ⟨s, hs⟩ := ih (legible_child hl (by simp))
    exact ⟨_, .of (.unary rfl hop hs.printsAs) nofun⟩
  | @binary pos op a b hop _ _ iha ihb =>
    intro hl
    obtain ⟨s, hs⟩ := iha (legible_child hl (by simp))
    obtain ⟨s', hs'⟩ := ihb (legible_child hl (by simp))
    exact ⟨_, .of (.binary (fun hne => emit_binary hne pos a b) hop hs.printsAs hs'.printsAs) nofun⟩
  | ternary _ _ _ iha ihb ihc =>
    intro hl
    obtain ⟨s, hs⟩ := iha (legible_child hl (by simp))
    obtain ⟨s', hs'⟩ := ihb (legible_child hl (by simp))
    obtain ⟨s'', hs''⟩ := ihc (legible_child hl (by simp))
    exact ⟨_, reprints_ternary hs hs' hs''⟩
  | assign _ _ iha ihb =>
    intro hl
    obtain ⟨s, hs⟩ := iha (legible_child hl (by simp))
    obtain ⟨s', hs'⟩ := ihb (legible_child hl (by simp))
    exact ⟨_, reprints_assign hs hs'⟩

/-! ### What keeps its tree -/

theorem sizeAll_append (ts us : List Tree) :
    Rose.sizeAll (ts ++ us) = Rose.sizeAll ts + Rose.sizeAll us := by
  induction ts with
  | nil => simp [Rose.sizeAll]
  | cons t ts ih => rw [cons_append, Rose.sizeAll, Rose.sizeAll, ih, Nat.add_assoc]

theorem sizeAll_map {f : Tree → Tree} (h : ∀ t ∈ ts, (f t).size = t.size) :
    Rose.sizeAll (ts.map f) = Rose.sizeAll ts := by
  induction ts with
  | nil => rfl
  | cons t ts ih =>
    obtain ⟨ht, hts⟩ := forall_mem_cons.1 h
    rw [map_cons, Rose.sizeAll, Rose.sizeAll, ht, ih hts]

theorem size_chain (h : ts ≠ []) : (chain ts).size + 1 = Rose.sizeAll ts + ts.length := by
  induction ts with
  | nil => exact absurd rfl h
  | cons t ts ih =>
    by_cases hts : ts = []
    · subst hts
      simp [chain, Rose.sizeAll]
    · have hrest := ih hts
      rw [chain_cons hts, Tree.operated, Rose.size, Rose.sizeAll, Rose.sizeAll, Rose.sizeAll,
        Rose.sizeAll, length_cons]
      omega

/-- The parts of an expression and the `=` between them have as many nodes as it has. -/
theorem size_parts (t : Tree) : Rose.sizeAll (parts t) + (parts t).length = t.size + 1 := by
  induction t using Rose.induction with
  | node l ts ih =>
    have hreread : ∀ t ∈ ts, (reread t).size = t.size := by
      intro t ht
      have hchain := size_chain (parts_ne_nil t)
      rw [ih t ht] at hchain
      exact Nat.succ.inj hchain
    unfold parts
    split
    · next target value _ =>
      have htarget := ih target (.head _)
      have hvalue := ih value (.tail _ (.head _))
      rw [sizeAll_append, length_append, Rose.size, Rose.sizeAll, Rose.sizeAll, Rose.sizeAll]
      omega
    · next cond yes no _ =>
      have hcond := ih cond (.head _)
      have hyes := hreread yes (.tail _ (.head _))
      have hno := ih no (.tail _ (.tail _ (.head _)))
      obtain ⟨conds, c, n, nos, hconds, hnos, hchoice⟩ := exists_choice cond (reread yes) no
      have hne : conds ++ .plain .ternary {} [c, reread yes, n] :: nos ≠ [] := by simp
      have hchain := size_chain hne
      rw [hconds, sizeAll_append, length_append] at hcond
      rw [hnos] at hno
      rw [sizeAll_append, length_append] at hchain
      change Rose.sizeAll [chain (choice (parts cond) (reread yes) (parts no))] + 1 = _
      rw [hchoice]
      simp only [Tree.plain, Rose.size, Rose.sizeAll, length_cons, length_nil] at *
      omega
    · rw [rereadAll_eq_map, Rose.sizeAll, Rose.size, sizeAll_map hreread, Rose.size]
      rfl

/-- No assignment at the root is regrouped: none is the target of another one, and none is the
condition or the alternative of a conditional expression. -/
structure Grouped (t : Tree) : Prop where
  target : t.kind = .assign → ∀ u : Tree, u ∈ t.children[0]? → u.kind ≠ .assign
  condition : t.kind = .ternary → ∀ u : Tree, u ∈ t.children[0]? → u.kind ≠ .assign
  alternative : t.kind = .ternary → ∀ u : Tree, u ∈ t.children[2]? → u.kind ≠ .assign

/-- Apart from positions, the tree is read again as it was. -/
def Rereads (t : Tree) : Prop := (reread t).unplaced = t.unplaced

theorem rereads_other (hassign : l.kind ≠ .assign) (hternary : l.kind ≠ .ternary) :
    Rereads (.node l ts) ↔ ∀ t ∈ ts, Rereads t := by
  unfold Rereads
  rw [reread_other hassign hternary, Tree.unplaced_node, Tree.unplaced_node, Rose.node.injEq,
    and_iff_right rfl, map_map]
  exact map_inj_left

theorem kind_unplaced (t : Tree) : t.unplaced.kind = t.kind := by
  obtain ⟨l, ts⟩ := t
  rfl

theorem two_le_length_parts (h : IsExpression types t) (hk : t.kind = .assign) :
    2 ≤ (parts t).length := by
  cases h with
  | @assign _ target value _ _ =>
    have hpos := length_pos_of_ne_nil (parts_ne_nil target)
    have hpos' := length_pos_of_ne_nil (parts_ne_nil value)
    change 2 ≤ (parts target ++ parts value).length
    rw [length_append]
    omega
  | _ => cases hk

theorem reread_of_parts (h : IsExpression types t) (hone : parts t = [u]) :
    t.kind ≠ .assign ∧ reread t = u := by
  refine ⟨fun hk => ?_, by rw [reread, hone]; rfl⟩
  have hlen := two_le_length_parts h hk
  rw [hone] at hlen
  cases hlen with
  | step hlen => cases hlen

/-- A conditional expression keeps its condition and its alternative if these are one part each. -/
theorem rereads_ternary {cond yes no : Tree} (hcond : IsExpression types cond)
    (hno : IsExpression types no) : Rereads (.plain .ternary pos [cond, yes, no]) ↔
      (cond.kind ≠ .assign ∧ no.kind ≠ .assign) ∧ Rereads cond ∧ Rereads yes ∧ Rereads no := by
  unfold Rereads
  rw [reread_ternary]
  constructor
  · intro h
    obtain ⟨conds, c, n, nos, hconds, hnos, hchoice⟩ := exists_choice cond (reread yes) no
    rw [hchoice] at h
    -- only a chain of one part is no assignment
    have hlen : ¬ 2 ≤ (conds ++ Tree.plain .ternary {} [c, reread yes, n] :: nos).length := by
      intro hle
      have hkind := congrArg Tree.kind h
      rw [kind_unplaced, kind_chain hle] at hkind
      cases hkind
    rw [length_append, length_cons] at hlen
    obtain rfl : conds = [] := eq_nil_of_length_eq_zero (by omega)
    obtain rfl : nos = [] := eq_nil_of_length_eq_zero (by omega)
    obtain ⟨hkc, rfl⟩ := reread_of_parts hcond hconds
    obtain ⟨hkn, rfl⟩ := reread_of_parts hno hnos
    rw [nil_append, chain, Tree.unplaced_plain, Tree.unplaced_plain] at h
    simp only [Tree.plain, map_cons, map_nil, Rose.node.injEq, cons.injEq, true_and,
      and_true] at h
    exact ⟨⟨hkc, hkn⟩, h⟩
  · rintro ⟨⟨hkc, hkn⟩, hc, hy, hn⟩
    rw [parts_eq_reread hkc, parts_eq_reread hkn]
    change (Tree.plain .ternary {} [reread cond, reread yes, reread no]).unplaced = _
    simp only [Tree.unplaced_plain, map_cons, map_nil, hc, hy, hn]

theorem rereads_assign {target value : Tree} (htarget : IsExpression types target) :
    Rereads (.operated .assign pos .assign [target, value]) ↔
      target.kind ≠ .assign ∧ Rereads target ∧ Rereads value := by
  unfold Rereads
  rw [reread_assign]
  constructor
  · intro h
    obtain ⟨first, rest, hparts⟩ := exists_cons_of_ne_nil (parts_ne_nil target)
    have hne : rest ++ parts value ≠ [] :=
      append_ne_nil_of_right_ne_nil _ (parts_ne_nil value)
    rw [hparts, cons_append, chain_cons hne, Tree.unplaced_operated,
      Tree.unplaced_operated] at h
    simp only [Tree.operated, map_cons, map_nil, Rose.node.injEq, cons.injEq,
      true_and, and_true] at h
    obtain ⟨hfirst, hrest⟩ := h
    -- the first part has as many nodes as the target, so there is no other
    have hsize : first.size = target.size := by
      have heq := congrArg Rose.size hfirst
      unfold Tree.unplaced at heq
      rwa [Rose.size_map, Rose.size_map] at heq
    have hsum := size_parts target
    rw [hparts, Rose.sizeAll, length_cons] at hsum
    obtain rfl : rest = [] := eq_nil_of_length_eq_zero (by omega)
    obtain ⟨hkind, rfl⟩ := reread_of_parts htarget hparts
    exact ⟨hkind, hfirst, hrest⟩
  · rintro ⟨hkind, htarget, hvalue⟩
    rw [parts_eq_reread hkind, singleton_append, chain_cons (parts_ne_nil value)]
    change (Tree.operated .assign {} .assign [reread target, reread value]).unplaced = _
    simp only [Tree.unplaced_operated, map_cons, map_nil, htarget, hvalue]

theorem forall_subtrees_node {P : Tree → Prop} : (∀ u ∈ (Rose.node l ts).subtrees, P u) ↔
    P (.node l ts) ∧ ∀ t ∈ ts, ∀ u ∈ t.subtrees, P u :=
  ⟨fun h => ⟨h _ (Rose.self_mem_subtrees _), fun _ ht => legible_child h ht⟩,
    fun h => ScopeWalk.forall_mem_subtrees h.1 h.2⟩

/-- **What is read again as it was**: nothing is regrouped in it. -/
theorem rereads_iff (h : IsExpression types t) : Rereads t ↔ ∀ u ∈ t.subtrees, Grouped u := by
  have hother : ∀ {l : Label} {ts : List Tree}, l.kind ≠ .assign → l.kind ≠ .ternary →
      (∀ t ∈ ts, (Rereads t ↔ ∀ u ∈ t.subtrees, Grouped u)) →
      (Rereads (.node l ts) ↔ ∀ u ∈ (Rose.node l ts).subtrees, Grouped u) := by
    intro l ts hassign hternary hts
    have hgrouped : Grouped (.node l ts) :=
      ⟨fun hk => absurd hk hassign, fun hk => absurd hk hternary, fun hk => absurd hk hternary⟩
    rw [rereads_other hassign hternary, forall_subtrees_node, and_iff_right hgrouped]
    exact forall₂_congr hts
  have hleaf : ∀ {l : Label}, l.kind ≠ .assign → l.kind ≠ .ternary →
      (Rereads (.node l []) ↔ ∀ u ∈ (Rose.node l []).subtrees, Grouped u) :=
    fun hassign hternary => hother hassign hternary fun _ hm => by cases hm
  induction h with
  | int | float | bool | name => exact hleaf (fun he => by cases he) (fun he => by cases he)
  | construct _ _ _ ih | call _ _ _ ih =>
    exact hother (fun he => by cases he) (fun he => by cases he) (forall_mem_cons.2
      ⟨hleaf (fun he => by cases he) (fun he => by cases he), forall_mem_singleton.2
        (hother (fun he => by cases he) (fun he => by cases he) ih)⟩)
  | index _ _ ihb ihi =>
    exact hother (fun he => by cases he) (fun he => by cases he)
      (forall_mem_cons.2 ⟨ihb, forall_mem_singleton.2 ihi⟩)
  | member _ _ ih =>
    exact hother (fun he => by cases he) (fun he => by cases he) (forall_mem_cons.2
      ⟨ih, forall_mem_singleton.2 (hleaf (fun he => by cases he) (fun he => by cases he))⟩)
  | unary _ _ ih =>
    exact hother (fun he => by cases he) (fun he => by cases he) (forall_mem_singleton.2 ih)
  | binary _ _ _ ihl ihr =>
    exact hother (fun he => by cases he) (fun he => by cases he)
      (forall_mem_cons.2 ⟨ihl, forall_mem_singleton.2 ihr⟩)
  | @ternary pos c y n hc _ hn ihc ihy ihn =>
    have hgrouped : Grouped (.plain .ternary pos [c, y, n]) ↔
        c.kind ≠ .assign ∧ n.kind ≠ .assign := by
      refine ⟨fun hg => ⟨hg.condition rfl c rfl, hg.alternative rfl n rfl⟩, fun hg => ⟨?_, ?_, ?_⟩⟩
      · exact fun hk => by cases hk
      · rintro - u hu
        cases hu
        exact hg.1
      · rintro - u hu
        cases hu
        exact hg.2
    rw [rereads_ternary hc hn, Tree.plain, forall_subtrees_node, ← Tree.plain, hgrouped,
      forall_mem_cons, forall_mem_cons, forall_mem_singleton]
    exact and_congr_right' (and_congr ihc (and_congr ihy ihn))
  | @assign pos l r hl _ ihl ihr =>
    have hgrouped : Grouped (.operated .assign pos .assign [l, r]) ↔ l.kind ≠ .assign := by
      refine ⟨fun hg => hg.target rfl l rfl, fun hg => ⟨?_, ?_, ?_⟩⟩
      · rintro - u hu
        cases hu
        exact hg
      · exact fun hk => by cases hk
      · exact fun hk => by cases hk
    rw [rereads_assign hl, Tree.operated, forall_subtrees_node, ← Tree.operated, hgrouped,
      forall_mem_cons, forall_mem_singleton]
    exact and_congr_right' (and_congr ihl ihr)

instance (t : Tree) : Decidable (Readable t) :=
  decidable_of_iff (t.kind ≠ .floatConst ∧
    (t.kind = .member → ∀ u : Tree, u ∈ t.children[0]? → u.kind ≠ .intConst))
    ⟨fun h => ⟨h.1, h.2⟩, fun h => ⟨h.float, h.base⟩⟩

instance (t : Tree) : Decidable (Grouped t) :=
  decidable_of_iff ((t.kind = .assign → ∀ u : Tree, u ∈ t.children[0]? → u.kind ≠ .assign) ∧
    (t.kind = .ternary → ∀ u : Tree, u ∈ t.children[0]? → u.kind ≠ .assign) ∧
    (t.kind = .ternary → ∀ u : Tree, u ∈ t.children[2]? → u.kind ≠ .assign))
    ⟨fun h => ⟨h.1, h.2.1, h.2.2⟩, fun h => ⟨h.target, h.condition, h.alternative⟩⟩

/-- **Which printed expressions are read again as they were.** Take any expression that was read
with the builtin types and has no floats and no member of an integer in it, however its assignments
are nested. Its own-language text, at every depth and with all options, is read again without an
error, and what is read is the expression with its assignments regrouped. That is the same
expression, apart from positions, if and only if no assignment in it is the target of another one
or the condition or the alternative of a conditional expression. -/
theorem expression_rereads_iff {a a' b : Arena} {id : NodeId}
    {text file text' file' source : String} (ctx : Context) (options : Options) (d : Nat)
    (ha : a.WellFormed) (ha' : a'.WellFormed)
    (hparse : (Context.new text file).parse a .expression source = .ok (b, id))
    (hreadable : ∀ u ∈ (b.tree id).subtrees, Readable u) :
    ∃ s, emit ctx options d (b.tree id) = .ok s ∧
      ∃ b' id', (Context.new text' file').parse a' .expression s = .ok (b', id') ∧
        (b'.tree id').unplaced = (reread (b.tree id)).unplaced ∧
        ((b'.tree id').unplaced = (b.tree id).unplaced ↔
          ∀ u ∈ (b.tree id).subtrees, Grouped u) := by
  have hshape : IsExpression Builtin.types (b.tree id) :=
    JavaScript.parse_expression_shape ha hparse
  obtain ⟨s, hs⟩ := emit_reread ctx options d selfNamed_builtin hshape hreadable
  have hwritten : Written (Context.new text' file').types 1 s.toList (reread (b.tree id)) := hs.whole
  obtain ⟨u, hu, hunplaced⟩ := Context.parseTree_expression hwritten
  obtain ⟨b', id', hparse', htree'⟩ := Context.exists_parse ha' hu
  have htree : (b'.tree id').unplaced = (reread (b.tree id)).unplaced := by rw [htree', hunplaced]
  refine ⟨s, hs.printed, b', id', hparse', htree, ?_⟩
  rw [htree]
  exact rereads_iff hshape

/-- Assignments in an index, an operand, an argument and the first branch of a condition, and as
the value of one another. -/
def nestedText : String := "x[a = b].y = z = -(c = d) * f(e = 2, (g > h) ? g = h : i)"

theorem expression_rereads_nestedText : ∃ b id s b' id',
    (Context.new "" "").parse {} .expression nestedText = .ok (b, id) ∧
      (∀ u ∈ (b.tree id).subtrees, Readable u) ∧ (∀ u ∈ (b.tree id).subtrees, Grouped u) ∧
      emit (Context.new "" "") {} 0 (b.tree id) = .ok s ∧
      (Context.new "" "").parse {} .expression s = .ok (b', id') ∧
      (b'.tree id').unplaced = (b.tree id).unplaced := by
  have hcheck : ((Context.new "" "").parse {} .expression nestedText >>= fun r =>
      pure (decide ((∀ u ∈ (r.1.tree r.2).subtrees, Readable u) ∧
        ∀ u ∈ (r.1.tree r.2).subtrees, Grouped u))) = .ok true := by
    decide +kernel
  obtain ⟨⟨b, id⟩, hparse, hfacts⟩ := Except.bind_eq_ok.1 hcheck
  obtain ⟨hreadable, hgrouped⟩ := of_decide_eq_true (Except.ok.inj hfacts)
  obtain ⟨s, hs, b', id', hparse', -, hiff⟩ := expression_rereads_iff (Context.new "" "") {} 0
    Arena.wellFormed_empty Arena.wellFormed_empty hparse hreadable
  exact ⟨b, id, s, b', id', hparse, hreadable, hgrouped, hs, hparse', hiff.2 hgrouped⟩

/-- An expression printed and read again: its text, and whether its tree has changed. -/
def respelled (source : String) : Except Error (String × Bool) := do
  let read ← (Context.new "" "").parse {} .expression source
  let s ← emit (Context.new "" "") {} 0 (read.1.tree read.2)
  let again ← (Context.new "" "").parse {} .expression s
  return (s, (again.1.tree again.2).unplaced ≠ (read.1.tree read.2).unplaced)

/-- **An assignment that is a target, a condition or an alternative is regrouped.** -/
theorem assignments_regrouped :
    (respelled "(a = b) = c").toOption = some ("a = b = c", true) ∧
      (respelled "(a = b) ? c : d").toOption = some ("(a = b ? c : d)", true) ∧
      (respelled "c ? d : (a = b)").toOption = some ("(c ? d : a = b)", true) := by
  decide +kernel

end VecLang.Emit.Source
