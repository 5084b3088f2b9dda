import VecLang.Proofs.Traversal.Semantics

/-!
# The sites of a tree

What a walk knows at each node of a tree: the names in scope around the node, its place
and its tree. The sites of a tree are listed in preorder.

* `sites`: the sites of a tree.
* `Regular`: what holds at every node of a program.
* `Walks.inert`: a rule that replaces statements alone leaves expressions as they are.
-/

namespace VecLang.ScopeWalk

open List

variable {rule : Rule}

/-- A node of a tree, with the names in scope around it and its place. -/
structure Site where
  around : Names
  place : Place
  tree : Tree

def inside (σ : Names) (t : Tree) : Names := ((opens σ t).map Prod.fst).getD σ

mutual

/-- The nodes of a tree at a place, with the names `σ` in scope around it. -/
def sites (σ : Names) (p : Place) : Tree → List Site
  | .node l ts =>
    ⟨σ, p, .node l ts⟩ ::
      sitesAll (inside σ (.node l ts)) (.below l.kind true) (.below l.kind false) ts

/-- The nodes of the trees of a list, the first at place `p` and the others at place `q`. -/
def sitesAll (σ : Names) (p q : Place) : List Tree → List Site
  | [] => []
  | t :: ts => sites σ p t ++ sitesAll (after σ t) q q ts

end

/-- A walk with the rule goes into the node and keeps it. -/
def Site.Kept (rule : Rule) (s : Site) : Prop :=
  ∃ σ₁ opened, opens s.around s.tree = some (σ₁, opened) ∧ rule σ₁ s.place s.tree = .keep

section Sites

variable {σ σ₁ τ : Names} {p q : Place} {l : Label} {t u : Tree} {ts us : List Tree} {s : Site}
  {opened : Bool} {P : Site → Prop}

theorem inside_eq (h : opens σ t = some (σ₁, opened)) : inside σ t = σ₁ := by
  unfold inside
  rw [h]
  rfl

theorem root_mem_sites (σ : Names) (p : Place) (t : Tree) : ⟨σ, p, t⟩ ∈ sites σ p t := by
  obtain ⟨l, ts⟩ := t
  rw [sites]
  exact .head _

theorem mem_sitesAll_cons :
    s ∈ sitesAll σ p q (t :: ts) ↔ s ∈ sites σ p t ∨ s ∈ sitesAll (after σ t) q q ts := by
  rw [sitesAll, mem_append]

theorem mem_sites_node (h : opens σ (.node l ts) = some (σ₁, opened)) :
    s ∈ sites σ p (.node l ts) ↔ s = ⟨σ, p, .node l ts⟩ ∨
      s ∈ sitesAll σ₁ (.below l.kind true) (.below l.kind false) ts := by
  rw [sites, inside_eq h, mem_cons]

theorem after_node (h : opens σ (.node l ts) = some (σ₁, opened)) :
    after σ (.node l ts) = if opened then σ else afterAll σ₁ ts := by
  rw [after, h]
  cases opened <;> rfl

theorem opens_plain (hdecl : l.kind ≠ .varDecl) (hfun : l.kind ≠ .function)
    (hmem : isMemberAccess l = false) : opens σ (.node l ts) = some (σ, false) := by
  rw [opens, if_neg hdecl, if_neg hfun, hmem]
  rfl

theorem isMemberAccess_of_kind (hk : l.kind = .member) : isMemberAccess l = true := by
  unfold isMemberAccess
  rw [hk]
  rfl

theorem kind_ne_member (h : isMemberAccess l = false) : l.kind ≠ .member := by
  intro hk
  rw [isMemberAccess_of_kind hk] at h
  cases h

theorem opens_member (σ : Names) (base : Tree) (rest : List Tree) (hk : l.kind = .member) :
    opens σ (.node l (base :: rest)) =
      if base.entry.kind = .ident then
        (σ (base.entry.name?.getD "")).map fun t => (σ.bind thisName t, true)
      else some (σ, true) := by
  rw [opens, if_neg (by rw [hk]; exact fun h => by cases h),
    if_neg (by rw [hk]; exact fun h => by cases h), if_pos (isMemberAccess_of_kind hk)]
  rfl

/-- Inside of a member access the name that it accesses is bound as it is around. -/
theorem inside_member {base : Tree} {rest : List Tree} {name : String} (hk : l.kind = .member)
    (hbase : base.entry.kind = .ident → base.entry.name? = some name) :
    inside σ (.node l (base :: rest)) name = σ name := by
  unfold inside
  rw [opens_member σ base rest hk]
  split
  · next hident =>
    rw [hbase hident, Option.getD_some]
    cases hname : σ name with
    | none => exact hname
    | some t =>
      change (σ.bind thisName t) name = some t
      unfold Names.bind
      split
      · rfl
      · exact hname
  · rfl

theorem opens_typed (hl : l.kind = .varDecl ∨ l.kind = .function) {rest rest' : List Tree} :
    opens σ (.node l (t :: rest)) = opens σ (.node l (t :: rest')) := by
  unfold opens
  rcases hl with hl | hl <;> simp [hl]

theorem length_sites (t : Tree) (σ : Names) (p : Place) : (sites σ p t).length = t.size := by
  induction t using Rose.induction generalizing σ p with
  | node l ts ih =>
    have hall : ∀ (us : List Tree) (σ : Names) (p q : Place), us ⊆ ts →
        (sitesAll σ p q us).length = Rose.sizeAll us := by
      intro us
      induction us with
      | nil => intro σ p q _; rfl
      | cons u us ihs =>
        intro σ p q hsub
        rw [sitesAll, length_append, Rose.sizeAll, ih u (hsub (.head _)),
          ihs _ _ _ fun x hx => hsub (.tail _ hx)]
    rw [sites, length_cons, hall ts _ _ _ fun _ hx => hx, Rose.size, Nat.add_comm]

theorem afterAll_append (σ : Names) (ts us : List Tree) :
    afterAll σ (ts ++ us) = afterAll (afterAll σ ts) us := by
  induction ts generalizing σ with
  | nil => rfl
  | cons t ts ih => exact ih (after σ t)

theorem sitesAll_append (σ : Names) (p : Place) (ts us : List Tree) :
    sitesAll σ p p (ts ++ us) = sitesAll σ p p ts ++ sitesAll (afterAll σ ts) p p us := by
  induction ts generalizing σ with
  | nil => rw [sitesAll]; rfl
  | cons t ts ih => rw [cons_append, sitesAll, ih, sitesAll, afterAll, append_assoc]

theorem forall_sitesAll_cons :
    (∀ s ∈ sitesAll σ p q (t :: ts), P s) ↔
      (∀ s ∈ sites σ p t, P s) ∧ ∀ s ∈ sitesAll (after σ t) q q ts, P s := by
  rw [sitesAll, forall_mem_append]

theorem forall_sitesAll_singleton : (∀ s ∈ sitesAll σ p q [t], P s) ↔ ∀ s ∈ sites σ p t, P s := by
  rw [sitesAll, sitesAll, append_nil]

theorem forall_sites_node (h : opens σ (.node l ts) = some (σ₁, opened)) :
    (∀ s ∈ sites σ p (.node l ts), P s) ↔ P ⟨σ, p, .node l ts⟩ ∧
      ∀ s ∈ sitesAll σ₁ (.below l.kind true) (.below l.kind false) ts, P s := by
  rw [sites, inside_eq h, forall_mem_cons]

theorem forall_sitesAll_append :
    (∀ s ∈ sitesAll σ p p (ts ++ us), P s) ↔
      (∀ s ∈ sitesAll σ p p ts, P s) ∧ ∀ s ∈ sitesAll (afterAll σ ts) p p us, P s := by
  rw [sitesAll_append, forall_mem_append]

theorem mem_sitesAll_inert (h : ∀ t ∈ ts, Inert t) (hs : s ∈ sitesAll σ p q ts) :
    ∃ t ∈ ts, ∃ r, (r = p ∨ r = q) ∧ s ∈ sites σ r t := by
  induction ts generalizing p with
  | nil =>
    rw [sitesAll] at hs
    cases hs
  | cons t ts ih =>
    rcases mem_sitesAll_cons.1 hs with hs | hs
    · exact ⟨t, .head _, p, .inl rfl, hs⟩
    · rw [after_eq_self (h t (.head _))] at hs
      obtain ⟨u, hu, r, hr, hs⟩ := ih (fun u hu => h u (.tail _ hu)) hs
      exact ⟨u, .tail _ hu, r, .inr (hr.elim id id), hs⟩

theorem sites_subset_sitesAll (σ : Names) (p q : Place) (h : ∀ t ∈ ts, Inert t) (ht : t ∈ ts) :
    ∃ r, (r = p ∨ r = q) ∧ ∀ s ∈ sites σ r t, s ∈ sitesAll σ p q ts := by
  induction ts generalizing p with
  | nil => cases ht
  | cons u ts ih =>
    rcases mem_cons.1 ht with rfl | ht
    · exact ⟨p, .inl rfl, fun s hs => mem_sitesAll_cons.2 (.inl hs)⟩
    · obtain ⟨r, hr, hsub⟩ := ih q (fun u hu => h u (.tail _ hu)) ht
      refine ⟨r, .inr (hr.elim id id), fun s hs => mem_sitesAll_cons.2 (.inr ?_)⟩
      rw [after_eq_self (h u (.head _))]
      exact hsub s hs

theorem place_ne_statement : Inert t → p ≠ .statement → s ∈ sites σ p t → s.place ≠ .statement := by
  induction t using Rose.induction generalizing σ p with
  | node l ts ih =>
    intro h hp hs
    rw [sites, mem_cons] at hs
    rcases hs with rfl | hs
    · exact hp
    · obtain ⟨t, ht, r, hr, hs⟩ := mem_sitesAll_inert (fun t ht => h.of_mem ht) hs
      refine ih t ht (h.of_mem ht) ?_ hs
      rintro rfl
      rcases hr with hr | hr <;> exact h.root.2.2 (below_eq_statement.1 hr.symm)

theorem not_kept (ho : opens σ t = some (σ₁, opened)) (h : rule σ₁ p t ≠ .keep) :
    ¬ Site.Kept rule ⟨σ, p, t⟩ := by
  rintro ⟨σ₂, opened', ho', hkeep⟩
  cases ho.symm.trans ho'
  exact h hkeep

/-- **A walk that keeps all sites leaves the trees as they are.** -/
theorem Walks.kept (h : Walks rule σ p q ts us τ) :
    (∀ s ∈ sitesAll σ p q ts, s.Kept rule) → us = ts ∧ τ = afterAll σ ts := by
  induction h with
  | nil => exact fun _ => ⟨rfl, rfl⟩
  | @keep σ σ₁ σ₂ τ p q l ts us rest rest' opened ho _ _ _ ihb ihn =>
    intro hall
    obtain ⟨hnode, hrest⟩ := forall_sitesAll_cons.1 hall
    obtain ⟨rfl, rfl⟩ := ihb ((forall_sites_node ho).1 hnode).2
    rw [after_node ho] at hrest
    obtain ⟨rfl, rfl⟩ := ihn hrest
    rw [afterAll, after_node ho]
    exact ⟨rfl, rfl⟩
  | replace ho hr _ _ _ _ =>
    intro hall
    exact absurd (hall _ (mem_sitesAll_cons.2 (.inl (root_mem_sites _ _ _))))
      (not_kept ho fun h => by cases h.symm.trans hr)

/-- **A rule that replaces statements alone leaves expressions as they are**, and keeps every
node of them. -/
theorem Walks.inert (hrule : ∀ σ p t ts, rule σ p t = .replace ts → p = .statement)
    (h : Walks rule σ p q ts us τ) : (∀ t ∈ ts, Inert t) → p ≠ .statement → q ≠ .statement →
      us = ts ∧ τ = σ ∧ ∀ s ∈ sitesAll σ p q ts, s.Kept rule := by
  induction h with
  | nil =>
    intro _ _ _
    refine ⟨rfl, rfl, fun s hs => ?_⟩
    rw [sitesAll] at hs
    cases hs
  | @keep σ σ₁ σ₂ τ p q l ts us rest rest' opened ho hr _ _ ihb ihn =>
    intro hall hp hq
    have hnode := hall _ (.head _)
    have hbelow : ∀ first, Place.below l.kind first ≠ .statement :=
      fun first he => hnode.root.2.2 (below_eq_statement.1 he)
    obtain ⟨rfl, rfl, hkeptb⟩ := ihb (fun t ht => hnode.of_mem ht) (hbelow true) (hbelow false)
    obtain ⟨rfl, rfl, hkeptn⟩ := ihn (fun t ht => hall t (.tail _ ht)) hq hq
    -- only member accesses open a scope here, and they close it again
    have hσ : (if opened then σ else σ₂) = σ := by
      cases opened with
      | true => rfl
      | false => exact opens_eq_self hnode.root.1 ho
    refine ⟨rfl, hσ, fun s hs => ?_⟩
    rcases mem_sitesAll_cons.1 hs with hs | hs
    · rcases (mem_sites_node ho).1 hs with rfl | hs
      · exact ⟨σ₂, opened, ho, hr⟩
      · exact hkeptb s hs
    · rw [after_eq_self hnode, ← hσ] at hs
      exact hkeptn s hs
  | replace ho hr _ _ _ _ =>
    intro _ hp _
    exact absurd (hrule _ _ _ _ hr) hp

end Sites

/-- Identifiers are leaves, a member access has a base and a member, and an assignment a
target and a value. -/
structure TidyNode (l : Label) (ts : List Tree) : Prop where
  leaf : l.kind = .ident → ts = []
  pair : isMemberAccess l = true → l.kind = .member ∧ ∃ base member, ts = [base, member]
  assigned : l.kind = .assign → ∃ target value, ts = [target, value]

/-- **What holds at every node of a program.** The type of a declaration comes first, a member
has a name, what is called is a leaf and its arguments are listed, and what is accessed or
assigned is an expression. -/
structure RegularNode (l : Label) (ts : List Tree) : Prop extends TidyNode l ts where
  typed : l.kind = .varDecl ∨ l.kind = .function →
    ∃ l' rest, ts = .node l' [] :: rest ∧ l'.kind = .varType
  named : l.kind = .member → ∃ base l' name, ts = [base, .node l' []] ∧ l'.kind = .ident ∧
    l'.name? = some name
  called : l.kind = .call → ∃ l' args, ts = [.node l' [], args] ∧ args.entry.kind = .args
  inert : l.kind = .member ∨ l.kind = .assign → ∀ t ∈ ts, Inert t

def Tidy (t : Tree) : Prop := ∀ u ∈ t.subtrees, TidyNode u.entry u.children

def Regular (t : Tree) : Prop := ∀ u ∈ t.subtrees, RegularNode u.entry u.children

section Regular

variable {l : Label} {t : Tree} {ts : List Tree}

theorem forall_mem_subtrees {P : Tree → Prop} (h : P (.node l ts))
    (hts : ∀ t ∈ ts, ∀ u ∈ t.subtrees, P u) : ∀ u ∈ (Rose.node l ts).subtrees, P u := by
  intro u hu
  rw [Rose.subtrees, Rose.subtreesAll_eq_flatMap, mem_cons] at hu
  rcases hu with rfl | hu
  · exact h
  · obtain ⟨t, ht, hu⟩ := mem_flatMap.1 hu
    exact hts t ht u hu

theorem Tidy.node (h : TidyNode l ts) (hts : ∀ t ∈ ts, Tidy t) : Tidy (.node l ts) :=
  forall_mem_subtrees h hts

theorem Tidy.root (h : Tidy (.node l ts)) : TidyNode l ts := h _ (Rose.self_mem_subtrees _)

theorem Tidy.of_mem (h : Tidy (.node l ts)) (ht : t ∈ ts) : Tidy t :=
  fun u hu => h u (Rose.mem_subtrees_of_mem ht hu)

theorem Regular.node (h : RegularNode l ts) (hts : ∀ t ∈ ts, Regular t) : Regular (.node l ts) :=
  forall_mem_subtrees h hts

theorem Regular.root (h : Regular (.node l ts)) : RegularNode l ts := h _ (Rose.self_mem_subtrees _)

theorem Regular.of_mem (h : Regular (.node l ts)) (ht : t ∈ ts) : Regular t :=
  fun u hu => h u (Rose.mem_subtrees_of_mem ht hu)

theorem Regular.of_mem_subtrees {u : Tree} (h : Regular t) (hu : u ∈ t.subtrees) : Regular u :=
  fun w hw => h w (Rose.mem_subtrees_trans hu hw)

theorem Regular.tidy (h : Regular t) : Tidy t := fun u hu => (h u hu).toTidyNode

theorem RegularNode.of_kind (hmember : isMemberAccess l = false)
    (hl : l.kind ∉ [.ident, .varDecl, .function, .assign, .call]) : RegularNode l ts := by
  simp only [mem_cons, not_mem_nil, or_false, not_or] at hl
  obtain ⟨hident, hdecl, hfun, hassign, hcall⟩ := hl
  have hkind := kind_ne_member hmember
  refine ⟨⟨fun h => absurd h hident, fun h => ?_, fun h => absurd h hassign⟩, fun h => ?_,
    fun h => absurd h hkind, fun h => absurd h hcall, fun h => ?_⟩
  · rw [hmember] at h
    cases h
  · exact h.elim (absurd · hdecl) (absurd · hfun)
  · exact h.elim (absurd · hkind) (absurd · hassign)

theorem TidyNode.opens_eq (h : TidyNode l ts) (hl : l.kind ∉ [.varDecl, .function, .member])
    (σ : Names) : opens σ (.node l ts) = some (σ, false) := by
  simp only [mem_cons, not_mem_nil, or_false, not_or] at hl
  exact opens_plain hl.1 hl.2.1 (Bool.eq_false_iff.2 fun hm => hl.2.2 (h.pair hm).1)

theorem Regular.call {pos : Pos} {callee : Label} {args : Tree} (hargs : args.entry.kind = .args)
    (hc : Regular (.node callee [])) (ha : Regular args) :
    Regular (.plain .call pos [.node callee [], args]) := by
  refine .node ⟨⟨(fun h => by cases h), (fun h => by cases h), (fun h => by cases h)⟩, fun h => ?_, (fun h => by cases h),
    fun _ => ⟨callee, args, rfl, hargs⟩, fun h => ?_⟩ fun t ht => ?_
  · rcases h with h | h <;> cases h
  · rcases h with h | h <;> cases h
  · rcases mem_cons.1 ht with rfl | ht
    · exact hc
    · exact mem_singleton.1 ht ▸ ha

end Regular

end VecLang.ScopeWalk
