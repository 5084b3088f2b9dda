import VecLang.Proofs.Emit.Slots
import VecLang.Proofs.Swizzle.Formed

/-!
# Lowering once more

The lowering of a compiled program that was lowered before has nothing to do, and leaves the
program as it is, if no access that it could replace is left. One is left where a name in a
value was taken for an operand, and then a second lowering goes on where the first one stopped.

* `Resolves`: the names in scope are bound to known types, so that no look at a base fails.
* `runPasses_eq_self_iff`: a second lowering changes nothing exactly if its rules keep all sites.
* `quiet_iff_kept`: which sites the walk of the reads keeps.
* `lowering_idempotent_iff`: **when a second lowering changes nothing.**
-/

namespace VecLang

namespace ScopeWalk

variable {types : TypeTable} {σ σ₁ : Names} {p : Place} {l : Label} {t : Tree} {ts : List Tree}
  {s : Site} {opened : Bool}

/-! ### Types of names -/

/-- The types of all names in scope are known. -/
def Resolves (types : TypeTable) (σ : Names) : Prop :=
  ∀ name t, σ name = some t → (types.resolve t).isOk = true

theorem Resolves.bind (h : Resolves types σ) {t : Ty} (ht : (types.resolve t).isOk = true)
    (name : String) : Resolves types (σ.bind name t) := by
  intro other u hu
  unfold Names.bind at hu
  split at hu
  · cases hu
    exact ht
  · exact h other u hu

theorem Resolves.opens (h : Resolves types σ) (hf : Formed types (.node l ts))
    (ho : opens σ (.node l ts) = some (σ₁, opened)) : Resolves types σ₁ := by
  have htyped := hf.exists_type
  rw [ScopeWalk.opens] at ho
  split at ho
  · next hl =>
    obtain ⟨t, ht, hok⟩ := htyped (.inl hl)
    rw [ht] at ho
    split at ho
    · next name t' _ heq =>
      cases heq
      cases ho
      exact h.bind hok name
    · cases ho
  split at ho
  · next hl =>
    obtain ⟨t, ht, hok⟩ := htyped (.inr hl)
    rw [ht] at ho
    cases ho
    exact h.bind hok returnName
  split at ho
  · split at ho
    · cases ho
      exact h
    · split at ho
      · obtain ⟨t, ht, heq⟩ := Option.map_eq_some_iff.1 ho
        cases heq
        exact h.bind (h _ t ht) thisName
      · cases ho
        exact h
  · cases ho
    exact h

theorem Resolves.inside (h : Resolves types σ) (hf : Formed types (.node l ts)) :
    Resolves types (inside σ (.node l ts)) := by
  unfold ScopeWalk.inside
  cases ho : ScopeWalk.opens σ (.node l ts) with
  | none => exact h
  | some o => exact h.opens hf ho

/-- **Every site of a formed tree is formed, with known types around it.** -/
theorem Resolves.sites (hf : Formed types t) (h : Resolves types σ) :
    Resolves types (after σ t) ∧
      ∀ s ∈ sites σ p t, Formed types s.tree ∧ Resolves types s.around := by
  induction t using Rose.induction generalizing σ p with
  | node l ts ih =>
    have hall : ∀ us : List Tree, us ⊆ ts → ∀ (σ : Names) (p q : Place), Resolves types σ →
        Resolves types (afterAll σ us) ∧
          ∀ s ∈ sitesAll σ p q us, Formed types s.tree ∧ Resolves types s.around := by
      intro us
      induction us with
      | nil =>
        intro _ σ p q h
        refine ⟨h, fun s hs => ?_⟩
        rw [sitesAll] at hs
        cases hs
      | cons u us ihus =>
        intro hsub σ p q h
        have hu := hsub (.head _)
        obtain ⟨hafter, hfirst⟩ := ih u hu (hf.of_mem hu) h (p := p)
        obtain ⟨hafter', hrest⟩ :=
          ihus (fun x hx => hsub (.tail _ hx)) (after σ u) q q hafter
        exact ⟨hafter', forall_sitesAll_cons.2 ⟨hfirst, hrest⟩⟩
    constructor
    · rw [after]
      split
      · next σ₁ ho => exact (hall ts (fun _ hx => hx) σ₁ p p (h.opens hf ho)).1
      · exact h
    · rw [ScopeWalk.sites]
      exact List.forall_mem_cons.2
        ⟨⟨hf, h⟩, (hall ts (fun _ hx => hx) _ _ _ (h.inside hf)).2⟩

theorem resolves_slots {source filename : String} {p₀ : Program} {root : Nat}
    (hparse : parseProgram source filename = .ok p₀) (hp : Parsed p₀ root) :
    Resolves Builtin.types p₀.context.resetScopes.names := by
  intro name t hname
  obtain ⟨b, hb, rfl⟩ := Option.map_eq_some_iff.1 hname
  obtain ⟨slot, hslot, rfl⟩ := Context.exists_slot hb
  obtain ⟨root', hroot, hfiled⟩ := parseProgram_filed hparse
  cases hp.root?.symm.trans hroot
  have hformed := hp.shape.formed closed_builtin
  obtain ⟨ss, hs, htree⟩ := Swizzle.exists_tree_eq hp.wellFormed hp.lt_size
  rw [htree] at hformed
  -- the declaration of the slot stands below the root
  obtain ⟨q, hq⟩ := Slots.mem_all.1 hslot
  have hdecl : slot.decl ∈ (p₀.context.slots.table q).entries.map (·.2.decl) :=
    List.mem_map_of_mem hq
  rw [hfiled.decls q, List.mem_filter, hs.children_eq, List.mem_map] at hdecl
  obtain ⟨⟨⟨d, us⟩, hmem, hentry⟩, hkind⟩ := hdecl
  change d = slot.decl at hentry
  subst hentry
  unfold Collect.isSlot at hkind
  rw [Bool.and_eq_true, beq_iff_eq] at hkind
  have hitem := hformed.of_mem (List.mem_map_of_mem hmem)
  rw [Rose.map_node] at hitem
  obtain ⟨t, ht, hok⟩ := hitem.exists_type (.inl hkind.1)
  have htype := hfiled.types _ hslot
  unfold Collect.declaredType? at htype
  rw [firstType_eq (hs.of_mem hmem), ht] at htype
  cases htype
  exact hok

/-! ### Sites of an arena -/

theorem below_eq_target {k : Kind} {first : Bool} (h : Place.below k first = .target) :
    k = .assign ∧ first = true := by
  unfold Place.below at h
  split at h
  · cases h
  · split at h
    · assumption
    · cases h

theorem exists_assignment (hs : s ∈ sites σ p t) (hplace : s.place = .target) :
    s = ⟨σ, p, t⟩ ∨ ∃ q ∈ sites σ p t, ∃ l rest, q.tree = .node l (s.tree :: rest) ∧
      l.kind = .assign ∧ inside q.around q.tree = s.around := by
  induction t using Rose.induction generalizing σ p with
  | node l ts ih =>
    have hall : ∀ us : List Tree, us ⊆ ts → ∀ (σ : Names) (p q : Place), q ≠ .target →
        s ∈ sitesAll σ p q us → (∃ u rest, us = u :: rest ∧ s = ⟨σ, p, u⟩) ∨
          ∃ q' ∈ sitesAll σ p q us, ∃ l rest, q'.tree = .node l (s.tree :: rest) ∧
            l.kind = .assign ∧ inside q'.around q'.tree = s.around := by
      intro us
      induction us with
      | nil =>
        intro _ σ p q _ hs
        rw [sitesAll] at hs
        cases hs
      | cons u us ihus =>
        intro hsub σ p q hq hs
        rcases mem_sitesAll_cons.1 hs with hs | hs
        · rcases ih u (hsub (.head _)) hs with rfl | ⟨q', hq', h⟩
          · exact .inl ⟨u, us, rfl, rfl⟩
          · exact .inr ⟨q', mem_sitesAll_cons.2 (.inl hq'), h⟩
        · rcases ihus (fun x hx => hsub (.tail _ hx)) _ q q hq hs with
            ⟨u', rest, -, rfl⟩ | ⟨q', hq', h⟩
          · exact absurd hplace hq
          · exact .inr ⟨q', mem_sitesAll_cons.2 (.inr hq'), h⟩
    rw [sites] at hs ⊢
    rcases List.mem_cons.1 hs with rfl | hs
    · exact .inl rfl
    have hlater : Place.below l.kind false ≠ .target := fun h => by
      cases (below_eq_target h).2
    right
    rcases hall ts (fun _ hx => hx) _ _ _ hlater hs with ⟨u, rest, rfl, rfl⟩ | ⟨q, hq, h⟩
    · exact ⟨_, .head _, l, rest, rfl, (below_eq_target hplace).1, rfl⟩
    · exact ⟨q, .tail _ hq, h⟩

theorem forall_mem_iff_of_forall₂ {α β : Type} {R : α → β → Prop} {P : α → Prop} {Q : β → Prop}
    {xs : List α} {ys : List β} (h : List.Forall₂ R xs ys)
    (hiff : ∀ x, ∀ y ∈ ys, R x y → (P x ↔ Q y)) : (∀ x ∈ xs, P x) ↔ ∀ y ∈ ys, Q y := by
  induction h with
  | nil => simp
  | @cons x y xs ys hxy _ ih =>
    rw [List.forall_mem_cons, List.forall_mem_cons, hiff x y (.head _) hxy,
      ih fun x' y' hy' => hiff x' y' (.tail _ hy')]

end ScopeWalk

namespace Swizzle

open ScopeWalk Arena

variable {types : TypeTable} {σ σ₁ : Names} {p : Place} {l : Label} {base t : Tree}
  {rest ts : List Tree} {v : View Unit} {opened : Bool}

/-! ### Sites that stay -/

/-- **No walk of the lowering replaces the site**: it selects no components of an array, or its
member has no name. -/
def Quiet (types : TypeTable) (s : Site) : Prop :=
  memberOf? s.tree.children = none ∨ Settled types s.around s.tree

theorem exists_isArray? (hk : l.kind = .member) (hres : Resolves types σ)
    (ho : opens σ (.node l (base :: rest)) = some (σ₁, opened)) :
    ∃ array, isArray? types (σ (base.entry.name?.getD "")) base = some array := by
  rw [opens_member σ base rest hk] at ho
  unfold isArray?
  split at ho
  · next hid =>
    obtain ⟨t, ht, -⟩ := Option.map_eq_some_iff.1 ho
    have hok := hres _ t ht
    rw [if_pos hid, ht, Option.bind_some]
    cases hresolved : types.resolve t with
    | ok u => exact ⟨u.isArray, rfl⟩
    | error e =>
      rw [hresolved] at hok
      cases hok
  · next hid => exact ⟨true, if_neg hid⟩

theorem keep_of_quiet (hres : Resolves types σ) (ho : opens σ (.node l ts) = some (σ₁, opened))
    (h : Quiet types ⟨σ, p, .node l ts⟩) (q : Place) :
    readRule types σ₁ q (.node l ts) = .keep := by
  by_cases hk : l.kind = .member
  swap
  · exact readRule_of_kind hk
  cases ts with
  | nil => rfl
  | cons base rest =>
    rw [readRule, if_pos hk]
    cases hm : memberOf? (base :: rest) with
    | none => rfl
    | some m =>
      obtain ⟨array, harray⟩ := exists_isArray? hk hres ho
      rw [(isArray?_inside types hk ho).2, harray]
      have hsettled := (h.resolve_left fun hnone => by cases hm.symm.trans hnone) hk
      simp only [hm, Option.map_some, List.head?_cons, Option.bind_some, harray,
        Option.some.injEq] at hsettled
      change readMember types (some array) q l.pos base m = .keep
      unfold readMember
      rcases hsettled with hnone | rfl
      · rw [hnone]
        cases array <;> rfl
      · cases Selection.ofMember? m <;> rfl

/-- What the rule of the reads keeps has nothing to select, or is a vector that is assigned to. -/
theorem readDone_of_readKept (ho : opens σ (.node l ts) = some (σ₁, opened))
    (hr : readRule types σ₁ p (.node l ts) = .keep) :
    memberOf? ts = none ∨ ReadDone types ⟨σ, p, .node l ts⟩ := by
  by_cases hk : l.kind = .member
  swap
  · exact .inr (.inl (settled_of_kind hk))
  cases ts with
  | nil => exact .inl rfl
  | cons base rest =>
    rw [readRule, if_pos hk, (isArray?_inside types hk ho).2] at hr
    cases hm : memberOf? (base :: rest) with
    | none => exact .inl rfl
    | some m =>
      right
      rw [hm] at hr
      change readMember types _ p l.pos base m = .keep at hr
      have hsettled : Selection.ofMember? m = none ∨
          isArray? types (σ (base.entry.name?.getD "")) base = some false →
          ReadDone types ⟨σ, p, .node l (base :: rest)⟩ := by
        refine fun h => .inl fun _ => ?_
        rw [hm, Option.map_some, List.head?_cons, Option.bind_some, Option.some.injEq]
        exact h
      cases hsel : Selection.ofMember? m with
      | none => exact hsettled (.inl hsel)
      | some selection =>
        cases harray : isArray? types (σ (base.entry.name?.getD "")) base with
        | none =>
          rw [harray] at hr
          cases hr
        | some array =>
          cases array with
          | false => exact hsettled (.inr harray)
          | true =>
            unfold readMember at hr
            rw [harray, hsel] at hr
            cases selection with
            | component i => cases hr
            | vector w =>
              simp only at hr
              split at hr
              · next hplace =>
                refine .inr ⟨hplace, w, ?_⟩
                change (memberOf? (base :: rest)).bind _ = _
                rw [hm, Option.bind_some, hsel]
              · cases hr

/-- **The walk of the reads keeps all sites exactly if all are quiet**, in a formed tree whose
assignments the walk of the writes keeps. -/
theorem quiet_iff_kept (hf : Formed types t) (hres : Resolves types σ) (hp : p ≠ .target)
    (hkept : ∀ s ∈ sites σ p t, s.Kept (writeRule types)) :
    (∀ s ∈ sites σ p t, Quiet types s) ↔ ∀ s ∈ sites σ p t, s.Kept (readRule types) := by
  have hsites := (hres.sites hf (p := p)).2
  constructor
  · rintro hquiet ⟨σ', q, ⟨l, ts⟩⟩ hs
    obtain ⟨σ₁, opened, ho, -⟩ := hkept _ hs
    exact ⟨σ₁, opened, ho, keep_of_quiet (hsites _ hs).2 ho (hquiet _ hs) q⟩
  · rintro hread ⟨σ', q, ⟨l, ts⟩⟩ hs
    obtain ⟨σ₁, opened, ho, hr⟩ := hread _ hs
    rcases readDone_of_readKept ho hr with hnone | hdone
    · exact .inl hnone
    right
    by_cases hq : q = .target
    swap
    · exact hdone.resolve_right fun h => hq h.1
    subst hq
    -- the assignment has looked at the target with the same names in scope
    rcases exists_assignment hs rfl with heq | ⟨⟨τ, r, tree⟩, hmem, l', rest, htree, hl', hinside⟩
    · cases heq
      exact absurd rfl hp
    change tree = _ at htree
    subst htree
    obtain ⟨target, value, hpair⟩ := (hsites _ hmem).1.root.pair (by simp [hl'])
    cases hpair
    obtain ⟨σ₂, opened₂, ho₂, hw⟩ := hkept _ hmem
    cases (inside_eq ho₂).symm.trans hinside
    exact settled_target hl' hw hdone

/-! ### Compiled programs -/

/-- **No access that a walk has noted can be lowered**: its member has no name, or it selects no
components of an array. -/
def AllQuiet (a : Arena) (notes : Notes) : Prop :=
  ∀ note ∈ notes, a.kind note.1 = .member →
    memberName? a note.1 = none ∨ Lowered a note.2 note.1

theorem allQuiet_iff {a : Arena} {notes : Notes} {places : List Site} (hw : a.WellFormed)
    (h : List.Forall₂ (NoteOf a types) notes places) :
    AllQuiet a notes ↔ ∀ s ∈ places, Quiet types s := by
  refine forall_mem_iff_of_forall₂ h fun note s hs hnote => ?_
  obtain ⟨ss, hspans, htree⟩ := exists_tree_eq hw hnote.lt_size
  rw [hnote.tree] at htree
  unfold Quiet
  by_cases hk : a.kind note.1 = .member
  · rw [forall_prop_of_true hk, lowered_iff hw hnote hk, memberName?_eq hspans, htree]
    rfl
  · refine iff_of_true (fun h => absurd h hk) (.inr ?_)
    rw [htree]
    exact settled_of_kind hk

section Walks

variable {F : String → Error → Prop} {I : Place → Tree → Prop} {hook : Hook Unit} {rule : Rule}
  {root : Nat} (hhook : Refines F I hook types rule) (hw : v.arena.WellFormed)
  (hlt : root < v.arena.size) (htypes : v.context.types = types)

include hhook hw hlt htypes

theorem lowerWith_eq_self_iff (htop : v.arena.parent? root = none) :
    lowerWith hook root v = .ok () v ↔
      ∀ s ∈ sites v.context.names .top (v.arena.tree root), s.Kept rule := by
  have hs := spans_shape hw hlt
  have hiff := walkScopes_eq_self_iff hhook hw hs htypes
    (Nat.le_trans (hs.size_le hw) (size_le_depthLimit v.arena))
  rw [entry_shape, placeOf_top htop] at hiff
  exact Steps.get_bind.trans hiff

end Walks

/-- **A second lowering leaves a program as it is exactly if both rules keep all sites**: what the
lowering adds it never removes. -/
theorem runPasses_eq_self_iff {p : Program} {root : NodeId} (ht : Templates p.context.types)
    (hroot : p.arena.root? = some root) (hreset : p.context.resetScopes = p.context)
    (hw : p.arena.WellFormed) (hlt : root < p.arena.size) (htop : p.arena.parent? root = none) :
    p.runPasses [Pass.lowerSwizzles] = .ok p ↔
      (∀ s ∈ sites p.context.names .top (p.arena.tree root), s.Kept (readRule p.context.types)) ∧
      ∀ s ∈ sites p.context.names .top (p.arena.tree root), s.Kept (writeRule p.context.types) := by
  have hread := lowerWith_eq_self_iff (v := ⟨p.arena, p.context, ()⟩) (readHook_refines ht) hw hlt
    rfl htop
  have hwrite := lowerWith_eq_self_iff (v := ⟨p.arena, p.context, ()⟩) (writeHook_refines ht) hw hlt
    rfl htop
  rw [runPasses_lowerSwizzles, lower_eq hroot, hreset]
  constructor
  · intro h
    split at h
    swap
    · cases h
    next v₂ hsteps =>
    obtain ⟨_, v₁, hfirst, hsteps⟩ := Steps.bind_eq_ok.1 hsteps
    obtain ⟨_, _, hmodify, hsecond⟩ := Steps.bind_eq_ok.1 hsteps
    obtain rfl := Steps.modify_eq_ok.1 hmodify
    have hlast : v₂.arena.size = p.arena.size := by
      cases h
      rfl
    have hout := lowerWith_outcome (readHook_refines ht) hw hlt rfl hfirst
    obtain ⟨_, _, hrw, -⟩ := hout.refines
    have htypes : v₁.context.resetScopes.types = p.context.types := by
      rw [hout.context]
      rfl
    have hout' := lowerWith_outcome (v := { v₁ with context := v₁.context.resetScopes })
      (writeHook_refines ht) hrw.wellFormed (Nat.lt_of_lt_of_le hlt hrw.size) htypes hsecond
    -- the walk of the reads has left everything for the walk of the writes as it was
    obtain rfl := hout.eq_self (Nat.le_trans hout'.stays.size_le (Nat.le_of_eq hlast))
    obtain rfl := hout'.eq_self (Nat.le_of_eq hlast)
    simp only [hreset] at hsecond
    exact ⟨hread.1 hfirst, hwrite.1 hsecond⟩
  · rintro ⟨hall, hall'⟩
    have hsteps : (do
        lowerWith readHook root
        modify fun v => { v with context := v.context.resetScopes }
        lowerWith writeHook root : Lowering Unit) ⟨p.arena, p.context, ()⟩ =
          .ok () ⟨p.arena, p.context, ()⟩ := by
      refine Steps.bind_eq_ok.2 ⟨(), _, hread.2 hall, ?_⟩
      refine Steps.bind_eq_ok.2 ⟨(), ⟨p.arena, p.context, ()⟩, Steps.modify_eq_ok.2 ?_, hwrite.2 hall'⟩
      rw [hreset]
    rw [hsteps]

/-- **When a second lowering changes nothing.** If a source compiles with the lowering, then its
scopes are those of its slots, and a walk of the compiled program shows every node that is
reachable from the root. To lower the program once more succeeds and leaves the whole program as
it is exactly if no access among these nodes can be lowered. This holds if the assignments of
the program with lowered reads are hygienic, and so if the source uses no name of a
placeholder. -/
theorem lowering_idempotent_iff {source filename : String} {p : Program}
    (h : compile source { filename, lowerSwizzles := true, passes := [] } = .ok p) :
    ∃ p₀ root v, parseProgram source filename = .ok p₀ ∧ p₀.arena.root? = some root ∧
      p.arena.root? = some root ∧ p.context.resetScopes = p.context ∧
      walkScopes (depthLimit p.arena) noteScope root
        { arena := p.arena, context := p.context, notes := [] } = .ok () v ∧
      v.notes.map Prod.fst = p.arena.preorder root ∧
      (p.runPasses [Pass.lowerSwizzles] = .ok p ↔ AllQuiet p.arena v.notes) ∧
      ((∀ s ∈ sites p₀.context.resetScopes.names .top
        (lowerReads p₀.context.types p₀.context.resetScopes.names .top (p₀.arena.tree root)),
        Hygienic p₀.context.types s) → p.runPasses [Pass.lowerSwizzles] = .ok p) ∧
      (Avoids (p₀.arena.tree root) → p.runPasses [Pass.lowerSwizzles] = .ok p) := by
  obtain ⟨p₀, root, hparse, hp, hl⟩ := compile_loweredFrom h
  have hreset : p.context.resetScopes = p.context := by
    rw [hl.context]
    rfl
  have htypes : p.context.types = Builtin.types := by
    rw [hl.context]
    exact hp.types
  have hnames : p₀.context.resetScopes.names = p.context.names := by rw [hl.context]
  have hkept := hl.kept
  have hsettled := hl.settled_iff
  rw [hp.types, hnames] at hkept
  -- every site of a lowered program can be opened, so the walk that notes succeeds
  obtain ⟨v, hwalk, -, -, hpreorder, hnotes⟩ := walkScopes_notes
    (v := { arena := p.arena, context := p.context, notes := [] }) hl.wellFormed
    hl.lt_size (size_le_depthLimit p.arena) rfl .top fun s hs => by
      obtain ⟨σ₁, opened, ho, -⟩ := hkept s hs
      rw [ho]
      rfl
  change List.Forall₂ (NoteOf p.arena p.context.types) v.notes
    (sites p.context.names .top (p.arena.tree root)) at hnotes
  rw [htypes] at hnotes
  have hresolves := resolves_slots hparse hp
  rw [hnames] at hresolves
  have hquiet := quiet_iff_kept (hl.formed hp) hresolves (fun h => by cases h) hkept
  have hself : p.runPasses [Pass.lowerSwizzles] = .ok p ↔ AllQuiet p.arena v.notes := by
    rw [runPasses_eq_self_iff (htypes ▸ templates_builtin) hl.root? hreset hl.wellFormed hl.lt_size
      hl.top, htypes, ← hquiet, allQuiet_iff hl.wellFormed hnotes]
    exact and_iff_left hkept
  have hhygienic : (∀ s ∈ sites p₀.context.resetScopes.names .top
      (lowerReads p₀.context.types p₀.context.resetScopes.names .top (p₀.arena.tree root)),
      Hygienic p₀.context.types s) → p.runPasses [Pass.lowerSwizzles] = .ok p := by
    intro hall
    have hdone := hsettled.2 hall
    rw [hp.types, hnames] at hdone
    exact hself.2 ((allQuiet_iff hl.wellFormed hnotes).2 fun s hs => .inr (hdone s hs))
  exact ⟨p₀, root, v, hparse, hp.root?, hl.root?, hreset, hwalk, hpreorder, hself, hhygienic,
    fun havoids => hhygienic (hl.hygienic havoids)⟩

/-- A program with swizzles on both sides that uses no name of a placeholder. -/
theorem lowering_idempotent_plainText : ∃ p,
    compile plainText { filename := "", lowerSwizzles := true, passes := [] } = .ok p ∧
      p.runPasses [Pass.lowerSwizzles] = .ok p := by
  have hcheck : (do
      let _ ← compile plainText { filename := "", lowerSwizzles := true, passes := [] }
      let p₀ ← parseProgram plainText ""
      return p₀.arena.root?.all fun root => decide (Avoids (p₀.arena.tree root))) =
        Except.ok true := by decide +kernel
  obtain ⟨p, hcompile, hcheck⟩ := Except.bind_eq_ok.1 hcheck
  obtain ⟨p₀, hparse, hcheck⟩ := Except.bind_eq_ok.1 hcheck
  obtain ⟨p₁, root, v, hparse', hroot, -, -, -, -, -, -, havoids⟩ :=
    lowering_idempotent_iff hcompile
  cases hparse.symm.trans hparse'
  have hall := Except.ok.inj hcheck
  rw [hroot, Option.all_some] at hall
  exact ⟨p, hcompile, havoids (of_decide_eq_true hall)⟩

/-- **A second lowering goes on** where a name in a value was taken for the vector that is
assigned to: it adds nodes to the program. -/
theorem second_lowering_adds_nodes : ∃ p p',
    compile capturedText { filename := "", lowerSwizzles := true, passes := [] } = .ok p ∧
      p.runPasses [Pass.lowerSwizzles] = .ok p' ∧ p.arena.size < p'.arena.size := by
  have hcheck : (do
      let p ← compile capturedText { filename := "", lowerSwizzles := true, passes := [] }
      let p' ← p.runPasses [Pass.lowerSwizzles]
      return decide (p.arena.size < p'.arena.size)) = Except.ok true := by decide +kernel
  obtain ⟨p, hp, hcheck⟩ := Except.bind_eq_ok.1 hcheck
  obtain ⟨p', hp', hcheck⟩ := Except.bind_eq_ok.1 hcheck
  exact ⟨p, p', hp, hp', of_decide_eq_true (Except.ok.inj hcheck)⟩

end Swizzle

end VecLang
