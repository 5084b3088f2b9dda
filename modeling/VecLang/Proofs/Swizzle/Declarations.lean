import VecLang.Proofs.Swizzle.Complete

/-!
# Declarations outlast the lowering

The lowering replaces accesses of members and assignments, and these stand below the
initial values of declarations and in the bodies of functions. So the nodes that a host
or a table refers to by id stay where they are: the root, what stands directly below it,
and the type that each of these starts with (`topNodes`).

* `Topped.step`: the step, for one replacement. None of the nodes is replaced, since the way
  up from each of them meets no access and no assignment.
* `compile_sameTop`: **the top of a compiled program is that of the parsed one.**
-/

namespace VecLang.Swizzle

open Arena ScopeWalk Grammar List

/-- The root of a program, the nodes directly below it, and the first child of each of them. -/
def topNodes (a : Arena) (root : Nat) : List Nat :=
  root :: (a.children root ++ (a.children root).filterMap (a.child? · 0))

/-- **The top of a forest** is free of what the lowering replaces. -/
structure Topped (root : Nat) (a : Arena) : Prop where
  wellFormed : a.WellFormed
  lt_size : root < a.size
  top : a.parent? root = none
  plain : ∀ x ∈ topNodes a root, a.kind x ≠ .member ∧ a.kind x ≠ .assign

/-- **The same top**: the root lists the same nodes, and these start with the same types. -/
structure SameTop (root : Nat) (a b : Arena) : Prop where
  root? : b.root? = a.root?
  children : b.children root = a.children root
  first : ∀ d ∈ a.children root, b.child? d 0 = a.child? d 0
  label : ∀ x ∈ topNodes a root, b.label x = a.label x

variable {root : Nat} {a b c : Arena}

theorem mem_topNodes {x : Nat} : x ∈ topNodes a root ↔
    x = root ∨ x ∈ a.children root ∨ ∃ d ∈ a.children root, a.child? d 0 = some x := by
  unfold topNodes
  rw [mem_cons, mem_append, mem_filterMap]

theorem SameTop.refl (root : Nat) (a : Arena) : SameTop root a a :=
  ⟨rfl, rfl, fun _ _ => rfl, fun _ _ => rfl⟩

theorem SameTop.topNodes_eq (h : SameTop root a b) : topNodes b root = topNodes a root := by
  unfold topNodes
  rw [h.children, filterMap_congr h.first]

theorem SameTop.trans (h : SameTop root a b) (h' : SameTop root b c) : SameTop root a c := by
  refine ⟨h'.root?.trans h.root?, h'.children.trans h.children, fun d hd => ?_, fun x hx => ?_⟩
  · have hd' : d ∈ b.children root := h.children ▸ hd
    exact (h'.first d hd').trans (h.first d hd)
  · have hx' : x ∈ topNodes b root := h.topNodes_eq ▸ hx
    exact (h'.label x hx').trans (h.label x hx)

theorem Topped.lt_size_of_mem (h : Topped root a) {x : Nat} (hx : x ∈ topNodes a root) :
    x < a.size := by
  rcases mem_topNodes.1 hx with rfl | hx | ⟨d, -, hx⟩
  · exact h.lt_size
  · exact h.wellFormed.child_lt hx
  · exact h.wellFormed.child_lt (mem_of_getElem? hx)

theorem Topped.up (h : Topped root a) {x y : Nat} (hx : x ∈ topNodes a root)
    (hu : a.Under x y) : y ∈ topNodes a root := by
  induction hu with
  | refl => exact hx
  | @child x p y hp _ ih =>
    refine ih ?_
    rcases mem_topNodes.1 hx with rfl | hx | ⟨d, hd, hx⟩
    · rw [h.top] at hp
      cases hp
    · rw [(h.wellFormed.linked root x).1 hx] at hp
      cases hp
      exact mem_topNodes.2 (.inl rfl)
    · rw [(h.wellFormed.linked d x).1 (mem_of_getElem? hx)] at hp
      cases hp
      exact mem_topNodes.2 (.inr (.inl hd))

theorem getElem?_zero_splice {old : Nat} {news l : List Nat} (h : l[0]? ≠ some old) :
    (splice old news l)[0]? = l[0]? := by
  cases l with
  | nil => rfl
  | cons c l =>
    have hne : c ≠ old := fun he => h (congrArg some he)
    unfold splice
    rw [flatMap_cons, if_neg hne]
    rfl

/-- **One replacement** of an access or an assignment leaves the top as it is. -/
theorem Topped.step (h : Topped root a) {s : Rose Nat} {ss : List (Rose Nat)}
    (hrw : Rewrites a s b ss) (hkind : a.kind s.entry = .member ∨ a.kind s.entry = .assign) :
    Topped root b ∧ SameTop root a b := by
  have hentry : s.entry ∉ topNodes a root := by
    intro hm
    obtain ⟨hmember, hassign⟩ := h.plain _ hm
    exact hkind.elim hmember hassign
  have hout : ∀ x ∈ topNodes a root, x ∉ s.preorder := by
    intro x hx hm
    exact hentry (h.up hx ((hrw.focus.mem_preorder h.wellFormed).1 hm))
  have hroot : root ∈ topNodes a root := (.head _)
  have hchildren : b.children root = a.children root := by
    rw [hrw.children root h.lt_size (hout root hroot)]
    exact splice_eq_self fun hm => hentry (mem_topNodes.2 (.inr (.inl hm)))
  have hsame : SameTop root a b := by
    refine ⟨hrw.root?, hchildren, fun d hd => ?_, fun x hx => ?_⟩
    · have hdtop := mem_topNodes.2 (.inr (.inl hd))
      unfold child?
      rw [hrw.children d (h.lt_size_of_mem hdtop) (hout d hdtop)]
      exact getElem?_zero_splice fun he => hentry (mem_topNodes.2 (.inr (.inr ⟨d, hd, he⟩)))
    · exact hrw.label x (h.lt_size_of_mem hx) (hout x hx)
  refine ⟨⟨hrw.wellFormed, Nat.lt_of_lt_of_le h.lt_size hrw.size, ?_, fun x hx => ?_⟩, hsame⟩
  · rw [hrw.parent? root h.lt_size (hout root hroot), h.top]
  · rw [hsame.topNodes_eq] at hx
    unfold kind
    rw [hsame.label x hx]
    exact h.plain x hx

variable {types : TypeTable} {v v' : View Unit}

/-- **A walk keeps the top** if its rule replaces accesses and assignments alone. -/
theorem Topped.steps {rule : Rule}
    (hrule : ∀ {σ p t ts}, rule σ p t = .replace ts →
      t.entry.kind = .member ∨ t.entry.kind = .assign) (h : Topped root a)
    (hsteps : Relation.ReflTransGen (Replaces rule) a b) : Topped root b ∧ SameTop root a b := by
  induction hsteps with
  | refl => exact ⟨h, .refl _ _⟩
  | tail _ hstep ih =>
    obtain ⟨σ, s, ss, ts, hrw, hr⟩ := hstep
    have hkind := hrule hr
    rw [Rose.entry_map] at hkind
    obtain ⟨htop, hsame⟩ := ih.1.step hrw hkind
    exact ⟨htop, ih.2.trans hsame⟩

/-- **The lowering keeps the top** of a program. -/
theorem lower_sameTop (ht : Templates types) (hroot : v.arena.root? = some root)
    (htypes : v.context.types = types) (htop : Topped root v.arena) (h : lower v = .ok () v') :
    SameTop root v.arena v'.arena := by
  rw [lower_eq hroot] at h
  obtain ⟨_, v₁, hread, h⟩ := Steps.bind_eq_ok.1 h
  obtain ⟨_, v₂, hreset, hwrite⟩ := Steps.bind_eq_ok.1 h
  rw [Steps.modify_eq_ok] at hreset
  subst hreset
  have hout₁ := lowerWith_outcome (readHook_refines ht) htop.wellFormed htop.lt_size htypes hread
  obtain ⟨htop₁, hsame₁⟩ := htop.steps (fun hr => by
    obtain ⟨_, _, _, _, _, rfl, hk, -⟩ := readRule_replace hr
    exact .inl hk) hout₁.steps
  have htypes₁ : v₁.context.resetScopes.types = types :=
    (congrArg Context.types hout₁.context).trans htypes
  have hout₂ := lowerWith_outcome (v := ⟨v₁.arena, v₁.context.resetScopes, v₁.notes⟩)
    (writeHook_refines ht) htop₁.wellFormed htop₁.lt_size htypes₁ hwrite
  obtain ⟨-, hsame₂⟩ := htop₁.steps (fun hr => by
    obtain ⟨-, _, _, _, _, _, _, rfl, hk, -⟩ := writeRule_replace hr
    exact .inr hk) hout₂.steps
  exact hsame₁.trans hsame₂

/-- Below the root of a program stand declarations and functions, and each starts with a type. -/
theorem starts_of_isItem {t : Tree} (h : IsItem types t) :
    ∃ l u us, t = .node l (u :: us) ∧ (l.kind = .varDecl ∨ l.kind = .function) ∧
      u.entry.kind = .varType := by
  cases h with
  | declaration h =>
    cases h with
    | bare _ _ => exact ⟨_, _, _, rfl, .inl rfl, rfl⟩
    | initial _ _ _ => exact ⟨_, _, _, rfl, .inl rfl, rfl⟩
  | function _ _ _ _ _ _ => exact ⟨_, _, _, rfl, .inr rfl, rfl⟩

theorem topped_of_parsed {p : Program} (hp : Parsed p root) : Topped root p.arena := by
  obtain ⟨ss, hs, htree⟩ := exists_tree_eq hp.wellFormed hp.lt_size
  obtain ⟨pos, items, hprogram, hitems⟩ := hp.shape
  rw [htree, Tree.plain, Rose.node.injEq] at hprogram
  obtain ⟨hlabel, hmap⟩ := hprogram
  have hitem : ∀ x ts, Rose.node x ts ∈ ss →
      (p.arena.kind x = .varDecl ∨ p.arena.kind x = .function) ∧
        ∃ u, p.arena.child? x 0 = some u ∧ p.arena.kind u = .varType := by
    intro x ts hmem
    obtain ⟨l, u, us, ht, hl, hu⟩ :=
      starts_of_isItem (hitems _ (hmap ▸ mem_map_of_mem hmem))
    rw [Rose.map_node, Rose.node.injEq] at ht
    obtain ⟨rfl, hts⟩ := ht
    refine ⟨hl, ?_⟩
    cases ts with
    | nil => cases hts
    | cons t ts =>
      rw [map_cons, cons.injEq] at hts
      refine ⟨t.entry, child?_zero (hs.of_mem hmem), ?_⟩
      rw [← hts.1, Rose.entry_map] at hu
      exact hu
  refine ⟨hp.wellFormed, hp.lt_size, hp.top, fun x hx => ?_⟩
  rw [mem_topNodes, hs.children_eq] at hx
  rcases hx with rfl | hx | ⟨d, hd, hx⟩
  · unfold kind
    rw [hlabel]
    simp
  · obtain ⟨⟨y, ts⟩, hmem, rfl⟩ := mem_map.1 hx
    change p.arena.kind y ≠ _ ∧ p.arena.kind y ≠ _
    rcases (hitem y ts hmem).1 with hk | hk <;> simp [hk]
  · obtain ⟨⟨y, ts⟩, hmem, rfl⟩ := mem_map.1 hd
    obtain ⟨-, u, hu, hk⟩ := hitem y ts hmem
    cases hx.symm.trans hu
    simp [hk]

/-- **The top of a compiled program is that of the parsed one**, and so are its slots and its
overloads, with the lowering and without. -/
theorem compile_sameTop {source filename : String} {lowers : Bool} {p : Program}
    (h : compile source { filename, lowerSwizzles := lowers, passes := [] } = .ok p) :
    ∃ p₀ root, parseProgram source filename = .ok p₀ ∧ Parsed p₀ root ∧
      SameTop root p₀.arena p.arena ∧ p.context.slots = p₀.context.slots ∧
      p.context.overloads = p₀.context.overloads := by
  obtain ⟨p₀, root, hparse, hp, ⟨-, rfl⟩ | ⟨rfl, hl⟩⟩ := compile_cases h
  · exact ⟨_, root, hparse, hp, .refl _ _, rfl, rfl⟩
  · refine ⟨p₀, root, hparse, hp, ?_, by rw [hl.context]; rfl, by rw [hl.context]; rfl⟩
    obtain ⟨p₁, hparse₁, h⟩ := Except.bind_eq_ok.1 h
    cases hparse.symm.trans hparse₁
    change p₀.runPasses [Pass.lowerSwizzles] = .ok p at h
    rw [runPasses_lowerSwizzles] at h
    split at h
    · rename_i v hlower
      cases h
      exact lower_sameTop (hp.types ▸ templates_builtin) hp.root? rfl (topped_of_parsed hp) hlower
    · cases h

end VecLang.Swizzle
