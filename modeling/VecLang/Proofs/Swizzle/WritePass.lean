import VecLang.Proofs.Swizzle.Hygiene

/-!
# What the walk of the writes leaves

The walk of the writes splits the assignments to swizzles and keeps every other node.
A second walk would keep every node (`Written.kept`). If the reads were lowered before,
they are so afterwards exactly if the assignments were hygienic (`Written.hygiene`).

* `Walks.written`: what holds after the walk of the writes.
-/

namespace VecLang.Swizzle

open ScopeWalk Arena

/-- **What the walk of the writes leaves**: `us` in the place of `ts`. -/
structure Written (types : TypeTable) (σ : Names) (p q : Place) (ts us : List Tree) (τ : Names) :
    Prop where
  kept : ∀ s ∈ sitesAll σ p q us, s.Kept (writeRule types)
  tidy : ∀ u ∈ us, Tidy u
  before : afterAll σ ts = τ
  behind : afterAll σ us = τ
  hygiene : (∀ s ∈ sitesAll σ p q ts, ReadDone types s) →
    ((∀ s ∈ sitesAll σ p q us, ReadDone types s) ↔ ∀ s ∈ sitesAll σ p q ts, Hygienic types s)
  avoids : (∀ s ∈ sitesAll σ p q ts, ReadDone types s) → (∀ t ∈ ts, Avoids t) →
    ∀ s ∈ sitesAll σ p q ts, Hygienic types s

variable {types : TypeTable} {σ σ₁ σ₂ τ : Names} {p q : Place} {l : Label} {t : Tree}
  {rest ts us : List Tree} {opened : Bool}

theorem hygienic_of_place {s : Site} (h : s.place ≠ .statement) : Hygienic types s := by
  unfold Hygienic
  split
  · split
    · exact fun _ hp => absurd hp h
    · trivial
  · trivial

theorem hygienic_split_iff {target value base : Tree} {sw : Swizzle} (hl : l.kind = .assign)
    (hsw : swizzleTarget? target = some (base, sw))
    (harray : isArray? types (σ (base.entry.name?.getD "")) base = some true) :
    Hygienic types ⟨σ, .statement, .node l [target, value]⟩ ↔
      ∀ part ∈ openParts sw base value, ∀ u ∈ part.1.subtrees, u.entry.kind = .member →
        Settled types σ (Tree.fill part.2 u) := by
  unfold Hygienic
  simp only [hsw]
  exact ⟨fun h => h hl trivial harray, fun h _ _ _ => h⟩

theorem hygienic_of_keep (h : TidyNode l ts) (ho : opens σ (.node l ts) = some (σ₁, opened))
    (hr : writeRule types σ₁ p (.node l ts) = .keep) : Hygienic types ⟨σ, p, .node l ts⟩ := by
  match ts, ho, hr, h with
  | [], _, _, _ => trivial
  | [_], _, _, _ => trivial
  | target :: value :: more, ho, hr, h =>
    unfold Hygienic
    simp only
    split
    · next base sw hsw =>
      intro hl hp harray
      cases (h.opens_eq (by rw [hl]; decide) σ).symm.trans ho
      rw [writeRule, if_pos hl, hsw] at hr
      simp only [harray, if_pos hp] at hr
      cases hr
    · trivial

theorem walks_children_eq (h : Regular (.node l ts)) (hl : l.kind = .member ∨ l.kind = .assign)
    (hw : Walks (writeRule types) σ (.below l.kind true) (.below l.kind false) ts us τ) :
    us = ts := by
  have hblock : ∀ first, Place.below l.kind first ≠ .statement := fun first hp => by
    rw [below_eq_statement.1 hp] at hl
    rcases hl with hl | hl <;> cases hl
  exact (hw.inert (fun _ _ _ _ hr => (writeRule_replace hr).1) (h.root.inert hl) (hblock true)
    (hblock false)).1

theorem walks_leaf_eq (hw : Walks (writeRule types) σ p q (.node l [] :: rest) us τ) :
    ∃ rest', us = .node l [] :: rest' := by
  cases hw with
  | keep _ _ hbelow _ =>
    cases hbelow
    exact ⟨_, rfl⟩
  | replace _ hr _ _ => cases hr

section

variable (h : Regular (.node l ts))
include h

theorem opens_walked
    (hw : Walks (writeRule types) σ₁ (.below l.kind true) (.below l.kind false) ts us σ₂) :
    opens σ (.node l us) = opens σ (.node l ts) := by
  by_cases htyped : l.kind = .varDecl ∨ l.kind = .function
  · obtain ⟨l', rest, rfl, -⟩ := h.root.typed htyped
    obtain ⟨rest', rfl⟩ := walks_leaf_eq hw
    exact opens_typed htyped
  rw [not_or] at htyped
  cases hmem : isMemberAccess l with
  | false => rw [opens_plain htyped.1 htyped.2 hmem, opens_plain htyped.1 htyped.2 hmem]
  | true => rw [walks_children_eq h (.inl (h.root.pair hmem).1) hw]

theorem tidyNode_walked
    (hw : Walks (writeRule types) σ (.below l.kind true) (.below l.kind false) ts us τ) :
    TidyNode l us := by
  refine ⟨fun hk => ?_, fun hm => ?_, fun hk => ?_⟩
  · rw [h.root.leaf hk] at hw
    cases hw
    rfl
  · obtain ⟨hk, hpair⟩ := h.root.pair hm
    rw [walks_children_eq h (.inl hk) hw]
    exact ⟨hk, hpair⟩
  · rw [walks_children_eq h (.inr hk) hw]
    exact h.root.assigned hk

theorem keep_walked (hr : writeRule types σ p (.node l ts) = .keep)
    (hw : Walks (writeRule types) σ₁ (.below l.kind true) (.below l.kind false) ts us σ₂) :
    writeRule types σ p (.node l us) = .keep := by
  by_cases hl : l.kind = .assign
  · rw [walks_children_eq h (.inr hl) hw]
    exact hr
  · exact writeRule_of_kind hl

theorem readDone_walked (hdone : ReadDone types ⟨σ, p, .node l ts⟩)
    (hw : Walks (writeRule types) σ₁ (.below l.kind true) (.below l.kind false) ts us σ₂) :
    ReadDone types ⟨σ, p, .node l us⟩ := by
  by_cases hl : l.kind = .member
  · rw [walks_children_eq h (.inl hl) hw]
    exact hdone
  · exact .inl (settled_of_kind hl)

end

theorem Written.nil : Written types σ p q [] [] σ := by
  have hnone : ∀ {P : Site → Prop}, ∀ s ∈ sitesAll σ p q [], P s := fun s hs => by
    rw [sitesAll] at hs
    cases hs
  exact ⟨hnone, fun u hu => (by cases hu), rfl, rfl, fun _ => ⟨fun _ => hnone, fun _ => hnone⟩,
    fun _ _ => hnone⟩

theorem Written.keep {rest' : List Tree} (hreg : Regular (.node l ts))
    (ho : opens σ (.node l ts) = some (σ₁, opened)) (hr : writeRule types σ₁ p (.node l ts) = .keep)
    (hw : Walks (writeRule types) σ₁ (.below l.kind true) (.below l.kind false) ts us σ₂)
    (hbelow : Written types σ₁ (.below l.kind true) (.below l.kind false) ts us σ₂)
    (hnext : Written types (if opened then σ else σ₂) q q rest rest' τ) :
    Written types σ p q (.node l ts :: rest) (.node l us :: rest') τ := by
  have ho' := (opens_walked hreg hw).trans ho
  have hafter := after_node ho
  have hafter' := after_node ho'
  rw [hbelow.before] at hafter
  rw [hbelow.behind] at hafter'
  refine ⟨?_, fun u hu => ?_, ?_, ?_, fun hdone => ?_, fun hdone havoids => ?_⟩
  · rw [forall_sitesAll_cons, forall_sites_node ho', hafter']
    exact ⟨⟨⟨_, _, ho', keep_walked hreg hr hw⟩, hbelow.kept⟩, hnext.kept⟩
  · rcases List.mem_cons.1 hu with rfl | hu
    · exact .node (tidyNode_walked hreg hw) hbelow.tidy
    · exact hnext.tidy u hu
  · rw [afterAll, hafter, hnext.before]
  · rw [afterAll, hafter', hnext.behind]
  · rw [forall_sitesAll_cons, forall_sites_node ho, hafter] at hdone
    obtain ⟨⟨hroot, hsub⟩, hrest⟩ := hdone
    rw [forall_sitesAll_cons, forall_sites_node ho', hafter', forall_sitesAll_cons,
      forall_sites_node ho, hafter, hbelow.hygiene hsub, hnext.hygiene hrest,
      iff_true_intro (readDone_walked hreg hroot hw),
      iff_true_intro (hygienic_of_keep hreg.root.toTidyNode ho hr)]
  · rw [forall_sitesAll_cons, forall_sites_node ho, hafter] at hdone ⊢
    exact ⟨⟨hygienic_of_keep hreg.root.toTidyNode ho hr, hbelow.avoids hdone.1.2 fun t ht =>
      (havoids _ (.head _)).of_mem ht⟩, hnext.avoids hdone.2 fun t ht =>
      havoids t (.tail _ ht)⟩

theorem Written.split {target value base : Tree} {sw : Swizzle} {rest' : List Tree}
    (hreg : Regular (.node l [target, value])) (hl : l.kind = .assign)
    (hsw : swizzleTarget? target = some (base, sw))
    (harray : isArray? types (σ (base.entry.name?.getD "")) base = some true)
    (hw : Walks (writeRule types) σ .statement .statement (splitTrees l.pos sw base value) us σ₂)
    (hnext : Written types σ₂ .statement .statement rest rest' τ) :
    Written types σ .statement .statement (.node l [target, value] :: rest) (us ++ rest') τ := by
  have hchildren := hreg.root.inert (.inr hl)
  have hvalue : value ∈ [target, value] := .tail _ (.head _)
  obtain ⟨hbreg, hbinert⟩ := swizzleTarget?_regular (hreg.of_mem (.head _)) hsw
  obtain ⟨rfl, rfl, hkept⟩ := walks_splits ⟨hbinert, hbreg.tidy⟩
    ⟨hchildren value hvalue, (hreg.of_mem hvalue).tidy⟩ (fun _ ht => ht) hw
  have ho := hreg.root.opens_eq (by rw [hl]; decide) σ₂
  have hafter : after σ₂ (.node l [target, value]) = σ₂ :=
    after_eq_self (.node (by rw [hl]; decide) hchildren) σ₂
  have hsplit : ∀ u ∈ splitTrees l.pos sw base value, Inert u ∧ Tidy u := by
    intro u hu
    obtain ⟨k, i, -, rfl⟩ := mem_splitTrees hu
    exact (splitTree_inert_tidy l.pos i ⟨hbinert, hbreg.tidy⟩
      ⟨hchildren value hvalue, (hreg.of_mem hvalue).tidy⟩).2
  have hbehind := afterAll_eq_self (fun u hu => (hsplit u hu).1) σ₂
  -- inside of the assignment there are no statements
  have hinner : ∀ s ∈ sitesAll σ₂ (.below l.kind true) (.below l.kind false) [target, value],
      Hygienic types s := by
    intro s hs
    obtain ⟨t, ht, r, hr, hs⟩ := mem_sitesAll_inert hchildren hs
    refine hygienic_of_place (place_ne_statement (hchildren t ht) ?_ hs)
    rw [hl] at hr
    rcases hr with rfl | rfl <;> decide
  have hroot : Hygienic types ⟨σ₂, .statement, .node l [target, value]⟩ ↔ _ :=
    hygienic_split_iff hl hsw harray
  refine ⟨?_, fun u hu => ?_, ?_, ?_, fun hdone => ?_, fun hdone havoids => ?_⟩
  · rw [forall_sitesAll_append, hbehind]
    exact ⟨hkept, hnext.kept⟩
  · exact (List.mem_append.1 hu).elim (fun hu => (hsplit u hu).2) (hnext.tidy u)
  · rw [afterAll, hafter, hnext.before]
  · rw [afterAll_append, hbehind, hnext.behind]
  · rw [forall_sitesAll_cons, hafter] at hdone
    have hs : Splitting types σ₂ l target value base sw := ⟨hreg, hl, hsw, hdone.1, hkept⟩
    rw [forall_sitesAll_append, hbehind, hs.readDone_iff, hnext.hygiene hdone.2,
      forall_sitesAll_cons, hafter, forall_sites_node ho, hroot, and_iff_left hinner]
  · rw [forall_sitesAll_cons, hafter] at hdone ⊢
    have hs : Splitting types σ₂ l target value base sw := ⟨hreg, hl, hsw, hdone.1, hkept⟩
    rw [forall_sites_node ho, hroot]
    exact ⟨⟨hs.settled_of_avoids ((havoids _ (.head _)).of_mem hvalue), hinner⟩,
      hnext.avoids hdone.2 fun t ht => havoids t (.tail _ ht)⟩

/-- **What holds after the walk of the writes.** -/
theorem Walks.written (h : Walks (writeRule types) σ p q ts us τ) : (∀ t ∈ ts, Regular t) →
    (p = .statement → q = .statement) → Written types σ p q ts us τ := by
  induction h with
  | nil => exact fun _ _ => .nil
  | keep ho hr hb _ ihb ihn =>
    intro hreg hplace
    have hnode := hreg _ (.head _)
    refine .keep hnode ho hr hb (ihb (fun t ht => hnode.of_mem ht) fun hp => ?_)
      (ihn (fun t ht => hreg t (.tail _ ht)) id)
    rw [below_eq_statement] at hp ⊢
    exact hp
  | replace ho hr hb _ _ ihn =>
    intro hreg hplace
    have hnode := hreg _ (.head _)
    have hnext := ihn (fun t ht => hreg t (.tail _ ht)) id
    obtain ⟨rfl, l, target, value, more, base, sw, rfl, hl, hsw, harray, rfl⟩ := writeRule_replace hr
    obtain ⟨_, _, heq⟩ := hnode.root.assigned hl
    cases heq
    cases (hnode.root.opens_eq (by rw [hl]; decide) _).symm.trans ho
    rw [hplace rfl] at hnext ⊢
    exact .split hnode hl hsw harray hb hnext

end VecLang.Swizzle
