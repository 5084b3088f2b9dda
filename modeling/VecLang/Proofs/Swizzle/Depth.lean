import VecLang.Proofs.Swizzle.Faults
import VecLang.Proofs.Swizzle.Formed

/-!
# How deep the walks of the lowering go

A read is replaced by up to three nodes above its base, and the walk goes on there; a
split assignment by assignments in which nothing is left to split, though operands may
stand below one another in them. So each walk ends, and well before its limit.

* `Tree.depth`: a measure that falls as the walk of the reads goes on.
* `sound_readRule`, `sound_writeRule`: what the two walks may meet.
* `depth_lt_depthLimit`, `writeDepth_lt_depthLimit`: the limit is above both measures.
* `readHook_fails`, `writeHook_fails`: so each walk fails only with faults of the program.
-/

namespace VecLang

variable {k : Kind} {a : Arena} {s : Rose Nat} {root : Nat}

namespace Tree

mutual

/-- The nodes on the longest way down, where a member access counts for what it may be
replaced by as well. -/
def depth : Tree → Nat
  | .node l ts => (if l.kind = .member then 4 else 1) + depthAll ts

def depthAll : List Tree → Nat
  | [] => 0
  | t :: ts => max (depth t) (depthAll ts)

end

variable {l : Label} {t u : Tree} {ts : List Tree} {n : Nat}

theorem depth_le_depthAll (h : t ∈ ts) : t.depth ≤ depthAll ts := by
  induction ts with
  | nil => cases h
  | cons u ts ih =>
    rw [depthAll]
    rcases List.mem_cons.1 h with rfl | h
    · exact Nat.le_max_left _ _
    · exact Nat.le_trans (ih h) (Nat.le_max_right _ _)

theorem depthAll_le (h : ∀ t ∈ ts, t.depth ≤ n) : depthAll ts ≤ n := by
  induction ts with
  | nil => exact Nat.zero_le _
  | cons u ts ih =>
    rw [depthAll]
    exact Nat.max_le.2 ⟨h u (.head _), ih fun t ht => h t (.tail _ ht)⟩

theorem depth_pos (t : Tree) : 0 < t.depth := by
  obtain ⟨l, ts⟩ := t
  rw [depth]
  split <;> omega

theorem depth_node_of_ne (h : l.kind ≠ .member) : depth (.node l ts) = 1 + depthAll ts := by
  rw [depth, if_neg h]

theorem depth_plain (h : k ≠ .member) (pos : Pos) (ts : List Tree) :
    (plain k pos ts).depth = 1 + depthAll ts :=
  depth_node_of_ne h

theorem depth_leaf (h : k ≠ .member) (pos : Pos) (v : Value) : (valued k pos v []).depth = 1 :=
  depth_node_of_ne h

theorem depth_lt_of_mem (h : t ∈ ts) : t.depth < depth (.node l ts) := by
  have hle := depth_le_depthAll h
  rw [depth]
  split <;> omega

theorem depth_le_size (t : Tree) : t.depth ≤ 4 * t.size := by
  induction t using Rose.induction with
  | node l ts ih =>
    have hall : depthAll ts ≤ 4 * Rose.sizeAll ts := depthAll_le fun t ht =>
      Nat.le_trans (ih t ht) (Nat.mul_le_mul_left _ (Rose.size_le_sizeAll ht))
    rw [depth, Rose.size]
    split <;> omega

theorem depth_subst_le (name : String) (u t : Tree) :
    (subst name u t).depth ≤ t.depth + u.depth := by
  induction t using Rose.induction with
  | node l ts ih =>
    rw [subst_node]
    split
    · exact Nat.le_add_left _ _
    · have hall : depthAll (ts.map (subst name u)) ≤ depthAll ts + u.depth := by
        apply depthAll_le
        intro t' ht'
        obtain ⟨t, ht, rfl⟩ := List.mem_map.1 ht'
        exact Nat.le_trans (ih t ht) (Nat.add_le_add_right (depth_le_depthAll ht) _)
      rw [depth, depth]
      omega

def depthSum : List Tree → Nat
  | [] => 0
  | t :: ts => depth t + depthSum ts

theorem depthSum_append (ts us : List Tree) : depthSum (ts ++ us) = depthSum ts + depthSum us := by
  induction ts with
  | nil => exact (Nat.zero_add _).symm
  | cons t ts ih => rw [List.cons_append, depthSum, depthSum, ih, Nat.add_assoc]

theorem depth_fill_le (operands : List (String × Tree)) (t : Tree) :
    (fill operands t).depth ≤ t.depth + depthSum (operands.map Prod.snd) := by
  induction operands generalizing t with
  | nil => exact Nat.le_refl _
  | cons o operands ih =>
    have hfirst := depth_subst_le o.1 o.2 t
    have hrest := ih (subst o.1 o.2 t)
    rw [List.map_cons, depthSum]
    change (fill operands (subst o.1 o.2 t)).depth ≤ _
    omega

theorem depthSum_le (ts : List Tree) : depthSum ts ≤ 4 * Rose.sizeAll ts := by
  induction ts with
  | nil => exact Nat.le_refl _
  | cons t ts ih =>
    have ht := depth_le_size t
    rw [depthSum, Rose.sizeAll]
    omega

end Tree

namespace Swizzle

open ScopeWalk Arena

variable {types : TypeTable} {σ : Names} {p : Place} {l : Label} {pos : Pos} {sw : Swizzle}
  {base value t u : Tree} {ts us args : List Tree} {n : Nat}

/-- What the walks of the lowering meet: formed trees, and at the top a whole program. -/
def Meets (types : TypeTable) (p : Place) (t : Tree) : Prop :=
  Formed types t ∧ (p = .top → t.kind = .block)

theorem below_ne_top (k : Kind) (first : Bool) : Place.below k first ≠ .top := by
  unfold Place.below
  split
  · exact fun h => by cases h
  · split <;> exact fun h => by cases h

theorem Meets.child (h : Meets types p (.node l ts)) (ht : t ∈ ts) (first : Bool) :
    Meets types (.below l.kind first) t :=
  ⟨h.1.of_mem ht, fun hp => absurd hp (below_ne_top _ _)⟩

theorem depth_elementTree (pos : Pos) (base : Tree) (i : Nat) :
    (elementTree pos base i).depth = 1 + base.depth := by
  have hpos := base.depth_pos
  unfold elementTree
  rw [Tree.depth_plain (by decide), Tree.depthAll, Tree.depthAll, Tree.depth_leaf (by decide),
    Tree.depthAll]
  omega

theorem depth_tree_le (types : TypeTable) (pos : Pos) (base : Tree) (selection : Selection) :
    (selection.tree types pos base).depth ≤ 3 + base.depth := by
  cases selection with
  | component i =>
    rw [Selection.tree, depth_elementTree]
    omega
  | vector s =>
    have hall : Tree.depthAll (s.indices.map (elementTree pos base)) ≤ 1 + base.depth := by
      apply Tree.depthAll_le
      intro t ht
      obtain ⟨i, -, rfl⟩ := List.mem_map.1 ht
      exact Nat.le_of_eq (depth_elementTree pos base i)
    unfold Selection.tree readTree
    rw [Tree.depth_plain (by decide), Tree.depthAll, Tree.depthAll, Tree.depth_leaf (by decide),
      Tree.depth_plain (by decide), Tree.depthAll]
    omega

/-- **The walk of the reads goes on in formed trees of less and less depth.** -/
theorem sound_readRule (htypes : types.Closed) (ht : Templates types) :
    Sound (readRule types) (Meets types) fun _ t => t.depth where
  declares h hl := ⟨h.1.root.exists_name (.inr (.inl hl)),
    (h.1.exists_type (.inl hl)).imp fun _ ht => ht.1⟩
  returns h hl := (h.1.exists_type (.inr hl)).imp fun _ ht => ht.1
  child h hmem first := ⟨h.child hmem first, Tree.depth_lt_of_mem hmem⟩
  part := by
    intro σ p t u us h hr hu
    obtain ⟨l, base, rest, m, selection, rfl, hk, -, -, hm, -, rfl⟩ := readRule_replace hr
    obtain rfl := List.mem_singleton.1 hu
    have hbase := h.1.expression_of_mem (by simp [hk]) (.head _)
    refine ⟨⟨(formed_tree htypes ht hm hbase).1, fun hp => ?_⟩, ?_⟩
    · -- at the top stands a block, which is no read
      cases hk.symm.trans (h.2 hp)
    · have hle := depth_tree_le types l.pos base selection
      have hall : Tree.depth base ≤ Tree.depthAll (base :: rest) :=
        Tree.depth_le_depthAll (.head _)
      rw [Tree.depth, if_pos hk]
      omega

/-- Nothing is left to split in the tree at this place. -/
def Final (types : TypeTable) (p : Place) (t : Tree) : Prop :=
  Inert t ∧ ∀ σ us, writeRule types σ p t ≠ .replace us

theorem Final.child (h : Final types p (.node l ts)) (ht : t ∈ ts) (first : Bool) :
    Final types (.below l.kind first) t := by
  refine ⟨h.1.of_mem ht, fun σ us hr => ?_⟩
  obtain ⟨hp, -⟩ := writeRule_replace hr
  exact h.1.root.2.2 (below_eq_statement.1 hp)

open Classical in
/-- How deep the walk of the writes goes: at a tree in which something is left to split, the
depth of what comes out is only known to be below the square of its size. -/
noncomputable def writeDepth (types : TypeTable) (p : Place) (t : Tree) : Nat :=
  if Final types p t then t.depth else 8 * (t.size * t.size)

theorem writeDepth_le (types : TypeTable) (p : Place) (t : Tree) :
    writeDepth types p t ≤ 8 * (t.size * t.size) := by
  have hle := t.depth_le_size
  have hsquare := Nat.le_mul_self t.size
  unfold writeDepth
  split <;> omega

theorem depthSum_operandsFrom (base : Tree) (k : Nat) (args : List Tree) :
    Tree.depthSum ((operandsFrom base k args).map Prod.snd) =
      Tree.depthSum args + base.depth := by
  induction args generalizing k with
  | nil => exact Nat.add_comm _ _
  | cons arg args ih =>
    rw [operandsFrom, List.map_cons, Tree.depthSum, ih, Tree.depthSum, Nat.add_assoc]

theorem sizeAll_constructed_le (h : constructed? n value = some args) :
    Rose.sizeAll args ≤ value.size := by
  obtain ⟨l, cs⟩ := value
  obtain ⟨-, -, callee, ⟨la, as⟩, more, rfl, rfl, -⟩ := constructed?_eq_some h
  simp only [Rose.size, Rose.sizeAll]
  omega

theorem depth_valueAt_le (pos : Pos) (sw : Swizzle) (base value : Tree) (k : Nat) :
    (valueAt pos sw base value k).depth ≤ 1 + 8 * value.size + base.depth := by
  have hvalue := value.depth_le_size
  have hpos := value.depth_pos
  unfold valueAt
  split
  · next args hargs =>
    have hsize := sizeAll_constructed_le hargs
    have hsum := Tree.depthSum_le args
    have hfill := Tree.depth_fill_le (operandsFrom base (k + 1) (args.drop (k + 1)))
      (args.getD k value)
    have hsplit := congrArg Tree.depthSum (List.take_append_drop (k + 1) args)
    rw [Tree.depthSum_append] at hsplit
    have hget : (args.getD k value).depth ≤ 4 * value.size := by
      rw [List.getD_eq_getElem?_getD]
      cases hk : args[k]? with
      | none => exact hvalue
      | some arg =>
        have harg := Rose.size_le_sizeAll (List.mem_of_getElem? hk)
        have hdepth := Tree.depth_le_size arg
        change arg.depth ≤ _
        omega
    rw [depthSum_operandsFrom] at hfill
    omega
  · have hsubst := Tree.depth_subst_le "$n1" base value
    rw [depth_elementTree]
    omega

/-- **The walk of the writes goes on in formed trees of less and less measure.** -/
theorem sound_writeRule : Sound (writeRule types) (Meets types) (writeDepth types) where
  declares h hl := ⟨h.1.root.exists_name (.inr (.inl hl)),
    (h.1.exists_type (.inl hl)).imp fun _ ht => ht.1⟩
  returns h hl := (h.1.exists_type (.inr hl)).imp fun _ ht => ht.1
  child := by
    intro p l ts t h hmem first
    refine ⟨h.child hmem first, ?_⟩
    by_cases hfinal : Final types p (.node l ts)
    · rw [writeDepth, writeDepth, if_pos hfinal, if_pos (hfinal.child hmem first)]
      exact Tree.depth_lt_of_mem hmem
    · have hle := writeDepth_le types (.below l.kind first) t
      have hsize : t.size < (Rose.node l ts).size :=
        Nat.lt_succ_of_le (Rose.size_le_sizeAll hmem)
      have hlt := Nat.mul_self_lt_mul_self hsize
      rw [writeDepth.eq_def types p, if_neg hfinal]
      omega
  part := by
    intro σ p t u us h hr hu
    -- the square in the measure pays for what a split puts below the new statements
    have hopen : ¬ Final types p t := fun hfinal => hfinal.2 σ us hr
    obtain ⟨rfl, l, target, value, more, base, sw, rfl, hl, hsw, -, rfl⟩ := writeRule_replace hr
    obtain ⟨lt, ms, rfl, hk, -⟩ := swizzleTarget?_eq_some hsw
    obtain ⟨k, i, -, rfl⟩ := mem_splitTrees hu
    have hbase := (h.1.of_mem (.head _)).expression_of_mem (by simp [hk]) (.head _)
    have hvalue := h.1.expression_of_mem (by simp [hl]) (.tail _ (.head _))
    have hformed : Formed types (splitTree l.pos sw base value k i) :=
      formed_splitTree hbase hvalue k i
    refine ⟨⟨hformed, fun hp => by cases hp⟩, ?_⟩
    have hfinal : Final types .statement (splitTree l.pos sw base value k i) := by
      refine ⟨hformed.inert rfl, fun σ us hr => ?_⟩
      cases hr
    have hassigned := depth_valueAt_le l.pos sw base value k
    have hdepth : (splitTree l.pos sw base value k i).depth ≤ 3 + 8 * value.size + base.depth := by
      unfold splitTree
      rw [Tree.operated, Tree.depth_node_of_ne (show Kind.assign ≠ .member by decide), Tree.depthAll, Tree.depthAll,
        Tree.depthAll, depth_elementTree]
      omega
    have hb := base.depth_le_size
    rw [writeDepth, if_pos hfinal, writeDepth, if_neg hopen]
    generalize hn : Rose.size _ = m
    simp only [Rose.size, Rose.sizeAll] at hn
    have hsquare := Nat.le_mul_self m
    omega

open Arena

variable {v : View Unit}

theorem size_map_label (hw : a.WellFormed) (hs : a.Spans s) : (s.map a.label).size ≤ a.size := by
  rw [Rose.size_map]
  exact hs.size_le hw

theorem depth_lt_depthLimit (hw : a.WellFormed) (hs : a.Spans s) :
    Tree.depth (s.map a.label) < depthLimit a := by
  have hdepth := Tree.depth_le_size (s.map a.label)
  have hsize := size_map_label hw hs
  have hsquare := Nat.le_mul_self (a.size + 2)
  unfold depthLimit
  omega

theorem writeDepth_lt_depthLimit (types : TypeTable) (p : Place) (hw : a.WellFormed)
    (hs : a.Spans s) : writeDepth types p (s.map a.label) < depthLimit a := by
  have hdepth := writeDepth_le types p (s.map a.label)
  have hsize : (s.map a.label).size < a.size + 2 := by
    have := size_map_label hw hs
    omega
  have hsquare := Nat.mul_self_lt_mul_self hsize
  unfold depthLimit
  omega

/-- **A walk of the lowering fails only with faults of the program**, if its limit is above
the measure of what it may meet. -/
theorem lowerWith_fails {hook : Hook Unit} {rule : Rule} {μ : Place → Tree → Nat}
    (hhook : Refines Reported (Meets types) hook types rule) (hsound : Sound rule (Meets types) μ)
    (hlimit : ∀ p s, v.arena.Spans s → μ p (s.map v.arena.label) < depthLimit v.arena)
    (hw : v.arena.WellFormed) (hlt : root < v.arena.size) (htypes : v.context.types = types)
    (hformed : Formed types (v.arena.tree root)) (hblock : (v.arena.tree root).kind = .block) :
    Steps.Fails (lowerWith hook root) v fun e _ => Reported v.context.filename e := by
  unfold lowerWith
  refine .get_bind ?_
  have hs := spans_shape hw hlt
  have hfails := walkScopes_fails hw hs htypes hhook hsound
    (fun ctx pos name => reported_locate ctx (some pos) (.undefinedSymbol name))
    ⟨hformed, fun _ => hblock⟩ (hlimit _ _ hs)
  rwa [entry_shape] at hfails

theorem readHook_fails (htypes : types.Closed) (ht : Templates types) (hw : v.arena.WellFormed)
    (hlt : root < v.arena.size) (hv : v.context.types = types)
    (hformed : Formed types (v.arena.tree root)) (hblock : (v.arena.tree root).kind = .block) :
    Steps.Fails (lowerWith readHook root) v fun e _ => Reported v.context.filename e :=
  lowerWith_fails ((readHook_refines ht).mono fun _ _ h => h.2) (sound_readRule htypes ht)
    (fun _ _ hs => depth_lt_depthLimit hw hs) hw hlt hv hformed hblock

theorem writeHook_fails (ht : Templates types) (hw : v.arena.WellFormed) (hlt : root < v.arena.size)
    (hv : v.context.types = types) (hformed : Formed types (v.arena.tree root))
    (hblock : (v.arena.tree root).kind = .block) :
    Steps.Fails (lowerWith writeHook root) v fun e _ => Reported v.context.filename e :=
  lowerWith_fails ((writeHook_refines ht).mono fun _ _ _ => trivial) sound_writeRule
    (fun p _ hs => writeDepth_lt_depthLimit types p hw hs) hw hlt hv hformed hblock

end Swizzle

end VecLang
