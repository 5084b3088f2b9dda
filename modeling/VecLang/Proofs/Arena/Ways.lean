import Mathlib.Logic.Relation
import VecLang.Proofs.Arena.Runs

/-!
# The way up and the way down

A walk up follows parent links until it meets a node that it looks for, or a node without a
parent. It has no bound of its own. After edits it always ends, and the nodes on its way are
those whose subtrees, listed by children, hold its start.

* `climbs_find?_lineage`: **a walk up ends.**
* `Climbs.lowest`, `Climbs.absent`: what a walk up has found, and what its end without a find says.
* `ways_agree`: **the nodes above by parents are those with the node below by children.**
-/

namespace VecLang.Arena

variable {a : Arena} {stop : Nat → Bool} {start : Option Nat} {x : Nat} {y m : Nat} {kind : Kind}

/-- What a walk up comes to: the first node that it looks for, or none past the top. -/
inductive Climbs (a : Arena) (stop : Nat → Bool) : Option Nat → Option Nat → Prop
  | past : Climbs a stop none none
  | found {x : Nat} : stop x = true → Climbs a stop (some x) (some x)
  | up {x : Nat} {r : Option Nat} : stop x = false → Climbs a stop (a.parent? x) r →
      Climbs a stop (some x) r

/-- The node lies on the way up from a place. -/
def OnWay (a : Arena) (start : Option Nat) (y : Nat) : Prop := ∃ x, start = some x ∧ a.Under x y

theorem onWay_some : a.OnWay (some x) y ↔ a.Under x y := by
  simp [OnWay]

theorem onWay_some_iff : a.OnWay (some x) y ↔ y = x ∨ a.OnWay (a.parent? x) y := by
  rw [onWay_some]
  cases hp : a.parent? x with
  | none =>
    simp only [OnWay, reduceCtorEq, false_and, exists_false, or_false]
    exact ⟨Under.eq_of_top hp, fun h => h ▸ .refl y⟩
  | some p => rw [onWay_some, Under.iff_of_parent hp]

theorem onWay_parent (hw : a.WellFormed) : a.OnWay (a.parent? x) y ↔ y ≠ x ∧ a.Under x y := by
  rw [← onWay_some, onWay_some_iff]
  constructor
  · intro h
    refine ⟨?_, .inr h⟩
    rintro rfl
    obtain ⟨p, hp, hunder⟩ := h
    exact hw.not_under_of_parent hp hunder
  · rintro ⟨hne, h⟩
    exact h.resolve_left hne

/-- **A walk up ends** at the first node of the lineage that it looks for. -/
theorem climbs_find?_lineage (hw : a.WellFormed) (hx : x < a.size) :
    Climbs a stop (some x) ((a.lineage x).find? stop) := by
  induction hw.rooted x with
  | @top x hn =>
    rw [lineage_of_top hx hn, List.find?_singleton]
    cases hstop : stop x with
    | true => exact .found hstop
    | false =>
      refine .up hstop ?_
      rw [hn]
      exact .past
  | @child x p hp _ ih =>
    rw [lineage_of_parent hw hp, List.find?_cons]
    cases hstop : stop x with
    | true => exact .found hstop
    | false => exact .up hstop (hp ▸ ih (hw.parent_lt hp))

/-- What a walk up has found is the lowest node on its way that it looks for. -/
theorem Climbs.lowest (h : Climbs a stop start (some m)) :
    a.OnWay start m ∧ stop m = true ∧ ∀ y, a.OnWay start y → stop y = true → a.Under m y := by
  generalize hr : some m = r at h
  induction h with
  | past => cases hr
  | @found x hstop =>
    cases hr
    exact ⟨onWay_some.2 (.refl m), hstop, fun y hy _ => onWay_some.1 hy⟩
  | @up x r hstop _ ih =>
    obtain ⟨hway, hm, hleast⟩ := ih hr
    refine ⟨onWay_some_iff.2 (.inr hway), hm, fun y hy hy' => ?_⟩
    rcases onWay_some_iff.1 hy with rfl | hy
    · rw [hstop] at hy'
      cases hy'
    · exact hleast y hy hy'

theorem Climbs.absent (h : Climbs a stop start none) : ∀ y, a.OnWay start y → stop y = false := by
  generalize hr : none = r at h
  induction h with
  | past => rintro y ⟨x, hx, -⟩; cases hx
  | found => cases hr
  | up hstop _ ih =>
    intro y hy
    rcases onWay_some_iff.1 hy with rfl | hy
    · exact hstop
    · exact ih hr y hy

theorem climbs_isAncestor (hw : a.WellFormed) (y : Nat) (hx : x < a.size) :
    Climbs a (· == y) (some x) (if a.isAncestor y x then some y else none) := by
  have hclimbs : Climbs a (· == y) (some x) ((a.lineage x).find? (· == y)) :=
    climbs_find?_lineage hw hx
  unfold isAncestor
  cases hfind : (a.lineage x).find? (· == y) with
  | none =>
    have hnone : y ∉ a.lineage x := fun hy => List.find?_eq_none.1 hfind y hy (beq_self_eq_true y)
    rw [hfind] at hclimbs
    rwa [if_neg (mt List.contains_iff_mem.1 hnone)]
  | some m =>
    obtain rfl : m = y := beq_iff_eq.1 (List.find?_some (p := (· == y)) hfind)
    rw [hfind] at hclimbs
    rwa [if_pos (List.contains_iff_mem.2 (List.mem_of_find?_eq_some hfind))]

theorem climbs_enclosing? (hw : a.WellFormed) (hx : x < a.size) (kind : Kind) :
    Climbs a (a.kind · == kind) (a.parent? x) (a.enclosing? x kind) := by
  unfold enclosing?
  cases hp : a.parent? x with
  | none => rw [lineage_of_top hx hp]; exact .past
  | some p =>
    rw [lineage_of_parent hw hp]
    exact climbs_find?_lineage hw (hw.parent_lt hp)

/-- **A subtree holds the nodes that have its root on their way up.** -/
theorem mem_preorder_iff (hw : a.WellFormed) (hy : y < a.size) :
    x ∈ a.preorder y ↔ a.Under x y := by
  have hmem := (spans_shape hw hy).mem_preorder hw (x := x)
  rwa [entry_shape] at hmem

theorem under_iff_children (hw : a.WellFormed) :
    a.Under x y ↔ Relation.ReflTransGen (fun p c => c ∈ a.children p) y x := by
  constructor
  · intro h
    induction h with
    | refl => exact .refl
    | child hp _ ih => exact ih.tail ((hw.linked _ _).2 hp)
  · intro h
    induction h with
    | refl => exact .refl _
    | tail _ hc ih => exact .child ((hw.linked _ _).1 hc) ih

/-- **The nearest node of a kind** with `x` in its subtree, but not at its root. -/
structure Nearest (a : Arena) (kind : Kind) (x m : Nat) : Prop where
  lt_size : m < a.size
  ne : m ≠ x
  mem : x ∈ a.preorder m
  kind_eq : a.kind m = kind
  least : ∀ y < a.size, y ≠ x → x ∈ a.preorder y → a.kind y = kind → m ∈ a.preorder y

theorem nearest_of_enclosing? (hw : a.WellFormed) (hx : x < a.size)
    (h : a.enclosing? x kind = some m) : a.Nearest kind x m := by
  have hclimbs := climbs_enclosing? hw hx kind
  rw [h] at hclimbs
  obtain ⟨hway, hkind, hleast⟩ := hclimbs.lowest
  obtain ⟨hne, hunder⟩ := (onWay_parent hw).1 hway
  have hm := hunder.lt_size hw hx
  refine ⟨hm, hne, (mem_preorder_iff hw hm).2 hunder, beq_iff_eq.1 hkind, ?_⟩
  intro y hy hyx hmem hk
  have hyway := (onWay_parent hw).2 ⟨hyx, (mem_preorder_iff hw hy).1 hmem⟩
  exact (mem_preorder_iff hw hy).2 (hleast y hyway (beq_iff_eq.2 hk))

theorem enclosing?_eq_none (hw : a.WellFormed) (hx : x < a.size) :
    a.enclosing? x kind = none ↔
      ∀ y < a.size, y ≠ x → x ∈ a.preorder y → a.kind y ≠ kind := by
  constructor
  · intro h y hy hyx hmem hk
    have hclimbs := climbs_enclosing? hw hx kind
    rw [h] at hclimbs
    have hfalse := hclimbs.absent y ((onWay_parent hw).2 ⟨hyx, (mem_preorder_iff hw hy).1 hmem⟩)
    rw [beq_eq_false_iff_ne] at hfalse
    exact hfalse hk
  · intro h
    cases henc : a.enclosing? x kind with
    | none => rfl
    | some m =>
      have hm := nearest_of_enclosing? hw hx henc
      exact absurd hm.kind_eq (h m hm.lt_size hm.ne hm.mem)

theorem enclosing?_eq_some (hw : a.WellFormed) (hx : x < a.size) :
    a.enclosing? x kind = some m ↔ a.Nearest kind x m := by
  refine ⟨nearest_of_enclosing? hw hx, fun hm => ?_⟩
  cases henc : a.enclosing? x kind with
  | none => exact absurd hm.kind_eq ((enclosing?_eq_none hw hx).1 henc m hm.lt_size hm.ne hm.mem)
  | some m' =>
    -- each of the two lies in the subtree of the other
    have hm' := nearest_of_enclosing? hw hx henc
    have hup := hm.least m' hm'.lt_size hm'.ne hm'.mem hm'.kind_eq
    have hdown := hm'.least m hm.lt_size hm.ne hm.mem hm.kind_eq
    rw [hw.under_antisymm ((mem_preorder_iff hw hm.lt_size).1 hdown)
      ((mem_preorder_iff hw hm'.lt_size).1 hup)]

/-- The arena is what edits of allocated nodes have made of the empty one. -/
def Edited (a : Arena) : Prop := ∃ es, Allocated {} es ∧ run {} es = a

/-- **The ways up and down agree.** In an arena made by edits, the walk up from any node in search
of another one ends, and so does that in search of a kind. The first finds its node just if the
start is listed in the subtree of that node, which is what children lead to. The second finds the
nearest node of the kind that has the start below it, and none just if there is none. -/
theorem ways_agree (ha : Edited a) {y : Nat} (hx : x < a.size) (hy : y < a.size) :
    Climbs a (· == y) (some x) (if a.isAncestor y x then some y else none) ∧
      (a.isAncestor y x = true ↔ x ∈ a.preorder y) ∧
      (x ∈ a.preorder y ↔ Relation.ReflTransGen (fun p c => c ∈ a.children p) y x) ∧
      ∀ kind, Climbs a (a.kind · == kind) (a.parent? x) (a.enclosing? x kind) ∧
        (∀ m, a.enclosing? x kind = some m ↔ a.Nearest kind x m) ∧
        (a.enclosing? x kind = none ↔
          ∀ z < a.size, z ≠ x → x ∈ a.preorder z → a.kind z ≠ kind) := by
  obtain ⟨es, hes, rfl⟩ := ha
  have hw := wellFormed_empty.run hes
  have hmem := mem_preorder_iff hw hy (x := x)
  refine ⟨climbs_isAncestor hw y hx, (isAncestor_iff hw hx).trans hmem.symm,
    hmem.trans (under_iff_children hw), fun kind => ?_⟩
  exact ⟨climbs_enclosing? hw hx kind, fun m => enclosing?_eq_some hw hx, enclosing?_eq_none hw hx⟩

theorem ways_agree_mixedRun : Edited (run {} mixedRun) ∧ (run {} mixedRun).children 4 = [5, 6] ∧
    6 ∈ (run {} mixedRun).preorder 4 ∧ (run {} mixedRun).Nearest .block 6 4 := by
  have hrun : Edited (run {} mixedRun) := ⟨mixedRun, by decide, rfl⟩
  obtain ⟨-, hmem, -, hkind⟩ := ways_agree hrun (x := 6) (y := 4) (by decide) (by decide)
  exact ⟨hrun, by decide, hmem.1 (by decide), ((hkind .block).2.1 4).1 (by decide)⟩

end VecLang.Arena
