import Mathlib.Data.List.Perm.Subperm
import VecLang.Arena.Edit

/-!
# Well-formed arenas

An arena is well formed if its two kinds of links agree and hold a forest:
children and parents point to each other, no node is listed twice, and every way
up ends (`Rooted`).

* `WellFormed.not_under_of_parent`: a node does not lie below one of its children.
* `mem_lineage`: the bounded walk up from an allocated node is the whole way up.
* `isAncestor_iff`: the test for cycles is exact.
-/

namespace VecLang.Arena

variable {a b : Arena} {n c p x y : Nat}

/-- The way up from `id` ends: parent links lead to a node without a parent. -/
inductive Rooted (a : Arena) : Nat → Prop
  | top {id : Nat} : a.parent? id = none → Rooted a id
  | child {id p : Nat} : a.parent? id = some p → Rooted a p → Rooted a id

/-- `Under a x y`: `x` is `y` or lies below it, by parent links. -/
inductive Under (a : Arena) : Nat → Nat → Prop
  | refl (x : Nat) : Under a x x
  | child {x p y : Nat} : a.parent? x = some p → Under a p y → Under a x y

/-- **The links of a forest.** -/
structure WellFormed (a : Arena) : Prop where
  linked : ∀ p c : Nat, c ∈ a.children p ↔ a.parent? c = some p
  nodup : ∀ p : Nat, (a.children p).Nodup
  rooted : ∀ x : Nat, a.Rooted x

theorem length_le_of_nodup {l : List Nat} (h : l.Nodup) (hlt : ∀ x ∈ l, x < n) : l.length ≤ n := by
  have hsub : l ⊆ List.range n := fun x hx => List.mem_range.2 (hlt x hx)
  have hlength := (List.Nodup.subperm h hsub).length_le
  rwa [List.length_range] at hlength

theorem lt_size_of_parent (h : a.parent? c = some p) : c < a.size := by
  unfold parent? at h
  cases hc : a.nodes[c]? with
  | none => rw [hc] at h; cases h
  | some n => exact (Array.getElem?_eq_some_iff.1 hc).1

theorem lt_size_of_mem_children (h : c ∈ a.children p) : p < a.size := by
  unfold children at h
  cases hp : a.nodes[p]? with
  | none => rw [hp] at h; cases h
  | some n => exact (Array.getElem?_eq_some_iff.1 hp).1

theorem children_eq_nil_of_size_le (h : a.size ≤ p) : a.children p = [] := by
  cases hc : a.children p with
  | nil => rfl
  | cons c cs =>
    have : p < a.size := lt_size_of_mem_children (c := c) (by rw [hc]; exact .head _)
    omega

theorem parent?_eq_none_of_size_le (h : a.size ≤ c) : a.parent? c = none := by
  cases hp : a.parent? c with
  | none => rfl
  | some p => have := lt_size_of_parent hp; omega

namespace WellFormed

theorem parent_lt (hw : a.WellFormed) (h : a.parent? c = some p) : p < a.size :=
  lt_size_of_mem_children ((hw.linked p c).2 h)

theorem child_lt (hw : a.WellFormed) (h : c ∈ a.children p) : c < a.size :=
  lt_size_of_parent ((hw.linked p c).1 h)

theorem congr (hw : a.WellFormed) (hc : ∀ x, b.children x = a.children x)
    (hp : ∀ x, b.parent? x = a.parent? x) : b.WellFormed := by
  refine ⟨fun p c => ?_, fun p => ?_, fun x => ?_⟩
  · rw [hc, hp]; exact hw.linked p c
  · rw [hc]; exact hw.nodup p
  · induction hw.rooted x with
    | top h => exact .top (by rw [hp]; exact h)
    | child h _ ih => exact .child (by rw [hp]; exact h) ih

end WellFormed

theorem wellFormed_empty : ({} : Arena).WellFormed := by
  have hc : ∀ p, ({} : Arena).children p = [] := fun p => by simp [children]
  have hp : ∀ c, ({} : Arena).parent? c = none := fun c => by simp [parent?]
  refine ⟨fun p c => ?_, fun p => ?_, fun x => .top (hp x)⟩
  · rw [hc, hp]; simp
  · rw [hc]; exact List.nodup_nil

namespace Under

theorem trans {z : Nat} (h : a.Under x y) (h' : a.Under y z) : a.Under x z := by
  induction h with
  | refl => exact h'
  | child hp _ ih => exact .child hp (ih h')

theorem of_parent (h : a.parent? x = some p) : a.Under x p := .child h (.refl p)

theorem lt_size (hw : a.WellFormed) (h : a.Under x y) (hx : x < a.size) : y < a.size := by
  induction h with
  | refl => exact hx
  | child hp _ ih => exact ih (hw.parent_lt hp)

theorem eq_of_top (hn : a.parent? x = none) (h : a.Under x y) : y = x := by
  cases h with
  | refl => rfl
  | child hp _ => rw [hn] at hp; cases hp

theorem iff_of_parent (hp : a.parent? x = some p) : a.Under x y ↔ y = x ∨ a.Under p y := by
  constructor
  · intro h
    cases h with
    | refl => exact .inl rfl
    | child hq h => rw [hp] at hq; cases hq; exact .inr h
  · rintro (rfl | h)
    · exact .refl _
    · exact .child hp h

theorem total {z : Nat} (h : a.Under x y) (h' : a.Under x z) : a.Under y z ∨ a.Under z y := by
  induction h with
  | refl => exact .inl h'
  | @child x p y hp hpy ih =>
    cases h' with
    | refl => exact .inr (.child hp hpy)
    | child hq hqz =>
      rw [hp] at hq
      cases hq
      exact ih hqz

end Under

theorem Rooted.not_under_parent (h : a.Rooted x) : ∀ p, a.parent? x = some p → ¬ a.Under p x := by
  induction h with
  | top hn => intro p hp; rw [hn] at hp; cases hp
  | @child x q hq _ ih =>
    intro p hp hpx
    rw [hq] at hp
    cases hp
    cases hpx with
    | refl => exact ih x hq (.refl x)
    | child hr hrx => exact ih _ hr (hrx.trans (.of_parent hq))

namespace WellFormed

theorem not_under_of_parent (hw : a.WellFormed) (h : a.parent? x = some p) : ¬ a.Under p x :=
  (hw.rooted x).not_under_parent p h

theorem under_antisymm (hw : a.WellFormed) (h : a.Under x y) (h' : a.Under y x) : x = y := by
  cases h with
  | refl => rfl
  | child hp hpy => exact absurd (hpy.trans h') (hw.not_under_of_parent hp)

/-- Of two different nodes with one parent, or none, neither lies below the other. -/
theorem not_under_sibling (hw : a.WellFormed) (hne : x ≠ y) (hp : a.parent? x = a.parent? y) :
    ¬ a.Under x y := by
  intro h
  cases h with
  | refl => exact hne rfl
  | child hx hpy => exact hw.not_under_of_parent (hp ▸ hx) hpy

theorem not_under_siblings (hw : a.WellFormed) {z : Nat} (hne : x ≠ y)
    (hp : a.parent? x = a.parent? y) (hx : a.Under z x) : ¬ a.Under z y := by
  intro hy
  rcases hx.total hy with h | h
  · exact hw.not_under_sibling hne hp h
  · exact hw.not_under_sibling hne.symm hp.symm h

end WellFormed

theorem lineageWithin_of_top (hn : a.parent? x = none) : a.lineageWithin (n + 1) x = [x] := by
  rw [lineageWithin, hn]

/-- The way up from a rooted node as a list: it has no repetitions, and a walk
with at least its length as bound is exactly it. -/
theorem Rooted.exists_lineage (h : a.Rooted x) :
    ∃ l : List Nat, l.Nodup ∧ (∀ y, y ∈ l ↔ a.Under x y) ∧
      ∀ n, l.length ≤ n → a.lineageWithin n x = l := by
  induction h with
  | @top x hn =>
    refine ⟨[x], by simp, fun y => ?_, fun n hlen => ?_⟩
    · rw [List.mem_singleton]
      exact ⟨fun hy => hy ▸ .refl y, Under.eq_of_top hn⟩
    · obtain ⟨n, rfl⟩ : ∃ m, n = m + 1 := ⟨n - 1, by simp at hlen; omega⟩
      exact lineageWithin_of_top hn
  | @child x p hp hr ih =>
    obtain ⟨l, hnd, hmem, hlin⟩ := ih
    have hx : x ∉ l := fun hx => (Rooted.child hp hr).not_under_parent p hp ((hmem x).1 hx)
    refine ⟨x :: l, List.nodup_cons.2 ⟨hx, hnd⟩, fun y => ?_, fun n hlen => ?_⟩
    · rw [List.mem_cons, hmem, Under.iff_of_parent hp]
    · simp only [List.length_cons] at hlen
      obtain ⟨n, rfl⟩ : ∃ m, n = m + 1 := ⟨n - 1, by omega⟩
      rw [lineageWithin, hp]
      simp only
      rw [hlin n (by omega)]

/-- **The bound is no restriction**: distinct allocated nodes are at most as many as
there are nodes, so the walk up from an allocated node meets all above it. -/
theorem lineage_spec (hw : a.WellFormed) (hx : x < a.size) :
    (∀ y, y ∈ a.lineage x ↔ a.Under x y) ∧
      ∀ n, a.size ≤ n → a.lineageWithin n x = a.lineage x := by
  obtain ⟨l, hnd, hmem, hlin⟩ := (hw.rooted x).exists_lineage
  have hlen : l.length ≤ a.size :=
    length_le_of_nodup hnd fun z hz => ((hmem z).1 hz).lt_size hw hx
  unfold lineage
  rw [hlin a.size hlen]
  exact ⟨hmem, fun n hn => hlin n (Nat.le_trans hlen hn)⟩

theorem mem_lineage (hw : a.WellFormed) (hx : x < a.size) : y ∈ a.lineage x ↔ a.Under x y :=
  (lineage_spec hw hx).1 y

theorem lineage_of_top (hx : x < a.size) (hn : a.parent? x = none) : a.lineage x = [x] := by
  obtain ⟨n, hsize⟩ : ∃ n, a.size = n + 1 := ⟨a.size - 1, by omega⟩
  rw [lineage, hsize, lineageWithin_of_top hn]

theorem lineage_of_parent (hw : a.WellFormed) (hp : a.parent? x = some p) :
    a.lineage x = x :: a.lineage p := by
  have hlonger := (lineage_spec hw (lt_size_of_parent hp)).2 (a.size + 1) (Nat.le_succ _)
  rw [← hlonger, lineageWithin, hp]
  rfl

/-- **The test for cycles is exact.** -/
theorem isAncestor_iff (hw : a.WellFormed) (hx : x < a.size) :
    a.isAncestor y x = true ↔ a.Under x y := by
  unfold isAncestor
  rw [List.contains_iff_mem, mem_lineage hw hx]

end VecLang.Arena
