import VecLang.Arena.Reference
import VecLang.Proofs.Arena.Shape

/-!
# Runs of edits

An edit is one call of an operation of the arena. A run takes edit after edit, and an
edit that fails leaves the arena as it was.

* `WellFormed.edit`: one edit keeps an arena well formed.
* `WellFormed.run`: so does a run.
* `links_after_run`: **after every run from the empty arena the links hold a forest.**
-/

namespace VecLang.Arena

/-- A call of an operation that makes or moves nodes. -/
inductive Edit where
  | add (l : Label)
  | push (parent : NodeId) (child : Child)
  | insert (parent : NodeId) (index : Nat) (id : NodeId)
  | remove (parent id : NodeId)
  | replace (parent old new : NodeId)
  | replaceInParent (old new : NodeId)
  | detach (id : NodeId)
  | copy (id : NodeId)
  | addReference (name : String) (type : Ty) (index : Option Nat)

namespace Edit

def nodes : Edit → List Nat
  | add _ => []
  | push parent (.node id) => [parent, id]
  | push parent _ => [parent]
  | insert parent _ id => [parent, id]
  | remove parent id => [parent, id]
  | replace parent old new => [parent, old, new]
  | replaceInParent old new => [old, new]
  | detach id => [id]
  | copy id => [id]
  | addReference .. => []

def apply (a : Arena) : Edit → Except Error Arena
  | add l => .ok (a.add l).1
  | push parent child => do return (← a.push parent child).1
  | insert parent index id => a.insert parent index id
  | remove parent id => a.remove parent id
  | replace parent old new => a.replace parent old new
  | replaceInParent old new => a.replaceInParent old new
  | detach id => .ok (a.detach id)
  | copy id => .ok (a.copy id).1
  | addReference name type index => .ok (a.addReference name type index).1

/-- The arena after an edit, which is the same one if the edit fails. -/
def run (a : Arena) (e : Edit) : Arena :=
  match e.apply a with
  | .ok b => b
  | .error _ => a

end Edit

def run (a : Arena) (es : List Edit) : Arena := es.foldl Edit.run a

/-- Each edit of a run names only nodes that were allocated before it. -/
def Allocated (a : Arena) : List Edit → Prop
  | [] => True
  | e :: es => (∀ id ∈ e.nodes, id < a.size) ∧ Allocated (e.run a) es

instance decidableAllocated : ∀ (a : Arena) (es : List Edit), Decidable (Allocated a es)
  | _, [] => isTrue trivial
  | a, e :: es =>
    have := decidableAllocated (e.run a) es
    inferInstanceAs (Decidable (_ ∧ _))

variable {a b : Arena}

theorem WellFormed.push (hw : a.WellFormed) {p : Nat} {c : Child} {r : Arena × NodeId}
    (hp : p < a.size) (hc : ∀ id, c = .node id → id < a.size) (h : a.push p c = .ok r) :
    r.1.WellFormed := by
  cases c with
  | node id =>
    simp only [Arena.push, bind, Except.bind] at h
    cases hpush : a.pushNode p id with
    | error e => rw [hpush] at h; cases h
    | ok b =>
      rw [hpush] at h
      cases h
      exact hw.pushNode hp (hc id rfl) hpush
  | number x =>
    simp only [Arena.push] at h
    split at h
    · next l _ => cases h; exact hw.addBelow hp l
    · cases h
  | ident name =>
    simp only [Arena.push] at h
    split at h
    · cases h
    · cases h; exact hw.addBelow hp _
  | type t => cases h; exact hw.addBelow hp _

/-- **One edit** of allocated nodes keeps an arena well formed, also if it fails. -/
theorem WellFormed.edit (hw : a.WellFormed) (e : Edit) (he : ∀ id ∈ e.nodes, id < a.size) :
    (e.run a).WellFormed := by
  unfold Edit.run
  split
  swap
  · exact hw
  next b hb =>
  cases e with
  | add l => cases hb; exact hw.add l
  | push p c =>
    simp only [Edit.apply, bind, Except.bind] at hb
    cases hpush : a.push p c with
    | error e => rw [hpush] at hb; cases hb
    | ok r =>
      rw [hpush] at hb
      cases hb
      refine hw.push (he p ?_) (fun id hc => he id ?_) hpush
      · cases c <;> simp [Edit.nodes]
      · subst hc; simp [Edit.nodes]
  | insert p i id => exact hw.insert (he p (by simp [Edit.nodes])) (he id (by simp [Edit.nodes])) hb
  | remove p id => exact hw.remove hb
  | replace p old new => exact hw.replace (he new (by simp [Edit.nodes])) hb
  | replaceInParent old new => exact hw.replaceInParent (he new (by simp [Edit.nodes])) hb
  | detach id => cases hb; exact hw.detach id
  | copy id => cases hb; exact (graft_spec _ hw).1.wellFormed
  | addReference name type index => cases hb; exact (graft_spec _ hw).1.wellFormed

/-- **A run** keeps an arena well formed. -/
theorem WellFormed.run {es : List Edit} (hw : a.WellFormed) (h : Allocated a es) :
    (a.run es).WellFormed := by
  induction es generalizing a with
  | nil => exact hw
  | cons e es ih => exact ih (hw.edit e h.1) h.2

/-- **The links after any run.** After every finite run of edits from the empty arena,
with any nodes allocated before each edit and whether it succeeds or fails, a node is
listed by exactly the node that is its parent, no node is listed twice, and every way
up ends at a node without a parent. -/
theorem links_after_run {es : List Edit} (h : Allocated {} es) :
    (∀ p c : Nat, c ∈ (run {} es).children p ↔ (run {} es).parent? c = some p) ∧
      (∀ p : Nat, ((run {} es).children p).Nodup) ∧ ∀ x : Nat, (run {} es).Rooted x := by
  have hw := wellFormed_empty.run h
  exact ⟨hw.linked, hw.nodup, hw.rooted⟩

/-- A run with a move inside one parent, a replacement by a descendant, an edit that
would close a cycle, and a copy of the result. -/
def mixedRun : List Edit :=
  [.add default, .push 0 (.ident "a"), .push 0 (.ident "b"), .push 1 (.type (.named "int")),
    .insert 0 0 2, .push 3 (.node 0), .replace 0 1 3, .replaceInParent 2 1, .copy 0,
    .addReference "v" (.named "int") none, .detach 3, .remove 0 3]

theorem links_after_mixedRun :
    Allocated {} mixedRun ∧ (run {} mixedRun).children 0 = [1] ∧
      ∀ x : Nat, (run {} mixedRun).Rooted x :=
  ⟨by decide, by decide, (links_after_run (by decide)).2.2⟩

end VecLang.Arena
