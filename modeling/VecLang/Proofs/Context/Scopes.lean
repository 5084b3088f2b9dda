import VecLang.Context.Scope

/-!
# Nested scopes

A scope stack stands for a list of frames, one for each open scope, each with the bindings
of that scope alone. A name is looked up in the innermost frame that binds it. The stack
answers from one flattened table instead, which it saves and brings back as scopes are
opened and closed.

The invariant (`Flattens`) is about the saved tables too: each of them is the flattened
table of its frame and the frames around that.

* `Flattens.step`: one operation keeps the stack and the frames in step, also if it fails.
* `run_balanced`: operations that close what they open leave no trace.
* `run_shows_frames`: **after any run the stack answers as the frames do.**
-/

namespace VecLang

/-- The bindings of one scope alone. -/
abbrev Frame := String → Option Binding

structure Frames where
  innermost : Frame := fun _ => none
  around : List Frame := []

namespace Frames

def push (f : Frames) : Frames := { around := f.innermost :: f.around }

/-- The frames without the innermost, if another is left. -/
def pop? (f : Frames) : Option Frames :=
  match f.around with
  | [] => none
  | innermost :: around => some { innermost, around }

def bind (f : Frames) (name : String) (b : Binding) : Frames :=
  { f with innermost := fun other => if other = name then some b else f.innermost other }

def all (f : Frames) : List Frame := f.innermost :: f.around

/-- What the innermost frame that binds the name binds it to. -/
def get? (f : Frames) (name : String) : Option Binding := f.all.findSome? (· name)

end Frames

inductive ScopeOp where
  | push
  | pop
  | bind (name : String) (b : Binding)
  | clear
deriving DecidableEq

namespace ScopeOp

def apply (s : ScopeStack) : ScopeOp → Except Error ScopeStack
  | push => .ok s.push
  | pop => s.pop
  | bind name b => .ok (s.bind name b)
  | clear => .ok s.clear

/-- The stack after an operation, which is the same one if the operation fails. -/
def run (s : ScopeStack) (op : ScopeOp) : ScopeStack :=
  match op.apply s with
  | .ok s' => s'
  | .error _ => s

/-- The frames after an operation. Where no scope can be closed they stay. -/
def runFrames (f : Frames) : ScopeOp → Frames
  | push => f.push
  | pop => f.pop?.getD f
  | bind name b => f.bind name b
  | clear => {}

end ScopeOp

def ScopeStack.run (s : ScopeStack) (ops : List ScopeOp) : ScopeStack := ops.foldl ScopeOp.run s

def Frames.run (f : Frames) (ops : List ScopeOp) : Frames := ops.foldl ScopeOp.runFrames f

/-- **The tables are those of the frames**: in each pair the second has the bindings of its
frame, and the first those of the frame and all frames behind it. -/
inductive Flattens : List (Table Binding × Table Binding) → List Frame → Prop
  | nil : Flattens [] []
  | cons {visible innermost : Table Binding} {tables : List (Table Binding × Table Binding)}
      {f : Frame} {fs : List Frame} : (∀ name, innermost.get? name = f name) →
      (∀ name, visible.get? name = (f :: fs).findSome? (· name)) → Flattens tables fs →
      Flattens ((visible, innermost) :: tables) (f :: fs)

theorem Flattens.length_eq {tables : List (Table Binding × Table Binding)} {fs : List Frame}
    (h : Flattens tables fs) : tables.length = fs.length := by
  induction h with
  | nil => rfl
  | cons _ _ _ ih => rw [List.length_cons, List.length_cons, ih]

/-- The tables of a stack, those of the innermost scope first. -/
def ScopeStack.tables (s : ScopeStack) : List (Table Binding × Table Binding) :=
  (s.visible, s.innermost) :: s.saved

section Step

variable {s : ScopeStack} {f : Frames}

theorem flattens_empty : Flattens ({} : ScopeStack).tables ({} : Frames).all :=
  .cons (fun _ => rfl) (fun _ => rfl) .nil

section

variable (h : Flattens s.tables f.all)
include h

theorem Flattens.push : Flattens s.push.tables f.push.all := by
  have hvisible : ∀ name, s.visible.get? name = f.all.findSome? (· name) := by
    cases h with
    | cons _ hv _ => exact hv
  exact .cons (fun _ => rfl) hvisible h

theorem Flattens.bind (name : String) (b : Binding) :
    Flattens (s.bind name b).tables (f.bind name b).all := by
  cases h with
  | cons hi hv hrest =>
    refine .cons (fun other => ?_) (fun other => ?_) hrest
    · exact (Table.get?_insert ..).trans (by rw [hi]; rfl)
    · refine (Table.get?_insert ..).trans ?_
      rw [hv, List.findSome?_cons, List.findSome?_cons, Frames.bind]
      by_cases hname : other = name
      · simp only [if_pos hname]
      · simp only [if_neg hname]

/-- Closing a scope fails without another around it. Otherwise it takes the tables that were
saved, which are those of the frames that are left. -/
theorem Flattens.pop :
    (s.saved = [] ∧ f.around = []) ∨
      ∃ s' f', s.pop = .ok s' ∧ f.pop? = some f' ∧ Flattens s'.tables f'.all := by
  unfold ScopeStack.pop Frames.pop?
  cases h with
  | cons hi hv hrest =>
    cases hsaved : s.saved with
    | nil =>
      rw [hsaved] at hrest
      cases hfs : f.around with
      | nil => exact .inl ⟨rfl, rfl⟩
      | cons g gs =>
        rw [hfs] at hrest
        cases hrest
    | cons pair rest =>
      rw [hsaved] at hrest
      cases hfs : f.around with
      | nil =>
        rw [hfs] at hrest
        cases hrest
      | cons g gs =>
        rw [hfs] at hrest
        exact .inr ⟨_, _, rfl, rfl, hrest⟩

/-- **One operation** keeps the stack and the frames in step, also if it fails. -/
theorem Flattens.step (op : ScopeOp) : Flattens (op.run s).tables (op.runFrames f).all := by
  cases op with
  | push => exact h.push
  | bind name b => exact h.bind name b
  | clear => exact flattens_empty
  | pop =>
    unfold ScopeOp.run ScopeOp.runFrames ScopeOp.apply
    rcases h.pop with ⟨hs, hf⟩ | ⟨s', f', hs, hf, h'⟩
    · have hpop : s.pop = .error (.semantic .scopeUnderflow) := by
        unfold ScopeStack.pop
        rw [hs]
      have hpop' : f.pop? = none := by
        unfold Frames.pop?
        rw [hf]
      rw [hpop, hpop']
      exact h
    · rw [hs, hf]
      exact h'

/-- **A run** keeps the stack and the frames in step. -/
theorem Flattens.run (ops : List ScopeOp) : Flattens (s.run ops).tables (f.run ops).all := by
  induction ops generalizing s f with
  | nil => exact h
  | cons op ops ih => exact ih (h.step op)

end

end Step

/-- **The stack answers as the frames do**: what a name is bound to, whether it is bound at
all and in the innermost scope, how many scopes there are, and whether one can be closed. -/
structure ScopeStack.Shows (s : ScopeStack) (f : Frames) : Prop where
  get? : ∀ name, s.get? name = f.get? name
  contains : ∀ name, s.contains name = (f.get? name).isSome
  isLocal : ∀ name, s.isLocal name = (f.innermost name).isSome
  depth : s.depth = f.around.length
  pop_isOk : s.pop.isOk = f.pop?.isSome

theorem Flattens.shows {s : ScopeStack} {f : Frames} (h : Flattens s.tables f.all) :
    s.Shows f := by
  have hlength := h.length_eq
  have hpop : s.pop.isOk = f.pop?.isSome := by
    rcases h.pop with ⟨hs, hf⟩ | ⟨s', f', hs, hf, -⟩
    · unfold ScopeStack.pop Frames.pop?
      rw [hs, hf]
      rfl
    · rw [hs, hf]
      rfl
  cases h with
  | cons hi hv _ =>
    refine ⟨hv, fun name => congrArg Option.isSome (hv name),
      fun name => congrArg Option.isSome (hi name), ?_, hpop⟩
    exact Nat.succ.inj hlength

theorem ScopeStack.pop_eq_error_iff (s : ScopeStack) :
    s.pop = .error (.semantic .scopeUnderflow) ↔ s.depth = 0 := by
  unfold pop depth
  cases s.saved with
  | nil => simp
  | cons pair rest => simp

namespace ScopeStack

def popTimes : Nat → ScopeStack → Except Error ScopeStack
  | 0, s => .ok s
  | n + 1, s => s.pop >>= popTimes n

theorem popTimes_push (n : Nat) (s : ScopeStack) : s.push.popTimes (n + 1) = s.popTimes n := rfl

theorem popTimes_bind (n : Nat) (s : ScopeStack) (name : String) (b : Binding) :
    (s.bind name b).popTimes (n + 1) = s.popTimes (n + 1) := rfl

theorem popTimes_succ {n : Nat} {s base : ScopeStack} (h : s.popTimes (n + 1) = .ok base) :
    ∃ s', s.pop = .ok s' ∧ s'.popTimes n = .ok base := by
  unfold popTimes at h
  cases hpop : s.pop with
  | error e =>
    rw [hpop] at h
    cases h
  | ok s' =>
    rw [hpop] at h
    exact ⟨s', rfl, h⟩

theorem pop_of_suffix {s s' : ScopeStack} (h : s.push.saved <:+ s'.saved) :
    ∃ s'', s'.pop = .ok s'' ∧ s.saved <:+ s''.saved := by
  obtain ⟨inner, hsaved⟩ := h
  change inner ++ (s.visible, s.innermost) :: s.saved = _ at hsaved
  unfold pop
  cases inner with
  | nil =>
    rw [← hsaved]
    exact ⟨_, rfl, List.suffix_refl _⟩
  | cons frame inner =>
    rw [← hsaved]
    exact ⟨_, rfl, (List.suffix_cons _ _).trans (List.suffix_append inner _)⟩

/-- **A stack comes back** once everything is closed that was opened on top of it. -/
theorem popTimes_of_suffix {s s' : ScopeStack} (h : s.push.saved <:+ s'.saved) :
    s.depth < s'.depth ∧ s'.popTimes (s'.depth - s.depth) = .ok s := by
  obtain ⟨inner, hsaved⟩ := h
  have hdepth : s'.depth = inner.length + 1 + s.depth := by
    unfold depth
    rw [← hsaved, List.length_append, Nat.add_assoc, Nat.add_comm 1]
    rfl
  refine ⟨by omega, ?_⟩
  rw [show s'.depth - s.depth = inner.length + 1 by omega]
  clear hdepth
  induction inner generalizing s' with
  | nil =>
    unfold popTimes pop
    rw [← hsaved]
    rfl
  | cons frame inner ih =>
    have hnext : inner ++ s.push.saved =
        (⟨frame.1, frame.2, inner ++ s.push.saved⟩ : ScopeStack).saved := rfl
    rw [popTimes, pop, ← hsaved]
    exact ih hnext

end ScopeStack

/-- **From `level` open scopes on, the operations close all of them and all that they open**,
never close more, and bind names in these scopes alone. -/
def Balanced : Nat → List ScopeOp → Prop
  | level, [] => level = 0
  | level, .push :: ops => Balanced (level + 1) ops
  | 0, .pop :: _ => False
  | level + 1, .pop :: ops => Balanced level ops
  | 0, .bind _ _ :: _ => False
  | level + 1, .bind _ _ :: ops => Balanced (level + 1) ops
  | _, .clear :: _ => False

/-- **What the operations opened and closed leaves no trace** of itself or of its bindings. -/
theorem run_balanced {level : Nat} {ops : List ScopeOp} {s base : ScopeStack}
    (hbase : s.popTimes level = .ok base) (h : Balanced level ops) : s.run ops = base := by
  induction ops generalizing level s with
  | nil =>
    rw [show level = 0 from h] at hbase
    exact Except.ok.inj hbase
  | cons op ops ih =>
    cases op with
    | push => exact ih ((ScopeStack.popTimes_push level s).trans hbase) h
    | clear => exact h.elim
    | pop =>
      cases level with
      | zero => exact h.elim
      | succ level =>
        obtain ⟨s', hpop, hbase⟩ := ScopeStack.popTimes_succ hbase
        have hrun : ScopeOp.run s .pop = s' := by
          unfold ScopeOp.run ScopeOp.apply
          rw [hpop]
        rw [ScopeStack.run, List.foldl_cons, hrun]
        exact ih hbase h
    | bind name b =>
      cases level with
      | zero => exact h.elim
      | succ level => exact ih ((ScopeStack.popTimes_bind level s name b).trans hbase) h

/-- **The flattened stack implements nested scopes.** After any operations from the empty stack,
those included that fail, the stack answers every question as the frames do: a name has the
binding of the innermost frame that binds it, it is local if the innermost frame binds it, the
depth is the number of frames around that, and a scope can be closed if there is one around.
Closing fails exactly at depth zero, and then changes nothing. And all tables are back after
further operations that close what they open. -/
theorem run_shows_frames (ops : List ScopeOp) :
    (ScopeStack.run {} ops).Shows (Frames.run {} ops) ∧
      ((ScopeStack.run {} ops).pop = .error (.semantic .scopeUnderflow) ↔
        (ScopeStack.run {} ops).depth = 0) ∧
      ((ScopeStack.run {} ops).depth = 0 →
        ScopeOp.run (ScopeStack.run {} ops) .pop = ScopeStack.run {} ops) ∧
      ∀ more, Balanced 0 more → ScopeStack.run {} (ops ++ more) = ScopeStack.run {} ops := by
  generalize hs : ScopeStack.run {} ops = s
  have hflat := flattens_empty.run ops
  rw [hs] at hflat
  refine ⟨hflat.shows, s.pop_eq_error_iff, fun hdepth => ?_, fun more hmore => ?_⟩
  · have hpop := s.pop_eq_error_iff.2 hdepth
    unfold ScopeOp.run ScopeOp.apply
    rw [hpop]
  · have hrun : ScopeStack.run {} (ops ++ more) = s.run more := by
      rw [← hs]
      exact List.foldl_append
    rw [hrun]
    exact run_balanced rfl hmore

/-- A scope cannot be closed at first. Later the bindings of two scopes that are opened inside of
another hide those of the same names, and are gone with the scopes. -/
theorem run_shows_frames_shadowed :
    Balanced 0 [.push, .bind "x" ⟨.named "vec3", none⟩, .push, .pop,
        .bind "y" ⟨.named "int", none⟩, .pop] ∧
      ScopeStack.run {} ([.pop, .bind "x" ⟨.named "float", none⟩, .push,
          .bind "x" ⟨.named "vec2", none⟩] ++
        [.push, .bind "x" ⟨.named "vec3", none⟩, .push, .pop,
          .bind "y" ⟨.named "int", none⟩, .pop]) =
        ScopeStack.run {} [.pop, .bind "x" ⟨.named "float", none⟩, .push,
          .bind "x" ⟨.named "vec2", none⟩] :=
  have hbalanced : Balanced 0 [.push, .bind "x" ⟨.named "vec3", none⟩, .push, .pop,
      .bind "y" ⟨.named "int", none⟩, .pop] := rfl
  ⟨hbalanced, (run_shows_frames _).2.2.2 _ hbalanced⟩

end VecLang
