import VecLang.Error

/-!
# Computations that succeed or fail

What it means that a computation succeeds, step by step: each lemma gives the results
and, for one on a state, the states in between. `Runs` says that a computation has a
result and what that is, and `Fails` how it fails if it does. Both are shown step by step
as well. `Together` compares two computations on states of their own.
-/

namespace VecLang

theorem eq_ok_of_toOption {ε α : Type} {r : Except ε α} {x : α} (h : r.toOption = some x) :
    r = .ok x := by
  cases r with
  | error e => cases h
  | ok y => exact congrArg Except.ok (Option.some.inj h)

namespace Except

variable {ε ε' α β : Type}

theorem bind_eq_ok {x : Except ε α} {f : α → Except ε β} {b : β} :
    (x >>= f) = .ok b ↔ ∃ a, x = .ok a ∧ f a = .ok b := by
  cases x with
  | error e => simp [bind, Except.bind]
  | ok a => simp [bind, Except.bind]

theorem bind_eq_error {x : Except ε α} {f : α → Except ε β} {e : ε} :
    (x >>= f) = .error e ↔ x = .error e ∨ ∃ a, x = .ok a ∧ f a = .error e := by
  cases x with
  | error e => simp [bind, Except.bind]
  | ok a => simp [bind, Except.bind]

theorem mapError_eq_error {x : Except ε α} {f : ε → ε'} {e : ε'} :
    x.mapError f = .error e ↔ ∃ e', x = .error e' ∧ f e' = e := by
  cases x with
  | error e' =>
    change Except.error (f e') = .error e ↔ _
    simp
  | ok a =>
    change Except.ok a = .error e ↔ _
    simp

theorem mapError_eq_ok {x : Except ε α} {f : ε → ε'} {a : α} :
    x.mapError f = .ok a ↔ x = .ok a := by
  cases x with
  | error e =>
    change Except.error (f e) = .ok a ↔ _
    simp
  | ok b =>
    change Except.ok b = .ok a ↔ _
    simp

variable {x : Except ε α} {f : α → Except ε β} {E : ε → Prop} {P : α → Prop} {Q : β → Prop}

/-- **The computation ends** in a result as `P` says or in an error as `E` says. -/
def Ends (x : Except ε α) (E : ε → Prop) (P : α → Prop) : Prop :=
  match x with
  | .ok a => P a
  | .error e => E e

theorem Ends.bind (hx : Ends x E P) (hf : ∀ a, P a → Ends (f a) E Q) : Ends (x >>= f) E Q := by
  cases x with
  | error e => exact hx
  | ok a => exact hf a hx

theorem Ends.exists_ok (h : Ends x (fun _ => False) P) : ∃ a, x = .ok a ∧ P a := by
  cases x with
  | error e => exact h.elim
  | ok a => exact ⟨a, rfl, h⟩

end Except

namespace Steps

variable {σ α β : Type} {s s' : σ}

/-- What a run leaves if it succeeds. -/
def left? : EStateM.Result Error σ Unit → Option σ
  | .ok _ s => some s
  | .error _ _ => none

theorem left?_eq_some {r : EStateM.Result Error σ Unit} (h : left? r = some s) : r = .ok () s := by
  cases r with
  | ok u s' => exact congrArg (EStateM.Result.ok ()) (Option.some.inj h)
  | error e s' => cases h

theorem bind_eq_ok {x : Steps σ α} {f : α → Steps σ β} {b : β} :
    (x >>= f) s = .ok b s' ↔ ∃ a t, x s = .ok a t ∧ f a t = .ok b s' := by
  show EStateM.bind x f s = _ ↔ _
  unfold EStateM.bind
  cases hx : x s with
  | ok a t =>
    simp only [EStateM.Result.ok.injEq]
    constructor
    · intro h
      exact ⟨a, t, ⟨rfl, rfl⟩, h⟩
    · rintro ⟨_, _, ⟨rfl, rfl⟩, h⟩
      exact h
  | error e t => simp

@[simp] theorem pure_eq_ok {a b : α} :
    (pure a : Steps σ α) s = .ok b s' ↔ a = b ∧ s = s' := by
  show EStateM.Result.ok a s = _ ↔ _
  simp

@[simp] theorem get_eq_ok {b : σ} : (get : Steps σ σ) s = .ok b s' ↔ s = b ∧ s = s' := by
  show EStateM.Result.ok s s = _ ↔ _
  simp

@[simp] theorem set_eq_ok {t : σ} {b : PUnit} : (set t : Steps σ PUnit) s = .ok b s' ↔ t = s' := by
  show EStateM.Result.ok PUnit.unit t = _ ↔ _
  simp

@[simp] theorem modify_eq_ok {f : σ → σ} {b : PUnit} :
    (modify f : Steps σ PUnit) s = .ok b s' ↔ f s = s' := by
  show EStateM.Result.ok PUnit.unit (f s) = _ ↔ _
  simp

@[simp] theorem throw_ne_ok {e : Error} {b : α} : (throw e : Steps σ α) s ≠ .ok b s' := by
  show EStateM.Result.error e s ≠ _
  simp

theorem get_bind {f : σ → Steps σ β} {b : β} :
    (get >>= f) s = .ok b s' ↔ f s s = .ok b s' := by
  rw [bind_eq_ok]
  constructor
  · rintro ⟨_, _, hg, h⟩
    obtain ⟨rfl, rfl⟩ := get_eq_ok.1 hg
    exact h
  · intro h
    exact ⟨s, s, get_eq_ok.2 ⟨rfl, rfl⟩, h⟩

variable {x : Steps σ α} {f : α → Steps σ β} {P : α → σ → Prop} {Q : β → σ → Prop}
  {E E' : Error → σ → Prop}

/-- **The computation has a result**, and with the state after it that is as `P` says. -/
def Runs (x : Steps σ α) (s : σ) (P : α → σ → Prop) : Prop := ∃ a s', x s = .ok a s' ∧ P a s'

theorem Runs.bind (hx : Runs x s P) (hf : ∀ a t, P a t → Runs (f a) t Q) : Runs (x >>= f) s Q := by
  obtain ⟨a, t, hx, hP⟩ := hx
  obtain ⟨b, s', h, hQ⟩ := hf a t hP
  exact ⟨b, s', bind_eq_ok.2 ⟨a, t, hx, h⟩, hQ⟩

theorem runs_pure {a : α} (h : P a s) : Runs (pure a : Steps σ α) s P := ⟨a, s, rfl, h⟩

theorem Runs.get_bind {f : σ → Steps σ β} (h : Runs (f s) s Q) : Runs (get >>= f) s Q := by
  obtain ⟨b, s', h, hQ⟩ := h
  exact ⟨b, s', Steps.get_bind.2 h, hQ⟩

theorem Runs.of_eq_ok {a : α} (h : Runs x s P) (hx : x s = .ok a s') : P a s' := by
  obtain ⟨b, t, h, hP⟩ := h
  rw [hx] at h
  cases h
  exact hP

theorem Runs.bind_eq (hx : Runs x s P) : ∃ a t, P a t ∧ (x >>= f) s = f a t := by
  obtain ⟨a, t, hx, hP⟩ := hx
  refine ⟨a, t, hP, ?_⟩
  change EStateM.bind x f s = _
  unfold EStateM.bind
  rw [hx]

/-- **If the computation fails**, then with such an error and in such a state. -/
def Fails (x : Steps σ α) (s : σ) (E : Error → σ → Prop) : Prop :=
  ∀ e s', x s = .error e s' → E e s'

theorem fails_of_ok {a : α} (h : x s = .ok a s') : Fails x s E := by
  intro e t he
  rw [h] at he
  cases he

theorem fails_pure {a : α} : Fails (pure a : Steps σ α) s E := fails_of_ok rfl

theorem Fails.congr {y : Steps σ α} (h : Fails y s E) (hxy : x s = y s) : Fails x s E :=
  fun e s' he => h e s' (hxy ▸ he)

theorem Fails.bind (hx : Fails x s E) (hf : ∀ a t, x s = .ok a t → Fails (f a) t E) :
    Fails (x >>= f) s E := by
  intro e s' h
  change EStateM.bind x f s = _ at h
  unfold EStateM.bind at h
  cases hres : x s with
  | ok a t =>
    rw [hres] at h
    exact hf a t hres e s' h
  | error e' t =>
    rw [hres] at h
    cases h
    exact hx e s' hres

theorem Fails.get_bind {f : σ → Steps σ β} (h : Fails (f s) s E) : Fails (get >>= f) s E :=
  .bind (fails_of_ok rfl) fun a t hget => by
    obtain ⟨rfl, rfl⟩ := get_eq_ok.1 hget
    exact h

/-- **The computation ends** in a result and a state as `P` says or in an error and a state as
`E` says. -/
def Ends (x : Steps σ α) (s : σ) (E : Error → σ → Prop) (P : α → σ → Prop) : Prop :=
  match x s with
  | .ok a s' => P a s'
  | .error e s' => E e s'

theorem Ends.of_eq_ok {a : α} (h : Ends x s E P) (hx : x s = .ok a s') : P a s' := by
  unfold Ends at h
  rwa [hx] at h

theorem Ends.of_eq_error {e : Error} (h : Ends x s E P) (hx : x s = .error e s') : E e s' := by
  unfold Ends at h
  rwa [hx] at h

theorem ends_iff :
    Ends x s E P ↔ (∀ a s', x s = .ok a s' → P a s') ∧ ∀ e s', x s = .error e s' → E e s' := by
  constructor
  · intro h
    exact ⟨fun _ _ => h.of_eq_ok, fun _ _ => h.of_eq_error⟩
  · rintro ⟨hP, hE⟩
    unfold Ends
    cases hx : x s with
    | ok a s' => exact hP a s' hx
    | error e s' => exact hE e s' hx

theorem Runs.ends_of {C : Prop} (hruns : C → Runs x s P) (hC : ∀ a s', x s = .ok a s' → C)
    (hE : ¬ C → ∀ e s', E e s') : Ends x s E P :=
  ends_iff.2 ⟨fun a s' h => (hruns (hC a s' h)).of_eq_ok h, fun e s' h => hE (fun hc => by
    obtain ⟨_, _, hok, -⟩ := hruns hc
    cases h.symm.trans hok) e s'⟩

theorem Runs.ends (h : Runs x s P) : Ends x s E P := by
  obtain ⟨_, _, h, hP⟩ := h
  unfold Ends
  rw [h]
  exact hP

theorem Ends.mono {P' : α → σ → Prop} (h : Ends x s E P) (hE : ∀ e s', E e s' → E' e s')
    (hP : ∀ a s', P a s' → P' a s') : Ends x s E' P' := by
  rw [ends_iff] at h ⊢
  exact ⟨fun a s' ha => hP a s' (h.1 a s' ha), fun e s' he => hE e s' (h.2 e s' he)⟩

theorem Ends.bind (hx : Ends x s E P) (hf : ∀ a t, P a t → Ends (f a) t E Q) :
    Ends (x >>= f) s E Q := by
  change Ends (EStateM.bind x f) s E Q
  unfold Ends EStateM.bind at *
  cases hres : x s with
  | ok a t =>
    rw [hres] at hx
    exact hf a t hx
  | error e t =>
    rw [hres] at hx
    exact hx

theorem ends_modify {f : σ → σ} {P : PUnit → σ → Prop} (h : P ⟨⟩ (f s)) :
    Ends (modify f : Steps σ PUnit) s E P := h

theorem Ends.get_bind {f : σ → Steps σ β} (h : Ends (f s) s E Q) : Ends (get >>= f) s E Q :=
  .bind (P := fun a t => a = s ∧ t = s) ⟨rfl, rfl⟩ fun _ _ hget => by
    obtain ⟨rfl, rfl⟩ := hget
    exact h

/-- **Two computations have come to the same end**, in states as `G` says, unless the first one was
stopped by an error as `S` says. -/
inductive Together {σ τ α : Type} (S : Error → Prop) (G : σ → τ → Prop) :
    EStateM.Result Error σ α → EStateM.Result Error τ α → Prop
  | ok {a : α} {s : σ} {t : τ} : G s t → Together S G (.ok a s) (.ok a t)
  | error {e : Error} {s : σ} {t : τ} : G s t → Together S G (.error e s) (.error e t)
  | stopped {e : Error} {s : σ} {r : EStateM.Result Error τ α} : S e → Together S G (.error e s) r

namespace Together

variable {τ : Type} {t : τ} {S : Error → Prop} {G G' : σ → τ → Prop}

theorem bind {y : Steps τ α} {g : α → Steps τ β} (h : Together S G (x s) (y t))
    (hf : ∀ a s t, G s t → Together S G (f a s) (g a t)) :
    Together S G ((x >>= f) s) ((y >>= g) t) := by
  change Together S G (EStateM.bind x f s) (EStateM.bind y g t)
  unfold EStateM.bind
  generalize x s = r, y t = r' at h ⊢
  cases h with
  | ok hG => exact hf _ _ _ hG
  | error hG => exact .error hG
  | stopped hS => exact .stopped hS

theorem get_bind {f : σ → Steps σ β} {g : τ → Steps τ β} (h : Together S G (f s s) (g t t)) :
    Together S G ((get >>= f) s) ((get >>= g) t) := h

theorem mono {r : EStateM.Result Error σ α} {r' : EStateM.Result Error τ α} (h : Together S G r r')
    (hG : ∀ s t, G s t → G' s t) : Together S G' r r' := by
  cases h with
  | ok h => exact .ok (hG _ _ h)
  | error h => exact .error (hG _ _ h)
  | stopped hS => exact .stopped hS

end Together

end Steps

end VecLang
