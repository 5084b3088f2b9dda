import VecLang.Proofs.Grammar.Token

/-!
# Blanks between tokens

Two texts are respacings of one another if they differ in the amount and the kind of the
blanks between their other characters, and blanks stand at the same places in both.

* `Respaced`: texts that differ in their blanks alone. It is decided by `squeezed`.
* `weight`: the length of a text without its blanks.
-/

namespace VecLang.Grammar

open List

variable {s w s' : Text}

def IsGap (w : Text) : Prop := w ≠ [] ∧ ∀ ch ∈ w, isSpacing ch = true

/-- **Each longest run of blanks is replaced by some other run of blanks.** -/
inductive Respaced : Text → Text → Prop
  | nil : Respaced [] []
  | char {ch : Char} {s s' : Text} : isSpacing ch = false → Respaced s s' →
      Respaced (ch :: s) (ch :: s')
  | gap {w w' s s' : Text} : IsGap w → IsGap w' → (∀ ch ∈ s.head?, isSpacing ch = false) →
      Respaced s s' → Respaced (w ++ s) (w' ++ s')

theorem skip_eq_self (h : ∀ ch ∈ s.head?, isSpacing ch = false) : skip s = s :=
  dropWhile_eq_self_of_head h

theorem IsGap.exists_cons (h : IsGap w) : ∃ ch r, w = ch :: r ∧ isSpacing ch = true := by
  obtain ⟨hne, hall⟩ := h
  cases w with
  | nil => exact absurd rfl hne
  | cons ch r => exact ⟨ch, r, rfl, hall ch (.head _)⟩

theorem Respaced.head_spacing (h : Respaced s s') (hs : ∀ ch ∈ s.head?, isSpacing ch = false) :
    ∀ ch ∈ s'.head?, isSpacing ch = false := by
  cases h with
  | nil => exact hs
  | char hch _ =>
    intro x hx
    cases hx
    exact hch
  | gap hw _ _ _ =>
    obtain ⟨ch, r, rfl, hch⟩ := hw.exists_cons
    cases hch.symm.trans (hs ch rfl)

/-- The text with one space for each longest run of blanks, where `after` says whether a blank
stands before it. -/
def squeezed (after : Bool) : Text → Text
  | [] => []
  | ch :: s =>
    if isSpacing ch then if after then squeezed true s else ' ' :: squeezed true s
    else ch :: squeezed false s

theorem squeezed_cons {ch : Char} (h : isSpacing ch = false) (after : Bool) (s : Text) :
    squeezed after (ch :: s) = ch :: squeezed false s := by
  rw [squeezed, h]
  rfl

theorem squeezed_true (s : Text) : squeezed true s = squeezed false (skip s) := by
  induction s with
  | nil => rfl
  | cons ch s ih =>
    cases hch : isSpacing ch with
    | false => rw [skip_cons hch, squeezed_cons hch, squeezed_cons hch]
    | true =>
      rw [skip_cons_blank hch, ← ih, squeezed, hch]
      rfl

theorem squeezed_gap (hw : IsGap w) (s : Text) :
    squeezed false (w ++ s) = ' ' :: squeezed false (skip s) := by
  obtain ⟨ch, r, rfl, hch⟩ := hw.exists_cons
  obtain ⟨-, hr⟩ := forall_mem_cons.1 hw.2
  rw [cons_append, squeezed, hch, squeezed_true, skip_append_blanks hr]
  rfl

theorem Respaced.squeezed_eq (h : Respaced s s') : squeezed false s = squeezed false s' := by
  induction h with
  | nil => rfl
  | char hch _ ih => rw [squeezed_cons hch, squeezed_cons hch, ih]
  | gap hw hw' hs h ih =>
    rw [squeezed_gap hw, squeezed_gap hw', skip_eq_self hs, skip_eq_self (h.head_spacing hs), ih]

theorem respaced_of_squeezed (h : squeezed false s = squeezed false s') : Respaced s s' := by
  -- a gap is taken off whole, so the induction is on the length
  induction hlen : s.length using Nat.strongRecOn generalizing s s' with
  | ind n ih =>
    subst hlen
    cases s with
    | nil =>
      cases s' with
      | nil => exact .nil
      | cons ch' r' =>
        rw [squeezed, squeezed] at h
        split at h <;> cases h
    | cons ch r =>
      cases s' with
      | nil =>
        rw [squeezed, squeezed] at h
        split at h <;> cases h
      | cons ch' r' =>
        have hgap : ∀ {x : Char} {t : Text}, isSpacing x = true →
            IsGap (x :: t.takeWhile isSpacing) ∧
              x :: t = (x :: t.takeWhile isSpacing) ++ skip t := by
          intro x t hx
          refine ⟨⟨cons_ne_nil _ _, forall_mem_cons.2 ⟨hx, ?_⟩⟩, ?_⟩
          · exact all_eq_true.1 all_takeWhile
          · exact congrArg (x :: ·) takeWhile_append_dropWhile.symm
        cases hch : isSpacing ch with
        | false =>
          rw [squeezed_cons hch] at h
          cases hch' : isSpacing ch' with
          | false =>
            rw [squeezed_cons hch', cons.injEq] at h
            obtain ⟨rfl, h⟩ := h
            exact .char hch (ih _ (Nat.lt_succ_self _) h rfl)
          | true =>
            obtain ⟨hw', hs'⟩ := hgap (t := r') hch'
            rw [hs', squeezed_gap hw', cons.injEq] at h
            rw [h.1] at hch
            cases hch
        | true =>
          obtain ⟨hw, hs⟩ := hgap (t := r) hch
          rw [hs, squeezed_gap hw] at h
          cases hch' : isSpacing ch' with
          | false =>
            rw [squeezed_cons hch', cons.injEq] at h
            rw [← h.1] at hch'
            cases hch'
          | true =>
            obtain ⟨hw', hs'⟩ := hgap (t := r') hch'
            rw [hs', squeezed_gap hw', skip_skip, skip_skip, cons.injEq] at h
            have hrest : Respaced (skip r) (skip r') :=
              ih _ (Nat.lt_succ_of_le (length_skip_le r)) h.2 rfl
            rw [hs, hs']
            exact .gap hw hw' head?_skip hrest

instance (s s' : Text) : Decidable (Respaced s s') :=
  decidable_of_iff (squeezed false s = squeezed false s')
    ⟨respaced_of_squeezed, Respaced.squeezed_eq⟩

def weight (s : Text) : Nat := s.countP (!isSpacing ·)

theorem weight_le_length (s : Text) : weight s ≤ s.length := countP_le_length

theorem weight_append (w s : Text) : weight (w ++ s) = weight w + weight s := countP_append

theorem weight_gap (h : IsGap w) : weight w = 0 := by
  refine countP_eq_zero.2 fun ch hch => ?_
  simp [h.2 ch hch]

theorem weight_skip (s : Text) : weight (skip s) = weight s := by
  induction s with
  | nil => rfl
  | cons ch s ih =>
    cases hch : isSpacing ch with
    | false => rw [skip_cons hch]
    | true =>
      have hgap : IsGap [ch] := ⟨cons_ne_nil _ _, by simpa using hch⟩
      rw [skip_cons_blank hch, ih, ← singleton_append (l := s), weight_append, weight_gap hgap,
        Nat.zero_add]

theorem weight_lt (hw : ∀ ch ∈ w, isSpacing ch = false) (hne : w ≠ []) :
    weight s < weight (w ++ s) := by
  have hpos : 0 < weight w := by
    obtain ⟨ch, hch⟩ := exists_mem_of_ne_nil w hne
    exact countP_pos_iff.2 ⟨ch, hch, by simp [hw ch hch]⟩
  rw [weight_append]
  omega

end VecLang.Grammar
