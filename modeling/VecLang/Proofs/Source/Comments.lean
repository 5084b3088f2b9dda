import VecLang.Proofs.Source.Preprocess

/-!
# Texts without comments

What a scan for comments makes of a text, said without the scanner: the text in front of the
place that the scan has reached is code and whole comments (`Scanned`). Taking a comment out
could bring two characters together that open another one. It does not: a slash is kept as code
only if neither a slash nor a star stands behind it in the source, and the first character kept
behind it is the one that stood there, or a newline or a space in the place of a comment.

* `Scanned.stripFrom_eq`: the scanner goes over code and whole comments as described.
* `scanned_or_unclosed`: every text is scanned to its end or up to an open block comment.
* `Scanned.uncommented`: no comment opens in what is kept.
* `Scanned.lineByLine`: what is kept of a line stays in its line.
* `strip_stable`: **stripping leaves no comment**, and so a second time changes nothing.
-/

namespace VecLang

open List

namespace Comment

variable {c : Char} {body rest s t taken left : Text} {offset opened : Nat}

/-! ### Openers -/

/-- A comment opens at the start of the text. -/
def Opens (s : Text) : Prop := ['/', '/'] <+: s ∨ ['/', '*'] <+: s

/-- **No comment opens anywhere in the text.** -/
def Uncommented (s : Text) : Prop := ¬ ['/', '/'] <:+: s ∧ ¬ ['/', '*'] <:+: s

/-- The text holds no end of a block comment. -/
def Unclosed (s : Text) : Prop := ¬ ['*', '/'] <:+: s

instance (s : Text) : Decidable (Opens s) := inferInstanceAs (Decidable (_ ∨ _))

instance (s : Text) : Decidable (Uncommented s) := inferInstanceAs (Decidable (_ ∧ _))

instance (s : Text) : Decidable (Unclosed s) := inferInstanceAs (Decidable (¬ _))

theorem opens_iff : Opens (c :: s) ↔ c = '/' ∧ (s.head? = some '/' ∨ s.head? = some '*') := by
  cases s with
  | nil => simp [Opens]
  | cons d s =>
    simp only [Opens, cons_prefix_cons, nil_prefix, and_true, head?_cons,
      Option.some.injEq]
    constructor
    · rintro (⟨hc, hd⟩ | ⟨hc, hd⟩)
      · exact ⟨hc.symm, .inl hd.symm⟩
      · exact ⟨hc.symm, .inr hd.symm⟩
    · rintro ⟨hc, hd | hd⟩
      · exact .inl ⟨hc.symm, hd.symm⟩
      · exact .inr ⟨hc.symm, hd.symm⟩

theorem uncommented_nil : Uncommented [] := by decide

theorem uncommented_cons : Uncommented (c :: s) ↔ ¬ Opens (c :: s) ∧ Uncommented s := by
  unfold Uncommented Opens
  rw [infix_cons_iff, infix_cons_iff]
  tauto

theorem Uncommented.cons_of_ne (hc : c ≠ '/') (h : Uncommented s) : Uncommented (c :: s) := by
  refine uncommented_cons.2 ⟨fun hopens => ?_, h⟩
  exact hc (opens_iff.1 hopens).1

theorem unclosed_cons : Unclosed (c :: s) ↔ ¬ (c = '*' ∧ s.head? = some '/') ∧ Unclosed s := by
  unfold Unclosed
  rw [infix_cons_iff, not_or]
  refine and_congr_left fun _ => not_congr ?_
  cases s with
  | nil => simp
  | cons d s => simp [cons_prefix_cons, eq_comm]

theorem exists_first_close (h : ¬ Unclosed s) :
    ∃ body rest, s = body ++ '*' :: '/' :: rest ∧ Unclosed body := by
  induction s with
  | nil => exact absurd (by decide) h
  | cons c s ih =>
    by_cases hclose : c = '*' ∧ s.head? = some '/'
    · obtain ⟨rfl, hhead⟩ := hclose
      obtain ⟨rest, rfl⟩ := head?_eq_some_iff.1 hhead
      exact ⟨[], rest, rfl, by decide⟩
    · have hlater : ¬ Unclosed s := fun hs => h (unclosed_cons.2 ⟨hclose, hs⟩)
      obtain ⟨body, rest, rfl, hbody⟩ := ih hlater
      refine ⟨c :: body, rest, rfl, unclosed_cons.2 ⟨fun hearly => hclose ⟨hearly.1, ?_⟩, hbody⟩⟩
      rw [head?_append, hearly.2]
      rfl

/-! ### What a scan makes of a text -/

/-- **Code and whole comments in front of `rest`**, and what is kept of them: the code, nothing
of a line comment, and of a block comment its newlines and a space. A line comment runs up to a
newline or to the end of the text, and a block comment to the first end of one. -/
inductive Scanned (rest : Text) : Text → Text → Prop
  | nil : Scanned rest [] []
  | code {c : Char} {s t : Text} : ¬ Opens (c :: (s ++ rest)) → Scanned rest s t →
      Scanned rest (c :: s) (c :: t)
  | line {body s t : Text} : '\n' ∉ body → (∀ c ∈ (s ++ rest).head?, c = '\n') →
      Scanned rest s t → Scanned rest ('/' :: '/' :: (body ++ s)) t
  | block {body s t : Text} : Unclosed body → Scanned rest s t →
      Scanned rest ('/' :: '*' :: (body ++ '*' :: '/' :: s)) (body.filter (· == '\n') ++ ' ' :: t)

/-- **A block comment that never ends**: behind `taken`, which is code and whole comments, one
opens and the text behind its opener holds no end of one. -/
def OpenAt (source taken : Text) : Prop :=
  ∃ left rest, source = taken ++ '/' :: '*' :: rest ∧
    Scanned ('/' :: '*' :: rest) taken left ∧ Unclosed rest

/-! ### The scanner by its pieces -/

theorem stripFrom_code (h : ¬ Opens (c :: s)) : stripFrom .code offset (c :: s) =
    (c :: ·) <$> stripFrom .code (offset + c.utf8Size) s := by
  have hline : ∀ r, c = '/' → s = '/' :: r → False := by
    rintro r rfl rfl
    exact h (opens_iff.2 ⟨rfl, .inl rfl⟩)
  have hblock : ∀ r, c = '/' → s = '*' :: r → False := by
    rintro r rfl rfl
    exact h (opens_iff.2 ⟨rfl, .inr rfl⟩)
  rw [stripFrom]
  · rfl
  · exact hline
  · exact hblock

theorem stripFrom_line (hbody : '\n' ∉ body) (hs : ∀ c ∈ s.head?, c = '\n') :
    stripFrom .line offset (body ++ s) = stripFrom .code (offset + Text.byteLength body) s := by
  induction body generalizing offset with
  | nil =>
    cases s with
    | nil => rfl
    | cons d s =>
      -- the newline is kept as code is
      have hd : d = '\n' := hs d rfl
      subst hd
      have hcode : ¬ Opens ('\n' :: s) := fun hopens => absurd (opens_iff.1 hopens).1 (by decide)
      rw [stripFrom_code hcode, nil_append, stripFrom]
      rfl
  | cons d body ih =>
    obtain ⟨hd, hbody⟩ := not_or.1 (mt mem_cons.2 hbody)
    have hskip : stripFrom .line offset (d :: (body ++ s)) =
        stripFrom .line (offset + d.utf8Size) (body ++ s) := by
      rw [stripFrom]
      exact fun hd' => hd hd'.symm
    rw [cons_append, hskip, ih hbody, Text.byteLength_cons, Nat.add_assoc]

/-- Inside a block comment a character is dropped, if it is no newline and does not end it. -/
theorem stripFrom_block_cons (hclose : ¬ (c = '*' ∧ s.head? = some '/')) :
    stripFrom (.block opened) offset (c :: s) =
      ([c].filter (· == '\n') ++ ·) <$> stripFrom (.block opened) (offset + c.utf8Size) s := by
  by_cases hc : c = '\n'
  · subst hc
    rw [stripFrom]
    rfl
  · have hend : ∀ r, c = '*' → s = '/' :: r → False := by
      rintro r rfl rfl
      exact hclose ⟨rfl, rfl⟩
    have hdrop : [c].filter (· == '\n') = [] := by simp [hc]
    rw [stripFrom, hdrop]
    · exact (id_map' _).symm
    · exact hend
    · exact hc

/-- The newlines of a block comment are kept, and a space for the comment itself. -/
theorem stripFrom_block (hbody : Unclosed body) :
    stripFrom (.block opened) offset (body ++ '*' :: '/' :: s) =
      (body.filter (· == '\n') ++ ' ' :: ·) <$>
        stripFrom .code (offset + Text.byteLength body + 2) s := by
  induction body generalizing offset with
  | nil =>
    rw [nil_append, stripFrom]
    rfl
  | cons d body ih =>
    obtain ⟨hd, hbody⟩ := unclosed_cons.1 hbody
    have hd' : ¬ (d = '*' ∧ (body ++ '*' :: '/' :: s).head? = some '/') := by
      rintro ⟨hstar, hhead⟩
      cases body with
      | nil => exact absurd (Option.some.inj hhead) (by decide)
      | cons e body => exact hd ⟨hstar, hhead⟩
    rw [cons_append, stripFrom_block_cons hd', ih hbody, Functor.map_map,
      Text.byteLength_cons, Nat.add_assoc offset]
    refine congrArg (· <$> _) (funext fun u => ?_)
    rw [← append_assoc, ← filter_append]
    rfl

theorem stripFrom_unclosed (h : Unclosed s) :
    stripFrom (.block opened) offset s = .error opened := by
  induction s generalizing offset with
  | nil => rfl
  | cons c s ih =>
    obtain ⟨hc, hs⟩ := unclosed_cons.1 h
    rw [stripFrom_block_cons hc, ih hs]
    rfl

/-- **The scanner goes over code and whole comments** and keeps of them what is to be kept. -/
theorem Scanned.stripFrom_eq (h : Scanned rest taken left) (offset : Nat) :
    stripFrom .code offset (taken ++ rest) =
      (left ++ ·) <$> stripFrom .code (offset + Text.byteLength taken) rest := by
  induction h generalizing offset with
  | nil => exact (id_map' _).symm
  | @code c s t hcode _ ih =>
    rw [cons_append, stripFrom_code hcode, ih, Functor.map_map, Text.byteLength_cons,
      Nat.add_assoc]
    rfl
  | @line body s t hbody hs _ ih =>
    have hlength : Text.byteLength ('/' :: '/' :: (body ++ s)) =
        2 + Text.byteLength body + Text.byteLength s := by
      simp only [Text.byteLength_cons, Text.byteLength_append]
      have hslash : ('/' : Char).utf8Size = 1 := by decide
      omega
    rw [cons_append, cons_append, stripFrom, append_assoc, stripFrom_line hbody hs,
      ih, hlength]
    simp only [Nat.add_assoc]
  | @block body s t hbody _ ih =>
    have hlength : Text.byteLength ('/' :: '*' :: (body ++ '*' :: '/' :: s)) =
        2 + Text.byteLength body + 2 + Text.byteLength s := by
      simp only [Text.byteLength_cons, Text.byteLength_append]
      have hslash : ('/' : Char).utf8Size = 1 := by decide
      have hstar : ('*' : Char).utf8Size = 1 := by decide
      omega
    rw [cons_append, cons_append, stripFrom, append_assoc, cons_append,
      cons_append, stripFrom_block hbody, ih, Functor.map_map, hlength]
    simp only [Nat.add_assoc, append_assoc, cons_append]

/-! ### Every text is scanned -/

/-- **Every text is scanned** to its end, or up to a block comment that never ends. -/
theorem scanned_or_unclosed (source : Text) :
    (∃ out, Scanned [] source out) ∨ ∃ taken, OpenAt source taken := by
  -- by induction on the length, since a comment is taken off as a whole
  generalize hn : source.length = n
  induction n using Nat.strongRecOn generalizing source with
  | ind n ih =>
    cases source with
    | nil => exact .inl ⟨[], .nil⟩
    | cons c s =>
      rw [length_cons] at hn
      by_cases hopens : Opens (c :: s)
      · obtain ⟨rfl, hhead | hhead⟩ := opens_iff.1 hopens
        · -- a line comment, and what is left from the end of its line on
          obtain ⟨r, rfl⟩ := head?_eq_some_iff.1 hhead
          let body := r.takeWhile (· != '\n')
          let s := r.dropWhile (· != '\n')
          have hsplit : r = body ++ s := takeWhile_append_dropWhile.symm
          have hbody : '\n' ∉ body := by
            intro hmem
            have hkept := Macro.all_takeWhile r _ hmem
            exact absurd hkept (by decide)
          have hs : ∀ d ∈ s.head?, d = '\n' := by
            intro d hd
            have hstop := Macro.head_dropWhile r d hd
            simpa using hstop
          have hlt : s.length < n := by
            have hlength : r.length = body.length + s.length := by
              rw [hsplit, length_append]
            rw [length_cons] at hn
            omega
          rw [hsplit]
          rcases ih s.length hlt s rfl with ⟨out, hout⟩ | ⟨taken, left, rest, hs', hscan, hrest⟩
          · refine .inl ⟨out, .line hbody ?_ hout⟩
            rw [append_nil]
            exact hs
          · refine .inr ⟨'/' :: '/' :: (body ++ taken), left, rest, ?_, .line hbody ?_ hscan, hrest⟩
            · rw [hs', cons_append, cons_append, append_assoc]
            · rw [← hs']
              exact hs
        · -- a block comment, if it ends
          obtain ⟨r, rfl⟩ := head?_eq_some_iff.1 hhead
          by_cases hopen : Unclosed r
          · exact .inr ⟨[], [], r, rfl, .nil, hopen⟩
          · obtain ⟨body, s, rfl, hbody⟩ := exists_first_close hopen
            have hlt : s.length < n := by
              rw [length_cons, length_append, length_cons, length_cons] at hn
              omega
            rcases ih s.length hlt s rfl with ⟨out, hout⟩ | ⟨taken, left, rest, rfl, hscan, hrest⟩
            · exact .inl ⟨_, .block hbody hout⟩
            · refine .inr ⟨'/' :: '*' :: (body ++ '*' :: '/' :: taken), _, rest, ?_,
                .block hbody hscan, hrest⟩
              simp only [cons_append, append_assoc]
      · rcases ih s.length (by omega) s rfl with ⟨out, hout⟩ | ⟨taken, left, rest, rfl, hscan, hrest⟩
        · refine .inl ⟨c :: out, .code ?_ hout⟩
          rw [append_nil]
          exact hopens
        · exact .inr ⟨c :: taken, c :: left, rest, rfl, .code hopens hscan, hrest⟩

theorem Scanned.strip_eq_ok (h : Scanned [] s t) : strip s = .ok t := by
  have heq := h.stripFrom_eq 0
  rw [append_nil] at heq
  unfold strip
  rw [heq]
  change Except.ok (t ++ []) = _
  rw [append_nil]

theorem OpenAt.strip_eq_error (h : OpenAt s taken) : strip s = .error (Text.byteLength taken) := by
  obtain ⟨left, rest, rfl, hscan, hrest⟩ := h
  have hopen : stripFrom .code (0 + Text.byteLength taken) ('/' :: '*' :: rest) =
      .error (Text.byteLength taken) := by
    rw [stripFrom, stripFrom_unclosed hrest, Nat.zero_add]
  unfold strip
  rw [hscan.stripFrom_eq, hopen]
  rfl

/-- **What stripping gives** is what a scan to the end keeps. -/
theorem strip_eq_ok_iff : strip s = .ok t ↔ Scanned [] s t := by
  constructor
  · intro h
    rcases scanned_or_unclosed s with ⟨out, hout⟩ | ⟨taken, hopen⟩
    · rw [hout.strip_eq_ok] at h
      cases h
      exact hout
    · rw [hopen.strip_eq_error] at h
      cases h
  · exact Scanned.strip_eq_ok

/-- **Stripping fails** exactly at a block comment that never ends. -/
theorem strip_eq_error_iff :
    strip s = .error offset ↔ ∃ taken, OpenAt s taken ∧ offset = Text.byteLength taken := by
  constructor
  · intro h
    rcases scanned_or_unclosed s with ⟨out, hout⟩ | ⟨taken, hopen⟩
    · rw [hout.strip_eq_ok] at h
      cases h
    · rw [hopen.strip_eq_error] at h
      cases h
      exact ⟨taken, hopen, rfl⟩
  · rintro ⟨taken, hopen, rfl⟩
    exact hopen.strip_eq_error

/-! ### What is kept opens no comment -/

theorem uncommented_block (body : Text) (h : Uncommented t) :
    Uncommented (body.filter (· == '\n') ++ ' ' :: t) := by
  induction body with
  | nil => exact h.cons_of_ne (by decide)
  | cons c body ih =>
    by_cases hc : c = '\n'
    · rw [filter_cons_of_pos (by rw [hc]; rfl), cons_append]
      exact ih.cons_of_ne (by rw [hc]; decide)
    · rw [filter_cons_of_neg (by simpa using hc)]
      exact ih

/-- **What is kept starts as the source does**, if it starts with a slash or a star. -/
theorem Scanned.head?_eq (h : Scanned [] s t) (hc : c = '/' ∨ c = '*') (hhead : t.head? = some c) :
    s.head? = some c := by
  have hnewline : c ≠ '\n' := by rcases hc with rfl | rfl <;> decide
  have hspace : c ≠ ' ' := by rcases hc with rfl | rfl <;> decide
  induction h with
  | nil => exact hhead
  | code _ _ _ => exact hhead
  | @line body s t _ hs _ ih =>
    -- behind the comment stands a newline, so nothing else can come first
    rw [append_nil] at hs
    exact absurd (hs c (ih hhead)) hnewline
  | @block body s t _ _ _ =>
    cases hlines : body.filter (· == '\n') with
    | nil =>
      rw [hlines, nil_append, head?_cons] at hhead
      exact absurd (Option.some.inj hhead).symm hspace
    | cons d ds =>
      rw [hlines, cons_append, head?_cons] at hhead
      have hd : d ∈ body.filter (· == '\n') := by
        rw [hlines]
        exact .head _
      have hd' : d = '\n' := by simpa using (mem_filter.1 hd).2
      exact absurd ((Option.some.inj hhead).symm.trans hd') hnewline

/-- **No comment opens in what is kept.** -/
theorem Scanned.uncommented (h : Scanned [] s t) : Uncommented t := by
  induction h with
  | nil => exact uncommented_nil
  | @code c s t hcode hscan ih =>
    refine uncommented_cons.2 ⟨fun hopens => hcode ?_, ih⟩
    -- an opener in the kept text stands in the source as well
    obtain ⟨hc, hhead⟩ := opens_iff.1 hopens
    rw [append_nil]
    refine opens_iff.2 ⟨hc, hhead.imp ?_ ?_⟩
    · exact hscan.head?_eq (.inl rfl)
    · exact hscan.head?_eq (.inr rfl)
  | line _ _ _ ih => exact ih
  | @block body s t _ _ ih => exact uncommented_block body ih

theorem Uncommented.scanned (h : Uncommented s) : Scanned [] s s := by
  induction s with
  | nil => exact .nil
  | cons c s ih =>
    obtain ⟨hcode, hs⟩ := uncommented_cons.1 h
    refine .code ?_ (ih hs)
    rw [append_nil]
    exact hcode

/-! ### Line by line -/

/-- **Each line holds characters of the line with its number alone**, and spaces in the place of
comments. -/
def LineByLine (s t : Text) : Prop :=
  List.Forall₂ (fun line kept : Text => (kept.filter (· != ' ')).Sublist line) (Text.splitLines s)
    (Text.splitLines t)

theorem LineByLine.newline (h : LineByLine s t) : LineByLine ('\n' :: s) ('\n' :: t) :=
  .cons (nil_sublist _) h

theorem LineByLine.drop (hc : c ≠ '\n') (h : LineByLine s t) : LineByLine (c :: s) t := by
  obtain ⟨line, rest, hs, hcons⟩ := Text.splitLines_cons_of_ne hc s
  unfold LineByLine at h ⊢
  rw [hs, forall₂_cons_left_iff] at h
  obtain ⟨kept, others, hline, hrest, ht⟩ := h
  rw [hcons, ht]
  exact .cons (hline.cons c) hrest

theorem LineByLine.space (h : LineByLine s t) : LineByLine s (' ' :: t) := by
  obtain ⟨kept, others, ht, hcons⟩ := Text.splitLines_cons_of_ne (c := ' ') (by decide) t
  unfold LineByLine at h ⊢
  rw [ht, forall₂_cons_right_iff] at h
  obtain ⟨line, rest, hline, hrest, hs⟩ := h
  rw [hcons, hs]
  exact .cons hline hrest

theorem LineByLine.keep (h : LineByLine s t) : LineByLine (c :: s) (c :: t) := by
  by_cases hc : c = '\n'
  · rw [hc]
    exact h.newline
  obtain ⟨line, rest, hs, hcons⟩ := Text.splitLines_cons_of_ne hc s
  obtain ⟨kept, others, ht, hcons'⟩ := Text.splitLines_cons_of_ne hc t
  unfold LineByLine at h ⊢
  rw [hs, ht] at h
  rw [hcons, hcons']
  obtain ⟨hline, hrest⟩ := forall₂_cons.1 h
  refine .cons ?_ hrest
  rw [filter_cons]
  split
  · exact hline.cons_cons c
  · exact hline.cons c

theorem LineByLine.comment (body : Text) (h : LineByLine s t) :
    LineByLine (body ++ s) (body.filter (· == '\n') ++ t) := by
  induction body with
  | nil => exact h
  | cons c body ih =>
    by_cases hc : c = '\n'
    · subst hc
      exact ih.newline
    · rw [filter_cons_of_neg (by simpa using hc)]
      exact ih.drop hc

/-- **What a scan keeps of a line stays in its line.** -/
theorem Scanned.lineByLine (h : Scanned [] s t) : LineByLine s t := by
  induction h with
  | nil => exact .cons (nil_sublist _) .nil
  | code _ _ ih => exact ih.keep
  | @line body s t hbody _ _ ih =>
    have hnone : body.filter (· == '\n') = [] :=
      filter_eq_nil_iff.2 fun c hc hnew => hbody (beq_iff_eq.1 hnew ▸ hc)
    have hrest := ih.comment body
    rw [hnone, nil_append] at hrest
    exact (hrest.drop (by decide)).drop (by decide)
  | @block body s t _ _ ih =>
    have hclosed := ((ih.space.drop (c := '/') (by decide)).drop (c := '*') (by decide)).comment body
    exact (hclosed.drop (by decide)).drop (by decide)

end Comment

/-! ### Preprocessing a text without directives -/

namespace Macro

/-- The line is a directive: behind its leading blanks stands a `#`. -/
def IsDirective (line : Text) : Prop := (line.dropWhile isSpace).head? = some '#'

instance (line : Text) : Decidable (IsDirective line) := inferInstanceAs (Decidable (_ = _))

theorem directive?_eq_none {line : Text} (h : ¬ IsDirective line) : directive? line = none := by
  unfold directive?
  split
  · next rest hrest =>
    refine absurd ?_ h
    unfold IsDirective
    rw [hrest]
    rfl
  · rfl

theorem expand_empty (line : Text) : expand {} line = line := by
  have hkept : expandRun {} = id := by
    funext w
    exact expandRun_kept fun _ v hv => by cases hv
  unfold expand
  rw [hkept, flatMap_id]
  exact flatten_splitBy _ line

theorem expandLines_empty {lines : List Text} (h : ∀ line ∈ lines, ¬ IsDirective line)
    (offset : Nat) : expandLines {} offset lines = .ok lines := by
  induction lines generalizing offset with
  | nil => rfl
  | cons line lines ih =>
    obtain ⟨hline, hlines⟩ := forall_mem_cons.1 h
    rw [expandLines, directive?_eq_none hline]
    simp only
    rw [ih hlines, expand_empty]
    rfl

theorem preprocess_of_strip {source : String} {stripped : Text}
    (hstrip : Comment.strip source.toList = .ok stripped)
    (hlines : ∀ line ∈ Text.splitLines stripped, ¬ IsDirective line) :
    preprocess source = .ok (String.ofList stripped) := by
  have htext : preprocessText source.toList = .ok stripped := by
    unfold preprocessText
    rw [hstrip]
    simp only
    rw [expandLines_empty hlines]
    exact congrArg Except.ok (Text.joinLines_splitLines stripped)
  unfold preprocess
  rw [htext]
  rfl

end Macro

open Comment Macro

/-- **Stripping leaves no comment.** It fails exactly if the scan from the left comes to a block
comment that opens outside any comment and never ends, and then at the offset of its opener.
Otherwise it gives what the scan to the end keeps. In this neither kind of comment opens
anywhere, so that stripping it again changes nothing, and a source in which none opens is kept as
it is. Where no line of the stripped text is a directive, preprocessing the source gives that
text, and preprocessing it again gives the same. -/
theorem Comment.strip_stable (source : String) :
    (∀ offset, strip source.toList = .error offset ↔
        ∃ taken, OpenAt source.toList taken ∧ offset = Text.byteLength taken) ∧
      (∀ out, strip source.toList = .ok out ↔ Scanned [] source.toList out) ∧
      (∀ out, strip source.toList = .ok out → Uncommented out ∧ strip out = .ok out) ∧
      (Uncommented source.toList → strip source.toList = .ok source.toList) ∧
      ∀ out, strip source.toList = .ok out →
        (∀ line ∈ Text.splitLines out, ¬ IsDirective line) →
        preprocess source = .ok (String.ofList out) ∧
          preprocess (String.ofList out) = .ok (String.ofList out) := by
  have hkept : ∀ out, strip source.toList = .ok out → Uncommented out ∧ strip out = .ok out := by
    intro out h
    have hclean := (strip_eq_ok_iff.1 h).uncommented
    exact ⟨hclean, hclean.scanned.strip_eq_ok⟩
  refine ⟨fun offset => strip_eq_error_iff, fun out => strip_eq_ok_iff, hkept,
    fun h => h.scanned.strip_eq_ok, fun out h hlines => ?_⟩
  refine ⟨preprocess_of_strip h hlines, preprocess_of_strip ?_ hlines⟩
  rw [String.toList_ofList]
  exact (hkept out h).2

/-- Slashes and stars around comments: a line comment that seems to open a block, a block that
seems to close at once, and a sharp that does not start its line. -/
def starryText : String := "a / b; //* half\n/*/ *\n**/*/ # /**/ c */"

theorem Comment.strip_stable_starryText :
    strip starryText.toList = .ok "a / b; \n\n */ #   c */".toList ∧
      Uncommented "a / b; \n\n */ #   c */".toList ∧
      preprocess starryText = .ok "a / b; \n\n */ #   c */" ∧
      preprocess "a / b; \n\n */ #   c */" = .ok "a / b; \n\n */ #   c */" := by
  have hstrip : strip starryText.toList = .ok "a / b; \n\n */ #   c */".toList := by decide +kernel
  have hlines : ∀ line ∈ Text.splitLines "a / b; \n\n */ #   c */".toList, ¬ IsDirective line := by
    decide +kernel
  obtain ⟨-, -, hkept, -, hpreprocess⟩ := strip_stable starryText
  obtain ⟨honce, htwice⟩ := hpreprocess _ hstrip hlines
  exact ⟨hstrip, (hkept _ hstrip).1, honce, htwice⟩

end VecLang
