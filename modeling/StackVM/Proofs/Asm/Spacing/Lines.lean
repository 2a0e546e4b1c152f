import StackVM.Proofs.Asm.Spacing.Zones

/-! # Blanks and comments on a line

Blanks at the end of a line do not count, neither does a comment, and the first word of a line is
read apart from what follows it.
-/
namespace StackVM

section Tokens
variable {gap word cs ds : List Char} {b : Char} {ts : List Token}

theorem tokenize_append (cs ds : List Char) :
    tokenize (cs ++ ds) = cs.foldlM Scan.step Scan.start >>= fun s => s.read ds :=
  Scan.start.read_append cs ds

theorem tokenize_gap_append (hgap : IsGap gap) (cs : List Char) :
    tokenize (gap ++ cs) = tokenize cs := by
  rw [tokenize_append, Scan.start, Scan.foldlM_gap hgap]
  rfl

theorem tokenize_append_gap (hgap : IsGap gap) :
    tokenize (cs ++ gap) = .ok ts ↔ tokenize cs = .ok ts := by
  rw [tokenize_append, tokenize, bind_eq_ok_iff, bind_eq_ok_iff]
  simp only [Scan.read_gap hgap]

theorem tokenize_append_comment (h : tokenize cs = .ok ts) (note : List Char) :
    tokenize (cs ++ ';' :: note) = .ok ts := by
  obtain ⟨s, hs, hfinish⟩ := bind_eq_ok_iff.mp h
  rw [tokenize_append, hs]
  exact Scan.read_comment hfinish note

theorem tokenize_insert (h : ∀ s, cs.foldlM Scan.step Scan.start = .ok s →
    s.read (b :: ds) = s.read ds) : tokenize (cs ++ b :: ds) = tokenize (cs ++ ds) := by
  rw [tokenize_append, tokenize_append]
  cases hs : cs.foldlM Scan.step Scan.start with
  | error e => rfl
  | ok s => exact h s hs

theorem tokenize_insert_blank (hout : (Zone.after cs).OutsideLiteral) (hb : Text.isBlank b = true)
    (hnext : (∃ c ∈ cs.getLast?, Text.isBlank c = true) ∨ ∃ c ∈ ds.head?, Text.isBlank c = true) :
    tokenize (cs ++ b :: ds) = tokenize (cs ++ ds) := by
  refine tokenize_insert fun s hs => ?_
  have hzone : s.mode.zone = Zone.after cs := Scan.zone_foldlM hs
  rw [← hzone] at hout
  rcases hnext with ⟨c, hlast, hc⟩ | ⟨c, hhead, hc⟩
  · obtain ⟨cs', rfl⟩ := List.getLast?_eq_some_iff.mp hlast
    rw [List.foldlM_append] at hs
    obtain ⟨s₀, -, hstep⟩ := bind_eq_ok_iff.mp hs
    simp only [List.foldlM_cons, List.foldlM_nil, bind_pure] at hstep
    rw [Scan.zone_step hstep] at hout
    have hstay := Scan.step_after_isBlank (Zone.outsideLiteral_of_next hc hout) hc hstep hb
    rw [Scan.read_cons, hstay, ok_bind]
  · obtain ⟨ds', rfl⟩ := List.head?_eq_some_iff.mp hhead
    rw [Scan.read_cons, Scan.read_cons, Scan.step_of_isBlank hout hb hc]
    cases hstep : s.step c with
    | error e => rfl
    | ok s' =>
      have hstay := Scan.step_after_isBlank hout hc hstep hc
      rw [ok_bind, ok_bind, Scan.read_cons, hstay, ok_bind]

/-- The first word of a line is read apart from the rest. -/
theorem tokenize_word (hgap : IsGap gap) (hword : IsWord word) (hcs : EndsWord cs) :
    tokenize (gap ++ (word ++ cs)) = do return (← Token.ofWord word) :: (← tokenize cs) := by
  rw [tokenize_gap_append hgap, tokenize_append, Scan.start, Scan.foldlM_isWord hword, ok_bind,
    Scan.read_word hcs]
  exact bind_congr fun t => (Scan.read_behind [t] Scan.start cs).trans (map_eq_pure_bind ..)

theorem map₂_eq_ok_iff {ε α β γ : Type} {x : Except ε α} {y : Except ε β} {f : α → β → γ} {c : γ} :
    (do return f (← x) (← y)) = .ok c ↔ ∃ a b, x = .ok a ∧ y = .ok b ∧ c = f a b := by
  cases x <;> cases y <;> simp [bind, Except.bind, pure, Except.pure, eq_comm]

theorem tokenize_word_iff (hgap : IsGap gap) (hword : IsWord word) (hcs : EndsWord cs) :
    tokenize (gap ++ (word ++ cs)) = .ok ts ↔
      ∃ t us, Token.ofWord word = .ok t ∧ tokenize cs = .ok us ∧ ts = t :: us := by
  rw [tokenize_word hgap hword hcs]
  exact map₂_eq_ok_iff

end Tokens

theorem toUpper_cases (c : Char) :
    c.toUpper = c ∨ c.isAlpha = true ∧ c.toUpper.isAlpha = true := by
  by_cases hlower : c.val ≥ 'a'.val ∧ c.val ≤ 'z'.val
  · have hval : c.toUpper.val = c.val + ('A'.val - 'a'.val) := by
      unfold Char.toUpper
      rw [dif_pos hlower]
    have hupper : 'A'.val ≤ c.toUpper.val ∧ c.toUpper.val ≤ 'Z'.val := by
      rw [hval]
      simp only [ge_iff_le, UInt32.le_iff_toNat_le, UInt32.toNat_add] at hlower ⊢
      simp at *
      omega
    refine .inr ⟨(Bool.or_eq_true _ _).mpr (.inr ?_), (Bool.or_eq_true _ _).mpr (.inl ?_)⟩
    · exact (Bool.and_eq_true _ _).mpr ⟨decide_eq_true hlower.1, decide_eq_true hlower.2⟩
    · exact decide_eq_true hupper
  · exact .inl (dif_neg hlower)

namespace Token

theorem isIdentHead_toUpper (c : Char) : isIdentHead c.toUpper = isIdentHead c := by
  rcases toUpper_cases c with h | ⟨h, hupper⟩
  · rw [h]
  · simp [isIdentHead, h, hupper]

theorem isIdentTail_toUpper (c : Char) : isIdentTail c.toUpper = isIdentTail c := by
  rcases toUpper_cases c with h | ⟨h, hupper⟩
  · rw [h]
  · simp [isIdentTail, Char.isAlphanum, h, hupper]

theorem isIdent_map_toUpper (word : List Char) :
    isIdent (word.map Char.toUpper) = isIdent word := by
  cases word with
  | nil => rfl
  | cons c cs =>
    simp [isIdent, isIdentHead_toUpper, isIdentTail_toUpper, Function.comp_def]

theorem ofWord_cases {word : List Char} {t : Token} (h : ofWord word = .ok t) :
    (word.getLast? = some ':' ∧ ∃ name, t = .labelDef name) ∨
      word.getLast? ≠ some ':' ∧
        (isIdent word = true ∧ t = .ident (String.ofList word) ∨ ∃ n, t = .number n) := by
  unfold ofWord at h
  by_cases hcolon : word.getLast? = some ':'
  · rw [if_pos hcolon] at h
    split at h <;> cases h
    exact .inl ⟨hcolon, _, rfl⟩
  · rw [if_neg hcolon] at h
    refine .inr ⟨hcolon, ?_⟩
    split at h
    next hident =>
      cases h
      exact .inl ⟨hident, rfl⟩
    next =>
      split at h
      next =>
        split at h <;> cases h
        exact .inr ⟨_, rfl⟩
      next => cases h

end Token

/-- The statement on a line without a label. -/
def readBody (source : List Char) : Except LineFault (Option Stmt) := do
  parseBody (← tokenize source)

section Words
variable {gap word word' cs : List Char} {line : Line} {body : Option Stmt}

/-- A label and what follows it are read apart. -/
theorem readLine_label_iff (hgap : IsGap gap) (hword : IsLabelWord word) (hcs : EndsWord cs) :
    readLine (gap ++ (word ++ cs)) = .ok line ↔ ∃ name body,
      Token.ofWord word = .ok (.labelDef name) ∧ readBody cs = .ok body ∧
        line = ⟨some name, body⟩ := by
  simp only [readLine, bind_eq_ok_iff, tokenize_word_iff hgap hword.1 hcs]
  constructor
  · rintro ⟨_, ⟨t, us, ht, hus, rfl⟩, hline⟩
    obtain ⟨-, name, rfl⟩ := (Token.ofWord_cases ht).resolve_right fun hname => hname.1 hword.2
    obtain ⟨body, hbody, heq⟩ := bind_eq_ok_iff.mp hline
    cases heq
    exact ⟨name, body, ht, bind_eq_ok_iff.mpr ⟨us, hus, hbody⟩, rfl⟩
  · rintro ⟨name, body, ht, hbody, rfl⟩
    obtain ⟨us, hus, hbody⟩ := bind_eq_ok_iff.mp hbody
    exact ⟨_, ⟨_, us, ht, hus, rfl⟩, bind_eq_ok_iff.mpr ⟨body, hbody, rfl⟩⟩

theorem readBody_of_readLine (h : readLine cs = .ok line) (hlabel : line.label = none) :
    readBody cs = .ok line.stmt := by
  obtain ⟨ts, hts, hparse⟩ := bind_eq_ok_iff.mp h
  obtain ⟨hname, hbody⟩ := parseLine_eq_ok hparse
  rw [hlabel] at hname
  refine bind_eq_ok_iff.mpr ⟨ts, hts, ?_⟩
  cases ts with
  | nil => exact hbody
  | cons t us =>
    cases t with
    | labelDef name => cases hname
    | _ => exact hbody

theorem readLine_append_gap (hgap : IsGap gap) :
    readLine (cs ++ gap) = .ok line ↔ readLine cs = .ok line := by
  simp only [readLine, bind_eq_ok_iff, tokenize_append_gap hgap]

theorem readLine_of_readBody (h : readBody cs = .ok body) : readLine cs = .ok ⟨none, body⟩ := by
  obtain ⟨ts, hts, hbody⟩ := bind_eq_ok_iff.mp h
  rw [readLine, hts, ok_bind]
  unfold parseLine
  split
  next => cases hbody
  next =>
    rw [hbody]
    rfl

theorem label_of_readLine (hgap : IsGap gap) (hword : IsWord word)
    (hcolon : word.getLast? ≠ some ':') (hcs : EndsWord cs)
    (h : readLine (gap ++ (word ++ cs)) = .ok line) : line.label = none := by
  obtain ⟨_, hts, hparse⟩ := bind_eq_ok_iff.mp h
  obtain ⟨t, us, ht, -, rfl⟩ := (tokenize_word_iff hgap hword hcs).mp hts
  rw [(parseLine_eq_ok hparse).1]
  rcases Token.ofWord_cases ht with ⟨hlast, -⟩ | ⟨-, ⟨-, rfl⟩ | ⟨n, rfl⟩⟩
  · exact absurd hlast hcolon
  · rfl
  · rfl

/-- Words that differ in the case of letters alone. -/
def SameLetters (word word' : List Char) : Prop := word'.map Char.toUpper = word.map Char.toUpper

instance (word word' : List Char) : Decidable (SameLetters word word') :=
  inferInstanceAs (Decidable (_ = _))

theorem SameLetters.isIdent (h : SameLetters word word') :
    Token.isIdent word' = Token.isIdent word := by
  rw [← Token.isIdent_map_toUpper, h, Token.isIdent_map_toUpper]

theorem isWord_of_isIdent (h : Token.isIdent word = true) : IsWord word := by
  refine ⟨?_, fun c hc => endsWord_of_isIdentTail (Token.isIdentTail_of_isIdent h hc)⟩
  rintro rfl
  cases h

theorem readBody_sameLetters (hgap : IsGap gap) (hword : IsWord word) (hcs : EndsWord cs)
    (hcase : SameLetters word word') (h : readBody (gap ++ (word ++ cs)) = .ok body) :
    IsWord word' ∧ readBody (gap ++ (word' ++ cs)) = .ok body := by
  obtain ⟨_, hts, hbody⟩ := bind_eq_ok_iff.mp h
  obtain ⟨t, us, ht, hus, rfl⟩ := (tokenize_word_iff hgap hword hcs).mp hts
  obtain ⟨hident, rfl⟩ : Token.isIdent word = true ∧ t = .ident (String.ofList word) := by
    rcases Token.ofWord_cases ht with ⟨-, name, rfl⟩ | ⟨-, hname | ⟨n, rfl⟩⟩
    · cases hbody
    · exact hname
    · cases hbody
  rw [← hcase.isIdent] at hident
  have hword' := isWord_of_isIdent hident
  have hupper : (String.ofList word').toUpper = (String.ofList word).toUpper := by
    rw [← String.toList_inj, String.toUpper, String.toUpper, String.toList_map, String.toList_map,
      String.toList_ofList, String.toList_ofList, hcase]
  refine ⟨hword', bind_eq_ok_iff.mpr ⟨_, (tokenize_word_iff hgap hword' hcs).mpr
    ⟨_, us, Token.ofWord_of_isIdent hident, hus, rfl⟩, ?_⟩⟩
  rw [← hbody]
  simp only [parseBody, hupper]

end Words

end StackVM
