import Mathlib.Logic.Relation
import StackVM.Proofs.Asm.Outline

/-! # Edits of the source layout

A text can be laid out in many ways: with more lines that are blank or hold a comment, with more
blanks and comments, with its mnemonics in another case, and with labels on lines of their own. Each
such edit replaces a line by one or two lines with the same labels and statements, so the edited
text has the outline of the first one and assembles to the same program. A carriage return is a
blank, so the one before a line feed is the last character of its line here.
-/
namespace StackVM

/-- A line that is blank or holds a comment only. -/
inductive Silent : List Char → Prop
  | blank {gap : List Char} : IsGap gap → Silent gap
  | comment {gap note : List Char} : IsGap gap → '\n' ∉ note → Silent (gap ++ ';' :: note)

/-- What can stand before a mnemonic: blanks, or a label with blanks around it. -/
inductive Front : List Char → Prop
  | gap {gap : List Char} : IsGap gap → Front gap
  | label {gap word gap' : List Char} : IsGap gap → IsLabelWord word → IsGap gap' → gap' ≠ [] →
      Front (gap ++ (word ++ gap'))

/-- Nothing of a line is left, or the carriage return of its ending. -/
def AtLineEnd (cs : List Char) : Prop := cs = [] ∨ cs = ['\r']

/-- The start of a line, its end, and the places outside literals next to a blank. -/
def TakesBlank (before after : List Char) : Prop :=
  before = [] ∨ AtLineEnd after ∨ (Zone.after before).OutsideLiteral ∧
    ((∃ c ∈ before.getLast?, Text.isBlank c = true) ∨
      ∃ c ∈ after.head?, Text.isBlank c = true)

/-- The lines that one line is replaced by. -/
inductive LineEdit : List Char → List (List Char) → Prop
  | insertBefore {line silent : List Char} : Silent silent → LineEdit line [silent, line]
  | insertAfter {line silent : List Char} : Silent silent → LineEdit line [line, silent]
  | blank {before after : List Char} {b : Char} : Text.isBlank b = true → b ≠ '\n' →
      TakesBlank before after → LineEdit (before ++ after) [before ++ b :: after]
  | comment {line ending note : List Char} : AtLineEnd ending → '\n' ∉ note →
      LineEdit (line ++ ending) [line ++ ';' :: note ++ ending]
  | recase {front word word' rest : List Char} : Front front → IsWord word →
      word.getLast? ≠ some ':' → EndsWord rest → SameLetters word word' →
      LineEdit (front ++ (word ++ rest)) [front ++ (word' ++ rest)]
  | moveLabel {gap word gap' rest lead trail lead' : List Char} : IsGap gap → IsLabelWord word →
      IsGap gap' → EndsWord (gap' ++ rest) → IsGap lead → IsGap trail → IsGap lead' →
      LineEdit (gap ++ (word ++ (gap' ++ rest))) [lead ++ (word ++ trail), lead' ++ rest]

/-- One line of a text is edited. -/
inductive TextEdit : List Char → List Char → Prop
  | line {before line after : List Char} {lines : List (List Char)} : WholeLines before →
      '\n' ∉ line → EndsLine after → LineEdit line lines →
      TextEdit (before ++ (line ++ after)) (before ++ (['\n'].intercalate lines ++ after))

section Lines
variable {line gap word cs : List Char} {lines : List (List Char)} {items : List Item} {l : Line}

theorem IsGap.notMem (h : IsGap gap) : '\n' ∉ gap := fun hfeed => (h _ hfeed).2 rfl

theorem IsWord.notMem (h : IsWord word) : '\n' ∉ word := by
  intro hfeed
  cases h.2 _ hfeed

theorem IsGap.endsWord (h : IsGap gap) : EndsWord gap :=
  fun c hc => endsWord_of_isBlank (h c (List.mem_of_mem_head? hc)).1

theorem AtLineEnd.isGap (h : AtLineEnd cs) : IsGap cs := by
  rcases h with rfl | rfl
  · exact isGap_nil
  · exact isGap_return

theorem tokenize_of_isGap (h : IsGap gap) : tokenize gap = .ok [] := by
  rw [← List.append_nil gap, tokenize_gap_append h]
  rfl

theorem readLine_silent (h : Silent line) : readLine line = .ok ⟨none, none⟩ := by
  have htokens : tokenize line = .ok [] := by
    cases h with
    | blank h => exact tokenize_of_isGap h
    | comment h => exact tokenize_append_comment (tokenize_of_isGap h) _
  rw [readLine, htokens]
  rfl

theorem notMem_of_silent (h : Silent line) : '\n' ∉ line := by
  cases h with
  | blank h => exact h.notMem
  | comment h hnote => simp [h.notMem, hnote]

theorem readLine_insert_blank {before after : List Char} {b : Char} (hb : Text.isBlank b = true)
    (hfeed : b ≠ '\n') (h : TakesBlank before after) (hread : readLine (before ++ after) = .ok l) :
    readLine (before ++ b :: after) = .ok l := by
  have hgap : ∀ cs, IsGap cs → IsGap (b :: cs) := fun _ h =>
    List.forall_mem_cons.mpr ⟨⟨hb, hfeed⟩, h⟩
  rcases h with rfl | hend | ⟨hout, hnext⟩
  · rw [List.nil_append, ← List.singleton_append, readLine, tokenize_gap_append (hgap [] isGap_nil)]
    exact hread
  · rw [readLine_append_gap hend.isGap] at hread
    exact (readLine_append_gap (hgap _ hend.isGap)).mpr hread
  · rw [readLine, tokenize_insert_blank hout hb hnext]
    exact hread

theorem readLine_comment {ending : List Char} (hend : AtLineEnd ending)
    (hread : readLine (line ++ ending) = .ok l) (note : List Char) :
    readLine (line ++ ';' :: note ++ ending) = .ok l := by
  rw [readLine_append_gap hend.isGap] at hread ⊢
  obtain ⟨ts, hts, hparse⟩ := bind_eq_ok_iff.mp hread
  exact bind_eq_ok_iff.mpr ⟨ts, tokenize_append_comment hts note, hparse⟩

theorem endsWord_append {gap : List Char} (hgap : IsGap gap) (hne : gap ≠ []) (cs : List Char) :
    EndsWord (gap ++ cs) := by
  obtain ⟨b, gap, rfl⟩ := List.exists_cons_of_ne_nil hne
  exact hgap.endsWord

theorem readLine_recase {front word' rest : List Char} (hfront : Front front) (hword : IsWord word)
    (hcolon : word.getLast? ≠ some ':') (hrest : EndsWord rest) (hcase : SameLetters word word')
    (hread : readLine (front ++ (word ++ rest)) = .ok l) :
    IsWord word' ∧ readLine (front ++ (word' ++ rest)) = .ok l := by
  cases hfront with
  | gap hgap =>
    have hlabel := label_of_readLine hgap hword hcolon hrest hread
    obtain ⟨hword', hbody⟩ :=
      readBody_sameLetters hgap hword hrest hcase (readBody_of_readLine hread hlabel)
    refine ⟨hword', ?_⟩
    rw [readLine_of_readBody hbody, ← hlabel]
  | @label gap name gap' hgap hname hgap' hne =>
    have hends := endsWord_append hgap' hne
    rw [List.append_assoc, List.append_assoc] at hread ⊢
    obtain ⟨_, body, ht, hbody, rfl⟩ := (readLine_label_iff hgap hname (hends _)).mp hread
    obtain ⟨hword', hbody⟩ := readBody_sameLetters hgap' hword hrest hcase hbody
    exact ⟨hword', (readLine_label_iff hgap hname (hends _)).mpr ⟨_, body, ht, hbody, rfl⟩⟩

theorem readLine_moveLabel {gap' rest lead trail lead' : List Char} (hgap : IsGap gap)
    (hword : IsLabelWord word) (hgap' : IsGap gap') (hrest : EndsWord (gap' ++ rest))
    (hlead : IsGap lead) (htrail : IsGap trail) (hlead' : IsGap lead')
    (hread : readLine (gap ++ (word ++ (gap' ++ rest))) = .ok l) :
    readLine (lead ++ (word ++ trail)) = .ok ⟨l.label, none⟩ ∧
      readLine (lead' ++ rest) = .ok ⟨none, l.stmt⟩ := by
  obtain ⟨name, body, ht, hbody, rfl⟩ := (readLine_label_iff hgap hword hrest).mp hread
  constructor
  · refine (readLine_label_iff hlead hword htrail.endsWord).mpr ⟨name, none, ht, ?_, rfl⟩
    rw [readBody, tokenize_of_isGap htrail]
    rfl
  · apply readLine_of_readBody
    rw [readBody, tokenize_gap_append hlead', ← tokenize_gap_append hgap']
    exact hbody

theorem LineEdit.outline_eq (h : LineEdit line lines) (hline : '\n' ∉ line)
    (hread : outline [line] = .ok items) :
    lines ≠ [] ∧ (∀ line' ∈ lines, '\n' ∉ line') ∧ outline lines = .ok items := by
  obtain ⟨l, hl, rfl⟩ := outline_singleton_iff.mp hread
  cases h with
  | insertBefore hsilent =>
    refine ⟨by simp, by simp [notMem_of_silent hsilent, hline], outline_cons_iff.mpr ?_⟩
    exact ⟨_, _, readLine_silent hsilent, hread, rfl⟩
  | insertAfter hsilent =>
    refine ⟨by simp, by simp [notMem_of_silent hsilent, hline], outline_cons_iff.mpr ?_⟩
    exact ⟨_, [], hl, outline_singleton_iff.mpr ⟨_, readLine_silent hsilent, rfl⟩, by simp⟩
  | blank hb hfeed htakes =>
    have hline' := readLine_insert_blank hb hfeed htakes hl
    exact ⟨by simp, by simp_all [Ne.symm hfeed], outline_singleton_iff.mpr ⟨l, hline', rfl⟩⟩
  | comment hend hnote =>
    have hline' := readLine_comment hend hl
    exact ⟨by simp, by simp_all, outline_singleton_iff.mpr ⟨l, hline' _, rfl⟩⟩
  | recase hfront hword hcolon hrest hcase =>
    obtain ⟨hword', hline'⟩ := readLine_recase hfront hword hcolon hrest hcase hl
    have hfeed := hword'.notMem
    exact ⟨by simp, by simp_all, outline_singleton_iff.mpr ⟨l, hline', rfl⟩⟩
  | moveLabel hgap hword hgap' hrest hlead htrail hlead' =>
    obtain ⟨hfirst, hsecond⟩ :=
      readLine_moveLabel hgap hword hgap' hrest hlead htrail hlead' hl
    have hfeeds := And.intro hlead.notMem (And.intro htrail.notMem hlead'.notMem)
    refine ⟨by simp, by simp_all, outline_cons_iff.mpr ?_⟩
    exact ⟨_, _, hfirst, outline_singleton_iff.mpr ⟨_, hsecond, rfl⟩, by simp [Line.items]⟩

end Lines

theorem TextEdit.tells {cs cs' : List Char} {items : List Item} (h : TextEdit cs cs')
    (htells : Tells cs items) : Tells cs' items := by
  cases h with
  | line hbefore hline hafter hedit =>
    obtain ⟨start, _, hstart, hrest, rfl⟩ := (tells_append_iff hbefore).mp htells
    obtain ⟨here, later, hhere, hlater, rfl⟩ := (tells_line_iff hline hafter).mp hrest
    obtain ⟨hne, hlines, houtline⟩ := hedit.outline_eq hline hhere
    exact (tells_append_iff hbefore).mpr ⟨start, _, hstart,
      (tells_lines_iff hne hlines hafter).mpr ⟨here, later, houtline, hlater, rfl⟩, rfl⟩

theorem tells_of_edits {cs cs' : List Char} {items : List Item}
    (h : Relation.ReflTransGen TextEdit cs cs') (htells : Tells cs items) : Tells cs' items := by
  induction h with
  | refl => exact htells
  | tail _ hedit ih => exact hedit.tells ih

/-- However often the layout of a text is edited, it assembles to the same program. -/
theorem assemble_of_edits {text text' : String} {p : Program} (h : assemble text = .ok p)
    (hedits : Relation.ReflTransGen TextEdit text.toList text'.toList) :
    assemble text' = .ok p := by
  obtain ⟨items, htells, hprogram⟩ := assemble_eq_ok_iff.mp h
  exact assemble_eq_ok_iff.mpr ⟨items, tells_of_edits hedits htells, hprogram⟩

/-- A label is moved, a mnemonic is put in upper case, and a comment line, a blank and a comment
with a quote are added. -/
theorem assemble_of_edits_label :
    assemble "a: push_L_str \";\"" = .ok ⟨#[6, 1, 59]⟩ ∧
      assemble ";b\na:\r\n PUSH_L_STR  \";\";\"" = .ok ⟨#[6, 1, 59]⟩ := by
  have hfirst : assemble "a: push_L_str \";\"" = .ok ⟨#[6, 1, 59]⟩ := by decide +kernel
  have hmove : TextEdit "a: push_L_str \";\"".toList "a:\r\n push_L_str \";\"".toList := by
    have hline : LineEdit ([] ++ ("a:".toList ++ (" ".toList ++ "push_L_str \";\"".toList)))
        [[] ++ ("a:".toList ++ "\r".toList), " ".toList ++ "push_L_str \";\"".toList] :=
      .moveLabel (by decide) (by decide) (by decide) (by decide) (by decide) (by decide) (by decide)
    exact .line (.inl rfl) (by decide) (.inl rfl) hline
  have hcase : TextEdit "a:\r\n push_L_str \";\"".toList "a:\r\n PUSH_L_STR \";\"".toList := by
    have hline : LineEdit (" ".toList ++ ("push_L_str".toList ++ " \";\"".toList))
        [" ".toList ++ ("PUSH_L_STR".toList ++ " \";\"".toList)] :=
      .recase (.gap (by decide)) (by decide) (by decide) (by decide) (by decide)
    exact .line (.inr ⟨"a:\r".toList, rfl⟩) (by decide) (.inl rfl) hline
  have hinsert : TextEdit "a:\r\n PUSH_L_STR \";\"".toList
      ";b\na:\r\n PUSH_L_STR \";\"".toList := by
    have hsilent : Silent ([] ++ ';' :: "b".toList) := .comment (by decide) (by decide)
    have hline : LineEdit "a:\r".toList [";b".toList, "a:\r".toList] := .insertBefore hsilent
    exact .line (.inl rfl) (by decide) (.inr ⟨" PUSH_L_STR \";\"".toList, rfl⟩) hline
  have hblank : TextEdit ";b\na:\r\n PUSH_L_STR \";\"".toList
      ";b\na:\r\n PUSH_L_STR  \";\"".toList := by
    have hline : LineEdit (" PUSH_L_STR ".toList ++ "\";\"".toList)
        [" PUSH_L_STR ".toList ++ ' ' :: "\";\"".toList] :=
      .blank (by decide) (by decide) (.inr (.inr ⟨by decide, .inl ⟨' ', by decide, by decide⟩⟩))
    exact .line (.inr ⟨";b\na:\r".toList, rfl⟩) (by decide) (.inl rfl) hline
  have hcomment : TextEdit ";b\na:\r\n PUSH_L_STR  \";\"".toList
      ";b\na:\r\n PUSH_L_STR  \";\";\"".toList := by
    have hline : LineEdit (" PUSH_L_STR  \";\"".toList ++ [])
        [" PUSH_L_STR  \";\"".toList ++ ';' :: "\"".toList ++ []] :=
      .comment (.inl rfl) (by decide)
    exact .line (.inr ⟨";b\na:\r".toList, rfl⟩) (by decide) (.inl rfl) hline
  have hedits := (((Relation.ReflTransGen.single hmove).tail hcase).tail hinsert).tail hblank
  exact ⟨hfirst, assemble_of_edits hfirst (hedits.tail hcomment)⟩

end StackVM
