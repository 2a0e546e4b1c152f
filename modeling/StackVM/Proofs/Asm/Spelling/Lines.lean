import StackVM.Proofs.Asm.Spelling.Words

/-! # Lines of spellings

The scanner finds the tokens of a line that separates their spellings by single blanks.
-/
namespace StackVM

namespace Scan
variable {tokens : List Token} {s s' : Scan} {c : Char} {cs ds : List Char}

theorem foldlM_cons_ok (h : s.step c = .ok s') : (c :: cs).foldlM step s = cs.foldlM step s' := by
  rw [List.foldlM_cons, h]
  rfl

theorem foldlM_append_ok (h : cs.foldlM step s = .ok s') :
    (cs ++ ds).foldlM step s = ds.foldlM step s' := by
  rw [List.foldlM_append, h]
  rfl

theorem foldlM_word {rev : List Char} (h : ∀ c ∈ cs, endsWord c = false) :
    cs.foldlM step ⟨tokens, .word rev⟩ = .ok ⟨tokens, .word (cs.reverse ++ rev)⟩ := by
  induction cs generalizing rev with
  | nil => rfl
  | cons c cs ih =>
    have hstep : step ⟨tokens, .word rev⟩ c = .ok ⟨tokens, .word (c :: rev)⟩ := by
      unfold step
      dsimp only
      rw [h c List.mem_cons_self, if_neg Bool.false_ne_true]
    rw [foldlM_cons_ok hstep, List.reverse_cons, List.append_assoc]
    exact ih fun d hd => h d (List.mem_cons_of_mem c hd)

theorem opening_of_endsWord (h : endsWord c = false) : opening c = .word [c] := by
  simp only [endsWord, Bool.or_eq_false_iff, beq_eq_false_iff_ne] at h
  obtain ⟨⟨hblank, hsemicolon⟩, hquote⟩ := h
  simp [opening, hblank, hsemicolon, hquote]

theorem ne_of_simpleEscape?_eq_none (h : Text.simpleEscape? c = none) :
    c ≠ '"' ∧ c ≠ '\\' ∧ c ≠ '\n' ∧ c ≠ '\r' := by
  refine ⟨?_, ?_, ?_, ?_⟩ <;> rintro rfl <;> cases h

theorem foldlM_escapeChar (c : Char) (rev : List Char) :
    (Text.escapeChar c).foldlM step ⟨tokens, .text rev⟩ = .ok ⟨tokens, .text (c :: rev)⟩ := by
  unfold Text.escapeChar
  cases hc : Text.simpleEscape? c with
  | some e =>
    have hopen : step ⟨tokens, .text rev⟩ '\\' = .ok ⟨tokens, .escape rev⟩ := rfl
    have hclose : step ⟨tokens, .escape rev⟩ e = .ok ⟨tokens, .text (c :: rev)⟩ := by
      unfold step
      dsimp only
      rw [Text.unescape?_of_simpleEscape? hc]
    dsimp only
    rw [foldlM_cons_ok hopen, foldlM_cons_ok hclose]
    rfl
  | none =>
    obtain ⟨hquote, hslash, -, -⟩ := ne_of_simpleEscape?_eq_none hc
    have hstep : step ⟨tokens, .text rev⟩ c = .ok ⟨tokens, .text (c :: rev)⟩ := by
      unfold step
      dsimp only
      rw [if_neg hquote, if_neg hslash]
    dsimp only
    rw [foldlM_cons_ok hstep]
    rfl

/-- The scanner takes an escaped text apart, character by character. -/
theorem foldlM_escape (cs rev : List Char) :
    (cs.flatMap Text.escapeChar).foldlM step ⟨tokens, .text rev⟩ =
      .ok ⟨tokens, .text (cs.reverse ++ rev)⟩ := by
  induction cs generalizing rev with
  | nil => rfl
  | cons c cs ih =>
    rw [List.flatMap_cons, foldlM_append_ok (foldlM_escapeChar c rev), List.reverse_cons,
      List.append_assoc]
    exact ih (c :: rev)

theorem foldlM_literal (t : String) :
    ('"' :: (Text.escape t).toList ++ ['"']).foldlM step ⟨tokens, .gap⟩ =
      .ok ⟨.text t :: tokens, .gap⟩ := by
  have hopening : step ⟨tokens, .gap⟩ '"' = .ok ⟨tokens, .text []⟩ := rfl
  have hinside : (Text.escape t).toList.foldlM step ⟨tokens, .text []⟩ =
      .ok ⟨tokens, .text t.toList.reverse⟩ := by
    unfold Text.escape
    rw [String.toList_ofList, foldlM_escape, List.append_nil]
  have hclosing : step ⟨tokens, .text t.toList.reverse⟩ '"' = .ok ⟨.text t :: tokens, .gap⟩ := by
    change Except.ok _ = _
    rw [List.reverse_reverse, String.ofList_toList]
  rw [List.cons_append, foldlM_cons_ok hopening, foldlM_append_ok hinside, foldlM_cons_ok hclosing]
  rfl

theorem foldlM_spelled {t : Token} (h : Spelled cs t) (tokens : List Token) :
    ∃ s, cs.foldlM step ⟨tokens, .gap⟩ = .ok s ∧ s.step ' ' = .ok ⟨t :: tokens, .gap⟩ ∧
      s.finish = .ok (t :: tokens).reverse := by
  cases h with
  | text t => exact ⟨_, foldlM_literal t, rfl, rfl⟩
  | word hne hcs ht =>
    obtain ⟨c, cs', rfl⟩ := List.exists_cons_of_ne_nil hne
    have hword : (c :: cs').foldlM step ⟨tokens, .gap⟩ =
        .ok ⟨tokens, .word (cs'.reverse ++ [c])⟩ := by
      have hopening : step ⟨tokens, .gap⟩ c = .ok ⟨tokens, .word [c]⟩ := by
        unfold step
        rw [opening_of_endsWord (hcs c List.mem_cons_self)]
      rw [foldlM_cons_ok hopening]
      exact foldlM_word fun d hd => hcs d (List.mem_cons_of_mem c hd)
    have hreverse : (cs'.reverse ++ [c]).reverse = c :: cs' := by simp
    refine ⟨_, hword, ?_, ?_⟩
    · unfold step
      dsimp only
      rw [hreverse, ht]
      rfl
    · unfold finish
      dsimp only
      rw [hreverse, ht]
      rfl

theorem foldlM_intercalate {css : List (List Char)} {ts : List Token}
    (h : List.Forall₂ Spelled css ts) (hne : css ≠ []) (tokens : List Token) :
    ∃ s, ([' '].intercalate css).foldlM step ⟨tokens, .gap⟩ = .ok s ∧
      s.finish = .ok (tokens.reverse ++ ts) := by
  induction h generalizing tokens with
  | nil => exact absurd rfl hne
  | @cons cs t css ts hcs htail ih =>
    obtain ⟨s, hs, hblank, hfinish⟩ := foldlM_spelled hcs tokens
    by_cases hlast : css = []
    · subst hlast
      cases htail
      refine ⟨s, ?_, ?_⟩
      · rw [List.intercalate_singleton]
        exact hs
      · rw [hfinish, List.reverse_cons]
    · obtain ⟨s', hs', hfinish'⟩ := ih hlast (t :: tokens)
      refine ⟨s', ?_, ?_⟩
      · rw [List.intercalate_cons_of_ne_nil hlast, List.append_assoc, foldlM_append_ok hs]
        exact (foldlM_cons_ok hblank).trans hs'
      · rw [hfinish', List.reverse_cons, List.append_assoc]
        rfl

end Scan

/-- The tokens of a line that separates spellings by single blanks. -/
theorem tokenize_intercalate {css : List (List Char)} {ts : List Token}
    (h : List.Forall₂ Spelled css ts) (hne : css ≠ []) :
    tokenize ([' '].intercalate css) = .ok ts := by
  obtain ⟨s, hs, hfinish⟩ := Scan.foldlM_intercalate h hne []
  unfold tokenize Scan.start
  rw [hs]
  exact hfinish

theorem escapeChar_ne_lineEnd {c d : Char} (h : d ∈ Text.escapeChar c) : d ≠ '\n' ∧ d ≠ '\r' := by
  unfold Text.escapeChar at h
  cases hc : Text.simpleEscape? c with
  | some e =>
    rw [hc] at h
    rcases List.mem_pair.mp h with rfl | rfl
    · decide
    · constructor <;> rintro rfl <;> cases Text.unescape?_of_simpleEscape? hc
  | none =>
    rw [hc] at h
    cases List.mem_singleton.mp h
    exact (Scan.ne_of_simpleEscape?_eq_none hc).2.2

theorem Spelled.ne_lineEnd {cs : List Char} {t : Token} (h : Spelled cs t) {c : Char}
    (hc : c ∈ cs) : c ≠ '\n' ∧ c ≠ '\r' := by
  cases h with
  | word hne hcs ht =>
    have hends := hcs c hc
    constructor <;> rintro rfl <;> cases hends
  | text t =>
    rcases List.mem_append.mp hc with hc | hc
    · rcases List.mem_cons.mp hc with rfl | hc
      · decide
      · unfold Text.escape at hc
        rw [String.toList_ofList] at hc
        obtain ⟨d, -, hd⟩ := List.mem_flatMap.mp hc
        exact escapeChar_ne_lineEnd hd
    · cases List.mem_singleton.mp hc
      decide

theorem ne_lineEnd_of_mem_intercalate {css : List (List Char)} {ts : List Token}
    (h : List.Forall₂ Spelled css ts) {c : Char} (hc : c ∈ [' '].intercalate css) :
    c ≠ '\n' ∧ c ≠ '\r' := by
  induction h with
  | nil => cases hc
  | @cons cs t css ts hcs htail ih =>
    by_cases hlast : css = []
    · rw [hlast, List.intercalate_singleton] at hc
      exact hcs.ne_lineEnd hc
    · rw [List.intercalate_cons_of_ne_nil hlast, List.append_assoc] at hc
      rcases List.mem_append.mp hc with hc | hc
      · exact hcs.ne_lineEnd hc
      · rcases List.mem_cons.mp hc with rfl | hc
        · decide
        · exact ih hc

end StackVM
