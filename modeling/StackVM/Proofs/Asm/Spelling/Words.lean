import StackVM.Asm.Token
import Mathlib.Data.List.Forall2

/-! # Words that spell tokens

A token is spelled as a word without blanks, semicolons and quotes, or as an escaped literal
between quotes. The decimal form of an integer of sixty-four bits spells that integer.
-/
namespace StackVM

namespace Number

theorem decimalDigit?_of_isDigit {c : Char} (h : c.isDigit = true) :
    decimalDigit? c = some (c.toNat - 48) := by
  simp only [Char.isDigit, Bool.and_eq_true, decide_eq_true_eq] at h
  exact if_pos ⟨h.1, h.2⟩

theorem foldlM_decimalDigit? {ds : List Char} (h : ∀ c ∈ ds, c.isDigit = true) (n : Nat) :
    ds.foldlM (fun n c => (decimalDigit? c).map (10 * n + ·)) n =
      some (Nat.ofDigitChars 10 ds n) := by
  induction ds generalizing n with
  | nil => rfl
  | cons c ds ih =>
    rw [List.foldlM_cons, decimalDigit?_of_isDigit (h c List.mem_cons_self), Nat.ofDigitChars_cons]
    exact ih (fun d hd => h d (List.mem_cons_of_mem c hd)) _

theorem isDigit_toDigits {n : Nat} {c : Char} (h : c ∈ Nat.toDigits 10 n) : c.isDigit = true :=
  Nat.isDigit_of_mem_toDigits (by decide) (by decide) h

theorem digits?_toDigits (n : Nat) : digits? 10 decimalDigit? (Nat.toDigits 10 n) = some n := by
  have hne : (Nat.toDigits 10 n).isEmpty = false := by
    rw [List.isEmpty_eq_false_iff]
    exact Nat.toDigits_ne_nil
  unfold digits?
  rw [hne, if_neg Bool.false_ne_true, foldlM_decimalDigit? (fun _ => isDigit_toDigits),
    Nat.ofDigitChars_ten_toDigits]

theorem ofUnsigned?_toDigits (negative : Bool) (n : Nat) :
    ofUnsigned? negative (Nat.toDigits 10 n) = ofInt? (if negative then -(n : Int) else n) := by
  have hx : ∀ x, x.isDigit = false → x ∉ Nat.toDigits 10 n := by
    intro x hdigit hm
    rw [isDigit_toDigits hm] at hdigit
    cases hdigit
  unfold ofUnsigned?
  split
  next cs hcs =>
    refine absurd ?_ (hx 'x' rfl)
    rw [hcs]
    simp
  next cs hcs =>
    refine absurd ?_ (hx 'X' rfl)
    rw [hcs]
    simp
  next =>
    unfold decimal?
    rw [digits?_toDigits]
    rfl

theorem ofInt?_eq_some {n : Int} (h : Int64.minValue.toInt ≤ n ∧ n ≤ Int64.maxValue.toInt) :
    ofInt? n = some (Int64.ofInt n) := if_pos h

end Number

theorem toNat_of_isDigit {c : Char} (h : c.isDigit = true) : 48 ≤ c.toNat ∧ c.toNat ≤ 57 := by
  obtain ⟨hlow, hhigh⟩ := (Bool.and_eq_true _ _).mp h
  exact ⟨UInt32.le_iff_toNat_le.mp (of_decide_eq_true hlow),
    UInt32.le_iff_toNat_le.mp (of_decide_eq_true hhigh)⟩

theorem toNat_of_isAlpha {c : Char} (h : c.isAlpha = true) : 65 ≤ c.toNat ∧ c.toNat ≤ 122 := by
  rcases (Bool.or_eq_true _ _).mp h with hupper | hlower
  · obtain ⟨hlow, hhigh⟩ := of_decide_eq_true hupper
    have hhigh' : c.toNat ≤ 90 := UInt32.le_iff_toNat_le.mp hhigh
    exact ⟨UInt32.le_iff_toNat_le.mp hlow, by omega⟩
  · obtain ⟨hlow, hhigh⟩ := (Bool.and_eq_true _ _).mp hlower
    have hlow' : 97 ≤ c.toNat := UInt32.le_iff_toNat_le.mp (of_decide_eq_true hlow)
    exact ⟨by omega, UInt32.le_iff_toNat_le.mp (of_decide_eq_true hhigh)⟩

namespace Token

theorem isIdentTail_of_isIdent {word : List Char} (h : isIdent word = true) {c : Char}
    (hc : c ∈ word) : isIdentTail c = true := by
  cases word with
  | nil => cases hc
  | cons d ds =>
    simp only [isIdent, Bool.and_eq_true, List.all_eq_true] at h
    rcases List.mem_cons.mp hc with rfl | hc
    · simp only [isIdentHead, Bool.or_eq_true] at h
      simp only [isIdentTail, Char.isAlphanum, Bool.or_eq_true]
      tauto
    · exact h.2 c hc

theorem ofWord_of_isIdent {word : List Char} (h : isIdent word = true) :
    ofWord word = .ok (.ident (String.ofList word)) := by
  have hlast : word.getLast? ≠ some ':' := by
    intro hlast
    have hcolon := isIdentTail_of_isIdent h (List.mem_of_getLast? hlast)
    cases hcolon
  unfold ofWord
  rw [if_neg hlast, if_pos h]

/-- The characters of decimal forms. -/
def IsDecimal (c : Char) : Prop := c.isDigit = true ∨ c = '-'

theorem isIdentHead_of_isDecimal {c : Char} (h : IsDecimal c) : isIdentHead c = false := by
  rcases h with h | rfl
  · have hdigit := toNat_of_isDigit h
    have halpha : c.isAlpha = false := by
      by_contra hne
      have hbounds := toNat_of_isAlpha (eq_true_of_ne_false hne)
      omega
    have hother : c ≠ '_' ∧ c ≠ '.' := by
      constructor <;> rintro rfl <;> cases h
    simp [isIdentHead, halpha, hother.1, hother.2]
  · rfl

theorem looksNumeric_of_isDecimal {word : List Char} (h : ∀ c ∈ word, IsDecimal c)
    (hdigit : ∃ c ∈ word, c.isDigit = true) : looksNumeric word = true := by
  induction word with
  | nil =>
    obtain ⟨c, hc, -⟩ := hdigit
    cases hc
  | cons c cs ih =>
    by_cases hdash : c = '-'
    · subst hdash
      refine ih (fun d hd => h d (List.mem_cons_of_mem _ hd)) ?_
      obtain ⟨d, hd, hdd⟩ := hdigit
      rcases List.mem_cons.mp hd with rfl | hd
      · cases hdd
      · exact ⟨d, hd, hdd⟩
    · have hc := (h c List.mem_cons_self).resolve_right hdash
      unfold looksNumeric
      rw [List.dropWhile_cons_of_neg (by simpa using hdash)]
      exact hc

theorem ofWord_of_isDecimal {word : List Char} {n : Int64} (h : ∀ c ∈ word, IsDecimal c)
    (hdigit : ∃ c ∈ word, c.isDigit = true) (hnumber : Number.ofChars? word = some n) :
    ofWord word = .ok (.number n) := by
  have hlast : word.getLast? ≠ some ':' := by
    intro hlast
    rcases h ':' (List.mem_of_getLast? hlast) with hcolon | hcolon <;> cases hcolon
  have hident : isIdent word = false := by
    cases word with
    | nil => rfl
    | cons c cs =>
      simp only [isIdent, isIdentHead_of_isDecimal (h c List.mem_cons_self), Bool.false_and]
  unfold ofWord
  rw [if_neg hlast, hident, if_neg Bool.false_ne_true, if_pos (looksNumeric_of_isDecimal h hdigit),
    hnumber]

theorem isDecimal_toDigits {n : Nat} {c : Char} (hc : c ∈ Nat.toDigits 10 n) : IsDecimal c :=
  Or.inl (Number.isDigit_toDigits hc)

theorem exists_isDigit_toDigits (n : Nat) : ∃ c ∈ Nat.toDigits 10 n, c.isDigit = true := by
  obtain ⟨c, hc⟩ := List.exists_mem_of_ne_nil _ (Nat.toDigits_ne_nil (n := n) (b := 10))
  exact ⟨c, hc, Number.isDigit_toDigits hc⟩

theorem toList_toString_ofNat (n : Nat) : (toString (n : Int)).toList = Nat.toDigits 10 n :=
  Nat.toList_repr

theorem toList_toString_negSucc (n : Nat) :
    (toString (Int.negSucc n)).toList = '-' :: Nat.toDigits 10 (n + 1) := by
  change ("-" ++ Nat.repr (n + 1)).toList = _
  rw [String.toList_append, Nat.toList_repr]
  rfl

theorem isDecimal_toString {n : Int} {c : Char} (hc : c ∈ (toString n).toList) : IsDecimal c := by
  cases n with
  | ofNat m =>
    rw [Int.ofNat_eq_natCast, toList_toString_ofNat] at hc
    exact isDecimal_toDigits hc
  | negSucc m =>
    rw [toList_toString_negSucc] at hc
    rcases List.mem_cons.mp hc with rfl | hc
    · exact Or.inr rfl
    · exact isDecimal_toDigits hc

theorem ofWord_toString {n : Int} (h : Int64.minValue.toInt ≤ n ∧ n ≤ Int64.maxValue.toInt) :
    ofWord (toString n).toList = .ok (.number (Int64.ofInt n)) := by
  refine ofWord_of_isDecimal (fun c hc => isDecimal_toString hc) ?_ ?_
  · cases n with
    | ofNat m =>
      rw [Int.ofNat_eq_natCast, toList_toString_ofNat]
      exact exists_isDigit_toDigits m
    | negSucc m =>
      obtain ⟨c, hc, hdigit⟩ := exists_isDigit_toDigits (m + 1)
      rw [toList_toString_negSucc]
      exact ⟨c, List.mem_cons_of_mem _ hc, hdigit⟩
  · rw [← Number.ofInt?_eq_some h]
    cases n with
    | ofNat m =>
      rw [Int.ofNat_eq_natCast, toList_toString_ofNat]
      unfold Number.ofChars?
      split
      next cs hcs =>
        have hdash : '-' ∈ Nat.toDigits 10 m := by
          rw [hcs]
          exact List.mem_cons_self
        cases Number.isDigit_toDigits hdash
      next => exact Number.ofUnsigned?_toDigits false m
    | negSucc m =>
      rw [toList_toString_negSucc]
      exact Number.ofUnsigned?_toDigits true (m + 1)

end Token

/-- How a token is written on a line. -/
inductive Spelled : List Char → Token → Prop
  | word {cs : List Char} {t : Token} (hne : cs ≠ []) (hcs : ∀ c ∈ cs, Scan.endsWord c = false)
      (ht : Token.ofWord cs = .ok t) : Spelled cs t
  | text (t : String) : Spelled ('"' :: (Text.escape t).toList ++ ['"']) (.text t)

theorem toNat_of_endsWord {c : Char} (h : Scan.endsWord c = true) :
    c.toNat ≤ 34 ∨ c.toNat = 59 ∨ 133 ≤ c.toNat := by
  simp only [Scan.endsWord, Bool.or_eq_true, beq_iff_eq] at h
  rcases h with (h | rfl) | rfl
  · simp only [Text.isBlank, Bool.or_eq_true, Bool.and_eq_true, decide_eq_true_eq,
      beq_iff_eq] at h
    omega
  · exact Or.inr (Or.inl rfl)
  · exact Or.inl (by decide)

theorem endsWord_of_toNat {c : Char} (hlow : 34 < c.toNat) (hhigh : c.toNat < 133)
    (hne : c.toNat ≠ 59) : Scan.endsWord c = false := by
  by_contra h
  have hbounds := toNat_of_endsWord (eq_true_of_ne_false h)
  omega

theorem endsWord_of_isIdentTail {c : Char} (h : Token.isIdentTail c = true) :
    Scan.endsWord c = false := by
  simp only [Token.isIdentTail, Char.isAlphanum, Bool.or_eq_true, beq_iff_eq] at h
  rcases h with ((halpha | hdigit) | rfl) | rfl
  · have hbounds := toNat_of_isAlpha halpha
    exact endsWord_of_toNat (by omega) (by omega) (by omega)
  · have hbounds := toNat_of_isDigit hdigit
    exact endsWord_of_toNat (by omega) (by omega) (by omega)
  · rfl
  · rfl

theorem endsWord_of_isDecimal {c : Char} (h : Token.IsDecimal c) : Scan.endsWord c = false := by
  rcases h with hdigit | rfl
  · have hbounds := toNat_of_isDigit hdigit
    exact endsWord_of_toNat (by omega) (by omega) (by omega)
  · rfl

namespace Spelled

theorem ident {name : String} (h : Token.isIdent name.toList = true) :
    Spelled name.toList (.ident name) := by
  have hne : name.toList ≠ [] := by
    intro hnil
    rw [hnil] at h
    cases h
  have hword := Token.ofWord_of_isIdent h
  rw [String.ofList_toList] at hword
  exact .word hne (fun c hc => endsWord_of_isIdentTail (Token.isIdentTail_of_isIdent h hc)) hword

theorem int {n : Int} (h : Int64.minValue.toInt ≤ n ∧ n ≤ Int64.maxValue.toInt) :
    Spelled (toString n).toList (.number (Int64.ofInt n)) := by
  have hne : (toString n).toList ≠ [] := by
    intro hnil
    have hword := Token.ofWord_toString h
    rw [hnil] at hword
    cases hword
  exact .word hne (fun c hc => endsWord_of_isDecimal (Token.isDecimal_toString hc))
    (Token.ofWord_toString h)

end Spelled

end StackVM
