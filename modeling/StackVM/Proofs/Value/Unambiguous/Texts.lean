import StackVM.Proofs.Asm.Numerals
import StackVM.Proofs.Value.Bisimulation.Equality

/-! # Texts that end where they have to

Whatever is written inside a container ends where it has to: a word at the next punctuation, a
quoted text at its closing quote. So a list of such texts can be taken apart in one way only.
-/
namespace StackVM

/-- The text is empty or begins with one of these characters. -/
def Begun (p : Char → Bool) (r : List Char) : Prop := ∀ c ∈ r.head?, p c = true

theorem append_inj_of_begun {p : Char → Bool} {t u r r' : List Char}
    (ht : ∀ c ∈ t, p c = false) (hu : ∀ c ∈ u, p c = false) (hr : Begun p r) (hr' : Begun p r')
    (h : t ++ r = u ++ r') : t = u ∧ r = r' := by
  have htake : ∀ {t r}, (∀ c ∈ t, p c = false) → Begun p r →
      (t ++ r).takeWhile (!p ·) = t := by
    intro t r ht hr
    rw [List.takeWhile_append_of_pos (by simpa using ht)]
    cases r with
    | nil => simp
    | cons c r => simp [hr c rfl]
  have htu : t = u := by rw [← htake ht hr, h, htake hu hr']
  subst htu
  exact ⟨rfl, List.append_cancel_left h⟩

theorem isDigit_digitChar {base d : Nat} (hbase : base ≤ 16) (hd : d < base) :
    IsDigit base (Nat.digitChar d) d := by
  refine ⟨hd, ?_⟩
  have hall : ∀ d < 16, (Nat.digitChar d).toLower = Nat.digitChar d := by decide
  exact hall d (by omega)

theorem denotes_toDigits {base : Nat} (hbase : 1 < base ∧ base ≤ 16) (n : Nat) :
    Denotes base (Nat.toDigits base n) n := by
  induction n using Nat.strongRecOn with
  | ind n ih =>
    rw [Nat.toDigits_eq_if hbase.1]
    split
    next hn => exact .digit (isDigit_digitChar hbase.2 hn)
    next hn =>
      have hlt : n / base < n := Nat.div_lt_self (by omega) hbase.1
      have hmod : n % base < base := Nat.mod_lt _ (by omega)
      have hmore := Denotes.concat (ih (n / base) hlt) (isDigit_digitChar hbase.2 hmod)
      rwa [Nat.div_add_mod] at hmore

theorem toDigits_inj {n m : Nat} (h : Nat.toDigits 16 n = Nat.toDigits 16 m) : n = m := by
  have hvalue : ∀ k, Number.digits? 16 Hex.digitValue? (Nat.toDigits 16 k) = some k := fun k =>
    (Number.digits?_eq_some_iff Number.digitValue?_eq_some_iff).mpr
      (denotes_toDigits ⟨by decide, Nat.le_refl _⟩ k)
  exact Option.some.inj ((hvalue n).symm.trans (h ▸ hvalue m))

namespace Text

/-- The three forms of a character in a quoted text. -/
inductive Quotes (c : Char) : List Char → Prop
  | simple {e : Char} : unescape? e = some c → Quotes c ['\\', e]
  | plain : c ≠ '"' → c ≠ '\\' → Quotes c [c]
  | coded : Quotes c ('\\' :: 'u' :: '\x7b' :: Nat.toDigits 16 c.toNat ++ ['\x7d'])

theorem quotes_quoteChar (c : Char) : Quotes c (quoteChar c) := by
  unfold quoteChar
  cases hc : simpleEscape? c with
  | some e => exact .simple (unescape?_of_simpleEscape? hc)
  | none =>
    dsimp only
    split
    next =>
      obtain ⟨hquote, hslash, -, -⟩ := Scan.ne_of_simpleEscape?_eq_none hc
      exact .plain hquote hslash
    next => exact .coded

theorem Quotes.append_inj {c c' : Char} {t t' r r' : List Char} (h : Quotes c t)
    (h' : Quotes c' t') (heq : t ++ r = t' ++ r') : c = c' ∧ r = r' := by
  cases h with
  | simple he =>
    cases h' with
    | simple he' =>
      simp only [List.cons_append, List.nil_append, List.cons.injEq, true_and] at heq
      obtain ⟨rfl, rfl⟩ := heq
      exact ⟨Option.some.inj (he.symm.trans he'), rfl⟩
    | plain _ hslash => simp [hslash.symm] at heq
    | coded =>
      simp only [List.cons_append, List.nil_append, List.cons.injEq, true_and] at heq
      obtain ⟨rfl, -⟩ := heq
      cases he
  | plain _ hslash =>
    cases h' with
    | simple => simp [hslash] at heq
    | plain => simpa using heq
    | coded => simp [hslash] at heq
  | coded =>
    cases h' with
    | simple he' =>
      simp only [List.cons_append, List.nil_append, List.cons.injEq, true_and] at heq
      obtain ⟨rfl, -⟩ := heq
      cases he'
    | plain _ hslash => simp [hslash.symm] at heq
    | coded =>
      have hbrace : ∀ n, ∀ d ∈ Nat.toDigits 16 n, (d == '\x7d') = false := by
        intro n d hd
        rw [beq_eq_false_iff_ne]
        rintro rfl
        exact (denotes_toDigits ⟨by decide, Nat.le_refl _⟩ n).notMem (by decide) hd
      simp only [List.cons_append, List.append_assoc, List.nil_append, List.cons.injEq,
        true_and] at heq
      obtain ⟨hdigits, hrest⟩ := append_inj_of_begun (hbrace _) (hbrace _) (by simp [Begun])
        (by simp [Begun]) heq
      exact ⟨Char.toNat_inj.mp (toDigits_inj hdigits), List.tail_eq_of_cons_eq hrest⟩

theorem Quotes.exists_cons {c : Char} {t : List Char} (h : Quotes c t) :
    ∃ d ds, t = d :: ds ∧ d ≠ '"' := by
  cases h with
  | simple => exact ⟨_, _, rfl, by decide⟩
  | plain hquote => exact ⟨_, _, rfl, hquote⟩
  | coded => exact ⟨_, _, rfl, by decide⟩

theorem flatMap_quoteChar_append_inj {cs cs' r r' : List Char}
    (h : cs.flatMap quoteChar ++ '"' :: r = cs'.flatMap quoteChar ++ '"' :: r') :
    cs = cs' ∧ r = r' := by
  induction cs generalizing cs' with
  | nil =>
    cases cs' with
    | nil => simpa using h
    | cons c' cs' =>
      obtain ⟨d, ds, ht, hd⟩ := (quotes_quoteChar c').exists_cons
      simp [ht, hd.symm] at h
  | cons c cs ih =>
    cases cs' with
    | nil =>
      obtain ⟨d, ds, ht, hd⟩ := (quotes_quoteChar c).exists_cons
      simp [ht, hd] at h
    | cons c' cs' =>
      simp only [List.flatMap_cons, List.append_assoc] at h
      obtain ⟨rfl, hrest⟩ := (quotes_quoteChar c).append_inj (quotes_quoteChar c') h
      obtain ⟨rfl, rfl⟩ := ih hrest
      exact ⟨rfl, rfl⟩

theorem toList_quote (s : String) :
    (quote s).toList = '"' :: (s.toList.flatMap quoteChar ++ ['"']) := by
  simp [quote]

theorem quote_append_inj {s s' : String} {r r' : List Char}
    (h : (quote s).toList ++ r = (quote s').toList ++ r') : s = s' ∧ r = r' := by
  simp only [toList_quote, List.cons_append, List.append_assoc, List.nil_append, List.cons.injEq,
    true_and] at h
  obtain ⟨htext, hrest⟩ := flatMap_quoteChar_append_inj h
  exact ⟨String.toList_inj.mp htext, hrest⟩

end Text
/-- What can follow a value inside a container. -/
def isPunctuation (c : Char) : Bool := c == ',' || c == ':' || c == ']' || c == '\x7d'

section Items
variable {α β : Type} {P : α → β → Prop} {f : α → List Char} {g : β → List Char}
  {xs : List α} {ys : List β} {close : Char} {r r' : List Char}

/-- The text begins like an item, not with what follows one. -/
def StartsItem (t : List Char) : Prop := ∃ c cs, t = c :: cs ∧ isPunctuation c = false

theorem StartsItem.append {t : List Char} (h : StartsItem t) (u : List Char) :
    StartsItem (t ++ u) := by
  obtain ⟨c, cs, rfl, hc⟩ := h
  exact ⟨c, cs ++ u, rfl, hc⟩

/-- Whatever follows one item or the other, both are read to their end. -/
def ReadsAs (P : α → β → Prop) (f : α → List Char) (g : β → List Char) (x : α) (y : β) : Prop :=
  ∀ {r r'}, Begun isPunctuation r → Begun isPunctuation r' → f x ++ r = g y ++ r' →
    P x y ∧ r = r'

theorem forall₂_of_flatMap (hread : ∀ x ∈ xs, ∀ y ∈ ys, ReadsAs P f g x y)
    (hclose : isPunctuation close = true) (hcomma : close ≠ ',')
    (h : xs.flatMap (fun x => ',' :: ' ' :: f x) ++ close :: r =
      ys.flatMap (fun y => ',' :: ' ' :: g y) ++ close :: r') :
    List.Forall₂ P xs ys ∧ r = r' := by
  have hbegun : ∀ {γ : Type} (k : γ → List Char) (zs : List γ) (r : List Char),
      Begun isPunctuation (zs.flatMap (fun z => ',' :: ' ' :: k z) ++ close :: r) := by
    intro γ k zs r
    cases zs with
    | nil => simpa [Begun] using hclose
    | cons z zs => simp [Begun, isPunctuation]
  induction xs generalizing ys with
  | nil =>
    cases ys with
    | nil => simpa using h
    | cons y ys => simp [hcomma] at h
  | cons x xs ih =>
    cases ys with
    | nil => simp [hcomma.symm] at h
    | cons y ys =>
      simp only [List.flatMap_cons, List.cons_append, List.append_assoc, List.cons.injEq,
        true_and] at h
      obtain ⟨hxy, hrest⟩ := hread x List.mem_cons_self y List.mem_cons_self (hbegun f xs r)
        (hbegun g ys r') h
      obtain ⟨hall, hr⟩ := ih (fun x' hx' y' hy' => hread x' (List.mem_cons_of_mem x hx') y'
        (List.mem_cons_of_mem y hy')) hrest
      exact ⟨.cons hxy hall, hr⟩

theorem comma_intercalate (f : α → List Char) (x : α) (xs : List α) :
    ',' :: ' ' :: [',', ' '].intercalate ((x :: xs).map f) =
      (x :: xs).flatMap fun x => ',' :: ' ' :: f x := by
  induction xs generalizing x with
  | nil => simp
  | cons y ys ih =>
    rw [List.map_cons, List.map_cons, List.intercalate_cons_cons, List.flatMap_cons, ← ih y]
    simp

theorem forall₂_of_intercalate (hread : ∀ x ∈ xs, ∀ y ∈ ys, ReadsAs P f g x y)
    (hxs : ∀ x ∈ xs, StartsItem (f x)) (hys : ∀ y ∈ ys, StartsItem (g y))
    (hclose : isPunctuation close = true) (hcomma : close ≠ ',')
    (h : [',', ' '].intercalate (xs.map f) ++ close :: r =
      [',', ' '].intercalate (ys.map g) ++ close :: r') :
    List.Forall₂ P xs ys ∧ r = r' := by
  cases xs with
  | nil =>
    cases ys with
    | nil => simpa using h
    | cons y ys =>
      obtain ⟨c, cs, hc, hplain⟩ := hys y List.mem_cons_self
      have hne : close ≠ c := ne_of_apply_ne isPunctuation (by simp [hclose, hplain])
      simp [hc, hne] at h
  | cons x xs =>
    cases ys with
    | nil =>
      obtain ⟨c, cs, hc, hplain⟩ := hxs x List.mem_cons_self
      have hne : c ≠ close := ne_of_apply_ne isPunctuation (by simp [hclose, hplain])
      simp [hc, hne] at h
    | cons y ys =>
      refine forall₂_of_flatMap hread hclose hcomma ?_
      rw [← comma_intercalate, ← comma_intercalate]
      exact congrArg (',' :: ' ' :: ·) h

end Items

end StackVM
