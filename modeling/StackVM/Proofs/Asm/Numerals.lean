import Mathlib.Data.List.Induction
import StackVM.Proofs.Asm.Spelling.Lines

/-! # Words that are numbers

The grammar of numbers is an optional dash before decimal digits, or before the marker of a bit
pattern and hexadecimal digits. The reader accepts exactly the words of this grammar and, since it
leaves the digits of a pattern to a reader of signed numbers, those with a plus sign after the
marker.
-/
namespace StackVM

/-- The character is a digit of this value in a base up to sixteen, a letter in either case. -/
def IsDigit (base : Nat) (c : Char) (d : Nat) : Prop := d < base ∧ c.toLower = Nat.digitChar d

/-- A nonempty run of digits and the number that it denotes. -/
inductive Denotes (base : Nat) : List Char → Nat → Prop
  | digit {c : Char} {d : Nat} : IsDigit base c d → Denotes base [c] d
  | concat {cs : List Char} {v : Nat} {c : Char} {d : Nat} :
      Denotes base cs v → IsDigit base c d → Denotes base (cs ++ [c]) (base * v + d)

/-- The dash in front of a negative number. -/
def dash (negative : Bool) : List Char := if negative then ['-'] else []

def signed (negative : Bool) (v : Int) : Int := if negative then -v else v

/-- What marks the digits after it as those of a bit pattern. -/
def IsMarker (marker : List Char) : Prop := marker = ['0', 'x'] ∨ marker = ['0', 'X']

/-- Decimal digits, and a number of sixty-four bits that has their value. -/
def Decimal (negative : Bool) (cs : List Char) (n : Int64) : Prop :=
  ∃ v : Nat, Denotes 10 cs v ∧ n.toInt = signed negative v

/-- The digits of a bit pattern, and its value in two's complement, negated if there is a dash. -/
def Pattern (negative : Bool) (cs : List Char) (n : Int64) : Prop :=
  ∃ v, Denotes 16 cs v ∧ v < UInt64.size ∧ n.toInt = signed negative (BitVec.ofNat 64 v).toInt

/-- The words that are numbers. -/
inductive Numeral : List Char → Int64 → Prop
  | decimal {negative : Bool} {cs : List Char} {n : Int64} :
      Decimal negative cs n → Numeral (dash negative ++ cs) n
  | pattern {negative : Bool} {marker cs : List Char} {n : Int64} :
      IsMarker marker → Pattern negative cs n → Numeral (dash negative ++ (marker ++ cs)) n

/-- The words with a plus sign between the marker of a bit pattern and its digits. -/
inductive PlusNumeral : List Char → Int64 → Prop
  | pattern {negative : Bool} {marker cs : List Char} {n : Int64} :
      IsMarker marker → Pattern negative cs n →
      PlusNumeral (dash negative ++ (marker ++ '+' :: cs)) n

theorem toNat_toLower (c : Char) :
    c.toLower.toNat = if 65 ≤ c.toNat ∧ c.toNat ≤ 90 then c.toNat + 32 else c.toNat := by
  unfold Char.toLower
  split
  next h =>
    obtain ⟨hlow, hhigh⟩ := h
    have hlow' : 65 ≤ c.toNat := UInt32.le_iff_toNat_le.mp hlow
    have hhigh' : c.toNat ≤ 90 := UInt32.le_iff_toNat_le.mp hhigh
    rw [if_pos ⟨hlow', hhigh'⟩]
    change (c.val.toNat + 32) % 4294967296 = c.toNat + 32
    exact Nat.mod_eq_of_lt (by change c.toNat + 32 < _; omega)
  next h =>
    refine (if_neg fun hbounds => h ?_).symm
    exact ⟨UInt32.le_iff_toNat_le.mpr hbounds.1, UInt32.le_iff_toNat_le.mpr hbounds.2⟩

theorem toNat_digitChar {d : Nat} (h : d < 16) :
    (Nat.digitChar d).toNat = if d < 10 then 48 + d else 87 + d := by
  revert d
  decide

theorem isDigit_iff {base d : Nat} {c : Char} (hbase : base ≤ 16) :
    IsDigit base c d ↔ d < base ∧
      (if 65 ≤ c.toNat ∧ c.toNat ≤ 90 then c.toNat + 32 else c.toNat) =
        if d < 10 then 48 + d else 87 + d := by
  refine and_congr_right fun hd => ?_
  rw [← Char.toNat_inj, toNat_toLower, toNat_digitChar (by omega)]

theorem Denotes.isDigit {base v : Nat} {cs : List Char} (h : Denotes base cs v) :
    ∀ c ∈ cs, ∃ d, IsDigit base c d := by
  induction h with
  | digit hc => simpa using ⟨_, hc⟩
  | concat _ hc ih =>
    intro c' hc'
    rcases List.mem_append.mp hc' with hm | hm
    · exact ih c' hm
    · exact ⟨_, List.mem_singleton.mp hm ▸ hc⟩

theorem Denotes.notMem {base v : Nat} {cs : List Char} {c : Char} (h : Denotes base cs v)
    (hc : ∀ d < base, c.toLower ≠ Nat.digitChar d) : c ∉ cs := by
  intro hm
  obtain ⟨d, hd, heq⟩ := h.isDigit c hm
  exact hc d hd heq

theorem Denotes.ne_nil {base v : Nat} {cs : List Char} (h : Denotes base cs v) : cs ≠ [] := by
  cases h <;> simp

namespace Number

theorem decimalDigit?_eq_some_iff {c : Char} {d : Nat} :
    decimalDigit? c = some d ↔ IsDigit 10 c d := by
  have hrange : ('0' ≤ c ∧ c ≤ '9') ↔ 48 ≤ c.toNat ∧ c.toNat ≤ 57 :=
    and_congr UInt32.le_iff_toNat_le UInt32.le_iff_toNat_le
  rw [isDigit_iff (by decide), decimalDigit?]
  simp only [hrange, Option.ite_none_right_eq_some, Option.some.injEq]
  grind

theorem digitValue?_eq_some_iff {c : Char} {d : Nat} :
    Hex.digitValue? c = some d ↔ IsDigit 16 c d := by
  have hdigit : ('0' ≤ c ∧ c ≤ '9') ↔ 48 ≤ c.toNat ∧ c.toNat ≤ 57 :=
    and_congr UInt32.le_iff_toNat_le UInt32.le_iff_toNat_le
  have hlower : ('a' ≤ c ∧ c ≤ 'f') ↔ 97 ≤ c.toNat ∧ c.toNat ≤ 102 :=
    and_congr UInt32.le_iff_toNat_le UInt32.le_iff_toNat_le
  have hupper : ('A' ≤ c ∧ c ≤ 'F') ↔ 65 ≤ c.toNat ∧ c.toNat ≤ 70 :=
    and_congr UInt32.le_iff_toNat_le UInt32.le_iff_toNat_le
  rw [isDigit_iff (Nat.le_refl _), Hex.digitValue?]
  simp only [hdigit, hlower, hupper]
  grind

theorem digits?_concat {base : Nat} {digit? : Char → Option Nat} {cs : List Char} (h : cs ≠ [])
    (c : Char) :
    digits? base digit? (cs ++ [c]) =
      (digits? base digit? cs).bind fun v => (digit? c).map (base * v + ·) := by
  have hne : (cs ++ [c]).isEmpty = false := by simp
  simp only [digits?, List.isEmpty_eq_false_iff.mpr h, hne, Bool.false_eq_true, if_false,
    List.foldlM_append, List.foldlM_cons, List.foldlM_nil, bind_pure]
  rfl

theorem digits?_eq_some_iff {base : Nat} {digit? : Char → Option Nat}
    (hdigit : ∀ {c d}, digit? c = some d ↔ IsDigit base c d) {cs : List Char} {v : Nat} :
    digits? base digit? cs = some v ↔ Denotes base cs v := by
  have hone : ∀ c, digits? base digit? [c] = digit? c := by
    intro c
    cases hc : digit? c <;> simp [digits?, hc]
  constructor
  · intro h
    induction cs using List.reverseRecOn generalizing v with
    | nil => cases h
    | append_singleton cs c ih =>
      by_cases hcs : cs = []
      · subst hcs
        exact .digit (hdigit.mp ((hone c).symm.trans h))
      · rw [digits?_concat hcs] at h
        obtain ⟨w, hw, hmap⟩ := Option.bind_eq_some_iff.mp h
        obtain ⟨d, hd, rfl⟩ := Option.map_eq_some_iff.mp hmap
        exact .concat (ih hw) (hdigit.mp hd)
  · intro h
    induction h with
    | digit hc => rw [hone, hdigit.mpr hc]
    | @concat cs w c d hcs hc ih =>
      have hne : cs ≠ [] := by
        rintro rfl
        cases ih
      rw [digits?_concat hne, ih, Option.bind_some, hdigit.mpr hc, Option.map_some]

theorem ofInt?_eq_some_iff {i : Int} {n : Int64} : ofInt? i = some n ↔ n.toInt = i := by
  unfold ofInt?
  rw [Option.ite_none_right_eq_some, Option.some.injEq]
  constructor
  · rintro ⟨⟨hlow, hhigh⟩, rfl⟩
    change -9223372036854775808 ≤ i at hlow
    change i ≤ 9223372036854775807 at hhigh
    exact Int64.toInt_ofInt_of_le (by omega) (by omega)
  · rintro rfl
    exact ⟨⟨n.minValue_le_toInt, n.toInt_le⟩, n.ofInt_toInt⟩

theorem decimal?_eq_some_iff {negative : Bool} {cs : List Char} {n : Int64} :
    decimal? negative cs = some n ↔ Decimal negative cs n := by
  change (digits? 10 decimalDigit? cs).bind
    (fun v : Nat => ofInt? (if negative then -(v : Int) else v)) = some n ↔ _
  simp only [Option.bind_eq_some_iff, digits?_eq_some_iff decimalDigit?_eq_some_iff,
    ofInt?_eq_some_iff, Decimal, signed]

theorem negate_eq_some_iff {m n : Int64} :
    (if m = Int64.minValue then none else some (-m)) = some n ↔ n.toInt = -m.toInt := by
  rw [Option.ite_none_left_eq_some, Option.some.injEq]
  have hlow := n.minValue_le_toInt
  have hhigh := n.toInt_le
  change -9223372036854775808 ≤ n.toInt at hlow
  change n.toInt ≤ 9223372036854775807 at hhigh
  constructor
  · rintro ⟨hm, rfl⟩
    have hne : m.toInt ≠ -9223372036854775808 := fun h => hm (Int64.toInt_inj.mp h)
    have hmlow := m.le_toInt
    have hmhigh := m.toInt_lt
    rw [Int64.toInt_neg]
    exact Int.bmod_eq_of_le (by omega) (by omega)
  · intro h
    refine ⟨?_, ?_⟩
    · rintro rfl
      change n.toInt = 9223372036854775808 at h
      omega
    · rw [← Int64.toInt_inj, Int64.toInt_neg, ← h]
      exact Int.bmod_eq_of_le (by omega) (by omega)

theorem pattern?_eq_some_iff {cs : List Char} {u : UInt64} :
    pattern? cs = some u ↔ ∃ ds v, (cs = ds ∨ cs = '+' :: ds) ∧ Denotes 16 ds v ∧
      v < UInt64.size ∧ UInt64.ofNat v = u := by
  have hplus : ∀ {ds v}, ¬ Denotes 16 ('+' :: ds) v := fun h =>
    h.notMem (by decide) List.mem_cons_self
  have hread : ∀ ds, ((digits? 16 Hex.digitValue? ds).bind fun v =>
      if v < UInt64.size then some (UInt64.ofNat v) else none) = some u ↔
        ∃ v, Denotes 16 ds v ∧ v < UInt64.size ∧ UInt64.ofNat v = u := by
    intro ds
    simp only [Option.bind_eq_some_iff, digits?_eq_some_iff digitValue?_eq_some_iff,
      Option.ite_none_right_eq_some, Option.some.injEq]
  unfold pattern?
  split
  next rest =>
    refine (hread rest).trans ⟨fun ⟨v, hv⟩ => ⟨rest, v, .inr rfl, hv⟩, ?_⟩
    rintro ⟨ds, v, rfl | hds, hv⟩
    · exact absurd hv.1 hplus
    · cases hds
      exact ⟨v, hv⟩
  next hne =>
    refine (hread cs).trans ⟨fun ⟨v, hv⟩ => ⟨cs, v, .inl rfl, hv⟩, ?_⟩
    rintro ⟨ds, v, rfl | hds, hv⟩
    · exact ⟨v, hv⟩
    · exact absurd hds (hne ds)

theorem hexadecimal?_eq_some_iff {negative : Bool} {cs : List Char} {n : Int64} :
    hexadecimal? negative cs = some n ↔
      ∃ ds, (cs = ds ∨ cs = '+' :: ds) ∧ Pattern negative ds n := by
  have hsigned : ∀ v, (if negative then
        if (UInt64.ofNat v).toInt64 = Int64.minValue then none else some (-(UInt64.ofNat v).toInt64)
      else some (UInt64.ofNat v).toInt64) = some n ↔
        n.toInt = signed negative (BitVec.ofNat 64 v).toInt := by
    intro v
    cases negative with
    | true => exact negate_eq_some_iff
    | false =>
      rw [if_neg Bool.false_ne_true, Option.some.injEq, ← Int64.toInt_inj]
      exact eq_comm
  change (pattern? cs).bind _ = some n ↔ _
  simp only [Option.bind_eq_some_iff, pattern?_eq_some_iff]
  constructor
  · rintro ⟨-, ⟨ds, v, hds, hv, hsize, rfl⟩, hn⟩
    exact ⟨ds, hds, v, hv, hsize, (hsigned v).mp hn⟩
  · rintro ⟨ds, hds, v, hv, hsize, hn⟩
    exact ⟨_, ⟨ds, v, hds, hv, hsize, rfl⟩, (hsigned v).mpr hn⟩

theorem ofUnsigned?_eq_some_iff {negative : Bool} {cs : List Char} {n : Int64} :
    ofUnsigned? negative cs = some n ↔ Decimal negative cs n ∨
      ∃ marker ds, IsMarker marker ∧ (cs = marker ++ ds ∨ cs = marker ++ '+' :: ds) ∧
        Pattern negative ds n := by
  have hmarker : ∀ {x rest}, (∀ d < 10, x.toLower ≠ Nat.digitChar d) →
      ¬ Decimal negative ('0' :: x :: rest) n := by
    rintro x rest hx ⟨v, hv, -⟩
    exact hv.notMem hx (by simp)
  unfold ofUnsigned?
  split
  next rest =>
    rw [hexadecimal?_eq_some_iff, or_iff_right (hmarker (by decide))]
    simp [IsMarker]
  next rest =>
    rw [hexadecimal?_eq_some_iff, or_iff_right (hmarker (by decide))]
    simp [IsMarker]
  next hlower hupper =>
    rw [decimal?_eq_some_iff]
    refine (or_iff_left ?_).symm
    rintro ⟨marker, ds, rfl | rfl, rfl | rfl, -⟩
    · exact hlower _ rfl
    · exact hlower _ rfl
    · exact hupper _ rfl
    · exact hupper _ rfl

theorem exists_isDigit_of_ofUnsigned? {negative : Bool} {cs : List Char} {n : Int64}
    (h : ofUnsigned? negative cs = some n) :
    (∃ c ds, cs = c :: ds ∧ c.isDigit = true) ∧ ':' ∉ cs := by
  have hcolon : ∀ {ds v}, Denotes 16 ds v → ':' ∉ ds := fun hds => hds.notMem (by decide)
  rcases ofUnsigned?_eq_some_iff.mp h with ⟨v, hv, -⟩ | ⟨marker, ds, hmarker, hcs, v, hv, -⟩
  · have hdigit : ∀ c ∈ cs, c.isDigit = true := by
      intro c hc
      obtain ⟨d, hd⟩ := hv.isDigit c hc
      obtain ⟨⟨hlow, hhigh⟩, -⟩ :=
        Option.ite_none_right_eq_some.mp (decimalDigit?_eq_some_iff.mpr hd)
      exact Bool.and_eq_true_iff.mpr ⟨decide_eq_true hlow, decide_eq_true hhigh⟩
    refine ⟨?_, fun hm => by cases hdigit ':' hm⟩
    obtain ⟨c, ds, rfl⟩ := List.exists_cons_of_ne_nil hv.ne_nil
    exact ⟨c, ds, rfl, hdigit c List.mem_cons_self⟩
  · rcases hmarker with rfl | rfl <;> rcases hcs with rfl | rfl <;>
      exact ⟨⟨'0', _, rfl, rfl⟩, by simpa using hcolon hv⟩

theorem ofChars?_dash {negative : Bool} {c : Char} {cs : List Char} (hc : c.isDigit = true) :
    ofChars? (dash negative ++ c :: cs) = ofUnsigned? negative (c :: cs) := by
  cases negative with
  | true => rfl
  | false =>
    change ofChars? (c :: cs) = _
    unfold ofChars?
    split
    next heq =>
      cases heq
      cases hc
    next => rfl

theorem ofChars?_eq_some_iff {word : List Char} {n : Int64} :
    ofChars? word = some n ↔
      ∃ negative cs, word = dash negative ++ cs ∧ ofUnsigned? negative cs = some n := by
  constructor
  · intro h
    unfold ofChars? at h
    split at h
    next cs => exact ⟨true, cs, rfl, h⟩
    next => exact ⟨false, word, rfl, h⟩
  · rintro ⟨negative, cs, rfl, h⟩
    obtain ⟨⟨c, ds, rfl, hc⟩, -⟩ := exists_isDigit_of_ofUnsigned? h
    rw [ofChars?_dash hc, h]

end Number

theorem numeral_or_plusNumeral_iff {word : List Char} {n : Int64} :
    Numeral word n ∨ PlusNumeral word n ↔ Number.ofChars? word = some n := by
  rw [Number.ofChars?_eq_some_iff]
  simp only [Number.ofUnsigned?_eq_some_iff]
  constructor
  · rintro ((hdecimal | ⟨hmarker, hpattern⟩) | ⟨hmarker, hpattern⟩)
    · exact ⟨_, _, rfl, .inl hdecimal⟩
    · exact ⟨_, _, rfl, .inr ⟨_, _, hmarker, .inl rfl, hpattern⟩⟩
    · exact ⟨_, _, rfl, .inr ⟨_, _, hmarker, .inr rfl, hpattern⟩⟩
  · rintro ⟨negative, cs, rfl, hdecimal | ⟨marker, ds, hmarker, rfl | rfl, hpattern⟩⟩
    · exact .inl (.decimal hdecimal)
    · exact .inl (.pattern hmarker hpattern)
    · exact .inr (.pattern hmarker hpattern)

theorem Token.ofWord_of_ofChars? {word : List Char} {n : Int64}
    (h : Number.ofChars? word = some n) : ofWord word = .ok (.number n) := by
  obtain ⟨negative, cs, rfl, hcs⟩ := Number.ofChars?_eq_some_iff.mp h
  obtain ⟨⟨c, ds, rfl, hc⟩, hcolon⟩ := Number.exists_isDigit_of_ofUnsigned? hcs
  have hlast : (dash negative ++ c :: ds).getLast? ≠ some ':' := by
    intro hlast
    rcases List.mem_append.mp (List.mem_of_getLast? hlast) with hm | hm
    · cases negative <;> simp [dash] at hm
    · exact hcolon hm
  have hident : isIdent (dash negative ++ c :: ds) = false := by
    cases negative with
    | true => rfl
    | false => simp [dash, isIdent, isIdentHead_of_isDecimal (.inl hc)]
  have hnumeric : looksNumeric (dash negative ++ c :: ds) = true := by
    have hne : c ≠ '-' := by
      rintro rfl
      cases hc
    cases negative <;> simp [dash, looksNumeric, hne, hc]
  unfold ofWord
  rw [if_neg hlast, hident, if_neg Bool.false_ne_true, if_pos hnumeric, h]

/-- A word is read as a number exactly if it is one by the grammar, or would be one without a plus
sign after the marker of its bit pattern. -/
theorem ofWord_eq_number_iff (word : List Char) (n : Int64) :
    Token.ofWord word = .ok (.number n) ↔ Numeral word n ∨ PlusNumeral word n := by
  rw [numeral_or_plusNumeral_iff]
  refine ⟨fun h => ?_, Token.ofWord_of_ofChars?⟩
  unfold Token.ofWord at h
  split at h
  next =>
    split at h <;> cases h
  next =>
    split at h
    next => cases h
    next =>
      split at h
      next =>
        split at h
        next m hm =>
          cases h
          exact hm
        next => cases h
      next => cases h

theorem Numeral.plus_notMem {word : List Char} {n : Int64} (h : Numeral word n) :
    '+' ∉ word := by
  have hdash : ∀ negative, '+' ∉ dash negative := by decide
  cases h with
  | decimal hdecimal =>
    obtain ⟨v, hv, -⟩ := hdecimal
    exact List.not_mem_append (hdash _) (hv.notMem (by decide))
  | pattern hmarker hpattern =>
    obtain ⟨v, hv, -⟩ := hpattern
    refine List.not_mem_append (hdash _) (List.not_mem_append ?_ (hv.notMem (by decide)))
    rcases hmarker with rfl | rfl <;> decide

/-- A plus sign after the marker is accepted, although the grammar has none. -/
theorem plus_sign_accepted :
    Token.ofWord "0x+1f".toList = .ok (.number 31) ∧ ¬ ∃ n, Numeral "0x+1f".toList n := by
  refine ⟨by decide +kernel, ?_⟩
  rintro ⟨n, h⟩
  exact h.plus_notMem (by decide)

end StackVM
