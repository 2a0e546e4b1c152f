import StackVM.Proofs.Value.Unambiguous.Texts

/-! # Displayed containers are unambiguous

A container ends at its closing bracket, and its items end where they have to. So a text can be
taken apart in one way only, and two containers of plain values with the same text hold the same.
-/
namespace StackVM

/-- Null, truth values, numbers, texts, and the containers. -/
def Value.isPlain : Value → Bool
  | .null | .bool _ | .int _ | .str _ | .arr _ | .hash _ => true
  | _ => false

namespace Store
variable {st : Store} {v w : Value}

/-- The value is plain, and so is all that it contains at every depth. -/
structure Plain (st : Store) (v : Value) : Prop where
  here : v.isPlain = true
  below : ∀ c d, v.container? = some c → Relation.ReflTransGen st.Holds c d →
    ∀ w ∈ st.contents d, w.isPlain = true

theorem Plain.contents {c : Container} (h : st.Plain c.value) (hw : w ∈ st.contents c) :
    st.Plain w where
  here := h.below c c c.container?_value .refl w hw
  below d e hd hreach := by
    obtain rfl := Container.eq_value hd
    exact h.below c e c.container?_value (.head hw hreach)

theorem plain_key (st : Store) (k : Key) : st.Plain k.value where
  here := by cases k <;> rfl
  below c _ hc := by
    cases k.container?_value.symm.trans hc

theorem Bisimilar.matches (h : st.Bisimilar v w) : st.Matches st.Bisimilar v w := by
  obtain ⟨R, hR, hvw⟩ := h
  exact (hR v w hvw).mono fun x y hxy => ⟨R, hR, hxy⟩

theorem Matches.bisimilar (h : st.Matches st.Bisimilar v w) : st.Bisimilar v w :=
  ⟨st.Matches st.Bisimilar, fun _ _ hxy => hxy.mono fun _ _ => Bisimilar.matches, h⟩

theorem eq_of_bisimilar_key {k k' : Key} (h : st.Bisimilar k.value k'.value) : k = k' := by
  have hkey : ∀ {a b}, st.Matches st.Bisimilar a b → a = k.value → b = k'.value → a = b := by
    intro a b hm ha hb
    cases hm with
    | scalar => rfl
    | arr => cases k <;> cases ha
    | hash => cases k <;> cases ha
  have heq : k.value = k'.value := hkey h.matches rfl rfl
  exact Option.some.inj (by rw [← k.key?_value, heq, k'.key?_value])

theorem bisimilar_arr {a b : ArrRef}
    (h : List.Forall₂ st.Bisimilar (st.arr a).toList (st.arr b).toList) :
    st.Bisimilar (.arr a) (.arr b) := by
  refine (Matches.arr (by simpa using h.length_eq) fun n x y hx hy => ?_).bisimilar
  rw [← Array.getElem?_toList, List.getElem?_eq_some_iff] at hx hy
  obtain ⟨hn, rfl⟩ := hx
  obtain ⟨hn', rfl⟩ := hy
  exact h.get hn hn'

theorem get?_of_forall₂ {R : Value → Value → Prop} {xs ys : Entries}
    (h : List.Forall₂ (fun x y => x.1 = y.1 ∧ R x.2 y.2) xs ys) (k : Key) :
    (xs.get? k = none ∧ ys.get? k = none) ∨
      ∃ x y, xs.get? k = some x ∧ ys.get? k = some y ∧ R x y := by
  unfold Entries.get?
  induction h with
  | nil => exact .inl ⟨rfl, rfl⟩
  | @cons x y xs ys hxy _ ih =>
    obtain ⟨k₁, x⟩ := x
    obtain ⟨k₂, y⟩ := y
    obtain ⟨rfl, hxy⟩ := hxy
    by_cases hk : k = k₁
    · simpa [hk] using hxy
    · simpa [List.lookup_cons, beq_eq_false_iff_ne.mpr hk] using ih

theorem bisimilar_hash {a b : HashRef}
    (h : List.Forall₂ (fun x y => x.1 = y.1 ∧ st.Bisimilar x.2 y.2) (st.hash a) (st.hash b)) :
    st.Bisimilar (.hash a) (.hash b) := by
  refine (Matches.hash (fun k => ?_) fun k x y hx hy => ?_).bisimilar
  · rcases get?_of_forall₂ h k with ⟨ha, hb⟩ | ⟨x, y, ha, hb, -⟩ <;> simp [ha, hb]
  · rcases get?_of_forall₂ h k with ⟨ha, -⟩ | ⟨x', y', ha, hb, hxy⟩
    · cases ha.symm.trans hx
    · cases ha.symm.trans hx
      cases hb.symm.trans hy
      exact hxy

end Store

/-- The character that the text of a value begins with, for what has delimiters. -/
def Value.opener? : Value → Option Char
  | .str _ => some '"'
  | .arr _ => some '['
  | .hash _ => some '\x7b'
  | _ => none

/-- The characters of unquoted words. -/
def isWordChar (c : Char) : Bool := c.isAlphanum || c == '-'

theorem isPunctuation_of_isWordChar {c : Char} (h : isWordChar c = true) :
    isPunctuation c = false := by
  by_contra hne
  simp only [Bool.not_eq_false, isPunctuation, Bool.or_eq_true, beq_iff_eq] at hne
  rcases hne with ((rfl | rfl) | rfl) | rfl <;> cases h

namespace Value

/-- The values that are written as words. -/
inductive IsWord : Value → Prop
  | null : IsWord .null
  | bool (b : Bool) : IsWord (.bool b)
  | int (n : Int64) : IsWord (.int n)

theorem isWord_of_isPlain {v : Value} (hplain : v.isPlain = true)
    (hcontainer : v.container? = none) (hstr : v.str? = none) : v.IsWord := by
  cases v with
  | null => exact .null
  | bool b => exact .bool b
  | int n => exact .int n
  | str => cases hstr
  | arr | hash => cases hcontainer
  | func | type | clib | csym | undef => cases hplain

/-- The token that the word of a value would be in assembly text. -/
def wordToken : Value → Token
  | .int n => .number n
  | .bool b => .ident (if b then "true" else "false")
  | _ => .ident "null"

theorem IsWord.eq_of_wordToken {v w : Value} (hv : v.IsWord) (hw : w.IsWord)
    (h : v.wordToken = w.wordToken) : v = w := by
  cases hv <;> cases hw <;> simp_all [wordToken] <;> grind

end Value

namespace Store
variable {st : Store} {v w : Value} {path path' : List Container} {t u : String}

theorem isWordChar_renderScalar (hv : v.IsWord) :
    ∀ c ∈ (st.renderScalar v).toList, isWordChar c = true := by
  cases hv with
  | null =>
    have hall : "null".toList.all isWordChar = true := by decide
    exact List.all_eq_true.mp hall
  | bool b =>
    have hall : (if b then "true" else "false").toList.all isWordChar = true := by
      cases b <;> decide
    exact List.all_eq_true.mp hall
  | int n =>
    intro c hc
    rcases Token.isDecimal_toString hc with hdigit | rfl
    · simp [isWordChar, Char.isAlphanum, hdigit]
    · rfl

theorem ofWord_renderScalar (hv : v.IsWord) :
    Token.ofWord (st.renderScalar v).toList = .ok v.wordToken := by
  cases hv with
  | null =>
    change Token.ofWord "null".toList = .ok (.ident "null")
    decide +kernel
  | bool b =>
    change Token.ofWord (if b then "true" else "false").toList = .ok (Value.bool b).wordToken
    cases b <;> decide +kernel
  | int n =>
    have hread := Token.ofWord_toString ⟨n.minValue_le_toInt, n.toInt_le⟩
    rw [n.ofInt_toInt] at hread
    exact hread

theorem read_word (hv : v.IsWord) (hw : w.IsWord) {r r' : List Char}
    (hr : Begun isPunctuation r) (hr' : Begun isPunctuation r')
    (h : (st.renderScalar v).toList ++ r = (st.renderScalar w).toList ++ r') : v = w ∧ r = r' := by
  have hword : ∀ {v : Value}, v.IsWord →
      ∀ c ∈ (st.renderScalar v).toList, isPunctuation c = false := fun hv c hc =>
    isPunctuation_of_isWordChar (isWordChar_renderScalar hv c hc)
  obtain ⟨htext, hrest⟩ := append_inj_of_begun (hword hv) (hword hw) hr hr' h
  refine ⟨hv.eq_of_wordToken hw ?_, hrest⟩
  have hread : Token.ofWord (st.renderScalar v).toList = .ok v.wordToken := ofWord_renderScalar hv
  rw [htext, ofWord_renderScalar hw] at hread
  exact (Except.ok.inj hread).symm

theorem toList_renderItems (texts : List String) :
    (renderItems texts).toList =
      '[' :: ([',', ' '].intercalate (texts.map String.toList) ++ [']']) := by
  simp [renderItems]

theorem toList_renderPairs (pairs : List (String × String)) :
    (renderPairs pairs).toList = '\x7b' :: ([',', ' '].intercalate
      (pairs.map fun e => e.1.toList ++ ':' :: ' ' :: e.2.toList) ++ ['\x7d']) := by
  simp [renderPairs, Function.comp_def]

section Reading
variable {text text' : Value → String} {r r' : List Char}

theorem read_items {a b : ArrRef}
    (hread : ∀ x ∈ (st.arr a).toList, ∀ y ∈ (st.arr b).toList,
      ReadsAs st.Bisimilar (String.toList ∘ text) (String.toList ∘ text') x y)
    (ha : ∀ x ∈ (st.arr a).toList, StartsItem (text x).toList)
    (hb : ∀ y ∈ (st.arr b).toList, StartsItem (text' y).toList)
    (heq : (renderItems ((st.arr a).toList.map text)).toList ++ r =
      (renderItems ((st.arr b).toList.map text')).toList ++ r') :
    st.Bisimilar (.arr a) (.arr b) ∧ r = r' := by
  simp only [toList_renderItems, List.map_map, List.cons_append, List.append_assoc,
    List.nil_append, List.cons.injEq, true_and] at heq
  obtain ⟨hall, hrest⟩ := forall₂_of_intercalate hread ha hb rfl (by decide) heq
  exact ⟨bisimilar_arr hall, hrest⟩

/-- The text of a pair in a hash. -/
def pairText (text : Value → String) (e : Key × Value) : List Char :=
  (text e.1.value).toList ++ ':' :: ' ' :: (text e.2).toList

theorem read_pairs {a b : HashRef}
    (hread : ∀ x ∈ st.hash a, ∀ y ∈ st.hash b,
      ReadsAs (fun x y => x.1 = y.1 ∧ st.Bisimilar x.2 y.2) (pairText text) (pairText text') x y)
    (ha : ∀ x ∈ st.hash a, StartsItem (pairText text x))
    (hb : ∀ y ∈ st.hash b, StartsItem (pairText text' y))
    (heq : (renderPairs ((st.hash a).map fun (k, v) => (text k.value, text v))).toList ++ r =
      (renderPairs ((st.hash b).map fun (k, v) => (text' k.value, text' v))).toList ++ r') :
    st.Bisimilar (.hash a) (.hash b) ∧ r = r' := by
  simp only [toList_renderPairs, List.map_map, List.cons_append, List.append_assoc,
    List.nil_append, List.cons.injEq, true_and] at heq
  obtain ⟨hall, hrest⟩ := forall₂_of_intercalate hread ha hb rfl (by decide) heq
  exact ⟨bisimilar_hash hall, hrest⟩

end Reading

theorem Writes.exists_cons (h : st.Writes .never .inside path v t) (hv : v.isPlain = true) :
    ∃ c cs, t.toList = c :: cs ∧ isPunctuation c = false ∧
      v.opener? = if c = '"' ∨ c = '[' ∨ c = '\x7b' then some c else none := by
  cases h with
  | @quoted path s => exact ⟨_, _, Text.toList_quote s, rfl, rfl⟩
  | scalar hcontainer hstr =>
    have hword := Value.isWord_of_isPlain hv hcontainer hstr
    have hbegins : Begins (st.renderScalar v) := begins_renderScalar hstr
    obtain ⟨c, hc, -⟩ := hbegins
    obtain ⟨cs, hcs⟩ := List.head?_eq_some_iff.mp hc
    have hchar : isWordChar c = true :=
      isWordChar_renderScalar hword c (hcs ▸ List.mem_cons_self)
    have hopener : ¬ (c = '"' ∨ c = '[' ∨ c = '\x7b') := by
      rintro (rfl | rfl | rfl) <;> cases hchar
    refine ⟨c, cs, hcs, isPunctuation_of_isWordChar hchar, ?_⟩
    rw [if_neg hopener]
    cases hword <;> rfl
  | arrAgain hagain => cases hagain
  | hashAgain hagain => cases hagain
  | arr text => exact ⟨_, _, toList_renderItems _, rfl, rfl⟩
  | hash text => exact ⟨_, _, toList_renderPairs _, rfl, rfl⟩

theorem Writes.startsItem (h : st.Writes .never .inside path v t) (hv : st.Plain v) :
    StartsItem t.toList := by
  obtain ⟨c, cs, ht, hc, -⟩ := h.exists_cons hv.here
  exact ⟨c, cs, ht, hc⟩

theorem Writes.opener?_eq (h : st.Writes .never .inside path v t) (hv : st.Plain v)
    (h' : st.Writes .never .inside path' w u) (hw : st.Plain w) {r r' : List Char}
    (heq : t.toList ++ r = u.toList ++ r') : v.opener? = w.opener? := by
  obtain ⟨c, cs, ht, -, hopener⟩ := h.exists_cons hv.here
  obtain ⟨c', cs', hu, -, hopener'⟩ := h'.exists_cons hw.here
  rw [ht, hu] at heq
  obtain ⟨rfl, -⟩ := List.cons.inj heq
  rw [hopener, hopener']

/-- A text inside a container is read to its end in one way, and what was read is bisimilar. -/
theorem Writes.read (h : st.Writes .never .inside path v t) (hv : st.Plain v)
    (h' : st.Writes .never .inside path' w u) (hw : st.Plain w) {r r' : List Char}
    (hr : Begun isPunctuation r) (hr' : Begun isPunctuation r')
    (heq : t.toList ++ r = u.toList ++ r') : st.Bisimilar v w ∧ r = r' := by
  have hopener := h.opener?_eq hv h' hw heq
  generalize hspot : Spot.inside = spot at h
  induction h generalizing w u path' r r' with
  | text => cases hspot
  | quoted =>
    cases h' with
    | quoted =>
      obtain ⟨rfl, hrest⟩ := Text.quote_append_inj heq
      exact ⟨.refl st _, hrest⟩
    | scalar hcontainer hstr =>
      cases Value.isWord_of_isPlain hw.here hcontainer hstr <;> cases hopener
    | arrAgain hagain | hashAgain hagain => cases hagain
    | arr | hash => cases hopener
  | scalar hcontainer hstr =>
    have hword := Value.isWord_of_isPlain hv.here hcontainer hstr
    cases h' with
    | scalar hcontainer' hstr' =>
      obtain ⟨rfl, hrest⟩ :=
        read_word hword (Value.isWord_of_isPlain hw.here hcontainer' hstr') hr hr' heq
      exact ⟨.refl st _, hrest⟩
    | arrAgain hagain | hashAgain hagain => cases hagain
    | quoted | arr | hash => cases hword <;> cases hopener
  | arrAgain hagain | hashAgain hagain => cases hagain
  | @arr spot path a text hfresh hitems ih =>
    cases h' with
    | @arr _ _ b text' hfresh' hitems' =>
      have ha : ∀ x ∈ (st.arr a).toList, st.Plain x := fun x => hv.contents (c := .arr a)
      have hb : ∀ y ∈ (st.arr b).toList, st.Plain y := fun y => hw.contents (c := .arr b)
      refine read_items (fun x hx y hy r r' hr hr' heq => ?_)
        (fun x hx => (hitems x hx).startsItem (ha x hx))
        (fun y hy => (hitems' y hy).startsItem (hb y hy)) heq
      exact ih x hx (ha x hx) (hitems' y hy) (hb y hy) hr hr' heq
        ((hitems x hx).opener?_eq (ha x hx) (hitems' y hy) (hb y hy) heq) rfl
    | scalar hcontainer hstr =>
      cases Value.isWord_of_isPlain hw.here hcontainer hstr <;> cases hopener
    | arrAgain hagain | hashAgain hagain => cases hagain
    | quoted | hash => cases hopener
  | @hash spot path a text hfresh hkeys hvalues ihkeys ihvalues =>
    cases h' with
    | @hash _ _ b text' hfresh' hkeys' hvalues' =>
      have ha : ∀ x ∈ st.hash a, st.Plain x.2 := fun x hx =>
        hv.contents (c := .hash a) (List.mem_map_of_mem hx)
      have hb : ∀ y ∈ st.hash b, st.Plain y.2 := fun y hy =>
        hw.contents (c := .hash b) (List.mem_map_of_mem hy)
      refine read_pairs (fun x hx y hy r r' hr hr' heq => ?_)
        (fun x hx => ((hkeys x hx).startsItem (st.plain_key x.1)).append _)
        (fun y hy => ((hkeys' y hy).startsItem (st.plain_key y.1)).append _) heq
      simp only [pairText, List.append_assoc, List.cons_append] at heq
      obtain ⟨hkey, htail⟩ := ihkeys x hx (st.plain_key x.1) (hkeys' y hy) (st.plain_key y.1)
        (by simp [Begun, isPunctuation]) (by simp [Begun, isPunctuation]) heq
        ((hkeys x hx).opener?_eq (st.plain_key x.1) (hkeys' y hy) (st.plain_key y.1) heq) rfl
      simp only [List.cons.injEq, true_and] at htail
      obtain ⟨hvalue, hrest⟩ := ihvalues x hx (ha x hx) (hvalues' y hy) (hb y hy) hr hr' htail
        ((hvalues x hx).opener?_eq (ha x hx) (hvalues' y hy) (hb y hy) htail) rfl
      exact ⟨⟨eq_of_bisimilar_key hkey, hvalue⟩, hrest⟩
    | scalar hcontainer hstr =>
      cases Value.isWord_of_isPlain hw.here hcontainer hstr <;> cases hopener
    | arrAgain hagain | hashAgain hagain => cases hagain
    | quoted | arr => cases hopener

/-- A container is written in the same way alone and inside another one. -/
theorem Writes.inside {guard : Guard} {c : Container} (h : st.Writes guard .alone path c.value t) :
    st.Writes guard .inside path c.value t := by
  cases c with
  | arr r =>
    cases h with
    | scalar hcontainer => cases hcontainer
    | arrAgain hagain => exact .arrAgain hagain
    | arr text hfresh hitems => exact .arr text hfresh hitems
  | hash r =>
    cases h with
    | scalar hcontainer => cases hcontainer
    | hashAgain hagain => exact .hashAgain hagain
    | hash text hfresh hkeys hvalues => exact .hash text hfresh hkeys hvalues

theorem writes_never_render (hv : st.Acyclic v) : st.Writes .never .alone [] v (st.render v) :=
  (writes_ancestors_iff.mpr rfl).never hv (by simp)

end Store

/-- Displayed containers are unambiguous: if no cycle is reachable from two containers, and they
contain plain values only, at every depth, then they are equal if they have the same text. -/
theorem display_unambiguous {st : Store} (hkeyed : st.Keyed) {c d : Container}
    (hc : st.Acyclic c.value) (hd : st.Acyclic d.value) (hplain : st.Plain c.value)
    (hplain' : st.Plain d.value) (h : st.render c.value = st.render d.value) :
    st.equal c.value d.value = true := by
  have hend : Begun isPunctuation [] := by simp [Begun]
  obtain ⟨hbisimilar, -⟩ := (Store.writes_never_render hc).inside.read hplain
    (Store.writes_never_render hd).inside hplain' hend hend (by rw [h])
  exact (Store.equal_iff_bisimilar hkeyed).mpr hbisimilar

/-- Two arrays that hold hashes of the same shape. The number one and the text of its digit are
different keys there, and a text in it holds a comma and a quote. -/
def Store.lookalikes : Store :=
  [.newArr #[.bool true, .str "a, \"b"], .newArr #[.bool true, .str "a, \"b"],
    .newHash [(.int 1, .null), (.str "1", .arr ⟨0⟩)],
    .newHash [(.int 1, .null), (.str "1", .arr ⟨1⟩)],
    .newArr #[.hash ⟨0⟩, .int (-5)], .newArr #[.hash ⟨1⟩, .int (-5)]].foldl
    (fun st (e : Edit) => (st.apply e).2) Store.empty

theorem display_unambiguous_lookalikes :
    Store.lookalikes.render (.arr ⟨2⟩) = "[\x7b1: null, \"1\": [true, \"a, \\\"b\"]\x7d, -5]" ∧
    Store.lookalikes.render (.arr ⟨3⟩) = "[\x7b1: null, \"1\": [true, \"a, \\\"b\"]\x7d, -5]" ∧
    Store.lookalikes.equal (.arr ⟨2⟩) (.arr ⟨3⟩) = true := by
  let rank (c : Container) : Nat :=
    if c = .arr ⟨0⟩ ∨ c = .arr ⟨1⟩ then 0 else if c = .arr ⟨2⟩ ∨ c = .arr ⟨3⟩ then 2 else 1
  have hall : ∀ c ∈ Store.lookalikes.containers, ∀ w ∈ Store.lookalikes.contents c,
      w.isPlain = true ∧ ∀ d ∈ w.container?, rank d < rank c := by decide +kernel
  have hacyclic : ∀ v, Store.lookalikes.Acyclic v := fun v =>
    Store.acyclic_of_rank (P := fun _ => True) rank (fun _ _ => trivial) fun c d _ hd =>
      ⟨trivial, (hall c (Store.mem_containers_of_mem_contents hd) _ hd).2 d d.container?_value⟩
  have hplain : ∀ c : Container, Store.lookalikes.Plain c.value := fun c =>
    ⟨by cases c <;> rfl, fun _ d _ _ w hw =>
      (hall d (Store.mem_containers_of_mem_contents hw) w hw).1⟩
  have htext : Store.lookalikes.render (.arr ⟨2⟩) =
      "[\x7b1: null, \"1\": [true, \"a, \\\"b\"]\x7d, -5]" := by decide +kernel
  have htext' : Store.lookalikes.render (.arr ⟨3⟩) =
      "[\x7b1: null, \"1\": [true, \"a, \\\"b\"]\x7d, -5]" := by decide +kernel
  exact ⟨htext, htext', display_unambiguous (Store.keyed_edits _) (c := .arr ⟨2⟩) (d := .arr ⟨3⟩)
    (hacyclic _) (hacyclic _) (hplain _) (hplain _) (htext.trans htext'.symm)⟩

end StackVM
