import StackVM.Proofs.Value.Bisimulation.Relations

/-! # Equality of values is bisimilarity

Every comparison ends, because a path never holds a pair twice. A pair on the path is taken to be
equal: that is a bisimulation up to the pairs on the path, and the path is empty at the top.
-/
namespace StackVM
namespace Store
section Comparisons
variable {st : Store} {order : Order} {path : List ContainerPair} {c : Partners} {p : ContainerPair}

/-- The pairs of containers of one kind in the store. -/
def pairs (st : Store) : List ContainerPair :=
  (List.range st.arrays.size ×ˢ List.range st.arrays.size).map (fun x => .arr ⟨x.1⟩ ⟨x.2⟩) ++
    (List.range st.hashes.size ×ˢ List.range st.hashes.size).map fun x => .hash ⟨x.1⟩ ⟨x.2⟩

theorem length_pairs (st : Store) : st.pairs.length =
    st.arrays.size * st.arrays.size + st.hashes.size * st.hashes.size := by
  simp [pairs, List.length_product]

theorem mem_pairs_of_mem_partners {l : List Partners} (hl : st.partners p = some l)
    (hc : c ∈ l) : p ∈ st.pairs := by
  cases p with
  | arr a b =>
    simp only [partners, Option.ite_none_right_eq_some, Option.some.injEq] at hl
    obtain ⟨hsize, rfl⟩ := hl
    have hpos : 0 < (st.arr a).size := by
      simpa using List.length_pos_of_mem (List.of_mem_zip hc).1
    have ha := lt_size_arrays hpos
    have hb := lt_size_arrays (hsize ▸ hpos)
    exact List.mem_append_left _ (List.mem_map.mpr ⟨(a.id, b.id), by simp [ha, hb], rfl⟩)
  | hash a b =>
    simp only [partners, Option.ite_none_right_eq_some, Option.some.injEq] at hl
    obtain ⟨hlength, rfl⟩ := hl
    have hpos : 0 < (st.hash a).length := by
      simpa using List.length_pos_of_mem hc
    have ha := lt_size_hashes hpos
    have hb := lt_size_hashes (hlength ▸ hpos)
    exact List.mem_append_right _ (List.mem_map.mpr ⟨(a.id, b.id), by simp [ha, hb], rfl⟩)

/-- The pairs under comparison are pairs of the store, each under comparison once. -/
structure Comparing (st : Store) (path : List ContainerPair) : Prop where
  nodup : path.Nodup
  stored : path ⊆ st.pairs

theorem Comparing.length_le (h : st.Comparing path) : path.length ≤ st.pairs.length :=
  (List.subperm_of_subset h.nodup h.stored).length_le

theorem Comparing.cons (h : st.Comparing path) {l : List Partners} (hfresh : p ∉ path)
    (hl : st.partners p = some l) (hc : c ∈ l) : st.Comparing (p :: path) :=
  ⟨List.nodup_cons.mpr ⟨hfresh, h.nodup⟩,
    List.cons_subset.mpr ⟨mem_pairs_of_mem_partners hl hc, h.stored⟩⟩

/-- The result for a value and what it is compared with. -/
def equalPartners (st : Store) (depth : Nat) (path : List ContainerPair) (c : Partners) : Bool :=
  c.2.any (st.equalFrom depth path c.1)

theorem equalScalar_eq {a b : Value} (h : a.pair? b = none) :
    equalScalar a b = decide (a = b) := by
  rw [Bool.eq_iff_iff, decide_eq_true_iff]
  constructor
  · intro heq
    fun_cases equalScalar a b with
    | case1 | case2 => rfl
    | case10 => simp_all [equalScalar]
    | _ => exact congrArg _ (beq_iff_eq.mp heq)
  · rintro rfl
    cases a with
    | arr | hash => cases h
    | _ => simp [equalScalar]

theorem equalFrom_scalar {a b : Value} (depth : Nat) (h : a.pair? b = none) :
    st.equalFrom depth path a b = decide (a = b) := by
  rw [← equalScalar_eq h]
  fun_cases equalFrom st depth path a b with
  | case1 => rfl
  | case2 | case3 | case4 | case5 | case6 | case7 => cases h
  | case8 => rfl

theorem equalFrom_pair (depth : Nat) :
    st.equalFrom (depth + 1) path p.left p.right =
      (decide (p.left = p.right ∨ p ∈ path) ||
        (st.partners p).any (·.all (st.equalPartners depth (p :: path)))) := by
  cases p with
  | arr a b =>
    simp only [equalFrom, ContainerPair.left, ContainerPair.right, partners]
    by_cases hsize : (st.arr a).size = (st.arr b).size
    · simp [hsize, List.zip_map_right, equalPartners, Function.comp_def, Bool.or_assoc]
    · simp [hsize, beq_eq_false_iff_ne.mpr hsize]
  | hash a b =>
    simp only [equalFrom, ContainerPair.left, ContainerPair.right, partners]
    by_cases hlength : (st.hash a).length = (st.hash b).length
    · simp only [List.contains_eq_mem, decide_eq_true_eq, hlength, BEq.rfl, Bool.true_and,
        Bool.if_true_left, Value.hash.injEq, Bool.decide_or, ↓reduceIte, Option.any_some,
        List.all_map, Function.comp_def, Bool.or_assoc]
      congr 3
      funext e
      rw [equalPartners]
      cases (st.hash b).get? e.1 <;> rfl
    · simp [hlength, beq_eq_false_iff_ne.mpr hlength]

theorem Compares.contents {a b : Value} {l : List Partners} {equal : Partners → Bool}
    (hpair : a.pair? b = some p) (hnew : ¬ (a = b ∨ p ∈ path)) (hl : st.partners p = some l)
    (h : ∀ c ∈ l, st.Compares order (p :: path) c (equal c)) :
    st.Compares order path (a, some b) (l.all equal) := by
  have hperm := order.perm (p :: path) l
  rw [← hperm.all_eq]
  cases hfind : (order.arrange (p :: path) l).find? (!equal ·) with
  | none =>
    have hall : ∀ c ∈ order.arrange (p :: path) l, equal c = true := by simpa using hfind
    rw [List.all_eq_true.mpr hall]
    exact .alike hpair hnew hl fun c hc => hall c hc ▸ h c (hperm.mem_iff.mp hc)
  | some c =>
    obtain ⟨hc, before, after, harrange, hbefore⟩ := List.find?_eq_some_iff_append.mp hfind
    simp only [Bool.not_eq_true', Bool.not_not] at hc hbefore
    have hmem : ∀ d ∈ before ++ c :: after, st.Compares order (p :: path) d (equal d) := fun d hd =>
      h d (hperm.mem_iff.mp (harrange ▸ hd))
    have hfalse : (before ++ c :: after).all equal = false := by simp [hc]
    rw [harrange, hfalse]
    refine .differ hpair hnew hl harrange (fun d hd => ?_) (hc ▸ hmem c List.mem_append_cons_self)
    exact hbefore d hd ▸ hmem d (List.mem_append_left _ hd)

/-- The bound on the depth is never what ends a comparison: a path that uses it up would hold more
pairs than there are. -/
theorem compares_equalPartners (order : Order) {depth : Nat} (hpath : st.Comparing path)
    (hdepth : st.pairs.length < depth + path.length) :
    st.Compares order path c (st.equalPartners depth path c) := by
  induction depth generalizing path c with
  | zero =>
    have hle := hpath.length_le
    omega
  | succ depth ih =>
    obtain ⟨a, _ | b⟩ := c
    · exact .absent
    rw [equalPartners, Option.any_some]
    cases hpair : a.pair? b with
    | none =>
      rw [equalFrom_scalar _ hpair]
      exact .scalar hpair
    | some p =>
      obtain ⟨rfl, rfl⟩ := ContainerPair.eq_of_pair? hpair
      rw [equalFrom_pair]
      by_cases hknown : p.left = p.right ∨ p ∈ path
      · rw [decide_eq_true hknown]
        exact .known hpair hknown
      rw [decide_eq_false hknown, Bool.false_or]
      cases hl : st.partners p with
      | none => exact .sizes hpair hknown hl
      | some l =>
        refine .contents hpair hknown hl fun c hc => ?_
        refine ih (hpath.cons (fun hm => hknown (.inr hm)) hl hc) ?_
        rw [List.length_cons]
        omega

theorem compares_iff (order : Order) {a b : Value} {r : Bool} :
    st.Compares order [] (a, some b) r ↔ st.equal a b = r := by
  have hstart : st.Comparing [] := ⟨List.nodup_nil, List.nil_subset _⟩
  have hequal : st.Compares order [] (a, some b) (st.equal a b) :=
    compares_equalPartners order hstart (by rw [length_pairs]; exact Nat.lt_succ_self _)
  constructor
  · exact hequal.unique
  · rintro rfl
    exact hequal

/-- Two containers are of the same size, and what is compared in them is related. -/
def Related (st : Store) (R : Value → Value → Prop) (p : ContainerPair) : Prop :=
  ∃ l, st.partners p = some l ∧ ∀ c ∈ l, ∃ y, c.2 = some y ∧ R c.1 y

variable {R : Value → Value → Prop}

theorem related_arr_iff {a b : ArrRef} : st.Related R (.arr a b) ↔
    (st.arr a).size = (st.arr b).size ∧
      ∀ (n : Nat) x y, (st.arr a)[n]? = some x → (st.arr b)[n]? = some y → R x y := by
  have hmem : ∀ {x o}, (x, o) ∈ (st.arr a).toList.zip ((st.arr b).toList.map some) ↔
      ∃ (n : Nat) (y : Value), (st.arr a)[n]? = some x ∧ (st.arr b)[n]? = some y ∧ some y = o := by
    intro x o
    simp [List.mem_iff_getElem?, List.getElem?_zip_eq_some]
  constructor
  · rintro ⟨l, hl, hrelated⟩
    simp only [partners, Option.ite_none_right_eq_some, Option.some.injEq] at hl
    obtain ⟨hsize, rfl⟩ := hl
    refine ⟨hsize, fun n x y hx hy => ?_⟩
    obtain ⟨_, ⟨⟩, hxy⟩ := hrelated (x, some y) (hmem.mpr ⟨n, y, hx, hy, rfl⟩)
    exact hxy
  · rintro ⟨hsize, hitems⟩
    refine ⟨_, if_pos hsize, fun ⟨x, o⟩ hc => ?_⟩
    obtain ⟨n, y, hx, hy, rfl⟩ := hmem.mp hc
    exact ⟨y, rfl, hitems n x y hx hy⟩

theorem related_hash_iff (h : st.Keyed) {a b : HashRef} : st.Related R (.hash a b) ↔
    (∀ k, ((st.hash a).get? k).isSome = ((st.hash b).get? k).isSome) ∧
      ∀ k x y, (st.hash a).get? k = some x → (st.hash b).get? k = some y → R x y := by
  have ha := h.nodup a
  have hb := h.nodup b
  constructor
  · rintro ⟨l, hl, hrelated⟩
    simp only [partners, Option.ite_none_right_eq_some, Option.some.injEq] at hl
    obtain ⟨hlength, rfl⟩ := hl
    have hvalue : ∀ {k x}, (st.hash a).get? k = some x →
        ∃ y, (st.hash b).get? k = some y ∧ R x y := fun hx =>
      hrelated _ (List.mem_map_of_mem (Entries.mem_of_get? hx))
    have hkeys : ((st.hash a).map Prod.fst).Perm ((st.hash b).map Prod.fst) := by
      refine (List.subperm_of_subset ha fun k hk => ?_).perm_of_length_le (by simp [hlength])
      obtain ⟨x, hx⟩ := Option.isSome_iff_exists.mp (Entries.isSome_get?_iff.mpr hk)
      obtain ⟨y, hy, -⟩ := hvalue hx
      exact Entries.isSome_get?_iff.mp (hy ▸ rfl)
    refine ⟨fun k => ?_, fun k x y hx hy => ?_⟩
    · rw [Bool.eq_iff_iff, Entries.isSome_get?_iff, Entries.isSome_get?_iff, hkeys.mem_iff]
    · obtain ⟨y', hy', hxy⟩ := hvalue hx
      cases hy.symm.trans hy'
      exact hxy
  · rintro ⟨hkeys, hvalues⟩
    have hperm : ((st.hash a).map Prod.fst).Perm ((st.hash b).map Prod.fst) := by
      refine (List.perm_ext_iff_of_nodup ha hb).mpr fun k => ?_
      rw [← Entries.isSome_get?_iff, hkeys k, Entries.isSome_get?_iff]
    refine ⟨_, if_pos (by simpa using hperm.length_eq), fun c hc => ?_⟩
    obtain ⟨⟨k, x⟩, he, rfl⟩ := List.mem_map.mp hc
    have hx : (st.hash a).get? k = some x := (Entries.get?_eq_some_iff ha).mpr he
    have hsome : ((st.hash b).get? k).isSome = true := by rw [← hkeys k, hx]; rfl
    obtain ⟨y, hy⟩ := Option.isSome_iff_exists.mp hsome
    exact ⟨y, hy, hvalues k x y hx hy⟩

theorem matches_iff_related (h : st.Keyed) : st.Matches R p.left p.right ↔ st.Related R p := by
  cases p with
  | arr a b =>
    rw [related_arr_iff]
    refine ⟨fun hm => ?_, fun ⟨hsize, hitems⟩ => .arr hsize hitems⟩
    cases hm with
    | scalar hv => cases hv
    | arr hsize hitems => exact ⟨hsize, hitems⟩
  | hash a b =>
    rw [related_hash_iff h]
    refine ⟨fun hm => ?_, fun ⟨hkeys, hvalues⟩ => .hash hkeys hvalues⟩
    cases hm with
    | scalar hv => cases hv
    | hash hkeys hvalues => exact ⟨hkeys, hvalues⟩

/-- No comparison of related values finds a difference. -/
theorem Compares.eq_true (h : st.Keyed) (hR : st.Bisimulation R) {r : Bool}
    (hc : st.Compares order path c r) (hrelated : ∃ b, c.2 = some b ∧ R c.1 b) : r = true := by
  induction hc with
  | absent => simp at hrelated
  | @scalar path a b hpair =>
    obtain ⟨_, ⟨⟩, hab⟩ := hrelated
    cases hR a b hab with
    | scalar => exact decide_eq_true rfl
    | arr | hash => cases hpair
  | known | alike => rfl
  | sizes hpair _ hnone =>
    obtain ⟨_, ⟨⟩, hab⟩ := hrelated
    obtain ⟨rfl, rfl⟩ := ContainerPair.eq_of_pair? hpair
    obtain ⟨l, hl, -⟩ := (matches_iff_related h).mp (hR _ _ hab)
    cases hnone.symm.trans hl
  | @differ path a b p l before after c hpair _ hl harrange _ _ _ ih =>
    obtain ⟨_, ⟨⟩, hab⟩ := hrelated
    obtain ⟨rfl, rfl⟩ := ContainerPair.eq_of_pair? hpair
    obtain ⟨l', hl', hcontents⟩ := (matches_iff_related h).mp (hR _ _ hab)
    cases hl.symm.trans hl'
    have hmem : c ∈ order.arrange (p :: path) l := harrange ▸ List.mem_append_cons_self
    exact ih (hcontents c ((order.perm _ _).mem_iff.mp hmem))

/-- Values are bisimilar if the pairs under comparison are. -/
def BisimilarUpTo (st : Store) (path : List ContainerPair) (a b : Value) : Prop :=
  ∃ R : Value → Value → Prop, R a b ∧
    ∀ x y, R x y → st.Matches R x y ∨ ∃ p ∈ path, x = p.left ∧ y = p.right

theorem BisimilarUpTo.contents (h : st.Keyed)
    (hcontents : st.Related (st.BisimilarUpTo (p :: path)) p) :
    st.BisimilarUpTo path p.left p.right := by
  let S : Value → Value → Prop := fun x y =>
    (x = p.left ∧ y = p.right) ∨ st.BisimilarUpTo (p :: path) x y
  have htop : st.Matches S p.left p.right :=
    ((matches_iff_related h).mpr hcontents).mono fun _ _ => .inr
  refine ⟨S, .inl ⟨rfl, rfl⟩, ?_⟩
  rintro x y (⟨rfl, rfl⟩ | ⟨R, hxy, hR⟩)
  · exact .inl htop
  · rcases hR x y hxy with hm | ⟨q, hq, rfl, rfl⟩
    · exact .inl (hm.mono fun x' y' hxy' => .inr ⟨R, hxy', hR⟩)
    · rcases List.mem_cons.mp hq with rfl | hq
      · exact .inl htop
      · exact .inr ⟨q, hq, rfl, rfl⟩

/-- Whatever a comparison finds to be equal is bisimilar up to the pairs under comparison. -/
theorem Compares.bisimilarUpTo (h : st.Keyed) {r : Bool} (hc : st.Compares order path c r)
    (hr : r = true) : ∃ b, c.2 = some b ∧ st.BisimilarUpTo path c.1 b := by
  have hsame : ∀ path v, st.BisimilarUpTo path v v := fun _ v =>
    ⟨Eq, rfl, fun x y hxy => .inl (hxy ▸ st.matches_eq x)⟩
  induction hc with
  | absent | sizes | differ => cases hr
  | @scalar path a b hpair =>
    obtain rfl := of_decide_eq_true hr
    exact ⟨a, rfl, hsame path a⟩
  | @known path a b p hpair hknown =>
    refine ⟨b, rfl, ?_⟩
    rcases hknown with rfl | hp
    · exact hsame path a
    · refine ⟨fun x y => x = a ∧ y = b, ⟨rfl, rfl⟩, ?_⟩
      rintro x y ⟨rfl, rfl⟩
      exact .inr ⟨p, hp, ContainerPair.eq_of_pair? hpair⟩
  | @alike path a b p l hpair _ hl _ ih =>
    obtain ⟨rfl, rfl⟩ := ContainerPair.eq_of_pair? hpair
    refine ⟨_, rfl, .contents h ⟨l, hl, fun c hc => ?_⟩⟩
    exact ih c ((order.perm _ _).mem_iff.mpr hc) rfl

theorem equal_iff_bisimilar (h : st.Keyed) {a b : Value} :
    st.equal a b = true ↔ st.Bisimilar a b := by
  let order : Order := ⟨fun _ l => l, fun _ _ => .refl _⟩
  constructor
  · intro heq
    obtain ⟨_, ⟨⟩, R, hab, hR⟩ := ((compares_iff order).mpr heq).bisimilarUpTo h rfl
    refine ⟨R, fun x y hxy => (hR x y hxy).resolve_right ?_, hab⟩
    simp
  · rintro ⟨R, hR, hab⟩
    exact ((compares_iff order).mpr rfl).eq_true h hR ⟨b, rfl, hab⟩

end Comparisons
end Store

/-- Equality is bisimilarity. Every comparison ends, in any order and with the result of `equal`;
the result is true exactly for bisimilar values, and so equality is an equivalence. -/
theorem equality_bisimilarity {st : Store} (h : st.Keyed) :
    (∀ order a b r, st.Compares order [] (a, some b) r ↔ st.equal a b = r) ∧
    (∀ a b, st.equal a b = true ↔ st.Bisimilar a b) ∧
    (∀ a, st.equal a a = true) ∧
    (∀ a b, st.equal a b = st.equal b a) ∧
    (∀ a b c, st.equal a b = true → st.equal b c = true → st.equal a c = true) := by
  have hiff : ∀ {a b}, st.equal a b = true ↔ st.Bisimilar a b := Store.equal_iff_bisimilar h
  refine ⟨fun order _ _ _ => Store.compares_iff order, fun _ _ => hiff, fun a => ?_, fun a b => ?_,
    fun a b c hab hbc => ?_⟩
  · exact hiff.mpr (.refl st a)
  · rw [Bool.eq_iff_iff, hiff, hiff]
    exact ⟨.symm, .symm⟩
  · exact hiff.mpr ((hiff.mp hab).trans (hiff.mp hbc))

/-- An array that holds itself, and two arrays that hold each other; each also holds a hash that
leads back, with its pairs in one order or the other. The last array holds no hash. -/
def Store.rings : Store :=
  [.newArr #[], .newArr #[], .newArr #[], .newArr #[.arr ⟨3⟩, .null],
    .newHash [(.int 1, .null), (.int 2, .arr ⟨0⟩)], .newHash [(.int 2, .arr ⟨1⟩), (.int 1, .null)],
    .pushItem ⟨0⟩ (.arr ⟨0⟩), .pushItem ⟨0⟩ (.hash ⟨0⟩),
    .pushItem ⟨1⟩ (.arr ⟨2⟩), .pushItem ⟨1⟩ (.hash ⟨1⟩),
    .pushItem ⟨2⟩ (.arr ⟨1⟩), .pushItem ⟨2⟩ (.hash ⟨0⟩)].foldl
    (fun st (e : Edit) => (st.apply e).2) Store.empty

theorem equality_bisimilarity_rings :
    Store.rings.Keyed ∧ Store.rings.Bisimilar (.arr ⟨0⟩) (.arr ⟨1⟩) ∧
      ¬ Store.rings.Bisimilar (.arr ⟨0⟩) (.arr ⟨3⟩) := by
  have h : Store.rings.Keyed := Store.keyed_edits _
  have hiff := (equality_bisimilarity h).2.1
  refine ⟨h, (hiff _ _).mp (by decide +kernel), fun hb => ?_⟩
  exact absurd ((hiff _ _).mpr hb) (by decide +kernel)

end StackVM
